import Mathlib.Algebra.Group.Int.Defs
import Mathlib.Algebra.Group.Nat.Defs
import MonkeyLang.Proofs.Evaluation.Discipline
import MonkeyLang.Proofs.Evaluation.Plan
import MonkeyLang.Proofs.Lexing
import MonkeyLang.Proofs.Reading.Tree
import MonkeyLang.Proofs.Word
import MonkeyLang.Session

/-!
Integers stay signed 64-bit numbers. Arithmetic wraps around and the parser refuses greater
literals, so that only the length of something that no memory holds could leave the range. Hash
keys are compared by their low 64 bits, and so are integers that ever occur in a session.
-/

namespace MonkeyLang

/-! ## The integers in a value -/

namespace Value

/-- An integer is there to be seen in a value itself: the value is this integer, or a hash with it
as a key, or a function in whose body it is written. -/
inductive Shows : Value → Int → Prop
  | integer {n : Int} : Shows (.integer n) n
  | key {id : Nat} {es : List (Key × Value)} {n : Int} {v : Value} :
      (.integer n, v) ∈ es → Shows (.hash id es) n
  | literal {id : Nat} {ps : List Identifier} {body : Node} {i : FrameId} {t : Token} {n : Int} :
      .integer t n ∈ body.walk → Shows (.function id ps body i) n

def Mentions (v : Value) (n : Int) : Prop := ∃ u : Value, u.Part v ∧ u.Shows n

end Value

/-- A value of a state that the run reaches: it is bound when an evaluation begins or ends, it is
called or passed to a call, or it is an answer. -/
inductive Run.Carries (run : Run) : Value → Prop
  | bound {q : Run} {i : FrameId} {b : String × Value} : q.Within run →
      b ∈ (q.start.frame i).bindings ∨ b ∈ (q.stop.frame i).bindings → run.Carries b.2
  | called {q : Run} {f : Value} {args : List Value} {v : Value} : q.Within run →
      q.task = .call f args → v ∈ f :: args → run.Carries v
  | answer {q : Run} {v : Value} : q.Within run → q.Yields v → run.Carries v

/-- Strings and arrays that are passed to `len` have fewer than two to the 63rd elements. -/
def Run.MeasuresShort (run : Run) : Prop :=
  ∀ (q : Run) (args : List Value), q.Within run → q.task = .call (.builtin .len) args →
    (∀ s : String, .string s ∈ args → s.length < 2 ^ 63) ∧
      ∀ (id : Nat) (xs : List Value), .array id xs ∈ args → xs.length < 2 ^ 63

namespace Session

/-- The record of running a source, whatever was reported about it. -/
def record (limit : Nat) (s : Session) (source : String) : Run :=
  (Task.node s.env (Program.ofSource source).node).record limit s.store

def records (limit : Nat) : Session → List String → List Run
  | _, [] => []
  | s, source :: sources =>
    let run := s.record limit source
    run :: records limit { s with store := run.stop } sources

theorem outcome_record (limit : Nat) (s : Session) (source : String) :
    (s.record limit source).outcome = eval limit s.env (Program.ofSource source).node s.store :=
  Task.record_outcome _ _ _

/-- The session that is left when sources, whatever was reported about them, were evaluated one
after another. -/
def after (limit : Nat) (s : Session) (sources : List String) : Session :=
  sources.foldl (fun s source => (s.evaluateWithin limit (Program.ofSource source).node).2) s

/-- What a record stops with is what the evaluation leaves. -/
theorem evaluate_session (limit : Nat) (s : Session) (source : String) :
    (s.evaluateWithin limit (Program.ofSource source).node).2 =
      { s with store := (s.record limit source).stop } := by
  rw [evaluateWithin, perform, Run.stop, outcome_record, EStateM.run]
  cases eval limit s.env (Program.ofSource source).node s.store <;> rfl

/-- Each source is recorded in the session that the evaluations of those before it have left. -/
theorem getElem?_records (limit : Nat) (s : Session) (sources : List String) (k : Nat) :
    (s.records limit sources)[k]? =
      sources[k]?.map fun source => (s.after limit (sources.take k)).record limit source := by
  induction sources generalizing s k with
  | nil => rfl
  | cons source sources ih =>
    cases k with
    | zero => rfl
    | succ k =>
      rw [records, List.getElem?_cons_succ, List.getElem?_cons_succ, List.take_succ_cons, after,
        List.foldl_cons, evaluate_session]
      exact ih _ k

end Session

/-! ## The discipline of the integers -/

namespace Discipline

def words : Discipline where
  part v := ∀ n, v.Shows n → Word.InRange n
  node m := ∀ t n, m = .integer t n → Word.InRange n

theorem words_function {id : Nat} {ps : List Identifier} {b : Node} {i : FrameId} :
    words.part (.function id ps b i) ↔ b.Each words.node := by
  constructor
  · rintro h m hm t n rfl
    exact h n (.literal hm)
  · intro h n hn
    cases hn with
    | literal hmem => exact h _ hmem _ _ rfl

theorem lawful_words : words.Lawful where
  null := nofun
  boolean _ := nofun
  string _ := nofun
  arithmetic n k hk := by
    cases hk
    exact Word.inRange_wrap n
  array _ _ := nofun
  hash id es hes n hn := by
    cases hn with
    | key hmem => exact hes _ hmem n .integer
  literal t n hn k hk := by
    cases hk
    exact hn t n rfl
  closure _ _ _ _ _ h := words_function.mpr h.body
  body _ _ _ _ h := words_function.mp h
  marker := .inl fun _ _ => nofun

theorem inRange_of_all {v : Value} (h : v.All words.part) {n : Int} (hn : v.Mentions n) :
    Word.InRange n := by
  obtain ⟨u, hu, hn⟩ := hn
  exact h u hu n hn

/-- An error has no integer in it, and a marker only those of its value. -/
theorem all_of_result {r : Bool} {v : Value} (h : words.Result r v) : v.All words.part := by
  cases h with
  | failed herr =>
    cases v with
    | error id f => exact Value.all_atom nofun nofun nofun
    | _ => cases herr
  | plain h => exact h
  | marked _ hw => exact Value.all_returned nofun hw

/-- An integer that `len` gives is the length of a string or of an array. -/
theorem eq_length_of_call {args : List Value} {n : Int} {s s' : Store}
    (h : Primitive.len.call args s = .ok (.integer n) s') :
    (∃ x : String, args = [.string x] ∧ n = x.length) ∨
      ∃ id xs, args = [.array id xs] ∧ n = xs.length := by
  have hgives := Primitive.len.gives_call args s
  rw [h] at hgives
  cases hgives with
  | stringLength hargs => exact .inl ⟨_, hargs, rfl⟩
  | arrayLength hargs => exact .inr ⟨_, _, hargs, rfl⟩
  | found hne _ => exact absurd rfl hne

theorem measures_of_short {limit : Nat} {t : Task} {s : Store}
    (h : (t.record limit s).MeasuresShort) {q : Run} (hq : q.Within (t.record limit s)) :
    words.Measures q := by
  rintro args n htask ⟨s', hout⟩
  obtain ⟨hstring, harray⟩ := h q args hq htask
  obtain ⟨limit', hrec⟩ := Task.exists_record hq
  rw [hrec, Task.record_outcome, htask] at hout
  cases limit' with
  | zero => cases hout
  | succ limit' =>
    intro k hk
    cases hk
    have hlen : ∀ m : Nat, m < 2 ^ 63 → Word.InRange (m : Int) := by
      intro m hm
      simp only [Word.InRange, Word.least, Word.greatest]
      omega
    rcases eq_length_of_call hout with ⟨x, rfl, rfl⟩ | ⟨id, xs, rfl, rfl⟩
    · exact hlen _ (hstring _ (List.mem_singleton_self _))
    · exact hlen _ (harray _ _ (List.mem_singleton_self _))

/-! ### Sources -/

theorem node_ofSource (source : String) : (Program.ofSource source).node.Each words.node := by
  -- the literals of integers are digits
  let T (t : Token) : Prop := t.kind = .int → ∀ d ∈ t.literal.toList, Lexer.isDigit d = true
  have heof : ∀ pos, T (.eof pos) := nofun
  refine Phrase.each_of_tokens (C := (·.All T)) ⟨fun c => .advance heof, ?_, ?_⟩ ?_
  · rintro c value hc hk hread hle t n heq
    cases heq
    refine ⟨Int.le_trans (by decide) (Numeral.read?_nonneg (fun d hd => ?_) hread), hle⟩
    simpa [Lexer.isDigit] using hc c.cur List.mem_cons_self hk d hd
  · intro n hn _ t k heq
    exact absurd heq (hn t k)
  · exact Cursor.all_ofTokens heof fun t ht hk => Lexer.digits_of_mem_scan ht hk

/-- All runs of a session keep the discipline. -/
theorem fits_records {limit : Nat} {s : Session} {sources : List String} (hs : words.Fair s.store)
    (hlen : ∀ run ∈ s.records limit sources, run.MeasuresShort) :
    ∀ run ∈ s.records limit sources, ∀ q : Run, q.Within run → words.Fits q := by
  induction sources generalizing s with
  | nil => nofun
  | cons source sources ih =>
    have hshort : (s.record limit source).MeasuresShort := hlen _ List.mem_cons_self
    have hfits : ∀ q : Run, q.Within (s.record limit source) → words.Fits q :=
      fits_record lawful_words hs (node_ofSource source) fun q hq => measures_of_short hshort hq
    intro run hrun
    rcases List.mem_cons.mp hrun with rfl | hrun
    · exact hfits
    · exact ih (hfits _ .self).stop (fun r hr => hlen r (List.mem_cons_of_mem _ hr)) run hrun

theorem all_of_carries {run : Run} (h : ∀ q : Run, q.Within run → words.Fits q) {v : Value}
    (hv : run.Carries v) : v.All words.part := by
  cases hv with
  | bound hq hb =>
    rcases hb with hb | hb
    · exact (h _ hq).start.bindings _ _ hb
    · exact (h _ hq).stop.bindings _ _ hb
  | called hq htask hmem =>
    have hasks := (h _ hq).task
    rw [htask] at hasks
    rcases List.mem_cons.mp hmem with rfl | hmem
    · exact hasks.1
    · exact hasks.2 _ hmem
  | answer hq hyields => exact all_of_result ((h _ hq).value _ hyields)

end Discipline

/-! ## Checking a record -/

namespace Run

mutual

def every (p : Run → Bool) : Run → Bool
  | ⟨t, s, parts, o⟩ => p ⟨t, s, parts, o⟩ && everyEach p parts

def everyEach (p : Run → Bool) : List Run → Bool
  | [] => true
  | r :: rs => r.every p && everyEach p rs

end

theorem everyEach_eq_true {p : Run → Bool} {rs : List Run} (h : everyEach p rs = true) :
    ∀ r ∈ rs, r.every p = true := by
  induction rs with
  | nil => nofun
  | cons r rs ih =>
    rw [everyEach, Bool.and_eq_true] at h
    exact List.forall_mem_cons.mpr ⟨h.1, ih h.2⟩

theorem of_every {p : Run → Bool} {r q : Run} (h : r.every p = true) (hq : q.Within r) :
    p q = true := by
  have hmk : ∀ r : Run, r.every p = (p r && everyEach p r.parts) := fun r => by cases r; rw [every]
  induction hq with
  | self =>
    rw [hmk, Bool.and_eq_true] at h
    exact h.1
  | part hmem _ ih =>
    rw [hmk, Bool.and_eq_true] at h
    exact ih (everyEach_eq_true h.2 _ hmem)

end Run

def Value.isShort : Value → Bool
  | .string s => decide (s.length < 2 ^ 63)
  | .array _ xs => decide (xs.length < 2 ^ 63)
  | _ => true

def Run.isShortCall (q : Run) : Bool :=
  match q.task with
  | .call (.builtin .len) args => args.all Value.isShort
  | _ => true

theorem Run.measuresShort_of_every {run : Run} (h : run.every isShortCall = true) :
    run.MeasuresShort := by
  intro q args hq htask
  have hcall := of_every h hq
  rw [isShortCall, htask] at hcall
  have hall := List.all_eq_true.mp hcall
  exact ⟨fun s hs => of_decide_eq_true (hall _ hs), fun id xs hxs => of_decide_eq_true (hall _ hxs)⟩

/-! ## Sessions -/

/-- An integer occurs in a value of a state that a session reaches with these sources. -/
def Session.Mentions (limit : Nat) (s : Session) (sources : List String) (n : Int) : Prop :=
  ∃ run ∈ s.records limit sources, ∃ v : Value, run.Carries v ∧ v.Mentions n

/-- In a fresh session all integers stay signed 64-bit numbers, whatever sources run one after
another, clean or not, if nothing is passed to `len` that is too long. So two of them share the
slot of a hash only if they are the same. The states are those of the evaluations: each source is
recorded in the session that those before it have left, with the outcome of its evaluation. -/
theorem integers_inRange (limit : Nat) (sources : List String)
    (hlen : ∀ run ∈ Session.start.records limit sources, run.MeasuresShort) :
    (∀ k : Nat, (Session.start.records limit sources)[k]? = sources[k]?.map fun source =>
        (Session.start.after limit (sources.take k)).record limit source) ∧
      (∀ (s : Session) (source : String), (s.record limit source).outcome =
        eval limit s.env (Program.ofSource source).node s.store) ∧
      (∀ n, Session.start.Mentions limit sources n → -2 ^ 63 ≤ n ∧ n ≤ 2 ^ 63 - 1) ∧
      ∀ m n, Session.start.Mentions limit sources m → Session.start.Mentions limit sources n →
        ((Value.Key.integer m).slot = (Value.Key.integer n).slot ↔ m = n) := by
  have hfits := Discipline.fits_records
    (Discipline.fair_fresh fun p => (nofun : Discipline.words.part (.builtin p))) hlen
  have hrange : ∀ n, Session.start.Mentions limit sources n → Word.InRange n := by
    rintro n ⟨run, hrun, v, hv, hn⟩
    exact Discipline.inRange_of_all (Discipline.all_of_carries (hfits run hrun) hv) hn
  refine ⟨Session.start.getElem?_records limit sources, Session.outcome_record limit, hrange,
    fun m n hm hn => ?_⟩
  rw [← Word.bits_inj (hrange m hm) (hrange n hn)]
  exact ⟨fun h => congrArg Value.HashKey.bits h, fun h => by rw [Value.Key.slot, Value.Key.slot, h]⟩

/-- The first source is not closed, and the second goes below the least integer. -/
def overflow : List String := ["let xs = [len([1, 2])", "-9223372036854775807 - 2"]

theorem integers_inRange_overflow :
    (∀ run ∈ Session.start.records 8 overflow, run.MeasuresShort) ∧
      Session.start.Mentions 8 overflow (2 ^ 63 - 1) ∧
      (∀ k : Nat, (Session.start.records 8 overflow)[k]? = overflow[k]?.map fun source =>
        (Session.start.after 8 (overflow.take k)).record 8 source) ∧
      (∀ (s : Session) (source : String), (s.record 8 source).outcome =
        eval 8 s.env (Program.ofSource source).node s.store) ∧
      (∀ n, Session.start.Mentions 8 overflow n → -2 ^ 63 ≤ n ∧ n ≤ 2 ^ 63 - 1) ∧
      ∀ m n, Session.start.Mentions 8 overflow m → Session.start.Mentions 8 overflow n →
        ((Value.Key.integer m).slot = (Value.Key.integer n).slot ↔ m = n) := by
  have hshort : ∀ run ∈ Session.start.records 8 overflow, run.MeasuresShort := by
    have hcheck : ∀ run ∈ Session.start.records 8 overflow, run.every Run.isShortCall = true := by
      decide +kernel
    exact fun run hrun => Run.measuresShort_of_every (hcheck run hrun)
  refine ⟨hshort, ?_, integers_inRange 8 overflow hshort⟩
  let s : Session :=
    { Session.start with store := (Session.start.record 8 "let xs = [len([1, 2])").stop }
  have hyields : (s.record 8 "-9223372036854775807 - 2").Yields (.integer (2 ^ 63 - 1)) :=
    ⟨(s.record 8 "-9223372036854775807 - 2").stop, by with_unfolding_all rfl⟩
  exact ⟨_, List.mem_cons_of_mem _ List.mem_cons_self, _, .answer .self hyields, _, .self, .integer⟩

end MonkeyLang
