import MonkeyLang.Proofs.Evaluation.Trail
import MonkeyLang.Proofs.Evaluation.Discipline
import MonkeyLang.Proofs.Reading.Operators
import MonkeyLang.Proofs.View
import MonkeyLang.Session

/-!
What can go wrong in a program. The messages of errors are of a few forms, and each says what is the
case: an error comes from an operator of the language, from a name that means nothing where it is
looked up, or from a call, and all of them tell their operands apart by their types. Errors
themselves are never among the operands.
-/

namespace MonkeyLang

open Value (Tag)

/-- The operators that only integers have, apart from the `+` of strings. -/
def integerOperators : List String := ["+", "-", "*", "/", "<", ">"]

/-- The text is the message of an error that a run of a program can come to. -/
inductive Listed (run : Run) (program : Node) : String → Prop
  | divisionByZero : Listed run program "division by zero"
  | typeMismatch {a b : Tag} {op : String} : a ≠ .error → b ≠ .error → a ≠ b →
      op ∈ integerOperators →
      Listed run program ("type mismatch: " ++ a.name ++ " " ++ op ++ " " ++ b.name)
  | unknownOperator {a : Tag} {op : String} : a ≠ .error →
      (a = .string ∧ op ∈ Lexer.operators.map Prod.fst ∧ op ≠ "+") ∨
        (a ≠ .integer ∧ a ≠ .string ∧ op ∈ integerOperators) →
      Listed run program ("unknown operator: " ++ a.name ++ " " ++ op ++ " " ++ a.name)
  | negation {a : Tag} : a ≠ .error → a ≠ .integer →
      Listed run program ("unknown operator: -" ++ a.name)
  | unbound {q : Run} {env : FrameId} {id : Identifier} : .identifier id ∈ program.walk →
      q.Within run → q.task = .node env (.identifier id) → q.outcome = run.outcome →
      q.start.value? env id.name = none → q.start.function? id.name = none →
      Listed run program ("identifier not found: " ++ id.name)
  | notAFunction {a : Tag} : a ≠ .error → a ≠ .function → a ≠ .builtin →
      Listed run program ("not a function: " ++ a.name)
  | notIndexable {a : Tag} : a ≠ .error → a ≠ .hash →
      Listed run program ("index operator not supported: " ++ a.name)
  | notAKey {a : Tag} : a ≠ .error → a ≠ .integer → a ≠ .boolean → a ≠ .string →
      Listed run program ("unusable as hash key: " ++ a.name)
  | arity {p : Primitive} {got : Nat} : p ≠ .puts → got ≠ p.arity →
      Listed run program
        ("wrong number of arguments. got=" ++ toString got ++ ", want=" ++ toString p.arity)
  | noLength {a : Tag} : a ≠ .error → a ≠ .string → a ≠ .array →
      Listed run program ("argument to `len` not supported, got " ++ a.name)
  | notAnArray {p : Primitive} {a : Tag} : p ≠ .puts → p ≠ .len → a ≠ .error → a ≠ .array →
      Listed run program ("argument to `" ++ p.name ++ "` must be ARRAY, got " ++ a.name)

/-! ## Operators -/

namespace Value

theorem tag_ne_error {v : Value} (h : v.isError = false) : v.tag ≠ .error := by
  intro htag
  cases v <;> cases htag
  cases h

theorem key?_eq_none_iff {v : Value} :
    v.key? = none ↔ v.tag ≠ .integer ∧ v.tag ≠ .boolean ∧ v.tag ≠ .string := by
  cases v <;> simp [tag, key?]

/-- Of the two signs only `-` fails, and not before an integer. -/
theorem failure_of_unary {op : String} {v : Value} {f : Failure} (hop : op = "!" ∨ op = "-")
    (h : v.unary op = .error f) : f = .unknownUnary "-" v.tag ∧ v.tag ≠ .integer := by
  rcases hop with rfl | rfl
  · cases h
  · cases v with
    | integer _ => cases h
    | _ =>
      cases h
      exact ⟨rfl, nofun⟩

/-- Between integers all operators of the language are known. -/
theorem failure_of_binaryInteger {op : String} {m n : Int} {f : Failure}
    (hop : op ∈ Lexer.operators.map Prod.fst) (h : binaryInteger op m n = .error f) :
    f = .divisionByZero := by
  simp only [Lexer.operators, List.map_cons, List.map_nil, List.mem_cons, List.not_mem_nil,
    or_false] at hop
  rcases hop with rfl | rfl | rfl | rfl | rfl | rfl | rfl | rfl
  case inr.inr.inr.inl =>
    simp only [binaryInteger] at h
    split at h <;> cases h
    rfl
  all_goals cases h

/-- How an operator between two operands fails, by their types. -/
inductive Clash (op : String) (a b : Tag) : Failure → Prop
  | division : Clash op a b .divisionByZero
  | different : a ≠ b → op ∈ integerOperators → Clash op a b (.typeMismatch a op b)
  | same : a = b → (a = .string ∧ op ≠ "+") ∨ (a ≠ .integer ∧ a ≠ .string ∧ op ∈ integerOperators) →
      Clash op a b (.unknownBinary a op b)

theorem clash_of_binary {op : String} {l r : Value} {f : Failure}
    (hop : op ∈ Lexer.operators.map Prod.fst) (h : l.binary op r = .error f) :
    Clash op l.tag r.tag f := by
  by_cases hint : l.tag = .integer ∧ r.tag = .integer
  · obtain ⟨hl, hr⟩ := hint
    cases l <;> cases hl
    cases r <;> cases hr
    rw [failure_of_binaryInteger hop h]
    exact .division
  by_cases hstring : l.tag = .string ∧ r.tag = .string
  · obtain ⟨hl, hr⟩ := hstring
    cases l <;> cases hl
    cases r <;> cases hr
    simp only [binary] at h
    split at h
    · cases h
    · rename_i hplus
      cases h
      exact .same rfl (.inl ⟨rfl, hplus⟩)
  rw [binary_of_tag hint hstring] at h
  split at h
  · cases h
  split at h
  · cases h
  -- what is left of the operators are those of the integers
  rename_i heq hne
  have hknown : op ∈ integerOperators := by
    have hsplit : ∀ o ∈ Lexer.operators.map Prod.fst,
        o = "==" ∨ o = "!=" ∨ o ∈ integerOperators := by decide
    exact ((hsplit op hop).resolve_left heq).resolve_left hne
  split at h
  · rename_i htag
    cases h
    refine .same htag (.inr ⟨fun hl => hint ⟨hl, ?_⟩, fun hl => hstring ⟨hl, ?_⟩, hknown⟩) <;>
      rwa [← htag]
  · rename_i htag
    cases h
    exact .different htag hknown

/-- An array fails at what is no integer, a hash at what cannot be a key, and all else always. -/
theorem failure_of_index {l i : Value} {f : Failure} (h : l.index i = .error f) :
    (f = .notIndexable l.tag ∧ l.tag ≠ .hash) ∨ (f = .notAKey i.tag ∧ i.key? = none) := by
  unfold index at h
  split at h
  · cases h
  · split at h
    · cases h
    · rename_i hkey
      cases h
      exact .inr ⟨rfl, hkey⟩
  · rename_i hhash _
    cases h
    refine .inl ⟨rfl, fun htag => ?_⟩
    cases l <;> cases htag
    exact hhash _ _ rfl

end Value

/-! ## Where an error comes from -/

namespace Discipline

/-- No errors in values, and nothing in trees and functions but nodes of the program. -/
def sourced (program : Node) : Discipline where
  part v := v.isError = false ∧
    ∀ id ps b i, v = .function id ps b i → b.Each (· ∈ program.walk)
  node n := n ∈ program.walk

variable {program : Node}

theorem lawful_sourced : (sourced program).Lawful where
  null := ⟨rfl, nofun⟩
  boolean _ := ⟨rfl, nofun⟩
  string _ := ⟨rfl, nofun⟩
  arithmetic _ := ⟨rfl, nofun⟩
  array _ _ := ⟨rfl, nofun⟩
  hash _ _ _ := ⟨rfl, nofun⟩
  literal _ _ _ := ⟨rfl, nofun⟩
  closure t id ps b i h := by
    refine ⟨rfl, fun id' ps' b' i' heq => ?_⟩
    cases heq
    exact h.body
  body id ps b i h := h.2 id ps b i rfl
  marker := .inl fun _ _ => ⟨rfl, nofun⟩

theorem all_of_yields {r : Bool} {v : Value} (h : (sourced program).Result r v)
    (herr : v.isError = false) : v.All (sourced program).part := by
  cases h with
  | failed h =>
    rw [h] at herr
    cases herr
  | plain h => exact h
  | marked _ hv => exact Value.all_returned ⟨rfl, nofun⟩ hv

end Discipline

open Discipline

section

variable {program : Node} {t : Task} {vs : List Value} {v : Value} {s s' : Store} {id : Nat}
  {f : Failure}

/-- An error is never found among the values that were got or in the store: it is a failure. -/
theorem Deed.fails (h : Deed t vs s (.ok v s')) (hv : v = .error id f)
    (hs : (sourced program).Fair s) (ht : (sourced program).Asks t)
    (hvs : ∀ w ∈ vs, w.All (sourced program).part) : t.Fails vs s f := by
  have hnever : ¬v.All (sourced program).part := fun h => by
    rw [hv] at h
    exact nomatch h.self.1
  cases h with
  | plain hplain => cases hplain <;> cases hv
  | passed _ hmem => exact absurd (hvs _ hmem) hnever
  | unwrapped _ hmem => exact absurd (hvs _ hmem).unwrap hnever
  | found hfinds => exact absurd (Value.all_of_finds ht.given hvs hfinds) hnever
  | built hbuilds => cases hbuilds <;> cases hv
  | failed hfails =>
    cases hv
    exact hfails
  | lookUp _ hmeaning => exact absurd (hs.meaning hmeaning) hnever
  | print | bind _ _ | function _ => cases hv

/-- An evaluation that begins in the store fails itself, and not only something that it asks for.
No error is among the values at hand, and a name is looked up at once. -/
def Task.Raises (t : Task) (s : Store) (f : Failure) : Prop :=
  ∃ ws st, t.Fails ws st f ∧ (∀ w ∈ ws, w.isError = false) ∧
    ∀ env name, t = .node env (.identifier name) → st = s

theorem Task.Demands.ne_identifier {p : Run} (h : t.Demands vs s p) (env : FrameId)
    (name : Identifier) : t ≠ .node env (.identifier name) := by
  rintro rfl
  cases h with
  | part ht he _ _ =>
    cases ht
    rcases he with he | he <;> cases he
  | call ht _ _ _ _ | body ht _ _ => cases ht

/-- What ends with an error has it from the last run that it asked for, or fails itself. -/
theorem Trail.raises {parts : List Run} {out : EStateM.Result TooDeep Store Value}
    (h : Trail t vs s parts out) (hout : out = .ok (.error id f) s') (ht : (sourced program).Asks t)
    (hs : (sourced program).Fair s) (hvs : ∀ w ∈ vs, w.All (sourced program).part)
    (hparts : ∀ p ∈ parts, (sourced program).Fits p) :
    (∃ p ∈ parts, p.outcome = out) ∨ t.Raises s f := by
  induction h with
  | @ends vs s _ hdeed =>
    subst hout
    exact .inr ⟨vs, s, hdeed.fails rfl hs ht hvs, fun w hw => (hvs w hw).self.1, fun _ _ _ => rfl⟩
  | halts _ _ => exact .inl ⟨_, List.mem_singleton_self _, rfl⟩
  | @goes vs s st p v ps out hdemands hp herr _ ih =>
    obtain ⟨hfits, hparts⟩ := List.forall_mem_cons.mp hparts
    have hst : (sourced program).Fair st := Run.stop_of_value hp ▸ hfits.stop
    have hv : v.All (sourced program).part := all_of_yields (hfits.value v ⟨st, hp⟩) herr
    rcases ih hout hst (List.forall_mem_cons.mpr ⟨hv, hvs⟩) hparts with
      ⟨q, hq, hout⟩ | ⟨ws, st, hfails, hws, -⟩
    · exact .inl ⟨q, List.mem_cons_of_mem _ hq, hout⟩
    · exact .inr ⟨ws, st, hfails, hws, fun env name ht =>
        absurd ht (hdemands.ne_identifier env name)⟩

/-- The error of a run was raised by a run in it. -/
theorem Run.Recorded.exists_raises {r : Run} (hr : r.Recorded)
    (hfits : ∀ q : Run, q.Within r → (sourced program).Fits q)
    (hout : r.outcome = .ok (.error id f) s') :
    ∃ q : Run, q.Within r ∧ q.outcome = r.outcome ∧ q.task.Raises q.start f := by
  induction r using Run.part_induction with
  | h r ih =>
    rcases hr.trail with ⟨-, hcut⟩ | htrail
    · rw [hout] at hcut
      cases hcut
    · have hpart : ∀ p ∈ r.parts, ∀ q : Run, q.Within p → q.Within r := fun p hp q hq => .part hp hq
      rcases htrail.raises hout (hfits r .self).task (hfits r .self).start nofun
        (fun p hp => hfits p (hpart p hp p .self)) with ⟨p, hp, hsame⟩ | hraises
      · obtain ⟨q, hq, heq, hraises⟩ := ih p hp (hr.part hp)
          (fun q hq => hfits q (hpart p hp q hq)) (hsame.trans hout)
        exact ⟨q, hpart p hp q hq, heq.trans hsame, hraises⟩
      · exact ⟨r, .self, rfl, hraises⟩

/-! ## The list is complete -/

/-- What a primitive refuses is listed. -/
theorem Primitive.Refuses.listed {p : Primitive} {args : List Value} {run : Run}
    (h : p.Refuses args f) (hargs : ∀ a ∈ args, a.isError = false) :
    Listed run program f.message := by
  cases h with
  | arity hp hlength => exact .arity hp hlength
  | length hstring harray =>
    exact .noLength (Value.tag_ne_error (hargs _ List.mem_cons_self)) hstring harray
  | array hputs hlen _ harray =>
    exact .notAnArray hputs hlen (Value.tag_ne_error (hargs _ List.mem_cons_self)) harray

/-- How an operator of the language fails is listed. -/
theorem Value.Clash.listed {op : String} {l r : Value} {run : Run} (h : Clash op l.tag r.tag f)
    (hop : op ∈ Lexer.operators.map Prod.fst) (hl : l.isError = false) (hr : r.isError = false) :
    Listed run program f.message := by
  have hl := tag_ne_error hl
  cases h with
  | division => exact .divisionByZero
  | different hne hknown => exact .typeMismatch hl (tag_ne_error hr) hne hknown
  | same heq hop' =>
    show Listed run program
      ("unknown operator: " ++ l.tag.name ++ " " ++ op ++ " " ++ r.tag.name)
    rw [← heq]
    exact .unknownOperator hl (hop'.imp_left fun h => ⟨h.1, hop, h.2⟩)

theorem Value.listed_of_key? {v : Value} {run : Run} (h : v.key? = none) (hv : v.isError = false) :
    Listed run program (Failure.notAKey v.tag).message := by
  obtain ⟨hint, hbool, hstring⟩ := key?_eq_none_iff.mp h
  exact .notAKey (tag_ne_error hv) hint hbool hstring

/-- What is raised is listed. -/
theorem Task.Raises.listed {run q : Run} (h : q.task.Raises q.start f) (hq : q.Within run)
    (hout : q.outcome = run.outcome) (hspeaks : program.Each Node.Speaks)
    (hasks : (sourced program).Asks q.task) : Listed run program f.message := by
  obtain ⟨ws, st, hfails, hws, hstart⟩ := h
  have hmem : ∀ env n, q.task = .node env n → n.isAbsent = false → n ∈ program.walk := by
    intro env n htask hn
    rw [htask] at hasks
    exact Node.Each.here hasks hn
  cases hfails with
  | unary htask hv hf =>
    obtain ⟨rfl, hint⟩ := Value.failure_of_unary (hspeaks _ (hmem _ _ htask rfl)) hf
    exact .negation (Value.tag_ne_error (hws _ hv)) hint
  | binary htask hl hr hf =>
    have hop := hspeaks _ (hmem _ _ htask rfl)
    exact (Value.clash_of_binary hop hf).listed hop (hws _ hl) (hws _ hr)
  | index _ hl hi hf =>
    rcases Value.failure_of_index hf with ⟨rfl, hhash⟩ | ⟨rfl, hkey⟩
    · exact .notIndexable (Value.tag_ne_error (hws _ hl)) hhash
    · exact Value.listed_of_key? hkey (hws _ hi)
  | key _ hv hkey => exact Value.listed_of_key? hkey (hws _ hv)
  | @unbound env name htask hnone =>
    rw [hstart env name htask] at hnone
    obtain ⟨hvalue, hfunction⟩ := Option.or_eq_none_iff.mp hnone
    exact .unbound (hmem _ _ htask rfl) hq htask hout hvalue hfunction
  | refused htask hrefuses =>
    rw [htask] at hasks
    exact hrefuses.listed fun a ha => (hasks.2 a ha).self.1
  | notAFunction htask hfunction hbuiltin =>
    rw [htask] at hasks
    exact .notAFunction (Value.tag_ne_error hasks.1.self.1) hfunction hbuiltin

end

/-- The list of what can go wrong is complete. Whatever source is evaluated in a fresh environment,
and whatever was reported about it: if it ends with an error, the message is on the list. -/
theorem eval_failures_listed {limit : Nat} {source : String} {id : Nat} {f : Failure} {s : Store}
    (h : eval limit Session.start.env (Program.ofSource source).node Session.start.store =
      .ok (.error id f) s) :
    let run := (Task.node Session.start.env (Program.ofSource source).node).record limit
      Session.start.store
    run.outcome = .ok (.error id f) s ∧ Listed run (Program.ofSource source).node f.message := by
  intro run
  have hfits : ∀ q : Run, q.Within run → (sourced (Program.ofSource source).node).Fits q :=
    fits_record lawful_sourced (fair_fresh fun p => ⟨rfl, nofun⟩) (fun n hn => hn)
      fun q _ _ _ _ _ => ⟨rfl, nofun⟩
  have hout : run.outcome = .ok (.error id f) s := (Task.record_outcome _ _ _).trans h
  obtain ⟨q, hq, hsame, hraises⟩ := (Run.recorded_record _ _ _).exists_raises hfits hout
  exact ⟨hout, hraises.listed hq hsame (Program.speaks_ofSource source) (hfits q hq).task⟩

/-- What stands after `+` is missing, and counts as null. -/
theorem eval_failures_listed_missingOperand :
    (Program.ofSource "1 + ;").isClean = false ∧
      eval 8 Session.start.env (Program.ofSource "1 + ;").node Session.start.store =
        .ok (.error 0 (.typeMismatch .integer "+" .null)) Session.start.store.takeId.2 ∧
      Listed ((Task.node Session.start.env (Program.ofSource "1 + ;").node).record 8
        Session.start.store) (Program.ofSource "1 + ;").node "type mismatch: INTEGER + NULL" := by
  have h : eval 8 Session.start.env (Program.ofSource "1 + ;").node Session.start.store =
      .ok (.error 0 (.typeMismatch .integer "+" .null)) Session.start.store.takeId.2 := by
    with_unfolding_all rfl
  exact ⟨by decide +kernel, h, (eval_failures_listed h).2⟩

end MonkeyLang
