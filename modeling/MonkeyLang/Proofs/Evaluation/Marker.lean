import MonkeyLang.Proofs.Evaluation.Plan
import MonkeyLang.Proofs.Evaluation.Storage

/-!
Where return markers come to stay. A `return` puts its value into a marker, and a conditional
hands the marker on, in whatever place it stands. Blocks, programs and calls look at markers;
a `let`, the elements of an array, the entries of a hash and the arguments of a call do not. An
evaluation leaves a marker somewhere, or answers with one, exactly if one of these gets it, or if
a call or a program gets a marker in a marker, of which it takes off one.
-/

namespace MonkeyLang

open Traced

/-- At no time in the run can a return marker be reached from a frame that is seen; no array or
hash that is made holds one; and no call or program answers with one. -/
structure Run.Transient (run : Run) (sees : FrameId → Prop) : Prop where
  frames : ∀ q : Run, q.Within run → ∀ i, sees i → ∀ u,
    q.start.Holds i u ∨ q.stop.Holds i u → u.isReturned = false
  values : ∀ q : Run, q.Within run → ∀ v, q.Yields v →
    ∀ u x : Value, u.Part v → u.Stores x → x.isReturned = false
  answers : ∀ q : Run, q.Within run → q.task.Answers → ∀ v, q.Yields v → v.isReturned = false

/-- The run puts a return marker where it stays, or it is a call or a program one of whose
statements gives a marker in a marker. -/
inductive Run.Leaks (r : Run) : Prop
  | kept {x : Value} : r.Keeps x → x.isReturned = true → r.Leaks
  | escaped {p : Run} {v : Value} : r.task.Answers → p ∈ r.parts → p.Yields v →
      v.isReturned = true → v.unwrap.isReturned = true → r.Leaks

theorem Value.isReturned_of_unwrap {v : Value} (h : v.unwrap.isReturned = true) :
    v.isReturned = true := by
  cases v with
  | returned _ _ => rfl
  | _ => exact h

theorem Value.isError_of_isReturned {v : Value} (h : v.isReturned = true) : v.isError = false := by
  cases v with
  | returned _ _ => rfl
  | _ => cases h

/-! ## Sequences -/

namespace Traced

variable {ev : Node → Traced Value} {ns : List Node} {last : Value} {s st : Store} {v : Value}

/-- A statement that gives a return marker is the last one, and the marker is the answer. -/
theorem sequence_stops (hrec : ∀ n s, ∃ r : Run, ev n s = ([r], r.outcome)) {p : Run}
    (hp : p ∈ (sequence ev last ns s).1) (hv : p.outcome = .ok v st)
    (hret : v.isReturned = true) : (sequence ev last ns s).2 = .ok v st := by
  induction ns generalizing last s with
  | nil => cases hp
  | cons n ns ih =>
    obtain ⟨r, hr⟩ := hrec n s
    rw [sequence_cons] at hp ⊢
    rcases unlessError_cases hr with ⟨e, s', hout, heq⟩ | ⟨w, s', hout, -, heq⟩ |
      ⟨w, s', hout, -, heq⟩
    · rw [heq] at hp ⊢
      rw [← hout, ← List.mem_singleton.mp hp, hv]
    · rw [heq] at hp ⊢
      rw [← hout, ← List.mem_singleton.mp hp, hv]
    · rw [heq] at hp ⊢
      cases hret' : w.isReturned with
      | true =>
        rw [hret'] at hp
        rw [List.mem_singleton.mp hp, hout] at hv
        exact hv
      | false =>
        rw [hret'] at hp
        rcases List.mem_cons.mp hp with rfl | hp
        · rw [hout] at hv
          cases hv
          rw [hret'] at hret
          cases hret
        · exact ih hp

end Traced

/-! ## Without a leak -/

namespace Policy

def noMarkers (sees : FrameId → Prop) : Policy where
  frame := sees
  stored v := v.isReturned = false
  marked _ := True

variable {sees : FrameId → Prop}

/-- A call or program that answers with a return marker got it in another marker. -/
theorem exists_part_of_answer {q : Run} (hr : q.Recorded) (hfits : (noMarkers sees).Fits q)
    (hanswers : q.task.Answers) {v : Value} (hv : q.Yields v) (hret : v.isReturned = true) :
    ∃ p ∈ q.parts, ∃ w, p.Yields w ∧ w.unwrap.isReturned = true := by
  obtain ⟨st, hout⟩ := hv
  rcases hr.trail with ⟨-, hcut⟩ | htrail
  · cases hout.symm.trans hcut
  rcases htrail.exists_deed with ⟨_, _, -, hhalts⟩ | ⟨ws, s, hdeed, hws⟩
  · have herr := hhalts v st hout
    rw [Value.isError_of_isReturned hret] at herr
    cases herr
  have hnode : ∀ env n, q.task = .node env n → (Task.node env n).Answers :=
    fun env n ht => ht ▸ hanswers
  rw [hout] at hdeed
  cases hdeed with
  | unwrapped _ hw =>
    rcases hws _ hw with hw | ⟨p, hp, hw⟩
    · cases hw
    · exact ⟨p, hp, _, hw, hret⟩
  | passed hout _ => exact absurd hanswers hout
  | found hfinds =>
    cases hfinds with
    | given hmem hx =>
      have hstored : v.isReturned = false := (hfits.task.given _ hmem).allows.stored v hx
      rw [hstored] at hret
      cases hret
    | indexed ht _ _ => exact (hnode _ _ ht).elim
  | built hbuilds =>
    cases hbuilds with
    | marker ht _ => exact (hnode _ _ ht).elim
    | array _ _ | hash _ _ | primitive _ _ => cases hret
  | lookUp ht _ => exact (hnode _ _ ht).elim
  | plain hplain => cases hplain <;> cases hret
  | failed _ | print | bind _ _ | function _ => cases hret

theorem transient_of_fits {limit : Nat} {t : Task} {s : Store}
    (hfits : ∀ q : Run, q.Within (t.record limit s) → (noMarkers sees).Fits q)
    (hleaks : ∀ q : Run, q.Within (t.record limit s) → ¬q.Leaks) :
    (t.record limit s).Transient sees where
  frames q hq i hi u hu := by
    rcases hu with hu | hu
    · exact (hfits q hq).start.stored_of_holds hi nofun hu
    · exact (hfits q hq).stop.stored_of_holds hi nofun hu
  values q hq v hv u x hu hx := ((hfits q hq).value v hv u hu).stored x hx
  answers q hq hanswers v hv := by
    cases hret : v.isReturned with
    | false => rfl
    | true =>
      obtain ⟨p, hp, w, hw, hret⟩ := exists_part_of_answer
        ((Run.recorded_record limit t s).within hq) (hfits q hq) hanswers hv hret
      exact absurd (.escaped hanswers hp hw (Value.isReturned_of_unwrap hret) hret) (hleaks q hq)

/-! ## With a leak -/

def anything (sees : FrameId → Prop) : Policy where
  frame := sees
  stored _ := True
  marked _ := True

end Policy

namespace Task

variable {limit : Nat} {s st : Store} {p : Run} {v : Value}

theorem parts_function (id : Nat) (ps : List Identifier) (body : Node) (frame : FrameId)
    (args : List Value) :
    ((call (.function id ps body frame) args).record (limit + 1) s).parts =
      [(node s.nextFrame body).record limit
        (s.addInner frame (Bindings.ofArguments ps args []))] := by
  rw [record_succ, step_function, map_fst, visit_apply]

/-- A `let` binds the value of its part, whatever it is, unless it is an error. -/
theorem outcome_let {env : FrameId} {t : Token} {id : Identifier} {n : Node}
    (hp : p ∈ ((node env (.letStmt t (some id) n)).record (limit + 1) s).parts)
    (hv : p.outcome = .ok v st) (herr : v.isError = false) :
    ((node env (.letStmt t (some id) n)).record (limit + 1) s).outcome =
      .ok .null (st.bind env id.name v) := by
  have hvisit := (node env n).visit_apply limit s
  generalize (node env n).record limit s = r at hvisit
  have hpr : p = r := by
    change p ∈ (unlessError ((node env n).visit limit) (fun v => lift _) s).1 at hp
    rw [unlessError_lift_fst, hvisit] at hp
    exact List.mem_singleton.mp hp
  show (unlessError ((node env n).visit limit) _ s).2 = _
  subst hpr
  rw [hv] at hvisit
  rw [unlessError_next hvisit herr]
  rfl

/-- Calls and programs take one return marker off. -/
theorem outcome_of_part {t : Task} (hanswers : t.Answers)
    (hp : p ∈ (t.record (limit + 1) s).parts) (hv : p.outcome = .ok v st)
    (hret : v.isReturned = true) : (t.record (limit + 1) s).outcome = .ok v.unwrap st := by
  cases t with
  | node env n =>
    cases n with
    | program t statements =>
      have hrec : ∀ n s, ∃ r : Run, (node env n).visit limit s = ([r], r.outcome) :=
        fun n s => ⟨_, (node env n).visit_apply limit s⟩
      change p ∈ ((Value.unwrap <$> sequence (fun n => (node env n).visit limit) .null statements)
        s).1 at hp
      rw [map_fst] at hp
      have hstop : (sequence (fun n => (node env n).visit limit) .null statements s).2 = .ok v st :=
        sequence_stops hrec hp hv hret
      exact congrArg Prod.snd (map_next Value.unwrap (Prod.ext rfl hstop))
    | _ => exact hanswers.elim
  | call f args =>
    cases f with
    | function id ps body frame =>
      have hvisit := (node s.nextFrame body).visit_apply limit
        (s.addInner frame (Bindings.ofArguments ps args []))
      rw [parts_function] at hp
      rw [← List.mem_singleton.mp hp, hv] at hvisit
      rw [record_succ, step_function]
      exact congrArg Prod.snd (map_next Value.unwrap hvisit)
    | _ => cases hp

end Task

namespace Run

variable {limit : Nat} {q p : Run} {x : Value}

/-- What a `let` gets can be reached from its frame when it is done. -/
theorem holds_bound (hrec : q = q.task.record (limit + 1) q.start) {env : FrameId} {t : Token}
    {id : Identifier} {n : Node} (htask : q.task = .node env (.letStmt t (some id) n))
    (hp : p ∈ q.parts) (hx : p.Yields x) (herr : x.isError = false)
    (henv : env < q.stop.nextFrame) : q.stop.Holds env x := by
  obtain ⟨st, hx⟩ := hx
  have hout : q.outcome = .ok .null (st.bind env id.name x) := by
    rw [hrec, htask] at hp ⊢
    exact Task.outcome_let hp hx herr
  have hstop : q.stop = st.bind env id.name x := Run.stop_of_value hout
  rw [hstop, Store.nextFrame_bind] at henv
  rw [hstop]
  refine ⟨env, .self, (id.name, x), ?_, .self⟩
  rw [st.frame_bind, if_pos ⟨rfl, henv⟩]
  exact mem_upsert_self _ _ _

/-- What a parameter is bound to can be reached from the new frame when the body begins. -/
theorem holds_passed (hrec : q = q.task.record (limit + 1) q.start) {id : Nat}
    {ps : List Identifier} {body : Node} {frame : FrameId} {args : List Value} {name : String}
    (htask : q.task = .call (.function id ps body frame) args) (hp : p ∈ q.parts)
    (hx : (name, x) ∈ Bindings.ofArguments ps args []) : p.start.Holds q.start.nextFrame x := by
  have hstart : p.start = q.start.addInner frame (Bindings.ofArguments ps args []) := by
    rw [hrec, htask, Task.parts_function] at hp
    rw [List.mem_singleton.mp hp]
    rfl
  rw [hstart]
  refine ⟨_, .self, (name, x), ?_, .self⟩
  rw [Store.frame_addInner, if_pos rfl]
  exact hx

/-- A run in which a return marker leaks is not transient. -/
theorem Leaks.not_transient {t : Task} {s : Store} {sees : FrameId → Prop}
    (hs : (Policy.anything sees).Safe s) (ht : (Policy.anything sees).Asks s t)
    (hq : q.Within (t.record limit s)) (hleaks : q.Leaks) :
    ¬(t.record limit s).Transient sees := by
  intro htransient
  have hfits : (Policy.anything sees).Fits q :=
    Policy.fits_record (fun _ _ => trivial) hs ht (fun _ _ _ _ _ => trivial) q hq
  cases hleaks with
  | @kept x hkeeps hret =>
    have hcontra : x.isReturned = false → False := fun h => by rw [h] at hret; cases hret
    cases hkeeps with
    | @bound env t id n p htask hp hx =>
      obtain ⟨_, hrec⟩ := Task.exists_record_succ hq hp
      have hasks := hfits.task
      rw [htask] at hasks
      have hholds := holds_bound hrec htask hp hx (Value.isError_of_isReturned hret)
        (Nat.lt_of_lt_of_le hasks.2 hfits.grows)
      exact hcontra (htransient.frames q hq env hasks.1 x (.inr hholds))
    | made _ hv hx => exact hcontra (htransient.values q hq _ hv _ x .self hx)
    | @passed id ps body frame args p name htask hp hx =>
      obtain ⟨_, hrec⟩ := Task.exists_record_succ hq hp
      exact hcontra (htransient.frames p ((Run.Within.part hp .self).trans hq)
        q.start.nextFrame (hfits.start.fresh _ (Nat.le_refl _)) x
        (.inl (holds_passed hrec htask hp hx)))
  | @escaped p v hanswers hp hv hret hret' =>
    obtain ⟨st, hv⟩ := hv
    obtain ⟨_, hrec⟩ := Task.exists_record_succ hq hp
    have hout : q.outcome = .ok v.unwrap st := by
      rw [hrec] at hp ⊢
      exact Task.outcome_of_part hanswers hp hv hret
    have hfalse := htransient.answers q hq hanswers v.unwrap ⟨st, hout⟩
    rw [hret'] at hfalse
    cases hfalse

end Run

/-! ## The exact condition -/

/-- In an environment from which no return marker can be reached, the markers of an evaluation are
transient exactly if none of its runs leaks one. -/
theorem eval_transient_iff (limit : Nat) (env : FrameId) (n : Node) (s : Store)
    (hfunctions : s.functions = Store.empty.functions) (henv : env < s.nextFrame)
    (hclean : ∀ u, s.Holds env u → u.isReturned = false) :
    ((Task.node env n).record limit s).outcome = eval limit env n s ∧
      (((Task.node env n).record limit s).Transient (s.Sees env) ↔
        ∀ q : Run, q.Within ((Task.node env n).record limit s) → ¬q.Leaks) := by
  refine ⟨Task.record_outcome _ _ _, fun htransient q hq hleaks => ?_, fun hleaks => ?_⟩
  · have hsafe : (Policy.anything (s.Sees env)).Safe s :=
      Policy.safe_of_holds rfl (fun _ _ => trivial) (fun _ _ _ => trivial) (fun _ => trivial)
        hfunctions
    exact hleaks.not_transient hsafe (t := .node env n) ⟨.inl .self, henv⟩ hq htransient
  · have hsafe : (Policy.noMarkers (s.Sees env)).Safe s :=
      Policy.safe_of_holds rfl hclean (fun _ _ _ => trivial) (fun _ => rfl) hfunctions
    refine Policy.transient_of_fits (Policy.fits_record (fun _ _ => trivial) hsafe
      (t := .node env n) ⟨.inl .self, henv⟩ fun q hq x hkeeps _ => ?_) hleaks
    cases hret : x.isReturned with
    | false => exact hret
    | true => exact absurd (.kept hkeeps hret) (hleaks q hq)

/-- The tree of `return if (true) \x7b return 5 \x7d;`. -/
def doubleReturn : Node :=
  .program .unset [.returnStmt .unset (.ifElse .unset (.boolean .unset true)
    (.block .unset [.returnStmt .unset (.integer .unset 5)]) .absent)]

/-- The program answers with a return marker. -/
theorem eval_transient_iff_doubleReturn :
    (∃ s', eval 6 0 doubleReturn Store.empty.addGlobal = .ok (.returned 0 (.integer 5)) s') ∧
      ¬((Task.node 0 doubleReturn).record 6 Store.empty.addGlobal).Transient
        (Store.empty.addGlobal.Sees 0) := by
  refine ⟨⟨_, rfl⟩, fun htransient => ?_⟩
  have hiff := (eval_transient_iff 6 0 doubleReturn Store.empty.addGlobal rfl (by decide)
    fun u hu => absurd hu (Store.not_holds_fresh 0 u)).2
  exact hiff.mp htransient _ .self
    (.escaped (v := .returned 1 (.returned 0 (.integer 5))) trivial (List.mem_singleton_self _)
      ⟨_, rfl⟩ rfl rfl)

end MonkeyLang
