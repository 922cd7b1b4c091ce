import MonkeyLang.Proofs.Evaluation.Plan
import MonkeyLang.Proofs.Evaluation.Storage

/-!
Errors end everything. An evaluation that has yielded an error is the last one that was begun, and
the error is what all evaluations around it yield, in the store that it was yielded in. So no
error comes to stay anywhere: not under a name, not in an array or hash, not in a return marker.
-/

namespace MonkeyLang

/-- Once any evaluation in the run has yielded an error, none begins any more, and all evaluations
around it yield that error and leave the store as it is. -/
def Run.EndsAtErrors (run : Run) : Prop :=
  ∀ (q p : Run) (later : List Run) (e : Value) (st : Store), q.Within run → p.Precedes later q →
    p.outcome = .ok e st → e.isError = true → later = [] ∧ q.outcome = .ok e st

/-- At no time in the run can an error be reached from a frame that is seen, and what an
evaluation yields either is an error or has none in it. -/
structure Run.StoresNoError (run : Run) (sees : FrameId → Prop) : Prop where
  frames : ∀ q : Run, q.Within run → ∀ i, sees i → ∀ u,
    q.start.Holds i u ∨ q.stop.Holds i u → u.isError = false
  values : ∀ q : Run, q.Within run → ∀ v, q.Yields v →
    v.isError = true ∨ ∀ u : Value, u.Part v → u.isError = false

namespace Policy

def noErrors (sees : FrameId → Prop) : Policy where
  frame := sees
  stored v := v.isError = false
  marked v := v.isError = false

variable {sees : FrameId → Prop}

theorem storesNoError_of_fits {run : Run}
    (h : ∀ q : Run, q.Within run → (noErrors sees).Fits q) : run.StoresNoError sees where
  frames q hq i hi u hu := by
    have hmark : ∀ id x, (noErrors sees).stored (.returned id x) → (noErrors sees).marked x →
        (noErrors sees).stored x := fun _ _ _ hx => hx
    rcases hu with hu | hu
    · exact (h q hq).start.stored_of_holds hi hmark hu
    · exact (h q hq).stop.stored_of_holds hi hmark hu
  values q hq v hv := by
    cases herr : v.isError with
    | true => exact .inl rfl
    | false =>
      refine .inr fun u hu => ?_
      exact ((h q hq).value v hv).stored_of_part (fun _ _ _ hx => hx) hu herr

end Policy

/-- Errors short-circuit everything: in an environment from which no error can be reached, whatever
is evaluated ends at the first error, and no error is stored. -/
theorem eval_ends_at_errors (limit : Nat) (env : FrameId) (n : Node) (s : Store)
    (hfunctions : s.functions = Store.empty.functions) (henv : env < s.nextFrame)
    (hclean : ∀ u, s.Holds env u → u.isError = false) :
    ((Task.node env n).record limit s).outcome = eval limit env n s ∧
      ((Task.node env n).record limit s).EndsAtErrors ∧
      ((Task.node env n).record limit s).StoresNoError (s.Sees env) := by
  refine ⟨Task.record_outcome _ _ _, fun q p later e st hq hp hout he => ?_, ?_⟩
  · obtain ⟨limit', hrec⟩ := Task.exists_record hq
    rw [hrec] at hp ⊢
    exact Task.stops_at_error hp hout he
  · have hsafe : (Policy.noErrors (s.Sees env)).Safe s :=
      Policy.safe_of_holds rfl hclean (fun id x hx => hclean x (hx.part (.marked .self)))
        (fun _ => rfl) hfunctions
    exact Policy.storesNoError_of_fits (Policy.fits_record (fun _ herr => herr) hsafe
      (t := .node env n) ⟨.inl .self, henv⟩ fun q _ x _ herr => herr)

/-- The tree of `let a = [1, -true, puts(2)]`. -/
def spoiledList : Node :=
  .letStmt .unset (some ⟨.unset, "a"⟩) (.array .unset [.integer .unset 1,
    .unary .unset "-" (.boolean .unset true),
    .call .unset (.identifier ⟨.unset, "puts"⟩) [.integer .unset 2]])

/-- In a fresh environment the sign before `true` fails, so that nothing is printed or bound. -/
theorem eval_ends_at_errors_spoiledList :
    eval 4 0 spoiledList Store.empty.addGlobal =
        .ok (.error 0 (.unknownUnary "-" .boolean)) Store.empty.addGlobal.takeId.2 ∧
      ((Task.node 0 spoiledList).record 4 Store.empty.addGlobal).outcome =
        eval 4 0 spoiledList Store.empty.addGlobal ∧
      ((Task.node 0 spoiledList).record 4 Store.empty.addGlobal).EndsAtErrors ∧
      ((Task.node 0 spoiledList).record 4 Store.empty.addGlobal).StoresNoError
        (Store.empty.addGlobal.Sees 0) :=
  ⟨rfl, eval_ends_at_errors 4 0 spoiledList Store.empty.addGlobal rfl (by decide)
    fun u hu => absurd hu (Store.not_holds_fresh 0 u)⟩

end MonkeyLang
