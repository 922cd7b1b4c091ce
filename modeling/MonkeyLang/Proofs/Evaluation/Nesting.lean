import MonkeyLang.Proofs.Evaluation.Trail
import MonkeyLang.Proofs.Evaluation.Frames

/-!
The limit on nested evaluations. It cannot be seen but by being cut off: what is completed within a
limit is completed within every greater one, with the same value and the same store. Where an
evaluation is cut off, all evaluations around it are, at once; and by then nothing was printed that
would not have been printed otherwise.
-/

namespace MonkeyLang

open Traced

/-! ## How deep evaluations are nested -/

namespace Run

mutual

/-- How many evaluations are nested in a run: the number of runs in the longest row that begins with
the run itself and goes on from each run to a part of it. -/
def nesting : Run → Nat
  | ⟨_, _, parts, _⟩ => nestingEach parts + 1

def nestingEach : List Run → Nat
  | [] => 0
  | r :: rs => max r.nesting (nestingEach rs)

end

variable {r p q : Run} {k : Nat}

theorem nesting_eq (r : Run) : r.nesting = nestingEach r.parts + 1 := by
  cases r
  rw [nesting]

theorem lt_nestingEach {rs : List Run} : k < nestingEach rs ↔ ∃ r ∈ rs, k < r.nesting := by
  induction rs with
  | nil => simp [nestingEach]
  | cons r rs ih =>
    simp only [nestingEach, List.mem_cons, exists_eq_or_imp, ← ih]
    omega

theorem nesting_le_iff : r.nesting ≤ k + 1 ↔ ∀ p ∈ r.parts, p.nesting ≤ k := by
  rw [nesting_eq, Nat.add_le_add_iff_right, ← Nat.not_lt, lt_nestingEach]
  simp

theorem lt_nesting_iff : k + 1 < r.nesting ↔ ∃ p ∈ r.parts, k < p.nesting := by
  rw [nesting_eq, Nat.add_lt_add_iff_right, lt_nestingEach]

/-! ## Cuts -/

/-- Once any evaluation in the run has been cut off, none begins any more, and all evaluations
around it are cut off too and leave the store as it is. -/
def EndsAtCuts (run : Run) : Prop :=
  ∀ (q p : Run) (later : List Run) (e : TooDeep) (st : Store), q.Within run → p.Precedes later q →
    p.outcome = .error e st → later = [] ∧ q.outcome = .error e st

end Run

/-- An evaluation that is not refused at once is cut off only with something that it asks for. -/
theorem Trail.exists_cut {t : Task} {vs : List Value} {s st : Store} {parts : List Run}
    {out : EStateM.Result TooDeep Store Value} {e : TooDeep} (h : Trail t vs s parts out)
    (hout : out = .error e st) : ∃ p ∈ parts, p.outcome = .error e st := by
  rcases h.exists_deed with ⟨p, hmem, hp, -⟩ | ⟨_, _, hdeed, -⟩
  · exact ⟨p, hmem, hp.trans hout⟩
  · cases hdeed <;> cases hout

namespace Task

theorem endsAtCuts_record (limit : Nat) (t : Task) (s : Store) : (t.record limit s).EndsAtCuts := by
  intro q p later e st hq hp hout
  obtain ⟨limit', hrec⟩ := exists_record hq
  rw [hrec] at hp ⊢
  exact stops_at_cut hp hout

/-- An evaluation is cut off if and only if more would be nested than the limit allows. -/
theorem cut_iff_lt_nesting (limit : Nat) (t : Task) (s : Store) :
    (∃ e s', (t.record limit s).outcome = .error e s') ↔ limit < (t.record limit s).nesting := by
  induction limit generalizing t s with
  | zero =>
    refine iff_of_true ⟨_, _, rfl⟩ ?_
    rw [Run.nesting_eq]
    omega
  | succ limit ih =>
    have htrail := trail_record limit t s
    rw [Run.lt_nesting_iff]
    constructor
    · rintro ⟨e, s', hout⟩
      obtain ⟨p, hmem, hp⟩ := htrail.exists_cut hout
      refine ⟨p, hmem, ?_⟩
      rw [eq_record_of_part hmem] at hp ⊢
      exact (ih _ _).mp ⟨e, s', hp⟩
    · rintro ⟨p, hmem, hlt⟩
      rw [eq_record_of_part hmem] at hlt
      obtain ⟨e, s', hp⟩ := (ih _ _).mpr hlt
      rw [← eq_record_of_part hmem] at hp
      obtain ⟨before, after, hparts⟩ := List.append_of_mem hmem
      obtain ⟨-, hout⟩ := htrail.stops hparts fun v s' hv => by cases hp.symm.trans hv
      exact ⟨e, s', hout.trans hp⟩

end Task

/-! ## Greater limits -/

/-- What was printed is not taken back. -/
theorem Store.rises_printed : Store.Rises fun s s' => s.printed <+: s'.printed where
  refl _ := List.prefix_refl _
  trans := List.IsPrefix.trans
  takeId _ := List.prefix_refl _
  print _ _ := List.prefix_append _ _
  bind _ _ _ _ := List.prefix_refl _
  addInner _ _ _ := List.prefix_refl _

/-- The run `r'` goes on where `r` was cut off: a run that was completed is the same in both, and
what was printed up to a cut is what `r'` printed first. -/
structure Run.ContinuedBy (r r' : Run) : Prop where
  value : ∀ v s, r.outcome = .ok v s → r'.outcome = .ok v s
  printed : ∀ e s, r.outcome = .error e s → s.printed <+: r'.stop.printed

theorem Run.ContinuedBy.of_value {r r' : Run} {v : Value} {s : Store} (h : r.outcome = .ok v s)
    (h' : r'.outcome = .ok v s) : r.ContinuedBy r' where
  value w st hw := by rw [h', ← hw, h]
  printed e st he := by
    rw [h] at he
    cases he

/-- One and the same plan with two limits: if the parts go on in the second where they were cut off
in the first, so does the whole. -/
theorem Plan.continuedBy {t : Task} {vs : List Value} {s : Store} {limit limit' : Nat}
    {m : (Task → Traced Value) → List Run × EStateM.Result TooDeep Store Value} (h : Plan t vs s m)
    (hparts : ∀ (t : Task) (s : Store), (t.record limit s).ContinuedBy (t.record limit' s))
    {r r' : Run} (hr : r.outcome = (m (Task.visit limit)).2)
    (hr' : r'.outcome = (m (Task.visit limit')).2) : r.ContinuedBy r' := by
  induction h with
  | ends hdeed => cases hdeed <;> exact .of_value hr hr'
  | @asks vs s s' t' next ht hnext ih =>
    change r.outcome = (unlessError (t'.visit limit) (fun v => next v _) s').2 at hr
    have hpart := hparts t' s'
    have hvisit := t'.visit_apply limit s'
    have hvisit' := t'.visit_apply limit' s'
    rcases hout : (t'.record limit s').outcome with ⟨v, st⟩ | ⟨e, st⟩
    · change r'.outcome = (unlessError (t'.visit limit') (fun v => next v _) s').2 at hr'
      rw [hout] at hvisit
      rw [hpart.value v st hout] at hvisit'
      cases hv : v.isError with
      | true =>
        rw [unlessError_stop hvisit hv] at hr
        rw [unlessError_stop hvisit' hv] at hr'
        exact .of_value hr hr'
      | false =>
        rw [unlessError_next hvisit hv] at hr
        rw [unlessError_next hvisit' hv] at hr'
        exact ih v st hv hr hr'
    · -- what comes after the part in the second run is printed after all that the part printed
      have hlater : (t'.record limit' s').stop.printed <+: r'.stop.printed :=
        (Plan.asks ht hnext).rises Store.rises_printed hr' _ (mem_unlessError hvisit')
      rw [hout] at hvisit
      rw [unlessError_cut hvisit] at hr
      refine ⟨fun w st' hw => ?_, fun e' st' he => ?_⟩
      · cases hr.symm.trans hw
      · cases hr.symm.trans he
        exact (hpart.printed e st hout).trans hlater

/-- Within a greater limit an evaluation goes on where it was cut off. -/
theorem Task.continuedBy_record {limit limit' : Nat} (h : limit ≤ limit') (t : Task) (s : Store) :
    (t.record limit s).ContinuedBy (t.record limit' s) := by
  induction limit generalizing limit' t s with
  | zero =>
    refine ⟨nofun, fun e st he => ?_⟩
    cases he
    exact (Run.recorded_record limit' t s).rises Store.rises_printed
  | succ limit ih =>
    cases limit' with
    | zero => omega
    | succ limit' =>
      have hle : limit ≤ limit' := by omega
      exact (plan_step t s).continuedBy (fun t s => ih hle t s) rfl rfl

/-- The limit on nested evaluations cannot be seen but by being cut off. What is completed within a
limit is completed within every greater one, with the same value and the same store. What is cut off
has printed a prefix of what is printed within a greater limit; it is cut off only where more
evaluations are nested than the limit allows, and then all evaluations around that one are. -/
theorem eval_within_limit {limit limit' : Nat} (h : limit ≤ limit') (t : Task) (s : Store) :
    (t.record limit s).outcome = t.eval limit s ∧
      (∀ v s', t.eval limit s = .ok v s' → t.eval limit' s = .ok v s') ∧
      (∀ e s', t.eval limit s = .error e s' → s'.printed <+: ((t.eval limit').leaves s).printed) ∧
      ((∃ e s', t.eval limit s = .error e s') ↔ limit < (t.record limit s).nesting) ∧
      (t.record limit s).EndsAtCuts := by
  have hcontinued := Task.continuedBy_record h t s
  have hcut := Task.cut_iff_lt_nesting limit t s
  have houtcome := Task.record_outcome limit t s
  refine ⟨houtcome, fun v s' hv => ?_, fun e s' he => ?_, ?_, Task.endsAtCuts_record limit t s⟩
  · rw [← Task.record_outcome]
    exact hcontinued.value v s' (houtcome.trans hv)
  · rw [← Run.stop_record]
    exact hcontinued.printed e s' (houtcome.trans he)
  · rwa [houtcome] at hcut

/-- The tree of `puts(1); puts(-2)`. -/
def twoLines : Node :=
  .program .unset [
    .exprStmt .unset (.call .unset (.identifier ⟨.unset, "puts"⟩) [.integer .unset 1]),
    .exprStmt .unset (.call .unset (.identifier ⟨.unset, "puts"⟩)
      [.unary .unset "-" (.integer .unset 2)])]

/-- Where four evaluations may be nested, the second line is lost: its number is the fifth. -/
theorem eval_within_limit_twoLines :
    (∃ s', eval 4 0 twoLines Store.empty.addGlobal = .error {} s' ∧ s'.printed = ["1"] ∧
      s'.printed <+: ((eval 5 0 twoLines).leaves Store.empty.addGlobal).printed) ∧
      ((eval 5 0 twoLines).leaves Store.empty.addGlobal).printed = ["1", "-2"] ∧
      4 < ((Task.node 0 twoLines).record 4 Store.empty.addGlobal).nesting ∧
      ((Task.node 0 twoLines).record 4 Store.empty.addGlobal).EndsAtCuts ∧
      ∃ s', eval 5 0 twoLines Store.empty.addGlobal = .ok .null s' ∧
        eval 6 0 twoLines Store.empty.addGlobal = .ok .null s' := by
  obtain ⟨-, -, hprinted, hcut, hends⟩ :=
    eval_within_limit (show 4 ≤ 5 by decide) (.node 0 twoLines) Store.empty.addGlobal
  obtain ⟨-, hvalue, -⟩ :=
    eval_within_limit (show 5 ≤ 6 by decide) (.node 0 twoLines) Store.empty.addGlobal
  exact ⟨⟨_, rfl, by decide +kernel, hprinted _ _ rfl⟩, by decide +kernel, hcut.mp ⟨_, _, rfl⟩,
    hends, _, rfl, hvalue _ _ rfl⟩

end MonkeyLang
