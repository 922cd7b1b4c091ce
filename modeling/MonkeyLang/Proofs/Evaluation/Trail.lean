import MonkeyLang.Proofs.Evaluation.Plan

/-!
The trail of an evaluation: what it has asked for by its plan, one after the other, and what it has
come to. Every run that is recorded has left one, so that whatever is to be shown of evaluations is
shown of the steps of a trail. Stores go up along it in every order that goes up with each thing
that an evaluation does to a store.
-/

namespace MonkeyLang

open Traced

/-! ## Trails -/

/-- From the store `s`, after the values `vs`, an evaluation asks for these runs and comes to this
outcome: it is at its end, or it comes to what a run comes to that is cut off or yields an error, or
it goes on with the value of a run. -/
inductive Trail (t : Task) :
    List Value → Store → List Run → EStateM.Result TooDeep Store Value → Prop
  | ends {vs : List Value} {s : Store} {out : EStateM.Result TooDeep Store Value} :
      Deed t vs s out → Trail t vs s [] out
  | halts {vs : List Value} {s : Store} {p : Run} : t.Demands vs s p →
      (∀ v s', p.outcome = .ok v s' → v.isError = true) → Trail t vs s [p] p.outcome
  | goes {vs : List Value} {s s' : Store} {p : Run} {v : Value} {ps : List Run}
      {out : EStateM.Result TooDeep Store Value} : t.Demands vs s p → p.outcome = .ok v s' →
      v.isError = false → Trail t (v :: vs) s' ps out → Trail t vs s (p :: ps) out

/-- Through `visit` tasks are evaluated, and that is written down. -/
def Traced.Visits (visit : Task → Traced Value) : Prop :=
  ∀ t s, ∃ r : Run, visit t s = ([r], r.outcome) ∧ r.task = t ∧ r.start = s

namespace Plan

variable {t : Task} {vs : List Value} {s : Store}
  {m : (Task → Traced Value) → List Run × EStateM.Result TooDeep Store Value}
  {visit : Task → Traced Value}

/-- What all runs have that are visited, all parts of a plan have. -/
theorem forall_parts (h : Plan t vs s m) {P : Run → Prop}
    (hvisit : ∀ t s, ∃ r : Run, visit t s = ([r], r.outcome) ∧ P r) : ∀ p ∈ (m visit).1, P p := by
  induction h with
  | ends _ => exact List.forall_mem_nil _
  | @asks vs s s' t' next _ _ ih =>
    obtain ⟨r, hr, hP⟩ := hvisit t' s'
    show ∀ p ∈ (unlessError (visit t') (fun v => next v visit) s').1, P p
    rcases unlessError_cases hr with ⟨e, st, -, heq⟩ | ⟨v, st, -, -, heq⟩ | ⟨v, st, -, hv, heq⟩
    · rw [heq]
      exact List.forall_mem_singleton.mpr hP
    · rw [heq]
      exact List.forall_mem_singleton.mpr hP
    · rw [heq]
      exact List.forall_mem_cons.mpr ⟨hP, ih v st hv⟩

/-- Who follows a plan leaves a trail. -/
theorem trail (h : Plan t vs s m) (hvisit : Visits visit) :
    Trail t vs s (m visit).1 (m visit).2 := by
  induction h with
  | ends hdeed => exact .ends hdeed
  | @asks vs s s' t' next ht _ ih =>
    obtain ⟨r, hr, htask, hstart⟩ := hvisit t' s'
    have hdemands := ht r htask hstart
    show Trail t vs s (unlessError (visit t') (fun v => next v visit) s').1
      (unlessError (visit t') (fun v => next v visit) s').2
    rcases unlessError_cases hr with ⟨e, st, hout, heq⟩ | ⟨v, st, hout, hv, heq⟩ |
      ⟨v, st, hout, hv, heq⟩
    · rw [heq, ← hout]
      refine .halts hdemands fun w s' hw => ?_
      cases hout.symm.trans hw
    · rw [heq, ← hout]
      refine .halts hdemands fun w s' hw => ?_
      cases hout.symm.trans hw
      exact hv
    · rw [heq]
      exact .goes hdemands hout hv (ih v st hv)

end Plan

/-- A part that does not yield a value to go on with is the last one, and it is what the whole comes
to. -/
theorem Trail.stops {t : Task} {vs : List Value} {s : Store} {parts before after : List Run}
    {out : EStateM.Result TooDeep Store Value} {p : Run} (h : Trail t vs s parts out)
    (hparts : parts = before ++ p :: after)
    (hp : ∀ v s', p.outcome = .ok v s' → v.isError = true) : after = [] ∧ out = p.outcome := by
  induction h generalizing before with
  | ends _ => simp at hparts
  | halts _ _ =>
    obtain ⟨rfl, rfl, rfl⟩ : before = [] ∧ p = _ ∧ after = [] := by
      simpa [List.singleton_eq_append_iff] using hparts
    exact ⟨rfl, rfl⟩
  | goes _ hout hv _ ih =>
    cases before with
    | nil =>
      obtain ⟨rfl, -⟩ := List.cons.inj hparts
      rw [hp _ _ hout] at hv
      cases hv
    | cons _ before => exact ih (List.cons.inj hparts).2

/-- An evaluation that has left a trail comes to what one of its parts comes to, which is cut off or
yields an error, or it does something at the end, with values that it has got from its parts. -/
theorem Trail.exists_deed {t : Task} {vs : List Value} {s : Store} {parts : List Run}
    {out : EStateM.Result TooDeep Store Value} (h : Trail t vs s parts out) :
    (∃ p ∈ parts, p.outcome = out ∧ ∀ v s', out = .ok v s' → v.isError = true) ∨
      ∃ ws s', Deed t ws s' out ∧ ∀ w ∈ ws, w ∈ vs ∨ ∃ p ∈ parts, p.Yields w := by
  induction h with
  | @ends vs s out hdeed => exact .inr ⟨vs, s, hdeed, fun w hw => .inl hw⟩
  | halts _ hhalts => exact .inl ⟨_, List.mem_singleton_self _, rfl, hhalts⟩
  | @goes vs s st p v ps out _ hout _ _ ih =>
    rcases ih with ⟨q, hq, hout, hhalts⟩ | ⟨ws, s', hdeed, hws⟩
    · exact .inl ⟨q, List.mem_cons_of_mem p hq, hout, hhalts⟩
    · refine .inr ⟨ws, s', hdeed, fun w hw => ?_⟩
      rcases hws w hw with hw | ⟨q, hq, hw⟩
      · rcases List.mem_cons.mp hw with rfl | hw
        · exact .inr ⟨p, List.mem_cons_self, st, hout⟩
        · exact .inl hw
      · exact .inr ⟨q, List.mem_cons_of_mem p hq, hw⟩

/-! ## Records -/

namespace Task

variable {limit : Nat} {t : Task} {s : Store}

/-- What an evaluation asks for is evaluated within a limit that is lower by one. -/
theorem eq_record_of_part {p : Run} (hp : p ∈ (t.record (limit + 1) s).parts) :
    p = p.task.record limit p.start := by
  have hall : ∀ p ∈ (step (visit limit) t s).1, p = p.task.record limit p.start :=
    (plan_step t s).forall_parts fun t s => ⟨_, t.visit_apply limit s, rfl⟩
  exact hall p hp

/-- An evaluation that is not refused at once leaves a trail. -/
theorem trail_record (limit : Nat) (t : Task) (s : Store) :
    Trail t [] s (t.record (limit + 1) s).parts (t.record (limit + 1) s).outcome :=
  (plan_step t s).trail fun t s => ⟨_, t.visit_apply limit s, rfl, rfl⟩

/-- All that stands in a record is itself the record of its own task. -/
theorem exists_record {q : Run} (h : q.Within (t.record limit s)) :
    ∃ limit', q = q.task.record limit' q.start := by
  generalize hr : t.record limit s = r at h
  induction h generalizing limit t s with
  | self => exact ⟨limit, by rw [← hr]; rfl⟩
  | part hmem _ ih =>
    subst hr
    cases limit with
    | zero => cases hmem
    | succ limit => exact ih (eq_record_of_part hmem).symm

/-- A run in a record that has parts was recorded with a limit for them. -/
theorem exists_record_succ {q p : Run} (h : q.Within (t.record limit s)) (hp : p ∈ q.parts) :
    ∃ limit', q = q.task.record (limit' + 1) q.start := by
  obtain ⟨limit', hrec⟩ := exists_record h
  cases limit' with
  | zero =>
    rw [hrec] at hp
    cases hp
  | succ limit' => exact ⟨limit', hrec⟩

/-- Once an evaluation has been cut off or has yielded an error, none begins any more, and that is
what all around it come to. -/
theorem stops {p : Run} {later : List Run} (h : p.Precedes later (t.record limit s))
    (hp : ∀ v s', p.outcome = .ok v s' → v.isError = true) :
    later = [] ∧ (t.record limit s).outcome = p.outcome := by
  generalize hr : t.record limit s = r at h
  induction h generalizing limit t s with
  | self => exact ⟨rfl, rfl⟩
  | @part q r before after later hparts _ ih =>
    subst hr
    have hmem : q ∈ (t.record limit s).parts := by simp [hparts]
    cases limit with
    | zero => cases hmem
    | succ limit =>
      obtain ⟨rfl, hq⟩ := ih (eq_record_of_part hmem).symm
      obtain ⟨rfl, hout⟩ := (trail_record limit t s).stops hparts (hq ▸ hp)
      exact ⟨rfl, hout.trans hq⟩

/-- The error is then what all around it yield, without a change of the store. -/
theorem stops_at_error {p : Run} {later : List Run} (h : p.Precedes later (t.record limit s))
    {e : Value} {st : Store} (hp : p.outcome = .ok e st) (he : e.isError = true) :
    later = [] ∧ (t.record limit s).outcome = .ok e st := by
  obtain ⟨hlater, hout⟩ := stops h fun v s' hv => by
    cases hp.symm.trans hv
    exact he
  exact ⟨hlater, hout.trans hp⟩

/-- If it was cut off, so are all around it. -/
theorem stops_at_cut {p : Run} {later : List Run} (h : p.Precedes later (t.record limit s))
    {e : TooDeep} {st : Store} (hp : p.outcome = .error e st) :
    later = [] ∧ (t.record limit s).outcome = .error e st := by
  obtain ⟨hlater, hout⟩ := stops h fun v s' hv => by cases hp.symm.trans hv
  exact ⟨hlater, hout.trans hp⟩

end Task

namespace Run

/-- Induction from the parts of a run to the run. -/
theorem part_induction {P : Run → Prop} (h : ∀ r : Run, (∀ p ∈ r.parts, P p) → P r) :
    ∀ r : Run, P r
  | ⟨t, s, parts, out⟩ => h ⟨t, s, parts, out⟩ fun p _ => part_induction h p

def Recorded (r : Run) : Prop := ∃ limit, r = r.task.record limit r.start

theorem recorded_record (limit : Nat) (t : Task) (s : Store) : (t.record limit s).Recorded :=
  ⟨limit, rfl⟩

variable {r p q : Run}

theorem Recorded.within (hr : r.Recorded) (hq : q.Within r) : q.Recorded := by
  obtain ⟨limit, hr⟩ := hr
  rw [hr] at hq
  exact Task.exists_record hq

theorem Recorded.part (hr : r.Recorded) (hp : p ∈ r.parts) : p.Recorded :=
  hr.within (.part hp .self)

/-- A run that is recorded was refused at once, as it was nested too deep, or has left a trail. -/
theorem Recorded.trail (hr : r.Recorded) : (r.parts = [] ∧ r.outcome = .error {} r.start) ∨
    Trail r.task [] r.start r.parts r.outcome := by
  obtain ⟨limit, hr⟩ := hr
  rw [hr]
  cases limit with
  | zero => exact .inl ⟨rfl, rfl⟩
  | succ limit => exact .inr (Task.trail_record limit _ _)

end Run

/-! ## Orders of stores -/

/-- An order of stores that goes up with all that an evaluation does to a store. -/
structure Store.Rises (R : Store → Store → Prop) : Prop where
  refl : ∀ s, R s s
  trans : ∀ {s s' s''}, R s s' → R s' s'' → R s s''
  takeId : ∀ s, R s s.takeId.2
  print : ∀ s lines, R s (s.print lines)
  bind : ∀ s i x v, R s (s.bind i x v)
  addInner : ∀ s i bs, R s (s.addInner i bs)

/-- No frame is lost. -/
theorem Store.rises_frames : Store.Rises fun s s' => s.nextFrame ≤ s'.nextFrame where
  refl _ := Nat.le_refl _
  trans := Nat.le_trans
  takeId _ := Nat.le_refl _
  print _ _ := Nat.le_refl _
  bind s i x v := Nat.le_of_eq (s.nextFrame_bind i x v).symm
  addInner s i bs := by rw [s.nextFrame_addInner]; exact Nat.le_succ _

section Rises

variable {R : Store → Store → Prop} (hR : Store.Rises R) {t : Task} {vs : List Value} {s : Store}
  {out : EStateM.Result TooDeep Store Value}

include hR

theorem Deed.rises (h : Deed t vs s out) {r : Run} (hr : r.outcome = out) : R s r.stop := by
  rw [Run.stop, hr]
  cases h with
  | plain _ | passed _ _ | unwrapped _ _ | found _ | lookUp _ _ => exact hR.refl s
  | built _ | failed _ | function _ => exact hR.takeId s
  | print => exact hR.print s _
  | bind _ _ => exact hR.bind s _ _ _

theorem Task.Demands.rises {p : Run} (h : t.Demands vs s p) : R s p.start := by
  cases h with
  | part _ _ _ hstart | call _ _ _ _ hstart => exact hstart ▸ hR.refl s
  | body _ _ hstart => exact hstart ▸ hR.addInner s _ _

/-- Each run that is asked for is demanded in a later store than the first, and ends before the
last. -/
theorem Trail.rises {parts : List Run} (h : Trail t vs s parts out)
    (hparts : ∀ p ∈ parts, R p.start p.stop) {r : Run} (hr : r.outcome = out) :
    R s r.stop ∧ ∀ p ∈ parts, R p.stop r.stop ∧ ∃ ws s', R s s' ∧ t.Demands ws s' p := by
  induction h with
  | ends hdeed => exact ⟨hdeed.rises hR hr, nofun⟩
  | @halts vs s p hdemands _ =>
    have hstop : r.stop = p.stop := Run.stop_congr hr
    have hrises := hR.trans (hdemands.rises hR) (hparts p (List.mem_singleton_self p))
    exact ⟨hstop ▸ hrises, List.forall_mem_singleton.mpr
      ⟨hstop ▸ hR.refl _, vs, s, hR.refl s, hdemands⟩⟩
  | @goes vs s s' p v ps out hdemands hp _ _ ih =>
    obtain ⟨hpart, hparts⟩ := List.forall_mem_cons.mp hparts
    have hstop : p.stop = s' := Run.stop_of_value hp
    have hnext : R s s' := hstop ▸ hR.trans (hdemands.rises hR) hpart
    obtain ⟨hrest, hlater⟩ := ih hparts hr
    refine ⟨hR.trans hnext hrest, List.forall_mem_cons.mpr ⟨⟨hstop ▸ hrest, ?_⟩, fun q hq => ?_⟩⟩
    · exact ⟨vs, s, hR.refl s, hdemands⟩
    · obtain ⟨hq, ws, st, hst, hdemands⟩ := hlater q hq
      exact ⟨hq, ws, st, hR.trans hnext hst, hdemands⟩

namespace Run

variable {r p q : Run}

theorem Recorded.rises (hr : r.Recorded) : R r.start r.stop := by
  induction r using part_induction with
  | h r ih =>
    rcases hr.trail with ⟨-, hout⟩ | htrail
    · rw [stop_of_cut hout]
      exact hR.refl r.start
    · exact (htrail.rises hR (fun p hp => ih p hp (hr.part hp)) rfl).1

/-- A part is demanded in a store that comes after that in which the run began, and it ends before
the run does. -/
theorem Recorded.demands (hr : r.Recorded) (hp : p ∈ r.parts) :
    R p.stop r.stop ∧ ∃ vs s, R r.start s ∧ r.task.Demands vs s p := by
  rcases hr.trail with ⟨hparts, -⟩ | htrail
  · rw [hparts] at hp
    cases hp
  · exact (htrail.rises hR (fun _ hp => (hr.part hp).rises hR) rfl).2 p hp

/-- A run that is in another begins later and ends earlier. -/
theorem Recorded.rises_within (hr : r.Recorded) (hq : q.Within r) :
    R r.start q.start ∧ R q.stop r.stop := by
  induction hq with
  | self => exact ⟨hR.refl _, hR.refl _⟩
  | part hp _ ih =>
    obtain ⟨hstart, hstop⟩ := ih (hr.part hp)
    obtain ⟨hlast, vs, s, hs, hdemands⟩ := hr.demands hR hp
    exact ⟨hR.trans (hR.trans hs (hdemands.rises hR)) hstart, hR.trans hstop hlast⟩

end Run

/-- Whatever was asked for by a plan ends before the plan does. -/
theorem Plan.rises {m : (Task → Traced Value) → List Run × EStateM.Result TooDeep Store Value}
    (h : Plan t vs s m) {limit : Nat} {r : Run} (hr : r.outcome = (m (Task.visit limit)).2) :
    ∀ p ∈ (m (Task.visit limit)).1, R p.stop r.stop := by
  have htrail := h.trail fun t s => ⟨_, t.visit_apply limit s, rfl, rfl⟩
  have hparts : ∀ p ∈ (m (Task.visit limit)).1, R p.start p.stop :=
    h.forall_parts fun t s => ⟨_, t.visit_apply limit s, (Run.recorded_record limit t s).rises hR⟩
  exact fun p hp => ((htrail.rises hR hparts hr).2 p hp).1

end Rises

end MonkeyLang
