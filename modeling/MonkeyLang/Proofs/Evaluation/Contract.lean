import MonkeyLang.Proofs.Evaluation.Trail

/-!
Contracts of evaluations. A contract says what is so of a run on its way, in the store that it has
come to and with the values that it has got, and what is so of the store and of the value when it
has ended. If the steps of trails keep a contract, then every run that begins by it ends by it, and
so do all runs in it.
-/

namespace MonkeyLang

/-- What is to be so of a run on its way, of the store that it leaves behind, and of the value that
it yields in a store. -/
structure Contract where
  during : Run → List Value → Store → Prop
  leaves : Run → Store → Prop
  yields : Run → Store → Value → Prop

namespace Contract

variable (c : Contract)

def Begins (q : Run) : Prop := c.during q [] q.start

def Ends (q : Run) : EStateM.Result TooDeep Store Value → Prop
  | .ok v s => c.leaves q s ∧ c.yields q s v
  | .error _ s => c.leaves q s

/-- The steps of trails keep the contract: runs ask for what begins by it, go on by it in the store
that a part leaves behind, get values by it, may be cut off at any time, hand on errors, and do by
it what they do at the end. -/
structure Kept : Prop where
  asks : ∀ {q p : Run} {vs : List Value} {s : Store}, c.during q vs s → q.task.Demands vs s p →
    p ∈ q.parts → c.Begins p
  resumes : ∀ {q p : Run} {vs : List Value} {s : Store}, c.during q vs s → q.task.Demands vs s p →
    c.leaves p p.stop → c.during q vs p.stop
  gets : ∀ {q p : Run} {vs : List Value} {s : Store} {v : Value}, c.during q vs p.stop →
    q.task.Demands vs s p → p ∈ q.parts → p.Yields v → c.yields p p.stop v → v.isError = false →
    c.during q (v :: vs) p.stop
  stops : ∀ {q : Run} {vs : List Value} {s : Store}, c.during q vs s → c.leaves q s
  fails : ∀ {q p : Run} {s : Store} {v : Value}, c.yields p s v → v.isError = true → c.yields q s v
  does : ∀ {q : Run} {vs : List Value} {s : Store}, c.during q vs s →
    Deed q.task vs s q.outcome → c.Ends q q.outcome

variable {c} {r q : Run}

theorem Ends.leaves_stop (h : c.Ends q q.outcome) : c.leaves q q.stop := by
  rw [Run.stop]
  revert h
  rcases q.outcome with ⟨v, s⟩ | ⟨e, s⟩
  · exact And.left
  · exact id

theorem Ends.yields_stop (h : c.Ends q q.outcome) {v : Value} (hv : q.Yields v) :
    c.yields q q.stop v := by
  obtain ⟨s, hv⟩ := hv
  rw [Run.stop_of_value hv]
  rw [hv] at h
  exact h.2

/-- Along its trail a run keeps the contract as long as its parts do. -/
theorem Kept.trail (hc : c.Kept) {vs : List Value} {s : Store} {parts : List Run}
    {out : EStateM.Result TooDeep Store Value} (h : Trail q.task vs s parts out)
    (hout : q.outcome = out) (hmem : ∀ p ∈ parts, p ∈ q.parts) (hduring : c.during q vs s)
    (hparts : ∀ p ∈ q.parts, c.Begins p → c.Ends p p.outcome) :
    c.Ends q q.outcome ∧ ∀ p ∈ parts, c.Begins p := by
  induction h with
  | ends hdeed => exact ⟨hc.does hduring (hout ▸ hdeed), nofun⟩
  | @halts vs s p hdemands hhalts =>
    have hp := hmem p (List.mem_singleton_self p)
    have hbegins := hc.asks hduring hdemands hp
    have hends := hparts p hp hbegins
    have hstops := hc.stops (hc.resumes hduring hdemands hends.leaves_stop)
    refine ⟨?_, List.forall_mem_singleton.mpr hbegins⟩
    rw [hout]
    rcases hp : p.outcome with ⟨v, s'⟩ | ⟨e, s'⟩
    · have hyields := hends.yields_stop ⟨s', hp⟩
      rw [Run.stop_of_value hp] at hstops hyields
      exact ⟨hstops, hc.fails hyields (hhalts v s' hp)⟩
    · rw [Run.stop_of_cut hp] at hstops
      exact hstops
  | @goes vs s s' p v ps out hdemands hp herr _ ih =>
    obtain ⟨hpart, hmem⟩ := List.forall_mem_cons.mp hmem
    have hbegins := hc.asks hduring hdemands hpart
    have hends := hparts p hpart hbegins
    have hyields := hends.yields_stop ⟨s', hp⟩
    have hnext := hc.gets (hc.resumes hduring hdemands hends.leaves_stop) hdemands hpart ⟨s', hp⟩
      hyields herr
    rw [Run.stop_of_value hp] at hnext
    obtain ⟨hends, hps⟩ := ih hout hmem hnext
    exact ⟨hends, List.forall_mem_cons.mpr ⟨hbegins, hps⟩⟩

theorem Kept.ends (hc : c.Kept) (hr : r.Recorded) (hbegins : c.Begins r) :
    c.Ends r r.outcome ∧ ∀ p ∈ r.parts, c.Begins p := by
  induction r using Run.part_induction with
  | h r ih =>
    rcases hr.trail with ⟨hparts, hout⟩ | htrail
    · rw [hparts, hout]
      exact ⟨hc.stops hbegins, nofun⟩
    · exact hc.trail htrail rfl (fun _ hp => hp) hbegins
        fun p hp hbegins => (ih p hp (hr.part hp) hbegins).1

/-- A run that begins by a contract which is kept ends by it, and so do all runs in it. -/
theorem Kept.within (hc : c.Kept) (hr : r.Recorded) (hbegins : c.Begins r) (hq : q.Within r) :
    c.Begins q ∧ c.Ends q q.outcome := by
  induction hq with
  | self => exact ⟨hbegins, (hc.ends hr hbegins).1⟩
  | part hp _ ih => exact ih (hr.part hp) ((hc.ends hr hbegins).2 _ hp)

end Contract

end MonkeyLang
