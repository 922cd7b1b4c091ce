import MonkeyLang.Proofs.Evaluation.Contract
import MonkeyLang.Proofs.Policy

/-!
What an evaluation puts where it stays. A run that puts there only what a policy allows keeps the
policy in all frames that it can see and in all values that it makes: the policy is broken at the
few places where a value is put somewhere, or nowhere.
-/

namespace MonkeyLang

/-! ## What a run puts where it stays -/

def Task.Makes : Task → Prop
  | .node _ (.array _ _) | .node _ (.hash _ _) | .call (.builtin .push) _ => True
  | _ => False

/-- A run puts the value `x` where it stays: under the name of a `let`, into the array or hash that
it makes, or under the name of a parameter when it begins the body of a function. -/
inductive Run.Keeps (r : Run) (x : Value) : Prop
  | bound {env : FrameId} {t : Token} {id : Identifier} {n : Node} {p : Run} :
      r.task = .node env (.letStmt t (some id) n) → p ∈ r.parts → p.Yields x → r.Keeps x
  | made {v : Value} : r.task.Makes → r.Yields v → v.Stores x → r.Keeps x
  | passed {id : Nat} {ps : List Identifier} {body : Node} {frame : FrameId} {args : List Value}
      {p : Run} {name : String} : r.task = .call (.function id ps body frame) args → p ∈ r.parts →
      (name, x) ∈ Bindings.ofArguments ps args [] → r.Keeps x

namespace Policy

variable (c : Policy)

/-- All that a run and the runs in it put where it stays may be put there. -/
def Admits (r : Run) : Prop :=
  ∀ q : Run, q.Within r → ∀ x, q.Keeps x → x.isError = false → c.stored x

/-- A run that was asked for in a safe store, left a safe store behind, in which no frame is
missing, and yields what is accepted. -/
structure Fits (q : Run) : Prop where
  start : c.Safe q.start
  task : c.Asks q.start q.task
  stop : c.Safe q.stop
  grows : q.start.nextFrame ≤ q.stop.nextFrame
  value : ∀ v, q.Yields v → c.Accepts v

/-- A run on its way that has put nothing where it may not stay: the store is safe, and the values
that it has got are accepted, are no errors and come from its parts. -/
structure Goes (q : Run) (vs : List Value) (s : Store) : Prop where
  admits : c.Admits q
  safe : c.Safe s
  task : c.Asks s q.task
  grows : q.start.nextFrame ≤ s.nextFrame
  got : ∀ v ∈ vs, c.Accepts v ∧ v.isError = false ∧ ∃ p ∈ q.parts, p.Yields v

def contract : Contract where
  during := c.Goes
  leaves q s := c.Safe s ∧ q.start.nextFrame ≤ s.nextFrame
  yields _ _ := c.Accepts

variable {c}

section step

variable {q p : Run} {vs : List Value} {s : Store}

theorem Asks.given {t : Task} (h : c.Asks s t) : ∀ v ∈ t.given, c.Accepts v := by
  cases t with
  | node env n => nofun
  | call f args => exact List.forall_mem_cons.mpr ⟨h.1, fun a ha => (h.2 a ha).1⟩

theorem begins_of_demands (h : c.Goes q vs s) (hdemands : q.task.Demands vs s p)
    (hp : p ∈ q.parts) : c.contract.Begins p := by
  have hadm : c.Admits p := fun q' hq' => h.admits q' (.part hp hq')
  have htask := h.task
  cases hdemands with
  | part ht _ hpt hstart =>
    rw [ht] at htask
    exact ⟨hadm, hstart ▸ h.safe, by rw [hpt, hstart]; exact htask, Nat.le_refl _, nofun⟩
  | call _ hf hargs hpt hstart =>
    refine ⟨hadm, hstart ▸ h.safe, ?_, Nat.le_refl _, nofun⟩
    rw [hpt]
    exact ⟨(h.got _ hf).1, fun a ha => ⟨(h.got a (hargs a ha)).1, (h.got a (hargs a ha)).2.1⟩⟩
  | @body id ps b i args ht hpt hstart =>
    rw [ht] at htask
    obtain ⟨hf, hargs⟩ := htask
    have hbindings : ∀ b ∈ Bindings.ofArguments ps args [], c.Accepts b.2 ∧ c.stored b.2 := by
      intro b hb
      have hstored := h.admits q .self b.2 (.passed ht hp hb)
      rcases Bindings.mem_ofArguments hb with hb | hb
      · exact ⟨(hargs _ hb).1, hstored (hargs _ hb).2⟩
      · rw [hb] at hstored ⊢
        exact ⟨accepts_null, hstored rfl⟩
    refine ⟨hadm, hstart ▸ h.safe.addInner (hf.allows.frame _ _ _ _ rfl) hbindings, ?_,
      Nat.le_refl _, nofun⟩
    rw [hpt, hstart]
    exact ⟨h.safe.fresh _ (Nat.le_refl _), by rw [s.nextFrame_addInner]; exact Nat.lt_succ_self _⟩

theorem accepts_of_plain {v : Value} (h : q.task.Plain v) : c.Accepts v := by
  cases h with
  | null | boolean _ | string _ | literal _ | arithmetic _ | length _ =>
    exact accepts_atom nofun nofun nofun

theorem accepts_of_finds (h : c.Goes q vs s) {v : Value} (hv : q.task.Finds vs v) :
    c.Accepts v := by
  cases hv with
  | given hmem hv => exact (h.task.given _ hmem).of_stores hv
  | indexed _ hmem hv => exact (h.got _ hmem).1.of_stores hv

/-- A collection is accepted once it has been made, as only then its elements are known to be
allowed there. -/
theorem accepts_of_builds (hmarked : ∀ v : Value, v.isError = false → c.marked v)
    (h : c.Goes q vs s) {v : Value} (hv : q.task.Builds vs s.nextId v) (hyields : q.Yields v) :
    c.Accepts v := by
  have hmade : q.task.Makes → ∀ x, v.Stores x → x.isError = false → c.stored x :=
    fun ht x hx => h.admits q .self x (.made ht hyields hx)
  cases hv with
  | array ht hxs =>
    refine accepts_collection (fun x hx => ?_) nofun nofun
    have hgot := h.got x (by
      cases hx with
      | element hmem => exact hxs x hmem)
    exact ⟨hgot.1, hmade (ht ▸ trivial) x hx hgot.2.1⟩
  | hash ht hes =>
    refine accepts_collection (fun x hx => ?_) nofun nofun
    have hgot := h.got x (by
      cases hx with
      | entry hmem => exact (hes _ hmem).1)
    exact ⟨hgot.1, hmade (ht ▸ trivial) x hx hgot.2.1⟩
  | @primitive p args xs ht hxs =>
    have htask := h.task
    rw [ht] at htask
    refine accepts_collection (fun x hx => ?_) nofun nofun
    have hmem : x ∈ xs := by
      cases hx with
      | element hmem => exact hmem
    rcases hxs x hmem with ⟨a, ha, hx⟩ | ⟨rfl, ha⟩
    · exact ⟨(htask.2 a ha).1.of_stores hx, (htask.2 a ha).1.allows.stored x hx⟩
    · exact ⟨(htask.2 x ha).1, hmade (ht ▸ trivial) x hx (htask.2 x ha).2⟩
  | marker _ hmem => exact accepts_returned (h.got _ hmem).1 (hmarked _ (h.got _ hmem).2.1)

/-- What a run does at the end keeps the policy. -/
theorem ends_of_deed (hmarked : ∀ v : Value, v.isError = false → c.marked v) (h : c.Goes q vs s)
    (hdeed : Deed q.task vs s q.outcome) : c.contract.Ends q q.outcome := by
  generalize hout : q.outcome = out at hdeed
  have htask := h.task
  cases hdeed with
  | plain hv => exact ⟨⟨h.safe, h.grows⟩, accepts_of_plain hv⟩
  | passed _ hv => exact ⟨⟨h.safe, h.grows⟩, (h.got _ hv).1⟩
  | unwrapped _ hv => exact ⟨⟨h.safe, h.grows⟩, (h.got _ hv).1.unwrap⟩
  | found hv => exact ⟨⟨h.safe, h.grows⟩, accepts_of_finds h hv⟩
  | built hv => exact ⟨⟨h.safe.takeId, h.grows⟩, accepts_of_builds hmarked h hv ⟨_, hout⟩⟩
  | failed _ => exact ⟨⟨h.safe.takeId, h.grows⟩, accepts_error _ _⟩
  | print => exact ⟨⟨h.safe.print _, h.grows⟩, accepts_null⟩
  | @bind env token id n v ht hv =>
    obtain ⟨hacc, herr, p, hp, hyields⟩ := h.got v hv
    have hstored := h.admits q .self v (.bound ht hp hyields) herr
    refine ⟨⟨h.safe.bind hacc fun _ => hstored, ?_⟩, accepts_null⟩
    rw [s.nextFrame_bind]
    exact h.grows
  | lookUp ht hv =>
    rw [ht] at htask
    exact ⟨⟨h.safe, h.grows⟩, (h.safe.meaning htask.1 hv).1⟩
  | function ht =>
    rw [ht] at htask
    exact ⟨⟨h.safe.takeId, h.grows⟩, accepts_function htask.1⟩

end step

/-- The contract of a policy is kept, if all but errors may be put into markers. -/
theorem kept_contract (hmarked : ∀ v : Value, v.isError = false → c.marked v) :
    c.contract.Kept where
  asks := begins_of_demands
  resumes {q p vs s} h hdemands hp := by
    have hle : s.nextFrame ≤ p.stop.nextFrame :=
      Nat.le_trans (hdemands.rises Store.rises_frames) hp.2
    exact ⟨h.admits, hp.1, h.task.mono hle, Nat.le_trans h.grows hle, h.got⟩
  gets h _ hp hv hacc herr :=
    ⟨h.admits, h.safe, h.task, h.grows, List.forall_mem_cons.mpr ⟨⟨hacc, herr, _, hp, hv⟩, h.got⟩⟩
  stops h := ⟨h.safe, h.grows⟩
  fails h _ := h
  does h := ends_of_deed hmarked h

variable {limit : Nat} {t : Task} {s : Store}

/-- A run that never puts a value where it must not stay keeps the policy, with all runs in it. -/
theorem fits_record (hmarked : ∀ v : Value, v.isError = false → c.marked v) (hs : c.Safe s)
    (ht : c.Asks s t) (hadm : c.Admits (t.record limit s)) :
    ∀ q : Run, q.Within (t.record limit s) → c.Fits q := by
  intro q hq
  obtain ⟨hbegins, hends⟩ := (kept_contract hmarked).within (Run.recorded_record limit t s)
    ⟨hadm, hs, ht, Nat.le_refl _, nofun⟩ hq
  obtain ⟨hsafe, hgrows⟩ := hends.leaves_stop
  exact ⟨hbegins.safe, hbegins.task, hsafe, hgrows, fun v hv => hends.yields_stop hv⟩

end Policy

end MonkeyLang
