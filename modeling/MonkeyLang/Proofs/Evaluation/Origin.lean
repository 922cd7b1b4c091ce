import MonkeyLang.Proofs.Evaluation.Trail
import MonkeyLang.Proofs.Evaluation.Discipline
import MonkeyLang.Proofs.Evaluation.Frames
import MonkeyLang.Proofs.Policy

/-!
Where the runs in an evaluation and the functions in it come from. A run on a tree is at a place of
the program: below the place of the run that asked for it, or, if it is on the body of a function,
below the literal that has made the function, wherever the function went in between. If no function
can be reached when the evaluation begins, then every run on a tree has such a place, and every
function that is handled was made by a literal of the program.
-/

namespace MonkeyLang

/-! ## The order of the stores -/

/-- A later store: no frame is lost, and all have the outer frames that they had. -/
def Store.Grows (s s' : Store) : Prop := s.ChangesOnly (fun _ => True) s'

namespace Store.Grows

variable {s s' s'' : Store}

theorem trans (h : s.Grows s') (h' : s'.Grows s'') : s.Grows s'' := ChangesOnly.trans h h'

theorem depth (h : s.Grows s') {i : FrameId} (hi : i < s.nextFrame) : s'.depth i = s.depth i :=
  congrArg List.length (h.enclosing i hi)

end Store.Grows

theorem Store.rises_grows : Store.Rises Store.Grows where
  refl s := .refl s
  trans := .trans
  takeId _ := .of_frames rfl
  print _ _ := .of_frames rfl
  bind s i x v := (Store.ChangesOnly.bind s i x v).mono fun _ _ => trivial
  addInner _ _ _ := .of_addInner (.refl _)

namespace Run

variable {r p q : Run}

theorem Recorded.grows (hr : r.Recorded) : r.start.Grows r.stop := hr.rises Store.rises_grows

theorem Recorded.grows_within (hr : r.Recorded) (hq : q.Within r) :
    r.start.Grows q.start ∧ q.stop.Grows r.stop :=
  hr.rises_within Store.rises_grows hq

/-! ## Places -/

/-- In the course of `r` the run `q` is the evaluation of a tree that stands in the program below
the nodes `above`, the nearest first: it is the tree that `r` began with, a part of such a tree, or
the body of a function that an evaluation of its literal has made. -/
inductive Evaluates (r : Run) : Run → List Node → Prop
  | root : Evaluates r r []
  | part {q p : Run} {env env' : FrameId} {n e : Node} {above : List Node} : Evaluates r q above →
      q.task = .node env n → p ∈ q.parts → p.task = .node env' e → Evaluates r p (n :: above)
  | body {q c p : Run} {env i : FrameId} {token : Token} {ps : List Identifier} {b : Node}
      {id : Nat} {args : List Value} {above : List Node} : Evaluates r q above →
      q.task = .node env (.function token ps b) → q.Yields (.function id ps b i) →
      c.Within r → c.task = .call (.function id ps b i) args → p ∈ c.parts →
      Evaluates r p (.function token ps b :: above)

theorem Evaluates.within {above : List Node} (h : r.Evaluates q above) : q.Within r := by
  induction h with
  | root => exact .self
  | part _ _ hp _ ih => exact (Within.part hp .self).trans ih
  | body _ _ _ hc _ hp _ => exact (Within.part hp .self).trans hc

/-- In the course of `r` the function was made by a literal that stands in the program below the
nodes `above`. -/
inductive Makes (r : Run) : Value → List Node → Prop
  | literal {q : Run} {i : FrameId} {token : Token} {ps : List Identifier} {b : Node} {id : Nat}
      {above : List Node} : r.Evaluates q above → q.task = .node i (.function token ps b) →
      q.Yields (.function id ps b i) → Makes r (.function id ps b i) above

/-- What the evaluation of a function literal yields is a function that keeps its frame. -/
theorem Recorded.yields_function (hr : r.Recorded) {env : FrameId} {token : Token}
    {ps : List Identifier} {b : Node} {v : Value}
    (htask : r.task = .node env (.function token ps b)) (hv : r.Yields v) :
    ∃ id, v = .function id ps b env := by
  obtain ⟨limit, hrec⟩ := hr
  obtain ⟨s, hv⟩ := hv
  rw [hrec, htask] at hv
  cases limit with
  | zero => cases hv
  | succ limit =>
    cases hv
    exact ⟨_, rfl⟩

/-! ## Functions -/

/-- A value as it may be at a time when there are `size` frames: if it is a function, then the
program has made it, in a frame that is there. -/
def Native (r : Run) (sees : FrameId → Prop) (size : Nat) (v : Value) : Prop :=
  ∀ id ps b i, v = .function id ps b i → sees i ∧ i < size ∧ ∃ above, r.Makes v above

/-- Only values may be stored in which all functions are native. -/
def policy (r : Run) (sees : FrameId → Prop) (size : Nat) : Policy where
  frame := sees
  stored v := v.All (r.Native sees size)
  marked _ := True

def Accounts (r : Run) (sees : FrameId → Prop) (s : Store) : Prop :=
  (r.policy sees s.nextFrame).Safe s

variable {sees : FrameId → Prop} {size : Nat} {v : Value} {s s' : Store} {vs : List Value}

theorem Native.mono {size' : Nat} (h : r.Native sees size v) (hle : size ≤ size') :
    r.Native sees size' v := by
  intro id ps b i hv
  obtain ⟨hsees, hlt, hmade⟩ := h id ps b i hv
  exact ⟨hsees, Nat.lt_of_lt_of_le hlt hle, hmade⟩

theorem accepts_of_native (h : v.All (r.Native sees size)) : (r.policy sees size).Accepts v := by
  refine fun u hu => ⟨fun x hx w hw => ?_, fun _ _ _ => trivial, fun id ps b i hf => ?_⟩
  · exact h w (hw.trans ((Value.Part.stored hx .self).trans hu))
  · exact (h u hu id ps b i hf).1

theorem Accounts.of_safe (h : (r.policy sees size).Safe s) (hle : size ≤ s.nextFrame) :
    r.Accounts sees s := by
  have hstored : ∀ v : Value, (r.policy sees size).Accepts v ∧ (r.policy sees size).stored v →
      (r.policy sees s.nextFrame).Accepts v ∧ (r.policy sees s.nextFrame).stored v := by
    rintro v ⟨-, hv⟩
    have hv : v.All (r.Native sees s.nextFrame) := fun u hu => (hv u hu).mono hle
    exact ⟨accepts_of_native hv, hv⟩
  exact ⟨fun i hi b hb => hstored _ (h.bindings i hi b hb), h.enclosing,
    fun b hb => hstored _ (h.functions b hb), h.fresh⟩

/-- What is to be so when a run begins: the store and all that the run is given is accounted for,
and a run on a tree has a place. -/
structure Begins (r : Run) (sees : FrameId → Prop) (q : Run) : Prop where
  store : r.Accounts sees q.start
  given : ∀ v ∈ q.task.given, v.All (r.Native sees q.start.nextFrame)
  frame : ∀ env n, q.task = .node env n → sees env ∧ env < q.start.nextFrame
  place : ∀ env n, q.task = .node env n → ∃ above, r.Evaluates q above

structure Ends (r : Run) (sees : FrameId → Prop) (q : Run) : Prop where
  store : r.Accounts sees q.stop
  value : ∀ v, q.Yields v → v.All (r.Native sees q.stop.nextFrame)

structure Goes (r : Run) (sees : FrameId → Prop) (q : Run) (vs : List Value) (s : Store) :
    Prop where
  within : q.Within r
  begins : r.Begins sees q
  store : r.Accounts sees s
  got : ∀ v ∈ vs, v.All (r.Native sees s.nextFrame)
  grows : q.start.nextFrame ≤ s.nextFrame

def account (r : Run) (sees : FrameId → Prop) : Contract where
  during := r.Goes sees
  leaves q s := r.Accounts sees s ∧ q.start.nextFrame ≤ s.nextFrame
  yields _ s v := v.All (r.Native sees s.nextFrame)

section step

variable (h : r.Goes sees q vs s)

include h

theorem begins_of_demands (hdemands : q.task.Demands vs s p) (hp : p ∈ q.parts) :
    r.Begins sees p := by
  cases hdemands with
  | @part env n e ht he hp' hstart =>
    obtain ⟨hsees, hlt⟩ := h.begins.frame env n ht
    obtain ⟨above, habove⟩ := h.begins.place env n ht
    refine ⟨hstart ▸ h.store, by rw [hp']; nofun, fun env' n' h' => ?_, fun env' n' h' => ?_⟩
    · cases hp'.symm.trans h'
      exact ⟨hsees, hstart ▸ Nat.lt_of_lt_of_le hlt h.grows⟩
    · exact ⟨_, .part habove ht hp h'⟩
  | @call _ _ _ _ f args _ hf hargs hp' hstart =>
    refine ⟨hstart ▸ h.store, ?_, by rw [hp']; nofun, by rw [hp']; nofun⟩
    rw [hp', hstart]
    exact List.forall_mem_cons.mpr ⟨h.got f hf, fun a ha => h.got a (hargs a ha)⟩
  | @body id ps b i args ht hp' hstart =>
    have hgiven := h.begins.given
    rw [ht] at hgiven
    -- the function that is called is native: its literal has a place, and the body is below it
    obtain ⟨hf, hargs⟩ := List.forall_mem_cons.mp hgiven
    obtain ⟨hsees, hlt, above, ⟨habove, htask, hyields⟩⟩ := hf.self id ps b i rfl
    have hframes : s.nextFrame + 1 = p.start.nextFrame := by rw [hstart, s.nextFrame_addInner]
    have hbs : ∀ b ∈ Bindings.ofArguments ps args [], (r.policy sees s.nextFrame).Accepts b.2 ∧
        (r.policy sees s.nextFrame).stored b.2 := by
      intro b hb
      have hb : b.2.All (r.Native sees s.nextFrame) :=
        Bindings.forall_mem_ofArguments (fun a ha u hu => (hargs a ha u hu).mono h.grows)
          (Value.all_atom nofun nofun nofun) b hb
      exact ⟨accepts_of_native hb, hb⟩
    refine ⟨.of_safe (hstart ▸ Policy.Safe.addInner h.store hsees hbs) ?_, by rw [hp']; nofun,
      fun env n h' => ?_, fun env n h' => ?_⟩
    · exact Nat.le_of_lt (Nat.lt_of_succ_le (Nat.le_of_eq hframes))
    · cases hp'.symm.trans h'
      exact ⟨h.store.fresh _ (Nat.le_refl _), Nat.lt_of_succ_le (Nat.le_of_eq hframes)⟩
    · cases hp'.symm.trans h'
      exact ⟨_, .body habove htask hyields h.within ht hp⟩

theorem ends_of_deed (hdeed : Deed q.task vs s q.outcome) :
    (r.account sees).Ends q q.outcome := by
  generalize hout : q.outcome = out at hdeed
  have hgiven : ∀ w ∈ q.task.given, w.All (r.Native sees s.nextFrame) :=
    fun w hw u hu => (h.begins.given w hw u hu).mono h.grows
  have hatom : ∀ size, Value.null.All (r.Native sees size) := fun _ =>
    Value.all_atom nofun nofun nofun
  have htakeId : r.Accounts sees s.takeId.2 := Policy.Safe.takeId h.store
  cases hdeed with
  | plain hv =>
    refine ⟨⟨h.store, h.grows⟩, Value.all_of_plain hv ?_⟩
    cases hv <;> exact nofun
  | passed _ hv => exact ⟨⟨h.store, h.grows⟩, h.got _ hv⟩
  | unwrapped _ hv => exact ⟨⟨h.store, h.grows⟩, (h.got _ hv).unwrap⟩
  | found hv => exact ⟨⟨h.store, h.grows⟩, Value.all_of_finds hgiven h.got hv⟩
  | built hv =>
    refine ⟨⟨htakeId, h.grows⟩, Value.all_of_builds hgiven h.got hv ?_⟩
    cases hv <;> exact nofun
  | failed _ => exact ⟨⟨htakeId, h.grows⟩, Value.all_atom nofun nofun nofun⟩
  | print => exact ⟨⟨Policy.Safe.print h.store _, h.grows⟩, hatom _⟩
  | @bind env token id n v ht hv =>
    have hsize := s.nextFrame_bind env id.name v
    refine ⟨⟨.of_safe (Policy.Safe.bind h.store (accepts_of_native (h.got v hv))
      fun _ => h.got v hv) (Nat.le_of_eq hsize.symm), ?_⟩, hatom _⟩
    rw [hsize]
    exact h.grows
  | lookUp ht hv =>
    exact ⟨⟨h.store, h.grows⟩, (Policy.Safe.meaning h.store (h.begins.frame _ _ ht).1 hv).2⟩
  | @function env token ps b ht =>
    refine ⟨⟨htakeId, h.grows⟩, Value.all_atom ?_ nofun nofun⟩
    intro id ps' b' i hf
    cases hf
    obtain ⟨hsees, hlt⟩ := h.begins.frame _ _ ht
    obtain ⟨above, habove⟩ := h.begins.place _ _ ht
    exact ⟨hsees, Nat.lt_of_lt_of_le hlt h.grows, above, habove, ht, _, hout⟩

end step

theorem kept_account : (r.account sees).Kept where
  asks h hdemands hp := by
    have hbegins := begins_of_demands h hdemands hp
    exact ⟨(Within.part hp .self).trans h.within, hbegins, hbegins.store, nofun, Nat.le_refl _⟩
  resumes h hdemands hp := by
    have hle := Nat.le_trans (hdemands.rises Store.rises_frames) hp.2
    exact ⟨h.within, h.begins, hp.1, fun v hv u hu => (h.got v hv u hu).mono hle,
      Nat.le_trans h.grows hle⟩
  gets h _ _ _ hv _ := ⟨h.within, h.begins, h.store, List.forall_mem_cons.mpr ⟨hv, h.got⟩, h.grows⟩
  stops h := ⟨h.store, h.grows⟩
  fails h _ := h
  does := ends_of_deed

/-- If all is accounted for when a run begins, it is so in all runs that are in it. -/
theorem Recorded.accounts (hr : r.Recorded) (hroot : r.Begins sees r) (hq : q.Within r) :
    r.Begins sees q ∧ r.Ends sees q := by
  obtain ⟨hbegins, hends⟩ := kept_account.within hr
    ⟨.self, hroot, hroot.store, nofun, Nat.le_refl _⟩ hq
  exact ⟨hbegins.begins, hends.leaves_stop.1, fun v hv => hends.yields_stop hv⟩

theorem Recorded.begins (hr : r.Recorded) (hroot : r.Begins sees r) (hq : q.Within r) :
    r.Begins sees q :=
  (hr.accounts hroot hq).1

theorem Recorded.ends (hr : r.Recorded) (hroot : r.Begins sees r) (hq : q.Within r) :
    r.Ends sees q :=
  (hr.accounts hroot hq).2

/-- An evaluation begins well in an environment from which no function can be reached, with just
the primitives known everywhere. -/
theorem begins_of_holds {env : FrameId} {n : Node} (htask : r.task = .node env n)
    (hfunctions : r.start.functions = Store.empty.functions) (henv : env < r.start.nextFrame)
    (hfree : ∀ id ps b i, ¬r.start.Holds env (.function id ps b i)) :
    r.Begins (r.start.Sees env) r := by
  refine ⟨Policy.safe_of_holds rfl (fun u hu w hw id ps b i hf => ?_) (fun _ _ _ => trivial)
    (fun p => Value.all_atom nofun nofun nofun) hfunctions, by rw [htask]; nofun,
    fun env' n' h => ?_, fun _ _ _ => ⟨[], .root⟩⟩
  · exact absurd (hu.part (hf ▸ hw)) (hfree id ps b i)
  · cases htask.symm.trans h
    exact ⟨.inl .self, henv⟩

end Run

end MonkeyLang
