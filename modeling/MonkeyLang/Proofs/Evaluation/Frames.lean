import MonkeyLang.Proofs.Evaluation.Contract

/-!
What an evaluation changes of the frames that it finds. A `let` writes into the frame that the
evaluation takes place in, and nothing else writes at all: a call makes a frame of its own, and all
that its body binds goes there.
-/

namespace MonkeyLang

/-- On the way from `s` to `s'` nothing was written but in frames of `touched`: no frame is lost,
those outside of `touched` are as they were, and all have the outer frames and the names that they
had, where new names come last. -/
structure Store.ChangesOnly (touched : FrameId → Prop) (s s' : Store) : Prop where
  grows : s.nextFrame ≤ s'.nextFrame
  frame : ∀ i < s.nextFrame, ¬touched i → s'.frame i = s.frame i
  enclosing : ∀ i < s.nextFrame, (s'.frame i).enclosing = (s.frame i).enclosing
  names : ∀ i < s.nextFrame, s.names i <+: s'.names i

namespace Store.ChangesOnly

variable {touched : FrameId → Prop} {s s' s'' : Store}

theorem of_frames (h : s'.frames = s.frames) : s.ChangesOnly touched s' := by
  have hframe : ∀ i, s'.frame i = s.frame i := fun i => by rw [Store.frame, Store.frame, h]
  refine ⟨Nat.le_of_eq ?_, fun i _ _ => hframe i, fun i _ => by rw [hframe], fun i _ => ?_⟩
  · rw [nextFrame, nextFrame, h]
  · have hnames : s'.names i = s.names i := by rw [Store.names, Store.names, hframe]
    exact hnames ▸ List.prefix_refl _

theorem refl (s : Store) : s.ChangesOnly touched s := of_frames rfl

theorem trans (h : s.ChangesOnly touched s') (h' : s'.ChangesOnly touched s'') :
    s.ChangesOnly touched s'' where
  grows := Nat.le_trans h.grows h'.grows
  frame i hi hout := (h'.frame i (Nat.lt_of_lt_of_le hi h.grows) hout).trans (h.frame i hi hout)
  enclosing i hi := (h'.enclosing i (Nat.lt_of_lt_of_le hi h.grows)).trans (h.enclosing i hi)
  names i hi := (h.names i hi).trans (h'.names i (Nat.lt_of_lt_of_le hi h.grows))

theorem mono {touched' : FrameId → Prop} (h : s.ChangesOnly touched s')
    (himp : ∀ i, touched i → touched' i) : s.ChangesOnly touched' s' where
  grows := h.grows
  frame i hi hout := h.frame i hi fun ht => hout (himp i ht)
  enclosing := h.enclosing
  names := h.names

/-- A binding is put in place of the one of the same name, or behind all others. -/
theorem bind (s : Store) (env : FrameId) (x : String) (v : Value) :
    s.ChangesOnly (· = env) (s.bind env x v) where
  grows := Nat.le_of_eq (s.nextFrame_bind env x v).symm
  frame i _ hi := by rw [s.frame_bind, if_neg fun h => hi h.1]
  enclosing i _ := Store.enclosing_bind x v
  names i _ := by
    unfold Store.names
    rw [s.frame_bind]
    split
    · rw [Bindings.bind, map_key_upsert]
      split
      · exact List.prefix_refl _
      · exact List.prefix_append _ _
    · exact List.prefix_refl _

/-- What happens in a new frame changes none of those that were there before it. -/
theorem of_addInner {env : FrameId} {bs : Bindings}
    (h : (s.addInner env bs).ChangesOnly (· = s.nextFrame) s') : s.ChangesOnly touched s' := by
  have hsize := s.nextFrame_addInner env bs
  have hlt : ∀ i < s.nextFrame, i < (s.addInner env bs).nextFrame := fun i hi => by
    rw [hsize]
    exact Nat.lt_succ_of_lt hi
  have hold : ∀ i < s.nextFrame, s'.frame i = s.frame i := fun i hi => by
    rw [h.frame i (hlt i hi) (Nat.ne_of_lt hi), s.frame_addInner, if_neg (Nat.ne_of_lt hi)]
  refine ⟨?_, fun i hi _ => hold i hi, fun i hi => by rw [hold i hi], fun i hi => ?_⟩
  · exact Nat.le_trans (Nat.le_succ _) (Nat.le_trans (Nat.le_of_eq hsize.symm) h.grows)
  · have hnames : s'.names i = s.names i := by rw [Store.names, Store.names, hold i hi]
    exact hnames ▸ List.prefix_refl _

end Store.ChangesOnly

/-- The store that a computation leaves behind, whether it gives a value or is cut off. -/
def Eval.leaves {α : Type} (x : Eval α) (s : Store) : Store :=
  match x s with
  | .ok _ s' | .error _ s' => s'

theorem Run.stop_record (limit : Nat) (t : Task) (s : Store) :
    (t.record limit s).stop = (t.eval limit).leaves s := by
  rw [Run.stop, Task.record_outcome, Eval.leaves]
  rcases t.eval limit s with ⟨v, s'⟩ | ⟨e, s'⟩ <;> rfl

/-- The frames that a task may write in of those that it finds. -/
def Task.writes : Task → FrameId → Prop
  | node env _ => (· = env)
  | call _ _ => fun _ => False

/-- What a run asks for writes in no other frame that was there than the run itself may. -/
theorem Task.Demands.changesOnly {t : Task} {vs : List Value} {s s' : Store} {p : Run}
    (h : t.Demands vs s p) (hp : p.start.ChangesOnly p.task.writes s') :
    s.ChangesOnly t.writes s' := by
  cases h with
  | part ht _ hpt hstart =>
    rw [hpt, hstart] at hp
    exact ht ▸ hp
  | call _ _ _ hpt hstart =>
    rw [hpt, hstart] at hp
    exact hp.mono fun _ => False.elim
  | body _ hpt hstart =>
    rw [hpt, hstart] at hp
    exact .of_addInner hp

namespace Contract

def confined : Contract where
  during q _ s := q.start.ChangesOnly q.task.writes s
  leaves q s := q.start.ChangesOnly q.task.writes s
  yields _ _ _ := True

theorem kept_confined : confined.Kept where
  asks _ _ _ := .refl _
  resumes h hdemands hp := h.trans (hdemands.changesOnly hp)
  gets h _ _ _ _ _ := h
  stops h := h
  fails _ _ := trivial
  does {q vs s} h hdeed := by
    generalize q.outcome = out at hdeed ⊢
    cases hdeed with
    | plain _ | passed _ _ | unwrapped _ _ | found _ | lookUp _ _ => exact ⟨h, trivial⟩
    | built _ | failed _ | function _ | print => exact ⟨h.trans (.of_frames rfl), trivial⟩
    | bind ht _ =>
      refine ⟨h.trans ?_, trivial⟩
      rw [ht]
      exact .bind s _ _ _

end Contract

theorem Task.changesOnly_record (t : Task) (limit : Nat) (s : Store) :
    s.ChangesOnly t.writes (t.record limit s).stop :=
  have hbegins : Contract.confined.Begins (t.record limit s) := .refl s
  (Contract.kept_confined.ends (Run.recorded_record limit t s) hbegins).1.leaves_stop

/-- Whatever is evaluated, only the frame that it is evaluated in is changed, and that one loses no
name; and a call changes no frame that was there before it. -/
theorem eval_changes_only (limit : Nat) (s : Store) :
    (∀ env n, s.ChangesOnly (· = env) ((eval limit env n).leaves s)) ∧
      ∀ f args, s.ChangesOnly (fun _ => False) ((apply limit f args).leaves s) :=
  have h : ∀ t : Task, s.ChangesOnly t.writes ((t.eval limit).leaves s) := fun t =>
    Run.stop_record limit t s ▸ t.changesOnly_record limit s
  ⟨fun env n => h (.node env n), fun f args => h (.call f args)⟩

end MonkeyLang
