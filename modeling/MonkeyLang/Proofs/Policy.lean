import MonkeyLang.Proofs.Evaluation
import MonkeyLang.Proofs.Value

/-!
Policies: which values may be put where they stay, under a name, into an array or into a hash, and
which may be put into a return marker. A store is safe when all frames that can be seen hold only
what they may.
-/

namespace MonkeyLang

/-- Which frames an evaluation sees, which values may be put where they stay, and which may be put
into return markers. -/
structure Policy where
  frame : FrameId → Prop
  stored : Value → Prop
  marked : Value → Prop

namespace Policy

variable (c : Policy)

structure Allows (v : Value) : Prop where
  stored : ∀ x, v.Stores x → c.stored x
  marked : ∀ id x, v = .returned id x → c.marked x
  frame : ∀ id ps body i, v = .function id ps body i → c.frame i

def Accepts (v : Value) : Prop := ∀ u, u.Part v → c.Allows u

/-- The frames that are seen hold only what they may, and see no other frames. -/
structure Safe (s : Store) : Prop where
  bindings : ∀ i, c.frame i → ∀ b ∈ (s.frame i).bindings, c.Accepts b.2 ∧ c.stored b.2
  enclosing : ∀ i, c.frame i → ∀ j ∈ (s.frame i).enclosing, c.frame j
  functions : ∀ b ∈ s.functions, c.Accepts b.2 ∧ c.stored b.2
  fresh : ∀ i, s.nextFrame ≤ i → c.frame i

/-- A task that is asked for in a store: in a frame that is there and is seen, or with arguments
that are no errors. -/
def Asks (s : Store) : Task → Prop
  | .node env _ => c.frame env ∧ env < s.nextFrame
  | .call f args => c.Accepts f ∧ ∀ a ∈ args, c.Accepts a ∧ a.isError = false

variable {c}

/-! ## Values -/

theorem Accepts.allows {v : Value} (h : c.Accepts v) : c.Allows v := h v .self

theorem Accepts.of_stores {v x : Value} (h : c.Accepts v) (hx : v.Stores x) : c.Accepts x :=
  fun u hu => h u (.stored hx hu)

theorem Accepts.of_returned {id : Nat} {x : Value} (h : c.Accepts (.returned id x)) : c.Accepts x :=
  fun u hu => h u (.marked hu)

theorem Accepts.unwrap {v : Value} (h : c.Accepts v) : c.Accepts v.unwrap := by
  cases v with
  | returned id x => exact h.of_returned
  | _ => exact h

/-- A value that holds nothing is accepted. -/
theorem accepts_atom {v : Value} (hs : ∀ x, ¬v.Stores x) (hm : ∀ id x, v ≠ .returned id x)
    (hf : ∀ id ps body i, v ≠ .function id ps body i) : c.Accepts v := by
  intro u hu
  cases hu with
  | self => exact ⟨fun x h => absurd h (hs x), fun id x h => absurd h (hm id x),
      fun id ps body i h => absurd h (hf id ps body i)⟩
  | stored h _ => exact absurd h (hs _)
  | marked _ => exact absurd rfl (hm _ _)

theorem accepts_null : c.Accepts .null :=
  accepts_atom nofun nofun nofun

theorem accepts_error (id : Nat) (f : Failure) : c.Accepts (.error id f) :=
  accepts_atom nofun nofun nofun

theorem accepts_function {id : Nat} {ps : List Identifier} {body : Node} {i : FrameId}
    (hi : c.frame i) : c.Accepts (.function id ps body i) := by
  intro u hu
  cases hu with
  | self => exact ⟨nofun, nofun, fun _ _ _ _ h => by cases h; exact hi⟩
  | stored h _ => cases h

theorem accepts_returned {id : Nat} {x : Value} (hx : c.Accepts x) (hm : c.marked x) :
    c.Accepts (.returned id x) := by
  intro u hu
  cases hu with
  | self => exact ⟨nofun, fun _ _ h => by cases h; exact hm, nofun⟩
  | stored h _ => cases h
  | marked h => exact hx u h

/-- A collection is accepted once its content is, and may be there. -/
theorem accepts_collection {v : Value} (hv : ∀ x, v.Stores x → c.Accepts x ∧ c.stored x)
    (hm : ∀ id x, v ≠ .returned id x) (hf : ∀ id ps body i, v ≠ .function id ps body i) :
    c.Accepts v := by
  intro u hu
  cases hu with
  | self => exact ⟨fun x h => (hv x h).2, fun id x h => absurd h (hm id x),
      fun id ps body i h => absurd h (hf id ps body i)⟩
  | stored h h' => exact (hv _ h).1 u h'
  | marked _ => exact absurd rfl (hm _ _)

/-- What occurs in a value that may be stored may be stored too, if a marker that may be stored
holds nothing else. -/
theorem Accepts.stored_of_part (hmark : ∀ id x, c.stored (.returned id x) → c.marked x → c.stored x)
    {u v : Value} (hu : u.Part v) (hv : c.Accepts v) (hs : c.stored v) : c.stored u := by
  induction hu with
  | self => exact hs
  | stored hx _ ih => exact ih (hv.of_stores hx) (hv.allows.stored _ hx)
  | marked _ ih => exact ih hv.of_returned (hmark _ _ hs (hv.allows.marked _ _ rfl))

/-! ## Stores -/

section Safe

variable {s : Store} {i : FrameId}

theorem Safe.print (h : c.Safe s) (lines : List String) : c.Safe (s.print lines) :=
  ⟨h.bindings, h.enclosing, h.functions, h.fresh⟩

theorem Safe.takeId (h : c.Safe s) : c.Safe s.takeId.2 :=
  ⟨h.bindings, h.enclosing, h.functions, h.fresh⟩

theorem Safe.scope (h : c.Safe s) (hi : c.frame i) : ∀ j ∈ s.scope i, c.frame j := by
  intro j hj
  rcases List.mem_cons.mp hj with rfl | hj
  · exact hi
  · exact h.enclosing i hi j hj

theorem Safe.meaning (h : c.Safe s) (hi : c.frame i) {x : String} {v : Value}
    (hv : s.meaning? i x = some v) : c.Accepts v ∧ c.stored v := by
  rcases s.exists_mem_of_meaning? i hv with ⟨j, hj, b, hb, rfl⟩ | ⟨b, hb, rfl⟩
  · exact h.bindings j (h.scope hi j hj) b hb
  · exact h.functions b hb

theorem Safe.bind (h : c.Safe s) {x : String} {v : Value} (hv : c.Accepts v)
    (hs : i < s.nextFrame → c.stored v) : c.Safe (s.bind i x v) where
  bindings j hj b hb := by
    rcases Store.mem_bindings_bind hb with ⟨rfl, hi⟩ | hb
    · exact ⟨hv, hs hi⟩
    · exact h.bindings j hj b hb
  enclosing j hj k hk := h.enclosing j hj k (by rwa [Store.enclosing_bind] at hk)
  functions := h.functions
  fresh j hj := h.fresh j (by simpa using hj)

theorem Safe.addInner (h : c.Safe s) (hi : c.frame i) {bs : Bindings}
    (hbs : ∀ b ∈ bs, c.Accepts b.2 ∧ c.stored b.2) : c.Safe (s.addInner i bs) where
  bindings j hj b hb := by
    rcases Store.mem_bindings_addFrame hb with hb | hb
    · exact hbs b hb
    · exact h.bindings j hj b hb
  enclosing j hj k hk := by
    rcases Store.mem_enclosing_addFrame hk with hk | hk
    · exact h.scope hi k hk
    · exact h.enclosing j hj k hk
  functions := h.functions
  fresh j hj := h.fresh j (Nat.le_of_succ_le (by rwa [s.nextFrame_addInner] at hj))

theorem Asks.mono {s' : Store} {t : Task} (h : c.Asks s t) (hle : s.nextFrame ≤ s'.nextFrame) :
    c.Asks s' t := by
  cases t with
  | node env n => exact ⟨h.1, Nat.lt_of_lt_of_le h.2 hle⟩
  | call f args => exact h

end Safe

end Policy

/-! ## What an environment sees -/

namespace Store

/-- Frame `j` is reached from frame `i`: through the frames around it, and from a function that is
bound in a frame to the frame that the function was made in. -/
inductive Reaches (s : Store) (i : FrameId) : FrameId → Prop
  | self : Reaches s i i
  | enclosing {j k : FrameId} : Reaches s i j → k ∈ (s.frame j).enclosing → Reaches s i k
  | closure {j k : FrameId} {b : String × Value} {id : Nat} {ps : List Identifier} {body : Node} :
      Reaches s i j → b ∈ (s.frame j).bindings → (Value.function id ps body k).Part b.2 →
      Reaches s i k

/-- A value can be reached from frame `i`: it occurs in what some frame binds that is reached. -/
def Holds (s : Store) (i : FrameId) (u : Value) : Prop :=
  ∃ j, s.Reaches i j ∧ ∃ b ∈ (s.frame j).bindings, u.Part b.2

/-- The frames that an evaluation in `env` which begins in this store can come to see: those that
are reached from `env`, and those that are made later. -/
def Sees (s : Store) (env i : FrameId) : Prop := s.Reaches env i ∨ s.nextFrame ≤ i

theorem Holds.part {s : Store} {i : FrameId} {u v : Value} (h : s.Holds i v) (hu : u.Part v) :
    s.Holds i u := by
  obtain ⟨j, hj, b, hb, hv⟩ := h
  exact ⟨j, hj, b, hb, hu.trans hv⟩

/-- Nothing can be reached in a fresh environment. -/
theorem not_holds_fresh (i : FrameId) (u : Value) : ¬Store.empty.addGlobal.Holds i u := by
  rintro ⟨j, -, b, hb, -⟩
  cases j with
  | zero => cases hb
  | succ j =>
    rw [frame_of_le _ _ (Nat.le_add_left 1 j)] at hb
    cases hb

end Store

namespace Policy

variable {c : Policy} {s : Store} {env i : FrameId}

/-- A store is safe if the policy is about the frames that an environment sees and allows all
values that can be reached from it. -/
theorem safe_of_holds (hframe : c.frame = s.Sees env)
    (hstored : ∀ u, s.Holds env u → c.stored u)
    (hmarked : ∀ id x, s.Holds env (.returned id x) → c.marked x)
    (hprimitive : ∀ p, c.stored (.builtin p)) (hfunctions : s.functions = Store.empty.functions) :
    c.Safe s where
  bindings j hj b hb := by
    rw [hframe] at hj
    rcases hj with hj | hj
    · refine ⟨fun u hu => ⟨fun x hx => ?_, fun id x hx => ?_, fun id ps body k hk => ?_⟩, ?_⟩
      · exact hstored x ⟨j, hj, b, hb, (Value.Part.stored hx .self).trans hu⟩
      · exact hmarked id x ⟨j, hj, b, hb, hx ▸ hu⟩
      · rw [hframe]
        exact .inl (.closure hj hb (hk ▸ hu))
      · exact hstored b.2 ⟨j, hj, b, hb, .self⟩
    · rw [s.frame_of_le j hj] at hb
      cases hb
  enclosing j hj k hk := by
    rw [hframe] at hj ⊢
    rcases hj with hj | hj
    · exact .inl (.enclosing hj hk)
    · rw [s.frame_of_le j hj] at hk
      cases hk
  functions b hb := by
    rw [hfunctions] at hb
    obtain ⟨p, -, rfl⟩ := List.mem_map.mp hb
    exact ⟨accepts_atom nofun nofun nofun, hprimitive p⟩
  fresh j hj := by
    rw [hframe]
    exact .inr hj

theorem Safe.frame_of_reaches (h : c.Safe s) (hi : c.frame i) {j : FrameId} (hj : s.Reaches i j) :
    c.frame j := by
  induction hj with
  | self => exact hi
  | enclosing _ hk ih => exact h.enclosing _ ih _ hk
  | closure _ hb hpart ih => exact ((h.bindings _ ih _ hb).1 _ hpart).frame _ _ _ _ rfl

/-- All that can be reached in a safe store may be stored. -/
theorem Safe.stored_of_holds (h : c.Safe s) (hi : c.frame i)
    (hmark : ∀ id x, c.stored (.returned id x) → c.marked x → c.stored x) {u : Value}
    (hu : s.Holds i u) : c.stored u := by
  obtain ⟨j, hj, b, hb, hpart⟩ := hu
  obtain ⟨hacc, hstored⟩ := h.bindings j (h.frame_of_reaches hi hj) b hb
  exact hacc.stored_of_part hmark hpart hstored

end Policy

end MonkeyLang
