import MonkeyLang.Proofs.Store

/-!
Stores that grow. As long as frames are only added, a name goes on to mean what it meant. What is to
be found in a frame is written down as a table of names and values, and each operation on the store
says which table comes out.
-/

namespace MonkeyLang

namespace Bindings

variable {bs : Bindings} {x : String} {v : Value}

/-- What stands once is what is found. -/
theorem value?_of_mem (hnodup : (bs.map Prod.fst).Nodup) (h : (x, v) ∈ bs) :
    bs.value? x = some v := by
  rw [value?, withKey?_of_mem Prod.fst hnodup h]
  rfl

theorem value?_of_notMem (h : x ∉ bs.map Prod.fst) : bs.value? x = none := by
  rw [value?, Option.map_eq_none_iff, withKey?, List.find?_eq_none]
  intro b hb hname
  exact h (of_decide_eq_true hname ▸ List.mem_map_of_mem hb)

theorem value?_bind (y : String) :
    (bs.bind x v).value? y = if x = y then some v else bs.value? y := by
  rw [value?, bind, withKey?_upsert]
  split <;> rfl

end Bindings

namespace Store

variable {s s' s'' : Store} {env : FrameId} {x : String} {v : Value} {table : Bindings}

/-! ## Names after an operation -/

theorem scope_addInner (bs : Bindings) :
    (s.addInner env bs).scope s.nextFrame = s.nextFrame :: s.scope env := by
  rw [scope, s.frame_addInner, if_pos rfl]

/-- The value of a name depends on what the frames of the scope bind it to. -/
theorem value?_congr (hscope : s'.scope env = s.scope env) (hframe : ∀ j ∈ s.scope env,
    (s'.frame j).bindings.value? x = (s.frame j).bindings.value? x) :
    s'.value? env x = s.value? env x := by
  rw [value?, value?, hscope]
  generalize s.scope env = scope at hframe
  induction scope with
  | nil => rfl
  | cons j scope ih =>
    obtain ⟨hj, hscope⟩ := List.forall_mem_cons.mp hframe
    rw [List.findSome?_cons, List.findSome?_cons, hj, ih hscope]

theorem value?_bind_self (henv : env < s.nextFrame) : (s.bind env x v).value? env x = some v := by
  rw [value?, scope_bind, scope, List.findSome?_cons, s.frame_bind, if_pos ⟨rfl, henv⟩,
    Bindings.value?_bind, if_pos rfl]

theorem value?_bind_of_ne {y : String} (hne : x ≠ y) (i : FrameId) :
    (s.bind i x v).value? env y = s.value? env y := by
  refine value?_congr (scope_bind x v) fun j _ => ?_
  rw [s.frame_bind]
  split
  · rw [Bindings.value?_bind, if_neg hne]
  · rfl

/-- Everything is as it was, but frames may have been added and identities given away. -/
structure Extends (s s' : Store) : Prop where
  grows : s.nextFrame ≤ s'.nextFrame
  frame : ∀ i < s.nextFrame, s'.frame i = s.frame i
  functions : s'.functions = s.functions
  printed : s'.printed = s.printed

namespace Extends

theorem refl (s : Store) : s.Extends s := ⟨Nat.le_refl _, fun _ _ => rfl, rfl, rfl⟩

theorem trans (h : s.Extends s') (h' : s'.Extends s'') : s.Extends s'' where
  grows := Nat.le_trans h.grows h'.grows
  frame i hi := (h'.frame i (Nat.lt_of_lt_of_le hi h.grows)).trans (h.frame i hi)
  functions := h'.functions.trans h.functions
  printed := h'.printed.trans h.printed

theorem takeId (s : Store) : s.Extends s.takeId.2 := ⟨Nat.le_refl _, fun _ _ => rfl, rfl, rfl⟩

theorem addInner (s : Store) (i : FrameId) (bs : Bindings) : s.Extends (s.addInner i bs) where
  grows := by rw [nextFrame_addInner]; exact Nat.le_succ _
  frame j hj := by rw [frame_addInner, if_neg (Nat.ne_of_lt hj)]
  functions := rfl
  printed := rfl

/-- A frame that was added later may be written in. -/
theorem bind (h : s.Extends s') {i : FrameId} (hi : s.nextFrame ≤ i) (x : String) (v : Value) :
    s.Extends (s'.bind i x v) where
  grows := by rw [nextFrame_bind]; exact h.grows
  frame j hj := by
    have hne : ¬(j = i ∧ i < s'.nextFrame) := fun heq => Nat.not_lt.mpr hi (heq.1 ▸ hj)
    rw [frame_bind, if_neg hne]
    exact h.frame j hj
  functions := h.functions
  printed := h.printed

theorem scope (h : s.Extends s') (henv : env < s.nextFrame) : s'.scope env = s.scope env := by
  rw [Store.scope, Store.scope, h.frame env henv]

theorem value? (h : s.Extends s') (hmade : ∀ j ∈ s.scope env, j < s.nextFrame) :
    s'.value? env x = s.value? env x :=
  value?_congr (h.scope (hmade env List.mem_cons_self)) fun j hj => by rw [h.frame j (hmade j hj)]

theorem meaning? (h : s.Extends s') (hmade : ∀ j ∈ s.scope env, j < s.nextFrame) :
    s'.meaning? env x = s.meaning? env x := by
  rw [Store.meaning?, Store.meaning?, h.value? hmade, function?, function?, h.functions]

end Extends

/-- A name is looked up in the new frame first, and then as in the frame around it. -/
theorem value?_addInner (bs : Bindings) (hmade : ∀ j ∈ s.scope env, j < s.nextFrame) :
    (s.addInner env bs).value? s.nextFrame x = (bs.value? x).or (s.value? env x) := by
  have hext := Extends.addInner s env bs
  rw [← hext.value? hmade, value?, value?, scope_addInner,
    hext.scope (hmade env List.mem_cons_self), List.findSome?_cons, s.frame_addInner, if_pos rfl]
  cases bs.value? x <;> rfl

/-! ## Tables -/

/-- The frames of the scope have been made, and the names of the table mean these values there. -/
structure Offers (s : Store) (env : FrameId) (table : Bindings) : Prop where
  made : ∀ j ∈ s.scope env, j < s.nextFrame
  meaning : ∀ b ∈ table, s.meaning? env b.1 = some b.2

namespace Offers

theorem lt (h : s.Offers env table) : env < s.nextFrame := h.made env List.mem_cons_self

theorem subset (h : s.Offers env table) {table' : Bindings} (hsub : table' ⊆ table) :
    s.Offers env table' :=
  ⟨h.made, fun b hb => h.meaning b (hsub hb)⟩

theorem mono (h : s.Offers env table) (hext : s.Extends s') : s'.Offers env table where
  made := by
    rw [hext.scope h.lt]
    exact fun j hj => Nat.lt_of_lt_of_le (h.made j hj) hext.grows
  meaning b hb := (hext.meaning? h.made).trans (h.meaning b hb)

/-- In the frame of a call, the parameters mean the arguments, and all other names what they mean in
the frame around it. -/
theorem call (h : s.Offers env table) (ps : List Identifier) (args : List Value)
    (hnodup : (ps.map (·.name)).Nodup) (hlength : args.length = ps.length)
    (hother : ∀ y ∈ table.map Prod.fst, y ∉ ps.map (·.name)) :
    (s.addInner env (Bindings.ofArguments ps args [])).Offers s.nextFrame
      ((ps.map (·.name)).zip args ++ table) := by
  have hkeys : ((ps.map (·.name)).zip args).map Prod.fst = ps.map (·.name) :=
    List.map_fst_zip (by simp [hlength])
  have hbs : Bindings.ofArguments ps args [] = (ps.map (·.name)).zip args :=
    Bindings.ofArguments_of_nodup hnodup hlength
  rw [hbs]
  constructor
  · rw [scope_addInner, nextFrame_addInner, List.forall_mem_cons]
    exact ⟨Nat.lt_succ_self _, fun j hj => Nat.lt_succ_of_lt (h.made j hj)⟩
  · intro b hb
    rw [meaning?, value?_addInner _ h.made]
    rcases List.mem_append.mp hb with hb | hb
    · rw [Bindings.value?_of_mem (by rwa [hkeys]) hb]
      rfl
    · have hnot := hother b.1 (List.mem_map_of_mem hb)
      rw [Bindings.value?_of_notMem (by rwa [hkeys]), Option.none_or]
      exact h.meaning b hb

/-- Other names go on to mean what they mean when a name is bound, in whatever frame. -/
theorem bind_other (h : s.Offers env table) (i : FrameId) (v : Value)
    (hx : x ∉ table.map Prod.fst) : (s.bind i x v).Offers env table where
  made := by
    rw [scope_bind, nextFrame_bind]
    exact h.made
  meaning b hb := by
    have hne : x ≠ b.1 := fun heq => hx (heq ▸ List.mem_map_of_mem hb)
    rw [meaning?, value?_bind_of_ne hne]
    exact h.meaning b hb

/-- A name that is bound in a frame is added to what is to be found there. -/
theorem bind (h : s.Offers env table) (v : Value) (hx : x ∉ table.map Prod.fst) :
    (s.bind env x v).Offers env ((x, v) :: table) where
  made := (h.bind_other env v hx).made
  meaning := by
    refine List.forall_mem_cons.mpr ⟨?_, (h.bind_other env v hx).meaning⟩
    rw [meaning?, value?_bind_self h.lt]
    rfl

end Offers

end Store

end MonkeyLang
