import MonkeyLang.Proofs.Upsert
import MonkeyLang.Store

/-!
What the operations on a store leave of its frames, where a value that was looked up comes from, and
which arguments the parameters of a call are bound to.
-/

namespace MonkeyLang

namespace Bindings

theorem mem_bind {bs : Bindings} {x : String} {v : Value} {b : String × Value}
    (h : b ∈ bs.bind x v) : b = (x, v) ∨ b ∈ bs :=
  mem_upsert h

theorem exists_mem_of_value? {bs : Bindings} {x : String} {v : Value} (h : bs.value? x = some v) :
    ∃ b ∈ bs, b.2 = v := by
  obtain ⟨b, hb, rfl⟩ := Option.map_eq_some_iff.mp h
  exact ⟨b, withKey?_mem hb, rfl⟩

/-- What stands under a name is what was put there last. -/
theorem value?_tabulate {bs : Bindings} {x : String} {v : Value} :
    value? (tabulate Prod.fst bs) x = some v ↔ LastWith Prod.fst x (x, v) bs := by
  rw [value?, Option.map_eq_some_iff]
  constructor
  · rintro ⟨⟨y, w⟩, hfound, rfl⟩
    have hlast := (withKey?_tabulate _ _ _ _).mp hfound
    obtain ⟨before, after, -, rfl, -⟩ := id hlast
    exact hlast
  · exact fun hlast => ⟨(x, v), (withKey?_tabulate _ _ _ _).mpr hlast, rfl⟩

theorem value?_tabulate_eq_none {bs : Bindings} {x : String} :
    value? (tabulate Prod.fst bs) x = none ↔ ∀ b ∈ bs, b.1 ≠ x := by
  rw [value?, Option.map_eq_none_iff, withKey?_tabulate_eq_none]

/-! ## Parameters -/

section parameters

variable {ps : List Identifier} {args : List Value}

/-- So many arguments: those beyond are cut off, and null stands for each that is missing. -/
def fitted (n : Nat) (args : List Value) : List Value :=
  args.take n ++ List.replicate (n - args.length) .null

theorem length_fitted (n : Nat) (args : List Value) : (fitted n args).length = n := by
  rw [fitted, List.length_append, List.length_take, List.length_replicate]
  omega

theorem fitted_of_length {n : Nat} (h : args.length = n) :
    fitted n args = args := by
  rw [fitted, ← h, List.take_length, Nat.sub_self, List.replicate_zero, List.append_nil]

theorem fitted_succ (n : Nat) (args : List Value) :
    fitted (n + 1) args = args.headD .null :: fitted n args.tail := by
  cases args with
  | nil => simp [fitted, List.replicate_succ]
  | cons a args => simp [fitted]

theorem getElem?_fitted {n i : Nat} (args : List Value) (h : i < n) :
    (fitted n args)[i]? = some (args.getD i .null) := by
  induction n generalizing i args with
  | zero => omega
  | succ n ih =>
    rw [fitted_succ]
    cases i with
    | zero => cases args <;> rfl
    | succ i =>
      rw [List.getElem?_cons_succ, ih args.tail (by omega)]
      cases args <;> rfl

theorem mem_fitted {n : Nat} {v : Value} (h : v ∈ fitted n args) : v ∈ args ∨ v = .null := by
  rcases List.mem_append.mp h with h | h
  · exact .inl (List.mem_of_mem_take h)
  · exact .inr (List.eq_of_mem_replicate h)

/-- The parameters and the fitted arguments are bound in pairs, one after another. -/
theorem ofArguments_eq_foldl (ps : List Identifier) (args : List Value) (bs : Bindings) :
    ofArguments ps args bs =
      ((ps.map (·.name)).zip (fitted ps.length args)).foldl
        (fun bs b => upsert Prod.fst b bs) bs := by
  induction ps generalizing args bs with
  | nil => rfl
  | cons p ps ih =>
    rw [ofArguments, ih, List.length_cons, fitted_succ]
    rfl

theorem ofArguments_eq_tabulate (ps : List Identifier) (args : List Value) :
    ofArguments ps args [] = tabulate Prod.fst ((ps.map (·.name)).zip (fitted ps.length args)) :=
  ofArguments_eq_foldl ps args []

theorem mem_ofArguments {b : String × Value} (h : b ∈ ofArguments ps args []) :
    b.2 ∈ args ∨ b.2 = .null := by
  rw [ofArguments_eq_tabulate] at h
  exact mem_fitted (List.of_mem_zip (mem_of_mem_tabulate Prod.fst h)).2

/-- What holds of the arguments and of null holds of all that parameters are bound to. -/
theorem forall_mem_ofArguments {P : Value → Prop} (hargs : ∀ a ∈ args, P a) (hnull : P .null) :
    ∀ b ∈ ofArguments ps args [], P b.2 := by
  intro b hb
  rcases mem_ofArguments hb with hb | hb
  · exact hargs _ hb
  · exact hb ▸ hnull

theorem map_fst_zip_fitted :
    ((ps.map (·.name)).zip (fitted ps.length args)).map Prod.fst = ps.map (·.name) :=
  List.map_fst_zip (Nat.le_of_eq (by rw [List.length_map, length_fitted]))

/-- Parameters with names of their own are bound one by one. -/
theorem ofArguments_of_nodup (hnodup : (ps.map (·.name)).Nodup) (hlength : args.length = ps.length) :
    ofArguments ps args [] = (ps.map (·.name)).zip args := by
  have hkeys : (((ps.map (·.name)).zip (fitted ps.length args)).map Prod.fst).Nodup := by
    rwa [map_fst_zip_fitted]
  rw [ofArguments_eq_tabulate, tabulate_of_nodup Prod.fst hkeys, fitted_of_length hlength]

end parameters

end Bindings

namespace Store

variable (s : Store) (i j : FrameId)

@[simp] theorem nextFrame_bind (x : String) (v : Value) : (s.bind i x v).nextFrame = s.nextFrame :=
  Array.size_modify

@[simp] theorem nextFrame_addInner (bs : Bindings) :
    (s.addInner i bs).nextFrame = s.nextFrame + 1 :=
  Array.size_push _

/-- A frame that was never made is like an empty one. -/
theorem frame_of_le (h : s.nextFrame ≤ i) : s.frame i = ⟨[], []⟩ := by
  unfold frame
  rw [Array.getD_eq_getD_getElem?, Array.getElem?_eq_none h]
  rfl

theorem frame_addFrame (bs : Bindings) (enclosing : List FrameId) :
    (s.addFrame bs enclosing).frame j =
      if j = s.nextFrame then ⟨bs, enclosing⟩ else s.frame j := by
  unfold frame addFrame nextFrame
  simp only [Array.getD_eq_getD_getElem?, Array.getElem?_push]
  split <;> rfl

theorem frame_addInner (bs : Bindings) :
    (s.addInner i bs).frame j = if j = s.nextFrame then ⟨bs, s.scope i⟩ else s.frame j :=
  s.frame_addFrame j bs (s.scope i)

/-- A frame that is made inside another is one deeper. -/
theorem depth_addInner (bs : Bindings) : (s.addInner i bs).depth s.nextFrame = s.depth i + 1 := by
  unfold depth
  rw [s.frame_addInner, if_pos rfl]
  rfl

theorem frame_bind (x : String) (v : Value) :
    (s.bind i x v).frame j =
      if j = i ∧ i < s.nextFrame then
        { s.frame j with bindings := (s.frame j).bindings.bind x v }
      else s.frame j := by
  unfold frame bind nextFrame
  simp only [Array.getD_eq_getD_getElem?, Array.getElem?_modify]
  by_cases hj : i = j
  · subst hj
    by_cases hi : i < s.frames.size
    · simp [hi]
    · simp [hi]
  · have hne : j ≠ i := fun h => hj h.symm
    simp [hj, hne]

/-! ## What frames hold after an operation -/

section holds

variable {s i j} {b : String × Value}

theorem enclosing_bind (x : String) (v : Value) :
    ((s.bind i x v).frame j).enclosing = (s.frame j).enclosing := by
  rw [frame_bind]
  split <;> rfl

theorem scope_bind (x : String) (v : Value) : (s.bind i x v).scope j = s.scope j := by
  rw [scope, enclosing_bind, scope]

/-- A binding is the one that was made last, in a frame that is there, or was there before. -/
theorem mem_bindings_bind {x : String} {v : Value}
    (h : b ∈ ((s.bind i x v).frame j).bindings) :
    b = (x, v) ∧ i < s.nextFrame ∨ b ∈ (s.frame j).bindings := by
  rw [frame_bind] at h
  split at h
  · next hj => exact (Bindings.mem_bind h).imp_left fun hb => ⟨hb, hj.2⟩
  · exact .inr h

/-- A binding is one of those of the new frame, or was there before. -/
theorem mem_bindings_addFrame {bs : Bindings} {enclosing : List FrameId}
    (h : b ∈ ((s.addFrame bs enclosing).frame j).bindings) :
    b ∈ bs ∨ b ∈ (s.frame j).bindings := by
  rw [frame_addFrame] at h
  split at h
  · exact .inl h
  · exact .inr h

/-- A frame that is around another is around the new frame, or was around the other before. -/
theorem mem_enclosing_addFrame {bs : Bindings} {enclosing : List FrameId} {k : FrameId}
    (h : k ∈ ((s.addFrame bs enclosing).frame j).enclosing) :
    k ∈ enclosing ∨ k ∈ (s.frame j).enclosing := by
  rw [frame_addFrame] at h
  split at h
  · exact .inl h
  · exact .inr h

end holds

/-- What a name means was bound in a frame of the scope, or is known everywhere. -/
theorem exists_mem_of_meaning? {x : String} {v : Value} (h : s.meaning? i x = some v) :
    (∃ j ∈ s.scope i, ∃ b ∈ (s.frame j).bindings, b.2 = v) ∨ ∃ b ∈ s.functions, b.2 = v := by
  rcases Option.or_eq_some_iff.mp h with h | ⟨-, h⟩
  · obtain ⟨j, hj, hv⟩ := List.exists_of_findSome?_eq_some h
    exact .inl ⟨j, hj, Bindings.exists_mem_of_value? hv⟩
  · exact .inr (Bindings.exists_mem_of_value? h)

end Store

end MonkeyLang
