import MonkeyLang.Proofs.Store

/-!
Stores without a name. All other names have the values that they had, and what is done with them
leaves out the name before or after all the same.
-/

namespace MonkeyLang

namespace Bindings

def without (name : String) (bs : Bindings) : Bindings := bs.filter fun b => b.1 ≠ name

variable {name x : String} {bs : Bindings} {v : Value}

theorem mem_without {b : String × Value} : b ∈ bs.without name ↔ b ∈ bs ∧ b.1 ≠ name := by
  simp [without]

theorem value?_without (hx : x ≠ name) : (bs.without name).value? x = bs.value? x := by
  unfold value? withKey? without
  rw [List.find?_filter]
  congr 2
  funext b
  by_cases hb : b.1 = x <;> simp [hb, hx]

theorem bind_without (hx : x ≠ name) :
    (bs.bind x v).without name = (bs.without name).bind x v :=
  (filter_upsert Prod.fst (fun y hy => by rw [hy]) bs).trans (if_pos (by simpa using hx))

theorem bind_without_self : (bs.bind name v).without name = bs.without name :=
  (filter_upsert Prod.fst (fun y hy => by rw [hy]) bs).trans (if_neg (by simp))

theorem ofArguments_without {ps : List Identifier} (hps : ∀ p ∈ ps, p.name ≠ name)
    (args : List Value) :
    (ofArguments ps args bs).without name = ofArguments ps args (bs.without name) := by
  induction ps generalizing args bs with
  | nil => rfl
  | cons p ps ih =>
    rw [List.forall_mem_cons] at hps
    rw [ofArguments, ofArguments, ih hps.2, bind_without hps.1]

end Bindings

namespace Store

def without (name : String) (s : Store) : Store :=
  { s with frames := s.frames.map fun f => { f with bindings := f.bindings.without name } }

variable {name x : String} {s : Store} {i : FrameId} {v : Value}

@[simp] theorem nextFrame_without : (s.without name).nextFrame = s.nextFrame := Array.size_map

theorem frame_without :
    (s.without name).frame i = { s.frame i with bindings := (s.frame i).bindings.without name } := by
  unfold frame without
  rw [Array.getD_eq_getD_getElem?, Array.getD_eq_getD_getElem?, Array.getElem?_map]
  cases s.frames[i]? <;> rfl

theorem value?_without (hx : x ≠ name) : (s.without name).value? i x = s.value? i x := by
  simp only [value?, scope, frame_without, Bindings.value?_without hx]

theorem meaning?_without (hx : x ≠ name) : (s.without name).meaning? i x = s.meaning? i x := by
  rw [meaning?, meaning?, value?_without hx]
  rfl

theorem bind_without (hx : x ≠ name) :
    (s.bind i x v).without name = (s.without name).bind i x v := by
  unfold bind without
  congr 1
  apply Array.ext_getElem?
  intro j
  simp only [Array.getElem?_map, Array.getElem?_modify]
  split
  · cases s.frames[j]? <;> simp [Bindings.bind_without hx]
  · rfl

theorem bind_without_self : (s.bind i name v).without name = s.without name := by
  unfold bind without
  congr 1
  apply Array.ext_getElem?
  intro j
  simp only [Array.getElem?_map, Array.getElem?_modify]
  split
  · cases s.frames[j]? <;> simp [Bindings.bind_without_self]
  · rfl

theorem addInner_without (bs : Bindings) :
    (s.addInner i bs).without name = (s.without name).addInner i (bs.without name) := by
  simp only [addInner, addFrame, scope, frame_without]
  simp [without]

end Store

end MonkeyLang
