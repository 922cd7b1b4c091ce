import MonkeyLang.Eval
import MonkeyLang.Proofs.Evaluation.Numbers

/-!
The primitives on arrays. They and the index operator see one and the same list of elements: each
primitive is described by what it makes of that list, and what they have to do with one another is
read off the lists. Where a primitive changes anything, it answers an array under the next identity,
which no value has yet that the store knows; so the old array is another one, and whatever was bound
to it is still bound to it.
-/

namespace MonkeyLang

/-! ## Computations that leave what is bound -/

namespace Eval

/-- The computation completes with a value as described. Nothing is printed, and each name means
afterwards what it meant before. -/
def Gives (x : Eval Value) (s : Store) (P : Value → Prop) : Prop :=
  ∃ v s', x s = .ok v s' ∧ P v ∧ s'.printed = s.printed ∧
    ∀ env name, s'.meaning? env name = s.meaning? env name

namespace Gives

variable {x : Eval Value} {next : Value → Eval Value} {s : Store} {P Q : Value → Prop}

theorem pure {v : Value} (h : P v) : Gives (pure v) s P :=
  ⟨v, s, rfl, h, rfl, fun _ _ => rfl⟩

theorem mono (hx : Gives x s P) (h : ∀ v, P v → Q v) : Gives x s Q := by
  obtain ⟨v, s', hv, hP, hsame⟩ := hx
  exact ⟨v, s', hv, h v hP, hsame⟩

theorem bind (hx : Gives x s P) (hnext : ∀ v s', P v → Gives (next v) s' Q) :
    Gives (x >>= next) s Q := by
  obtain ⟨v, s', hv, hP, hprinted, hmeaning⟩ := hx
  obtain ⟨w, s'', hw, hQ, hprinted', hmeaning'⟩ := hnext v s' hP
  refine ⟨w, s'', ?_, hQ, hprinted'.trans hprinted,
    fun env name => (hmeaning' env name).trans (hmeaning env name)⟩
  show EStateM.bind x next s = _
  simp only [EStateM.bind, hv]
  exact hw

end Gives

end Eval

open Eval

namespace Value

def IsArray (xs : List Value) (v : Value) : Prop := ∃ id, v = .array id xs

/-- The value is an array of these elements under the next identity. So it is another one than each
value whose numbers have been given away. -/
structure IsNewArray (s : Store) (xs : List Value) (v : Value) : Prop where
  eq : v = .array s.nextId xs
  other : ∀ w, s.Dates w → w.identical v = false

theorem IsNewArray.isArray {s : Store} {xs : List Value} {v : Value} (h : v.IsNewArray s xs) :
    IsArray xs v := ⟨s.nextId, h.eq⟩

theorem isNewArray_nextId (s : Store) (xs : List Value) : IsNewArray s xs (.array s.nextId xs) := by
  refine ⟨rfl, fun w hw => ?_⟩
  cases w with
  | array id _ => exact beq_false_of_ne (Nat.ne_of_lt (hw.id id rfl))
  | _ => rfl

/-! ## Indexing -/

variable {xs : List Value}

theorem elementAt_natCast (xs : List Value) (i : Nat) : elementAt xs i = xs.getD i .null := by
  rw [elementAt, if_neg (by omega), Int.toNat_natCast]

theorem elementAt_of_lt {i : Nat} (h : i < xs.length) : elementAt xs i = xs[i] := by
  rw [elementAt_natCast, List.getD_eq_getElem?_getD, List.getElem?_eq_getElem h]
  rfl

theorem elementAt_of_outside {i : Int} (h : i < 0 ∨ xs.length ≤ i) : elementAt xs i = .null := by
  rcases h with h | h
  · rw [elementAt, if_pos h]
  · obtain ⟨k, rfl⟩ := Int.eq_ofNat_of_zero_le (Int.le_trans (Int.natCast_nonneg _) h)
    rw [elementAt_natCast, List.getD_eq_getElem?_getD, List.getElem?_eq_none (by omega)]
    rfl

theorem elementAt_last (hne : xs ≠ []) : elementAt xs (xs.length - 1) = xs.getLastD .null := by
  have hpos : 0 < xs.length := List.length_pos_iff.mpr hne
  have hpred : (xs.length : Int) - 1 = (xs.length - 1 : Nat) := by omega
  rw [hpred, elementAt_of_lt (by omega), List.getLastD_eq_getLast?,
    List.getLast?_eq_some_getLast hne, List.getLast_eq_getElem hne]
  rfl

end Value

open Value

/-! ## What each primitive makes of the elements -/

namespace Primitive

variable {s : Store} {a : Value} {xs : List Value}

theorem gives_array (xs : List Value) :
    Eval.Gives (do return .array (← freshId) xs) s (IsNewArray s xs) :=
  ⟨_, s.takeId.2, rfl, isNewArray_nextId s xs, rfl, fun _ _ => rfl⟩

theorem gives_len (h : IsArray xs a) : Eval.Gives (len.call [a]) s (· = .integer xs.length) := by
  obtain ⟨id, rfl⟩ := h
  exact .pure rfl

theorem gives_first (h : IsArray xs a) : Eval.Gives (first.call [a]) s (· = xs.headD .null) := by
  obtain ⟨id, rfl⟩ := h
  exact .pure rfl

theorem gives_last (h : IsArray xs a) : Eval.Gives (last.call [a]) s (· = xs.getLastD .null) := by
  obtain ⟨id, rfl⟩ := h
  exact .pure rfl

theorem gives_rest (h : IsArray xs a) (hne : xs ≠ []) :
    Eval.Gives (rest.call [a]) s (IsNewArray s xs.tail) := by
  obtain ⟨id, rfl⟩ := h
  obtain ⟨x, xs, rfl⟩ := List.exists_cons_of_ne_nil hne
  exact gives_array xs

theorem gives_rest_nil (h : IsArray [] a) : Eval.Gives (rest.call [a]) s (· = .null) := by
  obtain ⟨id, rfl⟩ := h
  exact .pure rfl

theorem gives_push (h : IsArray xs a) (x : Value) :
    Eval.Gives (push.call [a, x]) s (IsNewArray s (xs ++ [x])) := by
  obtain ⟨id, rfl⟩ := h
  exact gives_array (xs ++ [x])

def rests : Nat → Value → Eval Value
  | 0, a => return a
  | k + 1, a => do rests k (← rest.call [a])

def pushes : List Value → Value → Eval Value
  | [], a => return a
  | x :: xs, a => do pushes xs (← push.call [a, x])

/-- Each `rest` takes one element off, as long as there is one. -/
theorem gives_rests {k : Nat} (h : IsArray xs a) (hk : k ≤ xs.length) :
    Eval.Gives (rests k a) s (IsArray (xs.drop k)) := by
  induction k generalizing s a xs with
  | zero => exact .pure h
  | succ k ih =>
    have hne : xs ≠ [] := List.ne_nil_of_length_pos (by omega)
    refine (gives_rest h hne).bind fun b s' hb => ?_
    have hlength : k ≤ xs.tail.length := by rw [List.length_tail]; omega
    rw [← List.drop_tail]
    exact ih hb.isArray hlength

/-- The `rest` that comes after all elements are taken off gives null. -/
theorem gives_rests_beyond (h : IsArray xs a) :
    Eval.Gives (rests (xs.length + 1) a) s (· = .null) := by
  induction xs generalizing s a with
  | nil => exact (gives_rest_nil h).bind fun v s' hv => .pure hv
  | cons x xs ih => exact (gives_rest h (List.cons_ne_nil x xs)).bind fun b s' hb => ih hb.isArray

/-- Each `push` adds one element at the end. -/
theorem gives_pushes (ys : List Value) (h : IsArray xs a) :
    Eval.Gives (pushes ys a) s (IsArray (xs ++ ys)) := by
  induction ys generalizing s a xs with
  | nil => exact .pure (by rwa [List.append_nil])
  | cons y ys ih =>
    refine (gives_push h y).bind fun b s' hb => ?_
    rw [List.append_cons]
    exact ih hb.isArray

/-! ## What they have to do with one another -/

/-- The first element behind `i` others is the one at `i`. -/
theorem gives_first_rests (h : IsArray xs a) {i : Nat} (hi : i < xs.length) :
    Eval.Gives (rests i a >>= fun b => first.call [b]) s (· = xs[i]) := by
  refine (gives_rests h (Nat.le_of_lt hi)).bind fun b s' hb => ?_
  rw [List.drop_eq_getElem_cons hi] at hb
  exact gives_first hb

theorem gives_len_push (h : IsArray xs a) (x : Value) :
    Eval.Gives (push.call [a, x] >>= fun b => len.call [b]) s (· = .integer (xs.length + 1)) := by
  refine (gives_push h x).bind fun b s' hb => (gives_len hb.isArray).mono ?_
  rintro v rfl
  simp

theorem gives_last_push (h : IsArray xs a) (x : Value) :
    Eval.Gives (push.call [a, x] >>= fun b => last.call [b]) s (· = x) := by
  refine (gives_push h x).bind fun b s' hb => (gives_last hb.isArray).mono ?_
  rintro v rfl
  simp

theorem gives_first_push (h : IsArray xs a) (x : Value) :
    Eval.Gives (push.call [a, x] >>= fun b => first.call [b]) s (· = xs.headD x) := by
  refine (gives_push h x).bind fun b s' hb => (gives_first hb.isArray).mono ?_
  rintro v rfl
  cases xs <;> rfl

theorem gives_rest_push (h : IsArray xs a) (x : Value) (hne : xs ≠ []) :
    Eval.Gives (push.call [a, x] >>= fun b => rest.call [b]) s (IsArray (xs.tail ++ [x])) := by
  refine (gives_push h x).bind fun b s' hb => ?_
  rw [← List.tail_append_of_ne_nil hne]
  refine (gives_rest hb.isArray ?_).mono fun c hc => hc.isArray
  exact List.append_ne_nil_of_left_ne_nil hne [x]

end Primitive

open Primitive

/-- The primitives and the index operator treat the value as the sequence of these elements. -/
structure Value.IsSequence (s : Store) (a : Value) (xs : List Value) : Prop where
  index : ∀ i (h : i < xs.length), a.index (.integer i) = .ok xs[i]
  outside : ∀ i : Int, i < 0 ∨ xs.length ≤ i → a.index (.integer i) = .ok .null
  /-- The first element behind `i` others is the one at index `i`. -/
  first_rests : ∀ i < xs.length,
    Gives (rests i a >>= fun b => first.call [b]) s fun v => a.index (.integer i) = .ok v
  rests_all : Gives (rests xs.length a) s (IsArray [])
  rests_beyond : Gives (rests (xs.length + 1) a) s (· = .null)
  last : xs ≠ [] →
    Gives (last.call [a]) s fun v => a.index (.integer (xs.length - 1)) = .ok v
  last_empty : xs = [] → Gives (Primitive.last.call [a]) s (· = .null)
  len_push : ∀ x, Gives (push.call [a, x] >>= fun b => len.call [b]) s
    (· = .integer (xs.length + 1))
  last_push : ∀ x, Gives (push.call [a, x] >>= fun b => Primitive.last.call [b]) s (· = x)
  first_push : ∀ x, xs ≠ [] → ∃ v, Gives (first.call [a]) s (· = v) ∧
    Gives (push.call [a, x] >>= fun b => first.call [b]) s (· = v)
  first_push_empty : ∀ x, xs = [] →
    Gives (push.call [a, x] >>= fun b => first.call [b]) s (· = x)
  /-- It makes no difference whether an element is taken off before or after one is added. -/
  rest_push : ∀ x, xs ≠ [] → ∃ ys,
    Gives (push.call [a, x] >>= fun b => rest.call [b]) s (IsArray ys) ∧
      Gives (rest.call [a] >>= fun b => push.call [b, x]) s (IsArray ys)
  pushes : ∀ e, IsArray [] e → Gives (pushes xs e) s (IsArray xs)
  push_new : ∀ x, Gives (push.call [a, x]) s (IsNewArray s (xs ++ [x]))
  rest_new : xs ≠ [] → Gives (rest.call [a]) s (IsNewArray s xs.tail)

/-- An array is the sequence of its elements, to the primitives and to the index operator. -/
theorem Value.array_isSequence (id : Nat) (xs : List Value) (s : Store) :
    (Value.array id xs).IsSequence s xs := by
  have harray : IsArray xs (.array id xs) := ⟨id, rfl⟩
  constructor
  case index => exact fun i hi => congrArg Except.ok (elementAt_of_lt hi)
  case outside => exact fun i hi => congrArg Except.ok (elementAt_of_outside hi)
  case first_rests =>
    intro i hi
    refine (gives_first_rests harray hi).mono ?_
    rintro v rfl
    exact congrArg Except.ok (elementAt_of_lt hi)
  case rests_all =>
    have h := gives_rests (s := s) harray (Nat.le_refl xs.length)
    rwa [List.drop_length] at h
  case rests_beyond => exact gives_rests_beyond harray
  case last =>
    intro hne
    refine (gives_last harray).mono ?_
    rintro v rfl
    exact congrArg Except.ok (elementAt_last hne)
  case last_empty =>
    rintro rfl
    exact gives_last harray
  case len_push => exact gives_len_push harray
  case last_push => exact gives_last_push harray
  case first_push =>
    intro x hne
    obtain ⟨y, ys, rfl⟩ := List.exists_cons_of_ne_nil hne
    exact ⟨y, gives_first harray, gives_first_push harray x⟩
  case first_push_empty =>
    rintro x rfl
    exact gives_first_push harray x
  case rest_push =>
    intro x hne
    refine ⟨xs.tail ++ [x], gives_rest_push harray x hne, ?_⟩
    refine (gives_rest harray hne).bind fun b s' hb => ?_
    exact (gives_push hb.isArray x).mono fun c hc => hc.isArray
  case pushes => exact fun e he => gives_pushes xs he
  case push_new => exact gives_push harray
  case rest_new => exact gives_rest harray

end MonkeyLang
