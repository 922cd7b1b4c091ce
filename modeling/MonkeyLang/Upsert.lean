/-!
Lists of entries that are told apart by a key and kept in the order in which their keys first came.
-/

namespace MonkeyLang

/-- Puts an entry in place of the one with the same key, or at the end if there is none. -/
def upsert {α κ : Type} [DecidableEq κ] (key : α → κ) (x : α) : List α → List α
  | [] => [x]
  | y :: ys => if key y = key x then x :: ys else y :: upsert key x ys

def withKey? {α κ : Type} [DecidableEq κ] (key : α → κ) (k : κ) (xs : List α) : Option α :=
  xs.find? fun x => key x = k

theorem withKey?_upsert_self {α κ : Type} [DecidableEq κ] (key : α → κ) (x : α) (xs : List α) :
    withKey? key (key x) (upsert key x xs) = some x := by
  induction xs with
  | nil => simp [upsert, withKey?]
  | cons y ys ih =>
    unfold upsert
    split
    · simp [withKey?]
    · next h => simpa [withKey?, h] using ih

theorem withKey?_upsert_of_ne {α κ : Type} [DecidableEq κ] (key : α → κ) (x : α) (xs : List α)
    {k : κ} (h : key x ≠ k) : withKey? key k (upsert key x xs) = withKey? key k xs := by
  induction xs with
  | nil => simp [upsert, withKey?, h]
  | cons y ys ih =>
    unfold upsert
    split
    · next hy => simp [withKey?, h, hy]
    · by_cases hk : key y = k
      · simp [withKey?, hk]
      · simpa [withKey?, hk] using ih

/-- A key that is there already keeps its place; a new one comes last. -/
theorem map_key_upsert {α κ : Type} [DecidableEq κ] (key : α → κ) (x : α) (xs : List α) :
    (upsert key x xs).map key =
      if key x ∈ xs.map key then xs.map key else xs.map key ++ [key x] := by
  induction xs with
  | nil => simp [upsert]
  | cons y ys ih =>
    unfold upsert
    split
    · next h => simp [h]
    · next h =>
      have h' : key x ≠ key y := fun e => h e.symm
      simp only [List.map_cons, ih, List.mem_cons, h', false_or]
      split <;> simp

end MonkeyLang
