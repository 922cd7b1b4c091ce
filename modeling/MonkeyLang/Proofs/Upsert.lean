import Mathlib.Data.List.Induction
import Mathlib.Order.Bounds.Defs
import MonkeyLang.Upsert

/-!
Lists that are made by putting in one entry after another: which entries they have, in which order
their keys stand, and what is found under a key.
-/

namespace MonkeyLang

theorem mem_upsert {α κ : Type} [DecidableEq κ] {key : α → κ} {new x : α} {xs : List α}
    (h : x ∈ upsert key new xs) : x = new ∨ x ∈ xs := by
  induction xs with
  | nil => exact .inl (List.mem_singleton.mp h)
  | cons y ys ih =>
    unfold upsert at h
    split at h
    · exact (List.mem_cons.mp h).imp id (List.mem_cons_of_mem y)
    · rcases List.mem_cons.mp h with rfl | h
      · exact .inr List.mem_cons_self
      · exact (ih h).imp id (List.mem_cons_of_mem y)

theorem mem_upsert_self {α κ : Type} [DecidableEq κ] (key : α → κ) (new : α) (xs : List α) :
    new ∈ upsert key new xs := by
  induction xs with
  | nil => exact List.mem_singleton_self new
  | cons y ys ih =>
    unfold upsert
    split
    · exact List.mem_cons_self
    · exact List.mem_cons_of_mem y ih

/-- What is put in is left out again if its key is; else it comes among what is left. -/
theorem filter_upsert {α κ : Type} [DecidableEq κ] (key : α → κ) {p : α → Bool} {x : α}
    (hp : ∀ y, key y = key x → p y = p x) (xs : List α) :
    (upsert key x xs).filter p = if p x then upsert key x (xs.filter p) else xs.filter p := by
  induction xs with
  | nil => simp [upsert, List.filter_cons]
  | cons y ys ih =>
    rw [upsert]
    split
    · next hy =>
      rw [List.filter_cons, List.filter_cons, hp y hy]
      split
      · rw [upsert, if_pos hy]
      · rfl
    · next hy =>
      rw [List.filter_cons, List.filter_cons, ih]
      cases p y <;> cases p x <;> simp [upsert, hy]

theorem withKey?_mem {α κ : Type} [DecidableEq κ] {key : α → κ} {k : κ} {x : α} {xs : List α}
    (h : withKey? key k xs = some x) : x ∈ xs :=
  List.mem_of_find?_eq_some h

/-! ## Upserts in a row -/

section upserts

variable {α κ : Type} [DecidableEq κ] (key : α → κ)

/-- Puts entries in one after another, beginning with none. -/
def tabulate (xs : List α) : List α := xs.foldl (fun ys x => upsert key x ys) []

theorem tabulate_append_singleton (xs : List α) (x : α) :
    tabulate key (xs ++ [x]) = upsert key x (tabulate key xs) := by
  simp [tabulate]

theorem mem_of_mem_tabulate {x : α} {xs : List α} (h : x ∈ tabulate key xs) : x ∈ xs := by
  induction xs using List.reverseRecOn with
  | nil => cases h
  | append_singleton xs y ih =>
    rw [tabulate_append_singleton] at h
    rcases mem_upsert h with rfl | h
    · exact List.mem_append_right xs (List.mem_singleton_self x)
    · exact List.mem_append_left [y] (ih h)

/-- Keys stand in the order in which they first come. -/
theorem map_key_tabulate (xs : List α) :
    (tabulate key xs).map key = (xs.map key).eraseDups := by
  induction xs using List.reverseRecOn with
  | nil => rfl
  | append_singleton xs x ih =>
    rw [tabulate_append_singleton, map_key_upsert, ih, List.map_append, List.eraseDups_append]
    by_cases hx : key x ∈ xs.map key
    · have hnone : ([x].map key).removeAll (xs.map key) = [] := by
        simpa [List.removeAll] using hx
      rw [if_pos (List.mem_eraseDups.mpr hx), hnone]
      exact (List.append_nil _).symm
    · have hone : ([x].map key).removeAll (xs.map key) = [key x] := by
        simpa [List.removeAll] using hx
      rw [if_neg (mt List.mem_eraseDups.mp hx), hone]
      rfl

/-- No key stands twice. -/
theorem nodup_map_key_tabulate (xs : List α) : ((tabulate key xs).map key).Nodup := by
  induction xs using List.reverseRecOn with
  | nil => exact List.nodup_nil
  | append_singleton xs x ih =>
    rw [tabulate_append_singleton, map_key_upsert]
    split
    · exact ih
    · next hx =>
      simpa using List.nodup_append.mpr ⟨ih, List.pairwise_singleton _ _, by simpa using hx⟩

theorem upsert_of_notMem {x : α} {xs : List α} (h : key x ∉ xs.map key) :
    upsert key x xs = xs ++ [x] := by
  induction xs with
  | nil => rfl
  | cons y ys ih =>
    rw [List.map_cons, List.mem_cons, not_or] at h
    rw [upsert, if_neg (Ne.symm h.1), ih h.2, List.cons_append]

/-- Entries with a key of their own each are kept as they are. -/
theorem tabulate_of_nodup {xs : List α} (h : (xs.map key).Nodup) : tabulate key xs = xs := by
  induction xs using List.reverseRecOn with
  | nil => rfl
  | append_singleton xs x ih =>
    rw [List.map_append, List.nodup_append] at h
    obtain ⟨hxs, -, hx⟩ := h
    have hnew : key x ∉ xs.map key := fun hmem => hx _ hmem (key x) (by simp) rfl
    rw [tabulate_append_singleton, ih hxs, upsert_of_notMem key hnew]

def LastWith (k : κ) (x : α) (xs : List α) : Prop :=
  ∃ before after, xs = before ++ x :: after ∧ key x = k ∧ ∀ y ∈ after, key y ≠ k

theorem lastWith_append_singleton {k : κ} {x y : α} {xs : List α} :
    LastWith key k x (xs ++ [y]) ↔ if key y = k then x = y else LastWith key k x xs := by
  constructor
  · rintro ⟨before, after, heq, hx, hafter⟩
    rcases List.eq_nil_or_concat after with rfl | ⟨after, z, rfl⟩
    · obtain ⟨-, hy⟩ := List.append_inj' heq rfl
      obtain rfl := List.singleton_inj.mp hy
      rw [if_pos hx]
    · have hsplit : xs ++ [y] = (before ++ x :: after) ++ [z] := by simpa using heq
      obtain ⟨hxs, hy⟩ := List.append_inj' hsplit rfl
      obtain rfl := List.singleton_inj.mp hy
      rw [if_neg (hafter y (by simp))]
      exact ⟨before, after, hxs, hx, fun w hw => hafter w (by simp [hw])⟩
  · intro h
    split at h
    · next hy =>
      subst h
      exact ⟨xs, [], rfl, hy, nofun⟩
    · next hy =>
      obtain ⟨before, after, rfl, hx, hafter⟩ := h
      refine ⟨before, after ++ [y], by simp, hx, fun w hw => ?_⟩
      rcases List.mem_append.mp hw with hw | hw
      · exact hafter w hw
      · rwa [List.mem_singleton.mp hw]

omit [DecidableEq κ] in
/-- The last entry with a key stands at the greatest of the places at which the key does. -/
theorem lastWith_iff_getElem? {k : κ} {x : α} {xs : List α} :
    LastWith key k x xs ↔
      ∃ i : Nat, IsGreatest {j | (xs.map key)[j]? = some k} i ∧ xs[i]? = some x := by
  constructor
  · rintro ⟨before, after, rfl, hx, hafter⟩
    refine ⟨before.length, ⟨?_, fun j hj => ?_⟩, by simp⟩
    · show ((before ++ x :: after).map key)[before.length]? = some k
      simp [hx]
    · -- Behind `x` the key does not stand.
      by_contra hlt
      obtain ⟨m, rfl⟩ := Nat.exists_eq_add_of_lt (Nat.lt_of_not_le hlt)
      have hm : (after.map key)[m]? = some k := by
        rw [← hj]
        simp [Nat.add_assoc, List.getElem?_append_right]
      obtain ⟨y, hy, hkey⟩ := List.mem_map.mp (List.mem_of_getElem? hm)
      exact hafter y hy hkey
  · rintro ⟨i, ⟨hi, hgreatest⟩, hx⟩
    have hkey : ∀ {j : Nat} {y : α}, xs[j]? = some y → ((xs.map key)[j]? = some k ↔ key y = k) := by
      intro j y hy
      rw [List.getElem?_map, hy, Option.map_some, Option.some_inj]
    obtain ⟨hlt, hget⟩ := List.getElem?_eq_some_iff.mp hx
    refine ⟨xs.take i, xs.drop (i + 1), ?_, (hkey hx).mp hi, fun y hy hy' => ?_⟩
    · rw [← hget, ← List.drop_eq_getElem_cons hlt, List.take_append_drop]
    · obtain ⟨m, hm⟩ := List.getElem?_of_mem hy
      rw [List.getElem?_drop] at hm
      have hle : i + 1 + m ≤ i := hgreatest ((hkey hm).mpr hy')
      omega

theorem withKey?_upsert (k : κ) (x : α) (xs : List α) :
    withKey? key k (upsert key x xs) = if key x = k then some x else withKey? key k xs := by
  split
  · next h => rw [← h, withKey?_upsert_self]
  · next h => exact withKey?_upsert_of_ne key x xs h

/-- What stands under a key was put in last. -/
theorem withKey?_tabulate (k : κ) (x : α) (xs : List α) :
    withKey? key k (tabulate key xs) = some x ↔ LastWith key k x xs := by
  induction xs using List.reverseRecOn with
  | nil =>
    refine ⟨nofun, ?_⟩
    rintro ⟨before, after, heq, -⟩
    simp at heq
  | append_singleton xs y ih =>
    rw [tabulate_append_singleton, withKey?_upsert, lastWith_append_singleton]
    split
    · rw [Option.some_inj, eq_comm]
    · exact ih

theorem withKey?_tabulate_eq_none (k : κ) (xs : List α) :
    withKey? key k (tabulate key xs) = none ↔ ∀ x ∈ xs, key x ≠ k := by
  induction xs using List.reverseRecOn with
  | nil => exact ⟨fun _ => nofun, fun _ => rfl⟩
  | append_singleton xs y ih =>
    rw [tabulate_append_singleton, withKey?_upsert, List.forall_mem_append,
      List.forall_mem_singleton, ← ih]
    split
    · next h => simp [h]
    · next h => simp [h]

/-- Where no key stands twice, each entry is the one that is found under its key. -/
theorem withKey?_of_mem {xs : List α} {x : α} (hnodup : (xs.map key).Nodup) (hx : x ∈ xs) :
    withKey? key (key x) xs = some x := by
  induction xs with
  | nil => cases hx
  | cons y ys ih =>
    rw [List.map_cons, List.nodup_cons] at hnodup
    rcases List.mem_cons.mp hx with rfl | hx
    · simp [withKey?]
    · have hne : key y ≠ key x := fun h => hnodup.1 (h ▸ List.mem_map_of_mem hx)
      rw [withKey?, List.find?_cons_of_neg (by simpa using hne)]
      exact ih hnodup.2 hx

end upserts

end MonkeyLang
