import Mathlib.Logic.Function.Basic
import MonkeyLang.Value

/-!
What the hash of bytes keeps of them. The prime is odd and has an inverse, so that each step of the
hash can be taken back: states that differ stay different whatever bytes follow, and bytes that
differ lead to different states. A text with one byte changed is therefore another key.
-/

namespace MonkeyLang

namespace Word

variable {h h' : UInt64} {a b : UInt8}

def fnvInverse : UInt64 := 0xce965057aff6957b

theorem fnvPrime_mul_inverse : fnvPrime * fnvInverse = 1 := by decide

/-- The state before a step, from the one after it. -/
def fnvUndo (h : UInt64) (b : UInt8) : UInt64 := (h * fnvInverse) ^^^ b.toUInt64

theorem fnvUndo_fnvStep (h : UInt64) (b : UInt8) : fnvUndo (fnvStep h b) b = h := by
  rw [fnvUndo, fnvStep, UInt64.mul_assoc, fnvPrime_mul_inverse, UInt64.mul_one, UInt64.xor_assoc,
    UInt64.xor_self, UInt64.xor_zero]

theorem fnvStep_fnvUndo (h : UInt64) (b : UInt8) : fnvStep (fnvUndo h b) b = h := by
  have hinverse : fnvInverse * fnvPrime = 1 := by rw [UInt64.mul_comm, fnvPrime_mul_inverse]
  rw [fnvStep, fnvUndo, UInt64.xor_assoc, UInt64.xor_self, UInt64.xor_zero, UInt64.mul_assoc,
    hinverse, UInt64.mul_one]

/-- A step is a bijection of the states. -/
theorem fnvStep_bijective (b : UInt8) : Function.Bijective (fnvStep · b) :=
  Function.bijective_iff_has_inverse.mpr
    ⟨(fnvUndo · b), fun h => fnvUndo_fnvStep h b, fun h => fnvStep_fnvUndo h b⟩

/-- In one state, different bytes lead to different states. -/
theorem fnvStep_byte_inj : fnvStep h a = fnvStep h b ↔ a = b := by
  refine ⟨fun heq => ?_, fun heq => heq ▸ rfl⟩
  have hback := congrArg (· * fnvInverse) heq
  simp only [fnvStep, UInt64.mul_assoc, fnvPrime_mul_inverse, UInt64.mul_one] at hback
  exact UInt8.toUInt64_inj.mp ((UInt64.xor_right_inj h).mp hback)

/-- Behind the same bytes, states are the same only if they were before. -/
theorem foldl_fnvStep_inj (s : List UInt8) :
    s.foldl fnvStep h = s.foldl fnvStep h' ↔ h = h' := by
  induction s generalizing h h' with
  | nil => exact Iff.rfl
  | cons b s ih =>
    rw [List.foldl_cons, List.foldl_cons, ih]
    exact (fnvStep_bijective b).injective.eq_iff

theorem fnv_append_inj (x y s : List UInt8) : fnv (x ++ s) = fnv (y ++ s) ↔ fnv x = fnv y := by
  rw [fnv, fnv, List.foldl_append, List.foldl_append, foldl_fnvStep_inj]
  rfl

theorem fnv_byte_inj (p s : List UInt8) (a b : UInt8) :
    fnv (p ++ [a] ++ s) = fnv (p ++ [b] ++ s) ↔ a = b := by
  rw [fnv_append_inj, fnv, fnv, List.foldl_append, List.foldl_append]
  exact fnvStep_byte_inj

/-! ## Rows that differ once -/

/-- The rows are as long as each other and differ in exactly one place. -/
def DifferOnce (x y : List UInt8) : Prop :=
  x.length = y.length ∧ ∃ i : Nat, ∀ j : Nat, x[j]? = y[j]? ↔ j ≠ i

theorem differOnce_iff {x y : List UInt8} :
    DifferOnce x y ↔ ∃ p a b s, a ≠ b ∧ x = p ++ [a] ++ s ∧ y = p ++ [b] ++ s := by
  constructor
  · rintro ⟨hlength, i, hi⟩
    have hne : x[i]? ≠ y[i]? := mt (hi i).mp (fun h => h rfl)
    have hx : i < x.length := by
      by_contra hle
      rw [List.getElem?_eq_none (by omega), List.getElem?_eq_none (by omega)] at hne
      exact hne rfl
    have hy : i < y.length := hlength ▸ hx
    refine ⟨x.take i, x[i], y[i], x.drop (i + 1), fun h => hne ?_, ?_, ?_⟩
    · rw [List.getElem?_eq_getElem hx, List.getElem?_eq_getElem hy, h]
    · rw [← List.take_succ_eq_append_getElem hx, List.take_append_drop]
    · have htake : x.take i = y.take i := by
        refine List.ext_getElem? fun j => ?_
        rw [List.getElem?_take, List.getElem?_take]
        split
        · exact (hi j).mpr (by omega)
        · rfl
      have hdrop : x.drop (i + 1) = y.drop (i + 1) := by
        refine List.ext_getElem? fun j => ?_
        rw [List.getElem?_drop, List.getElem?_drop]
        exact (hi _).mpr (by omega)
      rw [htake, hdrop, ← List.take_succ_eq_append_getElem hy, List.take_append_drop]
  · rintro ⟨p, a, b, s, hne, rfl, rfl⟩
    refine ⟨by simp, p.length, fun j => ?_⟩
    rcases Nat.lt_trichotomy j p.length with hj | rfl | hj
    · simp [List.getElem?_append_left hj, Nat.ne_of_lt hj]
    · simp [hne]
    · obtain ⟨k, rfl⟩ := Nat.exists_eq_add_of_lt hj
      have hle : p.length ≤ p.length + (k + 1) := Nat.le_add_right _ _
      simp [Nat.add_assoc, List.getElem?_append_right hle]

end Word

open Word Value in
/-- Changing one byte always changes the hash, wherever it stands; and what two rows of bytes have
behind them in common does not matter to whether their hashes are the same. Two strings that differ
in one byte are never the same key. -/
theorem Word.fnv_separates :
    (∀ (p s : List UInt8) (a b : UInt8),
      a ≠ b → fnv (p ++ [a] ++ s) ≠ fnv (p ++ [b] ++ s)) ∧
      (∀ x y s : List UInt8, fnv (x ++ s) = fnv (y ++ s) ↔ fnv x = fnv y) ∧
      ∀ u v : String, DifferOnce u.toUTF8.data.toList v.toUTF8.data.toList →
        (Key.string u).slot ≠ (Key.string v).slot := by
  refine ⟨fun p s a b => mt (fnv_byte_inj p s a b).mp, fnv_append_inj, fun u v h heq => ?_⟩
  obtain ⟨p, a, b, s, hne, hu, hv⟩ := differOnce_iff.mp h
  have hhash : fnv u.toUTF8.data.toList = fnv v.toUTF8.data.toList := congrArg HashKey.bits heq
  rw [hu, hv] at hhash
  exact hne ((fnv_byte_inj p s a b).mp hhash)

/-- The words end in letters of two bytes each, of which only the second differs. -/
theorem Word.fnv_separates_accents :
    DifferOnce "café".toUTF8.data.toList "cafè".toUTF8.data.toList ∧
      (Value.Key.string "café").slot ≠ (Value.Key.string "cafè").slot := by
  have hdiffer : DifferOnce "café".toUTF8.data.toList "cafè".toUTF8.data.toList :=
    differOnce_iff.mpr ⟨[0x63, 0x61, 0x66, 0xc3], 0xa9, 0xa8, [], by decide, by decide, by decide⟩
  exact ⟨hdiffer, fnv_separates.2.2 _ _ hdiffer⟩

end MonkeyLang
