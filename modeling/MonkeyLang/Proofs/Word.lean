import MonkeyLang.Word

/-!
The numbers that 64 bits can tell apart, and the hash of bytes as arithmetic of numbers.
-/

namespace MonkeyLang.Word

def InRange (n : Int) : Prop := least ≤ n ∧ n ≤ greatest

instance (n : Int) : Decidable (InRange n) := inferInstanceAs (Decidable (_ ∧ _))

theorem inRange_wrap (n : Int) : InRange (wrap n) := ⟨le_wrap n, wrap_le n⟩

theorem wrap_eq_self {n : Int} (h : InRange n) : wrap n = n := by
  obtain ⟨hleast, hgreatest⟩ := h
  simp only [least, greatest] at hleast hgreatest
  refine Int.bmod_eq_of_le_mul_two ?_ ?_ <;> simp only [count] <;> omega

/-- Numbers in range are told apart by their low 64 bits. -/
theorem bits_inj {m n : Int} (hm : InRange m) (hn : InRange n) : bits m = bits n ↔ m = n := by
  refine ⟨fun h => ?_, fun h => h ▸ rfl⟩
  have hbits : ∀ k : Int, (bits k).toNat = (k % count).toNat := by
    intro k
    unfold bits
    rw [UInt64.toNat_ofNat', Nat.mod_eq_of_lt]
    have := Int.emod_lt_of_pos k (show (0 : Int) < count by decide)
    simp only [count] at this ⊢
    omega
  have heq : (m % count).toNat = (n % count).toNat := by rw [← hbits, ← hbits, h]
  obtain ⟨hm, hm'⟩ := hm
  obtain ⟨hn, hn'⟩ := hn
  simp only [least, greatest, count] at *
  omega

/-- The 64-bit FNV-1a hash of a byte sequence: from the offset basis on, each byte is taken into the
low bits, and then the whole is multiplied by the prime. -/
def fnv1a (bytes : List UInt8) : Nat :=
  bytes.foldl (fun h b => (h ^^^ b.toNat) * 1099511628211 % 0x10000000000000000) 14695981039346656037

theorem toNat_fnv (bytes : List UInt8) : (fnv bytes).toNat = fnv1a bytes := by
  have hstep : ∀ (h : UInt64) (b : UInt8),
      (h.toNat ^^^ b.toNat) * 1099511628211 % 0x10000000000000000 = (fnvStep h b).toNat := by
    intro h b
    rw [fnvStep, UInt64.toNat_mul, UInt64.toNat_xor, UInt8.toNat_toUInt64]
    rfl
  exact (List.foldl_hom UInt64.toNat hstep).symm

theorem fnv_inj {a b : List UInt8} : fnv a = fnv b ↔ fnv1a a = fnv1a b := by
  rw [← UInt64.toNat_inj, toNat_fnv, toNat_fnv]

end MonkeyLang.Word
