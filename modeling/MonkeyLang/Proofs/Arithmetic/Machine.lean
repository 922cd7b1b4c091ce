import MonkeyLang.Operator

/-!
Arithmetic trees and what they mean: to a machine with words of 64 bits in two's complement, and
over the unbounded integers. Without division the two differ by a single wrap of the end result.
-/

namespace MonkeyLang

namespace Arith

inductive Op
  | plus
  | minus
  | times
  | divide
  deriving DecidableEq, Repr

def Op.char : Op → Char
  | plus => '+'
  | minus => '-'
  | times => '*'
  | divide => '/'

/-- An operator on words. The quotient is rounded toward zero, and that of the least number and -1
is the least number. -/
def Op.onWords : Op → BitVec 64 → BitVec 64 → BitVec 64
  | plus, x, y => x + y
  | minus, x, y => x - y
  | times, x, y => x * y
  | divide, x, y => x.sdiv y

example : (BitVec.intMin 64).sdiv (-1) = BitVec.intMin 64 := by decide

def Op.onIntegers : Op → Int → Int → Int
  | plus, m, n => m + n
  | minus, m, n => m - n
  | times, m, n => m * n
  | divide, m, n => m.tdiv n

end Arith

inductive Arith
  | literal (n : Nat)
  | negate (a : Arith)
  | binary (op : Arith.Op) (a b : Arith)

namespace Arith

/-- The value in 64-bit machine arithmetic. -/
def word : Arith → BitVec 64
  | literal n => BitVec.ofNat 64 n
  | negate a => -a.word
  | binary op a b => op.onWords a.word b.word

/-- The value without bounds. -/
def exact : Arith → Int
  | literal n => n
  | negate a => -a.exact
  | binary op a b => op.onIntegers a.exact b.exact

def parts : Arith → List Arith
  | literal n => [literal n]
  | negate a => negate a :: a.parts
  | binary op a b => binary op a b :: (a.parts ++ b.parts)

/-- Some division in the tree has a divisor of value zero. -/
def DividesByZero (a : Arith) : Prop := ∃ l r, binary .divide l r ∈ a.parts ∧ r.word = 0

def Divides (a : Arith) : Prop := ∃ l r, binary .divide l r ∈ a.parts

def depth : Arith → Nat
  | literal _ => 1
  | negate a => a.depth + 1
  | binary _ a b => max a.depth b.depth + 1

theorem dividesByZero_literal (n : Nat) : ¬(literal n).DividesByZero := by
  rintro ⟨l, r, h, -⟩
  cases List.mem_singleton.mp h

theorem dividesByZero_negate (a : Arith) : (negate a).DividesByZero ↔ a.DividesByZero := by
  simp [DividesByZero, parts]

theorem dividesByZero_binary (op : Op) (a b : Arith) :
    (binary op a b).DividesByZero ↔
      a.DividesByZero ∨ b.DividesByZero ∨ (op = .divide ∧ b.word = 0) := by
  constructor
  · rintro ⟨l, r, h, hr⟩
    rcases List.mem_cons.mp h with h | h
    · cases h
      exact .inr (.inr ⟨rfl, hr⟩)
    · rcases List.mem_append.mp h with h | h
      · exact .inl ⟨l, r, h, hr⟩
      · exact .inr (.inl ⟨l, r, h, hr⟩)
  · rintro (⟨l, r, h, hr⟩ | ⟨l, r, h, hr⟩ | ⟨rfl, hr⟩)
    · exact ⟨l, r, List.mem_cons_of_mem _ (List.mem_append_left _ h), hr⟩
    · exact ⟨l, r, List.mem_cons_of_mem _ (List.mem_append_right _ h), hr⟩
    · exact ⟨a, b, List.mem_cons_self, hr⟩

/-! ## One wrap at the end -/

/-- Without a division, wrapping at each operator amounts to one wrap of the exact value. -/
theorem word_eq_ofInt {a : Arith} (h : ¬a.Divides) : a.word = BitVec.ofInt 64 a.exact := by
  induction a with
  | literal n => exact (BitVec.ofInt_natCast 64 n).symm
  | negate a ih =>
    have ha : ¬a.Divides := fun ⟨l, r, hmem⟩ => h ⟨l, r, List.mem_cons_of_mem _ hmem⟩
    rw [word, exact, ih ha, BitVec.ofInt_neg]
  | binary op a b iha ihb =>
    have ha : ¬a.Divides := fun ⟨l, r, hmem⟩ =>
      h ⟨l, r, List.mem_cons_of_mem _ (List.mem_append_left _ hmem)⟩
    have hb : ¬b.Divides := fun ⟨l, r, hmem⟩ =>
      h ⟨l, r, List.mem_cons_of_mem _ (List.mem_append_right _ hmem)⟩
    rw [word, exact, iha ha, ihb hb]
    cases op with
    | plus => exact (BitVec.ofInt_add _ _).symm
    | minus =>
      show _ = BitVec.ofInt 64 (a.exact - b.exact)
      rw [Int.sub_eq_add_neg, BitVec.ofInt_add, BitVec.ofInt_neg, ← BitVec.sub_eq_add_neg]
      rfl
    | times => exact (BitVec.ofInt_mul _ _).symm
    | divide => exact absurd ⟨a, b, List.mem_cons_self⟩ h

theorem toInt_word_eq_wrap {a : Arith} (h : ¬a.Divides) : a.word.toInt = Word.wrap a.exact := by
  rw [word_eq_ofInt h, BitVec.toInt_ofInt]
  rfl

/-! ## Words are the integers of the evaluator -/

theorem wrap_neg (x : BitVec 64) : Word.wrap (-x.toInt) = (-x).toInt := BitVec.toInt_neg.symm

theorem toInt_eq_zero {x : BitVec 64} : x.toInt = 0 ↔ x = 0 := by
  rw [← BitVec.toInt_inj]
  rfl

/-- An operator of the evaluator is that of the machine, but for a division by zero. -/
theorem binaryInteger_eq (op : Op) (x y : BitVec 64) :
    Value.binaryInteger op.char.toString x.toInt y.toInt =
      if op = .divide ∧ y = 0 then .error .divisionByZero
      else .ok (.integer (op.onWords x y).toInt) := by
  cases op with
  | plus => exact congrArg (fun n => Except.ok (Value.integer n)) (BitVec.toInt_add x y).symm
  | minus => exact congrArg (fun n => Except.ok (Value.integer n)) BitVec.toInt_sub.symm
  | times => exact congrArg (fun n => Except.ok (Value.integer n)) (BitVec.toInt_mul x y).symm
  | divide =>
    show (if y.toInt = 0 then _ else _) = _
    by_cases hy : y = 0
    · rw [if_pos (toInt_eq_zero.mpr hy), if_pos ⟨rfl, hy⟩]
    · rw [if_neg (mt toInt_eq_zero.mp hy), if_neg fun h => hy h.2]
      exact congrArg (fun n => Except.ok (Value.integer n)) (BitVec.toInt_sdiv x y).symm

end Arith

end MonkeyLang
