/-!
Arithmetic of 64-bit words: signed numbers that wrap around, and the FNV-1a hash of a byte
sequence.
-/

namespace MonkeyLang.Word

/-- How many words there are, two to the 64th. -/
def count : Nat := 0x10000000000000000

def greatest : Int := 0x7fffffffffffffff

def least : Int := -0x8000000000000000

/-- The signed 64-bit number that has the same low 64 bits. -/
def wrap (n : Int) : Int := Int.bmod n count

def quotient (m n : Int) : Int := m.tdiv n

def bits (n : Int) : UInt64 := UInt64.ofNat (n % count).toNat

def fnvOffset : UInt64 := 0xcbf29ce484222325

def fnvPrime : UInt64 := 0x100000001b3

def fnvStep (h : UInt64) (b : UInt8) : UInt64 := (h ^^^ b.toUInt64) * fnvPrime

/-- The 64-bit FNV-1a hash of a byte sequence. -/
def fnv (bytes : List UInt8) : UInt64 := bytes.foldl fnvStep fnvOffset

theorem wrap_le (n : Int) : wrap n ≤ greatest := by
  have := Int.bmod_lt (x := n) (m := count) (by decide)
  simp only [wrap, greatest, count] at *
  omega

theorem le_wrap (n : Int) : least ≤ wrap n := by
  have := Int.le_bmod (x := n) (m := count) (by decide)
  simp only [wrap, least, count] at *
  omega

end MonkeyLang.Word
