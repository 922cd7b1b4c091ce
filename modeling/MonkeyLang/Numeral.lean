import MonkeyLang.Text.Blank
import MonkeyLang.Numeral.Digit

/-!
Reading decimal numerals: a sign or none, then digits of any script with single underscores
between them at will, and white space around the whole. A numeral of more than 4300 digits is not
read.
-/

namespace MonkeyLang.Numeral

/-- White space that may stand around a numeral; unlike in other text, the ASCII separators
U+001C to U+001F are no part of it. -/
def isMargin (c : Char) : Bool :=
  Text.isBlank c && !(0x1c ≤ c.toNat && c.toNat ≤ 0x1f)

/-- The digits of a nonempty row of digits with single underscores between them. -/
def digits? : List Char → Option (List Nat)
  | [] => none
  | [c] => (digitValue? c).map ([·])
  | c :: '_' :: rest => do return (← digitValue? c) :: (← digits? rest)
  | c :: d :: rest => do return (← digitValue? c) :: (← digits? (d :: rest))

def ofDigits (ds : List Nat) : Nat :=
  ds.foldl (fun n d => 10 * n + d) 0

def maxDigits : Nat := 4300

def natural? (text : List Char) : Option Nat := do
  let ds ← digits? text
  if ds.length ≤ maxDigits then some (ofDigits ds) else none

def read? (text : List Char) : Option Int :=
  match Text.trimWhere isMargin text with
  | '-' :: rest => (natural? rest).map (-Int.ofNat ·)
  | '+' :: rest => (natural? rest).map Int.ofNat
  | rest => (natural? rest).map Int.ofNat

end MonkeyLang.Numeral
