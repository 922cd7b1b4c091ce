import MonkeyLang.Value

/-!
Operators on values: signs, arithmetic and comparison, and indexing. Each gives a value or the
reason why it has none.
-/

namespace MonkeyLang.Value

def unary (op : String) (right : Value) : Except Failure Value :=
  match op, right with
  | "!", v => .ok (.boolean !v.isTruthy)
  | "-", .integer n => .ok (.integer (Word.wrap (-n)))
  | op, v => .error (.unknownUnary op v.tag)

def binaryInteger (op : String) (m n : Int) : Except Failure Value :=
  match op with
  | "+" => .ok (.integer (Word.wrap (m + n)))
  | "-" => .ok (.integer (Word.wrap (m - n)))
  | "*" => .ok (.integer (Word.wrap (m * n)))
  | "/" =>
    if n = 0 then .error .divisionByZero else .ok (.integer (Word.wrap (Word.quotient m n)))
  | "<" => .ok (.boolean (m < n))
  | ">" => .ok (.boolean (m > n))
  | "==" => .ok (.boolean (m == n))
  | "!=" => .ok (.boolean (m != n))
  | op => .error (.unknownBinary .integer op .integer)

/-- An operator between two values. Outside numbers and strings there is only `==` and `!=`, and
they ask whether the operands are one and the same. -/
def binary (op : String) (left right : Value) : Except Failure Value :=
  match left, right with
  | .integer m, .integer n => binaryInteger op m n
  | .string s, .string t =>
    if op = "+" then .ok (.string (s ++ t)) else .error (.unknownBinary .string op .string)
  | l, r =>
    if op = "==" then .ok (.boolean (l.identical r))
    else if op = "!=" then .ok (.boolean !l.identical r)
    else if l.tag = r.tag then .error (.unknownBinary l.tag op r.tag)
    else .error (.typeMismatch l.tag op r.tag)

/-- The element of an array at an index; null outside of it. -/
def elementAt (elements : List Value) (i : Int) : Value :=
  if i < 0 then .null else elements.getD i.toNat .null

def index (left i : Value) : Except Failure Value :=
  match left, i with
  | .array _ elements, .integer n => .ok (elementAt elements n)
  | .hash _ entries, i =>
    match i.key? with
    | some key => .ok ((slotValue? key entries).getD .null)
    | none => .error (.notAKey i.tag)
  | left, _ => .error (.notIndexable left.tag)

end MonkeyLang.Value
