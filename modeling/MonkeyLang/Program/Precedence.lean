import MonkeyLang.Token

/-!
How tightly operators bind.
-/

namespace MonkeyLang

/-- The levels of binding, the loosest first. -/
inductive Precedence
  | lowest
  | equality
  | comparison
  | sum
  | product
  | sign
  | call
  | index
  deriving DecidableEq, Repr, Inhabited

def Precedence.rank : Precedence → Nat
  | lowest => 0
  | equality => 1
  | comparison => 2
  | sum => 3
  | product => 4
  | sign => 5
  | call => 6
  | index => 7

/-- How tightly a token binds the phrase before it; one that is no operator does not at all. -/
def Token.Kind.precedence : Token.Kind → Precedence
  | .eq | .notEq => .equality
  | .lt | .gt => .comparison
  | .plus | .minus => .sum
  | .slash | .asterisk => .product
  | .lparen => .call
  | .lbracket => .index
  | _ => .lowest

end MonkeyLang
