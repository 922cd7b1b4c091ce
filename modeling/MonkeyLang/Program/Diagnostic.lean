import MonkeyLang.Token

/-!
What the parser reports of a malformed program. A diagnostic is a cause, with the token at which
it was noticed and the number of blocks that were open there.
-/

namespace MonkeyLang

inductive Diagnostic.Cause
  | unexpected (wanted found : Token.Kind)
  | noOperand (found : Token.Kind)
  | notAnInteger (literal : String)
  deriving DecidableEq, Repr, Inhabited

structure Diagnostic where
  cause : Diagnostic.Cause
  pos : Position
  depth : Nat
  deriving DecidableEq, Repr, Inhabited

def Diagnostic.message (d : Diagnostic) : String :=
  match d.cause with
  | .unexpected wanted found =>
    "expected next token to be " ++ wanted.display ++ ", got " ++ found.display ++ " instead"
  | .noOperand found => "no prefix parse function for " ++ found.display ++ " found"
  | .notAnInteger literal => "could not parse \"" ++ literal ++ "\" as integer"

end MonkeyLang
