import MonkeyLang.Text.Quoted
import MonkeyLang.Value

/-!
Tokens and functions as a debugger shows them.
-/

namespace MonkeyLang

def Token.describe (t : Token) : String :=
  "Tok(" ++ t.kind.name ++ ", " ++ Text.quoted t.literal ++ ", " ++ t.pos.text ++ ")"

/-- A function by its parameters or its name; any other value by its text. -/
def Value.describe : Value → String
  | .function _ parameters _ _ =>
    "<fn params=" ++ Text.quotedList (parameters.map (·.name)) ++ ">"
  | .builtin p => "<builtin " ++ p.name ++ ">"
  | .registered _ name _ => "<builtin " ++ name ++ ">"
  | v => v.inspect

end MonkeyLang
