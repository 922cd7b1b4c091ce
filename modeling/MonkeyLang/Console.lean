/-!
What a process writes to its terminal.
-/

namespace MonkeyLang

/-- One act of writing: a text to the output or to the error stream, or clearing the screen. -/
inductive Write
  | out (text : String)
  | err (text : String)
  | clear
  deriving DecidableEq, Repr, Inhabited

def Write.line (text : String) : Write := .out (text ++ "\n")

def Write.errorLine (text : String) : Write := .err (text ++ "\n")

abbrev Output := List Write

end MonkeyLang
