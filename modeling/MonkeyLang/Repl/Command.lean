import MonkeyLang.Text.Blank

/-!
The commands of an interactive session. A command is a line whose first word begins with a slash;
what follows the word is its argument.
-/

namespace MonkeyLang.Repl

inductive Command
  | clear
  | traceback
  | reset
  deriving DecidableEq, Repr, Inhabited

namespace Command

def all : List Command := [.clear, .traceback, .reset]

def name : Command → String
  | clear => "/clear"
  | traceback => "/py-traceback"
  | reset => "/reset"

def help : Command → String
  | clear => "Clear the terminal screen"
  | traceback => "Toggle Python traceback on errors [on|off]"
  | reset => "Reset the REPL environment"

def ofName? (word : String) : Option Command := all.find? (·.name == word)

/-- The first word of a line and its argument, if the line gives a command at all. -/
def split? (text : String) : Option (String × String) :=
  let (word, argument) := Text.splitWord (Text.trim text.toList)
  if word.head? == some '/' then some (String.ofList word, String.ofList argument) else none

/-- The commands whose names begin with what was typed, once that begins with a slash. -/
def completions (typed : List Char) : List Command :=
  if typed.head? == some '/' then all.filter fun c => typed.isPrefixOf c.name.toList else []

end Command

end MonkeyLang.Repl
