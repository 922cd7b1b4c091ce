import MonkeyLang.Config
import MonkeyLang.Log
import MonkeyLang.Program.Report
import MonkeyLang.Repl.Buffer
import MonkeyLang.Repl.Command
import MonkeyLang.Session

/-!
The interactive session: each line that was submitted is a command or a program, and the session
answers with what is to be shown.
-/

namespace MonkeyLang

/-- The state of an interactive session: what its programs have bound, whether traces are on, and
whether debugging records are shown. -/
structure Repl where
  session : Session
  trace : Bool
  debug : Bool

namespace Repl

def start (trace debug : Bool) : Repl := ⟨Session.start, trace, debug⟩

def greeting : Output := [.line "monkey repl. Ctrl-D to exit, / for commands"]

def farewell : Output := [.line ""]

def prompt : String := ">> "

def continuation : String := ".. "

def perform (r : Repl) (command : Command) (argument : String) : Repl × Output :=
  match command with
  | .clear => (r, [.clear])
  | .reset => ({ r with session := r.session.reset }, [.line "Environment reset."])
  | .traceback =>
    let word := argument.map Char.toLower
    let switched (on : Bool) : Repl × Output :=
      ({ r with trace := on }, [.line ("Python traceback: " ++ if on then "on" else "off")])
    if Config.onWords.contains word then switched true
    else if Config.offWords.contains word then switched false
    else if word.isEmpty then switched !r.trace
    else (r, [.errorLine "Usage: /py-traceback [on|off]"])

/-- Puts a line into effect if it is a command. -/
def dispatch? (r : Repl) (line : String) : Option (Repl × Output) :=
  (Command.split? line).map fun (word, argument) =>
    match Command.ofName? word with
    | some command => r.perform command argument
    | none => (r, [.errorLine ("Unknown command: " ++ word)])

def present : Outcome → Output
  | .value .null => []
  | .value v => [.line v.inspect]
  | .tooDeep => [.errorLine (Report.failure Report.tooDeep)]
  | .refused errors => [.line (Report.listing errors)]

def runLine (r : Repl) (text : String) : Repl × Output :=
  let records := if r.debug then Log.ofLine text ++ Log.ofSource text else []
  let (outcome, session) := r.session.run text
  let (printed, session) := session.flush
  ({ r with session := session }, records ++ [.out printed] ++ present outcome)

/-- Takes a line, or none if the input was interrupted. -/
def submit (r : Repl) (line : Option String) : Repl × Output :=
  match line with
  | none => (r, [.line "KeyboardInterrupt"])
  | some line =>
    let text := clean line
    if (Text.trim text.toList).isEmpty then (r, [])
    else (r.dispatch? text).getD (r.runLine text)

end Repl

end MonkeyLang
