import MonkeyLang.Log
import MonkeyLang.Program.Report
import MonkeyLang.Session
import MonkeyLang.Text.Newline

/-!
The command line: a source is given as the argument, in a file that the argument names, or on the
standard input; without any of these, an interactive session begins.
-/

namespace MonkeyLang.CommandLine

/-- Where the source of a run is to come from. -/
inductive Plan
  | interactive
  | input
  | argument (text : String)
  | reject (message : String)
  deriving DecidableEq, Repr, Inhabited

/-- What the arguments ask for, where `terminal` says that the input is one. -/
def plan (args : List String) (terminal : Bool) : Plan :=
  match args with
  | [] => if terminal then .interactive else .input
  | ["-"] => .input
  | [text] => .argument text
  | _ :: extra :: _ => .reject ("Unexpected argument: " ++ extra)

def noInput : String := "No input provided on stdin"

/-- A file name without the parts that lead nowhere: empty ones and single dots. -/
def fileName (text : String) : String :=
  let root := if text.toList.head? == some '/' then "/" else ""
  root ++ "/".intercalate ((text.splitOn "/").filter fun part => part != "" && part != ".")

def fileSource (contents : String) : String :=
  String.ofList (Text.unifyNewlines contents.toList)

/-- Runs a source: what is written, and the exit code. -/
def execute (source : String) (debug : Bool) : Output × Nat :=
  let records := if debug then Log.ofSource source else []
  let (outcome, session) := Session.start.run source
  let before := records ++ [.out session.flush.1]
  match outcome with
  | .refused errors =>
    (before ++ [.errorLine "parser errors:", .errorLine (Report.listing errors)], 1)
  | .tooDeep => (before ++ [.errorLine (Report.failure Report.tooDeep)], 1)
  | .value v =>
    if v.isError then (before ++ [.errorLine v.inspect], 1)
    else if v.isNull then (before, 0)
    else (before ++ [.line v.inspect], 0)

end MonkeyLang.CommandLine
