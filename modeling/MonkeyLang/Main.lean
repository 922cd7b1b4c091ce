import MonkeyLang.CommandLine
import MonkeyLang.Repl

/-!
The program: it reads what its command line asks for and writes what the interpreter answers.
-/

namespace MonkeyLang

def Write.perform : Write → IO Unit
  | .out text => do
    IO.print text
    (← IO.getStdout).flush
  | .err text => IO.eprint text
  | .clear => IO.print "\x1b[2J\x1b[H"

/-- Reads lines until no bracket is open, or the input ends. -/
partial def readSubmission (input : IO.FS.Stream) (typed : String) : IO (Option String) := do
  IO.print (if typed.isEmpty then Repl.prompt else Repl.continuation)
  (← IO.getStdout).flush
  let line ← input.getLine
  if line.isEmpty then
    return if typed.isEmpty then none else some typed
  let text := typed ++ if line.endsWith "\n" then (line.dropEnd 1).toString else line
  match Repl.press .enter (.ofString text text.length) with
  | (_, some _) => return some text
  | (buffer, none) => readSubmission input buffer.text

partial def interact (input : IO.FS.Stream) (r : Repl) : IO Unit := do
  match ← readSubmission input "" with
  | none => Repl.farewell.forM Write.perform
  | some text =>
    let (r, output) := r.submit (some text)
    output.forM Write.perform
    interact input r

partial def readAll (input : IO.FS.Stream) (text : String) : IO String := do
  let line ← input.getLine
  if line.isEmpty then return text else readAll input (text ++ line)

def readSource? (name : String) : IO (Option String) := do
  try
    return some (CommandLine.fileSource (← IO.FS.readFile (CommandLine.fileName name)))
  catch _ =>
    return none

def runSource (source : String) (debug : Bool) : IO UInt32 := do
  let (output, code) := CommandLine.execute source debug
  output.forM Write.perform
  return code.toUInt32

end MonkeyLang

open MonkeyLang in
def main (args : List String) : IO UInt32 := do
  let debug := Config.showsDebug (← IO.getEnv Config.levelVariable)
  let trace := Config.isOn (← IO.getEnv Config.traceVariable)
  let input ← IO.getStdin
  match CommandLine.plan args (← input.isTty) with
  | .reject message =>
    IO.eprintln message
    return 1
  | .interactive =>
    Repl.greeting.forM Write.perform
    interact input (.start trace debug)
    return 0
  | .input =>
    let source ← readAll input ""
    if source.isEmpty then
      IO.eprintln CommandLine.noInput
      return 1
    runSource source debug
  | .argument text => runSource ((← readSource? text).getD text) debug
