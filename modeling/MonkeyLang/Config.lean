import MonkeyLang.Text.Blank

/-!
Settings that the environment gives a process: which log records it shows, and whether it shows a
trace of its own with a failure.
-/

namespace MonkeyLang.Config

def levelVariable : String := "MONKEY_LOG_LEVEL"

def traceVariable : String := "MONKEY_DEBUG_PY_TRACE"

def levels : List (String × Nat) :=
  [("CRITICAL", 50), ("FATAL", 50), ("ERROR", 40), ("WARNING", 30), ("WARN", 30), ("INFO", 20),
    ("DEBUG", 10), ("NOTSET", 0)]

def defaultLevel : Nat := 30

/-- The severity of debugging records, the only ones that the interpreter writes. -/
def debugLevel : Nat := 10

/-- The capital form of a letter, as far as it is an ASCII letter; that is so for two letters
outside of ASCII, the dotless i and the long s. -/
def capital (c : Char) : Char :=
  if c = 'ı' then 'I' else if c = 'ſ' then 'S' else c.toUpper

/-- The severity that a name stands for, in letters of either case and with blanks around it. -/
def levelOf (name : String) : Nat :=
  let name := String.ofList ((Text.trim name.toList).map capital)
  (levels.lookup name).getD defaultLevel

def level (setting : Option String) : Nat :=
  (setting.map levelOf).getD defaultLevel

/-- Debugging records are shown when the setting names their severity. The one name below it,
of no severity at all, leaves the choice to the default. -/
def showsDebug (setting : Option String) : Bool :=
  level setting == debugLevel

def onWords : List String := ["on", "1", "true", "yes"]

def offWords : List String := ["off", "0", "false", "no"]

def isOn (setting : Option String) : Bool :=
  match setting with
  | some value =>
    onWords.contains (String.ofList ((Text.trim value.toList).map Char.toLower))
  | none => false

end MonkeyLang.Config
