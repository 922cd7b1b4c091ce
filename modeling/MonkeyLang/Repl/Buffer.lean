import MonkeyLang.Token.Lexer

/-!
The text that is being typed: what of it is dropped, how many brackets it leaves open, and what
the keys do to it.
-/

namespace MonkeyLang.Repl

/-- Characters that pasted text carries along and that mean nothing: joiners and spaces of no
width, the byte order mark, the fixed space, and the carriage return. -/
def isJunk (c : Char) : Bool :=
  c == '\u200b' || c == '\u200c' || c == '\u200d' || c == '\ufeff' || c == '\u00a0' || c == '\r'

def clean (text : String) : String := String.ofList (text.toList.filter (!isJunk ·))

/-- The number of open brackets after one more token; a closing bracket closes one of any shape. -/
def bracketStep (depth : Nat) (t : Token) : Nat :=
  if t.kind.isOpener then depth + 1 else if t.kind.isCloser then depth - 1 else depth

def bracketDepth (text : String) : Nat := (tokenize text).foldl bracketStep 0

structure Buffer where
  before : List Char
  after : List Char
  deriving DecidableEq, Repr, Inhabited

namespace Buffer

def ofString (text : String) (cursor : Nat) : Buffer :=
  ⟨text.toList.take cursor, text.toList.drop cursor⟩

def chars (b : Buffer) : List Char := b.before ++ b.after

def text (b : Buffer) : String := String.ofList b.chars

def cursor (b : Buffer) : Nat := b.before.length

def isCommand (b : Buffer) : Bool := b.chars.head? == some '/'

def insert (b : Buffer) (c : Char) : Buffer := { b with before := b.before ++ [c] }

def delete (b : Buffer) : Buffer := { b with before := b.before.dropLast }

end Buffer

/-- The keys that do more than to put themselves into the text. -/
inductive Key
  | enter
  | backspace
  deriving DecidableEq, Repr, Inhabited

/-- What a key asks for beyond a change of the text. -/
inductive Request
  | complete
  | submit
  deriving DecidableEq, Repr, Inhabited

/-- What a key does. Enter submits the text, unless it is a program with a bracket still open;
then it goes on in a new line. Backspace asks for completions of a command. -/
def press (k : Key) (b : Buffer) : Buffer × Option Request :=
  match k with
  | .enter =>
    if !b.isCommand && 0 < bracketDepth b.text then (b.insert '\n', none) else (b, some .submit)
  | .backspace =>
    let b := b.delete
    (b, if b.isCommand then some .complete else none)

end MonkeyLang.Repl
