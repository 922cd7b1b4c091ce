/-!
Tokens of the Monkey language: their kinds, the spelling of each keyword and operator, and where a
token stands in its source.
-/

namespace MonkeyLang

/-- A place in a source: lines and columns count from one, columns in characters. -/
structure Position where
  line : Nat
  column : Nat
  deriving DecidableEq, Repr, Inhabited

namespace Position

def start : Position := ⟨1, 1⟩

/-- The place after a character; only a line feed begins a new line. -/
def step (p : Position) (c : Char) : Position :=
  if c = '\n' then ⟨p.line + 1, 1⟩ else ⟨p.line, p.column + 1⟩

def advance (p : Position) (text : List Char) : Position :=
  text.foldl step p

@[simp] theorem advance_nil (p : Position) : p.advance [] = p := rfl

@[simp] theorem advance_cons (p : Position) (c : Char) (cs : List Char) :
    p.advance (c :: cs) = (p.step c).advance cs := rfl

theorem advance_append (p : Position) (s t : List Char) :
    p.advance (s ++ t) = (p.advance s).advance t := List.foldl_append

def text (p : Position) : String := s!"{p.line}:{p.column}"

end Position

namespace Token

inductive Kind
  | illegal
  | eof
  | ident
  | int
  | string
  | assign
  | plus
  | minus
  | bang
  | asterisk
  | slash
  | lt
  | gt
  | eq
  | notEq
  | comma
  | semicolon
  | colon
  | lparen
  | rparen
  | lbrace
  | rbrace
  | lbracket
  | rbracket
  | kwFn
  | kwLet
  | kwTrue
  | kwFalse
  | kwIf
  | kwElse
  | kwReturn
  deriving DecidableEq, Repr, Inhabited

namespace Kind

def all : List Kind :=
  [.illegal, .eof, .ident, .int, .string, .assign, .plus, .minus, .bang, .asterisk, .slash, .lt,
    .gt, .eq, .notEq, .comma, .semicolon, .colon, .lparen, .rparen, .lbrace, .rbrace, .lbracket,
    .rbracket, .kwFn, .kwLet, .kwTrue, .kwFalse, .kwIf, .kwElse, .kwReturn]

def name : Kind → String
  | illegal => "ILLEGAL"
  | eof => "EOF"
  | ident => "IDENT"
  | int => "INT"
  | string => "STRING"
  | assign => "ASSIGN"
  | plus => "PLUS"
  | minus => "MINUS"
  | bang => "BANG"
  | asterisk => "ASTERISK"
  | slash => "SLASH"
  | lt => "LT"
  | gt => "GT"
  | eq => "EQ"
  | notEq => "NOT_EQ"
  | comma => "COMMA"
  | semicolon => "SEMICOLON"
  | colon => "COLON"
  | lparen => "LPAREN"
  | rparen => "RPAREN"
  | lbrace => "LBRACE"
  | rbrace => "RBRACE"
  | lbracket => "LBRACKET"
  | rbracket => "RBRACKET"
  | kwFn => "FUNCTION"
  | kwLet => "LET"
  | kwTrue => "TRUE"
  | kwFalse => "FALSE"
  | kwIf => "IF"
  | kwElse => "ELSE"
  | kwReturn => "RETURN"

def ofName? (text : String) : Option Kind :=
  all.find? (·.name == text)

def keywords : List (String × Kind) :=
  [("fn", .kwFn), ("let", .kwLet), ("true", .kwTrue), ("false", .kwFalse), ("if", .kwIf),
    ("else", .kwElse), ("return", .kwReturn)]

def symbols : List (Char × Kind) :=
  [('=', .assign), ('+', .plus), ('-', .minus), ('!', .bang), ('*', .asterisk), ('/', .slash),
    ('<', .lt), ('>', .gt), (',', .comma), (';', .semicolon), (':', .colon), ('(', .lparen),
    (')', .rparen), ('\x7b', .lbrace), ('\x7d', .rbrace), ('[', .lbracket), (']', .rbracket)]

/-- How diagnostics write a kind: an operator as it is spelled, anything else by name. -/
def display : Kind → String
  | eq => "=="
  | notEq => "!="
  | k => match symbols.find? (·.2 == k) with
    | some (c, _) => c.toString
    | none => k.name

/-- The kind of a word: its keyword, if it is one, and an identifier otherwise. -/
def ofWord (word : String) : Kind :=
  (keywords.lookup word).getD .ident

def ofSymbol? (c : Char) : Option Kind :=
  symbols.lookup c

def isOpener (k : Kind) : Bool :=
  k matches .lparen | .lbrace | .lbracket

def isCloser (k : Kind) : Bool :=
  k matches .rparen | .rbrace | .rbracket

end Kind

end Token

/-- A token with its place. The literal of a string leaves out the quotes. -/
structure Token where
  kind : Token.Kind
  literal : String
  pos : Position
  deriving DecidableEq, Repr

namespace Token

/-- The token that stands where a tree was built without one. -/
def unset : Token := ⟨.illegal, "", ⟨0, 0⟩⟩

instance : Inhabited Token := ⟨unset⟩

def eof (pos : Position) : Token := ⟨.eof, "", pos⟩

@[simp] theorem kind_eof (pos : Position) : (eof pos).kind = .eof := rfl

def sourceText (t : Token) : List Char :=
  if t.kind = .string then '"' :: t.literal.toList ++ ['"'] else t.literal.toList

def width (t : Token) : Nat :=
  if t.kind = .string then t.literal.length + 2 else t.literal.length

theorem length_sourceText (t : Token) : t.sourceText.length = t.width := by
  by_cases h : t.kind = .string <;> simp [sourceText, width, h, String.length_toList]

end Token

end MonkeyLang
