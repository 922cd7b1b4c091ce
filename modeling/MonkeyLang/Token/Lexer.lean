import MonkeyLang.Token

/-!
Reading a source as tokens. At each place the longest token is taken: a run of digits, a quoted
string, a word, an operator. A character that begins none of them is a token of its own, of kind
`illegal`, so that no source is refused.
-/

namespace MonkeyLang

namespace Lexer

open Token (Kind)

/-- Characters that separate tokens and belong to none. -/
def isBlank (c : Char) : Bool :=
  c == ' ' || c == '\t' || c == '\x0c' || c == '\r' || c == '\n'

def isDigit (c : Char) : Bool := '0' ≤ c && c ≤ '9'

def isWordStart (c : Char) : Bool :=
  ('a' ≤ c && c ≤ 'z') || ('A' ≤ c && c ≤ 'Z') || c == '_'

def isWordPart (c : Char) : Bool := isWordStart c || isDigit c

/-- The first token of a text: its kind, its characters (quotes included) and what follows. -/
structure Munch where
  kind : Kind
  taken : List Char
  rest : List Char
  deriving DecidableEq, Repr

/-- The longest token that begins with `c` in `c :: cs`. -/
def munch (c : Char) (cs : List Char) : Munch :=
  if isDigit c then
    ⟨.int, c :: cs.takeWhile isDigit, cs.dropWhile isDigit⟩
  else if isWordStart c then
    let word := c :: cs.takeWhile isWordPart
    ⟨.ofWord (String.ofList word), word, cs.dropWhile isWordPart⟩
  else if c = '"' then
    match cs.dropWhile (· != '"') with
    | [] => ⟨.illegal, [c], cs⟩
    | quote :: rest => ⟨.string, c :: cs.takeWhile (· != '"') ++ [quote], rest⟩
  else match c, cs with
    | '=', '=' :: rest => ⟨.eq, ['=', '='], rest⟩
    | '!', '=' :: rest => ⟨.notEq, ['!', '='], rest⟩
    | c, cs => ⟨(Kind.ofSymbol? c).getD .illegal, [c], cs⟩

/-- Nothing is lost: the token and what follows make up the text. -/
theorem taken_append_rest (c : Char) (cs : List Char) :
    (munch c cs).taken ++ (munch c cs).rest = c :: cs := by
  unfold munch
  split
  · simp
  · split
    · simp
    · split
      · split
        · simp
        · next quote rest h =>
          have := List.takeWhile_append_dropWhile (p := (· != '"')) (l := cs)
          simp only [h] at this
          simp [this]
      · split <;> simp

theorem taken_ne_nil (c : Char) (cs : List Char) : (munch c cs).taken ≠ [] := by
  unfold munch
  repeat' split
  all_goals simp

theorem length_rest_le (c : Char) (cs : List Char) :
    (munch c cs).rest.length ≤ cs.length := by
  have h := congrArg List.length (taken_append_rest c cs)
  have h' := List.length_pos_iff.2 (taken_ne_nil c cs)
  simp only [List.length_append, List.length_cons] at h
  omega

/-- The token that `m` is at `pos`; a string's literal leaves out its quotes. -/
def Munch.token (m : Munch) (pos : Position) : Token :=
  let literal := if m.kind = .string then m.taken.tail.dropLast else m.taken
  ⟨m.kind, String.ofList literal, pos⟩

/-- The tokens of a text that begins at `pos`, where `last` is the place just after the token
before; the end of the text is given that place. -/
def scan (pos last : Position) : List Char → List Token
  | [] => [Token.eof last]
  | c :: cs =>
    if isBlank c then
      scan (pos.step c) last cs
    else
      let m := munch c cs
      let stop := pos.advance m.taken
      m.token pos :: scan stop stop m.rest
termination_by text => text.length
decreasing_by
  · simp
  · have := length_rest_le c cs
    simp only [List.length_cons]
    omega

end Lexer

/-- The tokens of a source, closed by one of kind `eof` just after the last of the others. -/
def tokenize (source : String) : List Token :=
  Lexer.scan .start .start source.toList

end MonkeyLang
