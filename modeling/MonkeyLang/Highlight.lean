import MonkeyLang.Token.Lexer

/-!
Colours for source text. A line is cut at its tokens into fragments, each with a style; put
together again the fragments are the line.
-/

namespace MonkeyLang

inductive Style
  | plain
  | keyword
  | literal
  | number
  | string
  | builtin
  | illegal
  deriving DecidableEq, Repr, Inhabited

def Style.text : Style → String
  | plain => ""
  | keyword => "bold ansicyan"
  | literal => "ansicyan"
  | number => "ansimagenta"
  | string => "ansigreen"
  | builtin => "bold ansiyellow"
  | illegal => "bold ansired"

/-- The style of a token, where `known` are the names of the functions known everywhere. -/
def Token.style (t : Token) (known : List String) : Style :=
  match t.kind with
  | .ident => if known.contains t.literal then .builtin else .plain
  | .kwFn | .kwLet | .kwIf | .kwElse | .kwReturn => .keyword
  | .kwTrue | .kwFalse => .literal
  | .int => .number
  | .string => .string
  | .illegal => .illegal
  | _ => .plain

structure Fragment where
  style : Style
  text : List Char
  deriving DecidableEq, Repr

namespace Highlight

/-- The fragments of `line` from `cursor` on. A token is found at its column, and passed over if
that is behind the cursor, as happens on a further line of the text. -/
def fragmentsFrom (known : List String) (line : List Char) (cursor : Nat) :
    List Token → List Fragment
  | [] => if cursor < line.length then [⟨.plain, line.drop cursor⟩] else []
  | t :: ts =>
    let start := t.pos.column - 1
    let stop := start + t.width
    if start < cursor ∨ stop = start then
      fragmentsFrom known line cursor ts
    else
      let gap := if cursor < start then [⟨.plain, (line.drop cursor).take (start - cursor)⟩] else []
      gap ++ ⟨t.style known, (line.drop start).take t.width⟩ :: fragmentsFrom known line stop ts

/-- The fragments of a line; an empty line is one empty fragment. -/
def line (known : List String) (text : String) : List Fragment :=
  let fragments := fragmentsFrom known text.toList 0 (tokenize text)
  if fragments.isEmpty then [⟨.plain, []⟩] else fragments

def document (known : List String) (text : String) : List (List Fragment) :=
  (text.splitOn "\n").map (line known)

/-- The line of a number counted from zero; one that is not there is like an empty one. -/
def documentLine (known : List String) (text : String) (number : Nat) : List Fragment :=
  (document known text).getD number [⟨.plain, []⟩]

end Highlight

end MonkeyLang
