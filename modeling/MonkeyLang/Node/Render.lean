import MonkeyLang.Node

/-!
The source form of a tree: operators in parentheses, lists with one space after each comma. An
absent child leaves nothing.
-/

namespace MonkeyLang.Node

mutual

/-- A tree as source. An integer keeps the spelling of its token, if it has one. -/
def render : Node → String
  | absent => ""
  | identifier id => id.name
  | integer t value => if t.literal = "" then toString value else t.literal
  | string _ value => value
  | boolean _ value => if value then "true" else "false"
  | array _ elements => "[" ++ ", ".intercalate (renderEach elements) ++ "]"
  | hash _ pairs => "\x7b" ++ ", ".intercalate (renderPairs pairs) ++ "\x7d"
  | unary _ op right => "(" ++ op ++ render right ++ ")"
  | binary _ left op right => "(" ++ render left ++ " " ++ op ++ " " ++ render right ++ ")"
  | index _ left i => "(" ++ render left ++ "[" ++ render i ++ "])"
  | ifElse _ condition consequence absent => "if" ++ render condition ++ " " ++ render consequence
  | ifElse _ condition consequence alternative =>
    "if" ++ render condition ++ " " ++ render consequence ++ "else " ++ render alternative
  | function t parameters body =>
    (if t.literal = "" then "fn" else t.literal) ++ "(" ++
      ", ".intercalate (parameters.map (·.name)) ++ ") " ++ render body
  | call _ callee arguments => render callee ++ "(" ++ ", ".intercalate (renderEach arguments) ++ ")"
  | letStmt _ name value =>
    "let " ++ (name.map (·.name)).getD "" ++ " = " ++ render value ++ ";"
  | returnStmt _ value => "return " ++ render value ++ ";"
  | exprStmt _ expression => render expression
  | block _ statements => String.join (renderEach statements)
  | program _ statements => String.join (renderEach statements)

def renderEach : List Node → List String
  | [] => []
  | n :: ns => render n :: renderEach ns

def renderPairs : List (Node × Node) → List String
  | [] => []
  | (key, value) :: pairs => (render key ++ ":" ++ render value) :: renderPairs pairs

end

theorem renderEach_eq_map (ns : List Node) : renderEach ns = ns.map render := by
  induction ns with
  | nil => simp [renderEach]
  | cons n ns ih => simp [renderEach, ih]

end MonkeyLang.Node
