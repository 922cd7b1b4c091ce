import MonkeyLang.Program

/-!
The grammar of the language, apart from any parser. A derivation keeps every token that it covers,
so that it says both which tokens it stands for (`tokens`) and which tree they mean (`tree`); the
kinds of its tokens are part of its type. Two conditions are left to `Valid`: operators bind by
level, from the left, and a statement without a semicolon ends where no operator follows.
-/

namespace MonkeyLang.Grammar

open Token (Kind)

abbrev Lexeme (k : Kind) := { t : Token // t.kind = k }

/-- The level of the operator that a token is after an operand: equality, comparison, sums,
products and, above the signs at level 5, calls and indices. Other tokens are no operators. -/
def operatorLevel : Kind → Nat
  | .eq | .notEq => 1
  | .lt | .gt => 2
  | .plus | .minus => 3
  | .asterisk | .slash => 4
  | .lparen | .lbracket => 6
  | _ => 0

/-- A run of ASCII digits, at least one and at most 4300. -/
def Digits (text : String) : Prop :=
  text.toList ≠ [] ∧ text.toList.length ≤ 4300 ∧ ∀ c ∈ text.toList, '0' ≤ c ∧ c ≤ '9'

def decimal (digits : String) : Nat :=
  digits.toList.foldl (fun n c => 10 * n + (c.toNat - '0'.toNat)) 0

/-- An integer literal of at most `2^63 - 1`. -/
abbrev IntLexeme :=
  { t : Token // t.kind = .int ∧ Digits t.literal ∧ decimal t.literal ≤ 0x7fffffffffffffff }

abbrev SignLexeme := { t : Token // t.kind = .bang ∨ t.kind = .minus }

abbrev OperatorLexeme := { t : Token // 1 ≤ operatorLevel t.kind ∧ operatorLevel t.kind ≤ 4 }

inductive Names
  | empty
  | list (first : Lexeme .ident) (more : List (Lexeme .comma × Lexeme .ident))

mutual

inductive Expr
  | identifier (name : Lexeme .ident)
  | integer (digits : IntLexeme)
  | string (text : Lexeme .string)
  | truth (word : Lexeme .kwTrue)
  | falsehood (word : Lexeme .kwFalse)
  | group (l : Lexeme .lparen) (inner : Expr) (r : Lexeme .rparen)
  | array (l : Lexeme .lbracket) (items : Items) (r : Lexeme .rbracket)
  | hash (l : Lexeme .lbrace) (entries : Entries) (r : Lexeme .rbrace)
  | function (word : Lexeme .kwFn) (l : Lexeme .lparen) (names : Names) (r : Lexeme .rparen)
      (body : Block)
  | ifThen (word : Lexeme .kwIf) (l : Lexeme .lparen) (condition : Expr) (r : Lexeme .rparen)
      (consequence : Block)
  | ifElse (word : Lexeme .kwIf) (l : Lexeme .lparen) (condition : Expr) (r : Lexeme .rparen)
      (consequence : Block) (word' : Lexeme .kwElse) (alternative : Block)
  | call (callee : Expr) (l : Lexeme .lparen) (items : Items) (r : Lexeme .rparen)
  | index (left : Expr) (l : Lexeme .lbracket) (i : Expr) (r : Lexeme .rbracket)
  | unary (op : SignLexeme) (right : Expr)
  | binary (left : Expr) (op : OperatorLexeme) (right : Expr)

inductive Items
  | empty
  | list (first : Expr) (more : MoreItems)

inductive MoreItems
  | done
  | next (comma : Lexeme .comma) (item : Expr) (more : MoreItems)

inductive Entries
  | empty
  | list (key : Expr) (colon : Lexeme .colon) (value : Expr) (more : MoreEntries)

/-- A derivation of the entries after the first; a comma may stand behind the last. -/
inductive MoreEntries
  | done
  | comma (comma : Lexeme .comma)
  | next (comma : Lexeme .comma) (key : Expr) (colon : Lexeme .colon) (value : Expr)
      (more : MoreEntries)

inductive Block
  | mk (l : Lexeme .lbrace) (body : Statements) (r : Lexeme .rbrace)

inductive Statements
  | done
  | next (first : Statement) (more : Statements)

/-- A derivation of a statement, with its semicolon if it has one. -/
inductive Statement
  | binding (word : Lexeme .kwLet) (name : Lexeme .ident) (equals : Lexeme .assign) (value : Expr)
      (semicolon : Option (Lexeme .semicolon))
  | returning (word : Lexeme .kwReturn) (value : Expr) (semicolon : Option (Lexeme .semicolon))
  | expression (value : Expr) (semicolon : Option (Lexeme .semicolon))

end

/-! ## The tokens that a derivation covers -/

def Names.tokens : Names → List Token
  | .empty => []
  | .list first more => first.1 :: more.flatMap fun p => [p.1.1, p.2.1]

def ending (semicolon : Option (Lexeme .semicolon)) : List Token :=
  semicolon.toList.map (·.1)

mutual

def Expr.tokens : Expr → List Token
  | .identifier t => [t.1]
  | .integer t => [t.1]
  | .string t => [t.1]
  | .truth t => [t.1]
  | .falsehood t => [t.1]
  | .group l inner r => l.1 :: (inner.tokens ++ [r.1])
  | .array l items r => l.1 :: (items.tokens ++ [r.1])
  | .hash l entries r => l.1 :: (entries.tokens ++ [r.1])
  | .function word l names r body => word.1 :: l.1 :: (names.tokens ++ r.1 :: body.tokens)
  | .ifThen word l condition r consequence =>
    word.1 :: l.1 :: (condition.tokens ++ r.1 :: consequence.tokens)
  | .ifElse word l condition r consequence word' alternative =>
    word.1 :: l.1 ::
      (condition.tokens ++ r.1 :: (consequence.tokens ++ word'.1 :: alternative.tokens))
  | .call callee l items r => callee.tokens ++ l.1 :: (items.tokens ++ [r.1])
  | .index left l i r => left.tokens ++ l.1 :: (i.tokens ++ [r.1])
  | .unary op right => op.1 :: right.tokens
  | .binary left op right => left.tokens ++ op.1 :: right.tokens

def Items.tokens : Items → List Token
  | .empty => []
  | .list first more => first.tokens ++ more.tokens

def MoreItems.tokens : MoreItems → List Token
  | .done => []
  | .next comma item more => comma.1 :: (item.tokens ++ more.tokens)

def Entries.tokens : Entries → List Token
  | .empty => []
  | .list key colon value more => key.tokens ++ colon.1 :: (value.tokens ++ more.tokens)

def MoreEntries.tokens : MoreEntries → List Token
  | .done => []
  | .comma comma => [comma.1]
  | .next comma key colon value more =>
    comma.1 :: (key.tokens ++ colon.1 :: (value.tokens ++ more.tokens))

def Block.tokens : Block → List Token
  | .mk l body r => l.1 :: (body.tokens ++ [r.1])

def Statements.tokens : Statements → List Token
  | .done => []
  | .next first more => first.tokens ++ more.tokens

def Statement.tokens : Statement → List Token
  | .binding word name equals value semicolon =>
    word.1 :: name.1 :: equals.1 :: (value.tokens ++ ending semicolon)
  | .returning word value semicolon => word.1 :: (value.tokens ++ ending semicolon)
  | .expression value semicolon => value.tokens ++ ending semicolon

end

/-! ## The tree that a derivation means -/

def nameOf (t : Lexeme .ident) : Identifier := ⟨t.1, t.1.literal⟩

def Names.identifiers : Names → List Identifier
  | .empty => []
  | .list first more => nameOf first :: more.map fun p => nameOf p.2

mutual

def Expr.tree : Expr → Node
  | .identifier t => .identifier (nameOf t)
  | .integer t => .integer t.1 (decimal t.1.literal)
  | .string t => .string t.1 t.1.literal
  | .truth t => .boolean t.1 true
  | .falsehood t => .boolean t.1 false
  | .group _ inner _ => inner.tree
  | .array l items _ => .array l.1 items.trees
  | .hash l entries _ => .hash l.1 entries.trees
  | .function word _ names _ body => .function word.1 names.identifiers body.tree
  | .ifThen word _ condition _ consequence =>
    .ifElse word.1 condition.tree consequence.tree .absent
  | .ifElse word _ condition _ consequence _ alternative =>
    .ifElse word.1 condition.tree consequence.tree alternative.tree
  | .call callee l items _ => .call l.1 callee.tree items.trees
  | .index left l i _ => .index l.1 left.tree i.tree
  | .unary op right => .unary op.1 op.1.literal right.tree
  | .binary left op right => .binary op.1 left.tree op.1.literal right.tree

def Items.trees : Items → List Node
  | .empty => []
  | .list first more => first.tree :: more.trees

def MoreItems.trees : MoreItems → List Node
  | .done => []
  | .next _ item more => item.tree :: more.trees

def Entries.trees : Entries → List (Node × Node)
  | .empty => []
  | .list key _ value more => (key.tree, value.tree) :: more.trees

def MoreEntries.trees : MoreEntries → List (Node × Node)
  | .done | .comma _ => []
  | .next _ key _ value more => (key.tree, value.tree) :: more.trees

def Block.tree : Block → Node
  | .mk l body _ => .block l.1 body.trees

def Statements.trees : Statements → List Node
  | .done => []
  | .next first more => first.tree :: more.trees

def Statement.tree : Statement → Node
  | .binding word name _ value _ => .letStmt word.1 (some (nameOf name)) value.tree
  | .returning word value _ => .returnStmt word.1 value.tree
  | .expression value _ => .exprStmt (value.tokens.headD default) value.tree

end

/-! ## Levels and ends of statements -/

/-- The level of a derivation: that of the operator it was made with last, 5 for a sign, and 6 for
an operand with the calls and indices after it. -/
def Expr.level : Expr → Nat
  | .binary _ op _ => operatorLevel op.1.kind
  | .unary _ _ => 5
  | _ => 6

/-- The level of the operator that a token list begins with, 0 if it does not begin with one. -/
def leadLevel (ts : List Token) : Nat := (ts.head?.map fun t => operatorLevel t.kind).getD 0

def Statement.isTerminated : Statement → Bool
  | .binding _ _ _ _ semicolon | .returning _ _ semicolon | .expression _ semicolon =>
    semicolon.isSome

mutual

/-- The operators of an expression bind by level, from the left. -/
def Expr.Valid : Expr → Prop
  | .identifier _ | .integer _ | .string _ | .truth _ | .falsehood _ => True
  | .group _ inner _ => inner.Valid
  | .array _ items _ => items.Valid
  | .hash _ entries _ => entries.Valid
  | .function _ _ _ _ body => body.Valid
  | .ifThen _ _ condition _ consequence => condition.Valid ∧ consequence.Valid
  | .ifElse _ _ condition _ consequence _ alternative =>
    condition.Valid ∧ consequence.Valid ∧ alternative.Valid
  | .call callee _ items _ => callee.Valid ∧ 6 ≤ callee.level ∧ items.Valid
  | .index left _ i _ => left.Valid ∧ 6 ≤ left.level ∧ i.Valid
  | .unary _ right => right.Valid ∧ 5 ≤ right.level
  | .binary left op right =>
    left.Valid ∧ right.Valid ∧
      operatorLevel op.1.kind ≤ left.level ∧ operatorLevel op.1.kind < right.level

def Items.Valid : Items → Prop
  | .empty => True
  | .list first more => first.Valid ∧ more.Valid

def MoreItems.Valid : MoreItems → Prop
  | .done => True
  | .next _ item more => item.Valid ∧ more.Valid

def Entries.Valid : Entries → Prop
  | .empty => True
  | .list key _ value more => key.Valid ∧ value.Valid ∧ more.Valid

def MoreEntries.Valid : MoreEntries → Prop
  | .done | .comma _ => True
  | .next _ key _ value more => key.Valid ∧ value.Valid ∧ more.Valid

def Block.Valid : Block → Prop
  | .mk _ body _ => body.Valid

/-- No operator follows a statement without a semicolon. Behind the last statement comes a closing
brace or the end, and neither is an operator. -/
def Statements.Valid : Statements → Prop
  | .done => True
  | .next first more =>
    first.Valid ∧ (first.isTerminated = false → leadLevel more.tokens = 0) ∧ more.Valid

def Statement.Valid : Statement → Prop
  | .binding _ _ _ value _ | .returning _ value _ | .expression value _ => value.Valid

end

structure Derivation (tokens : List Token) where
  body : Statements
  last : Lexeme .eof
  valid : body.Valid
  covers : body.tokens ++ [last.1] = tokens

def Derivation.tree {tokens : List Token} (d : Derivation tokens) : Node :=
  .program (tokens.headD default) d.body.trees

end MonkeyLang.Grammar
