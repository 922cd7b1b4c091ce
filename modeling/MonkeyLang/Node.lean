import MonkeyLang.Token

/-!
Syntax trees of the Monkey language. A tree may be incomplete: `absent` stands in each place whose
phrase could not be read. Every other node keeps the token that it begins with, which only says
where the node was found: two trees are the same when they agree once their tokens are forgotten.
-/

namespace MonkeyLang

structure Identifier where
  token : Token
  name : String
  deriving DecidableEq, Repr, Inhabited

/-- A node of a syntax tree. The places of a node's children take any node, so that a tree can
also be built by hand in shapes that no source has. -/
inductive Node
  | absent
  | identifier (id : Identifier)
  | integer (token : Token) (value : Int)
  | string (token : Token) (value : String)
  | boolean (token : Token) (value : Bool)
  | array (token : Token) (elements : List Node)
  | hash (token : Token) (pairs : List (Node × Node))
  | unary (token : Token) (op : String) (right : Node)
  | binary (token : Token) (left : Node) (op : String) (right : Node)
  | index (token : Token) (left index : Node)
  | ifElse (token : Token) (condition consequence alternative : Node)
  | function (token : Token) (parameters : List Identifier) (body : Node)
  | call (token : Token) (callee : Node) (arguments : List Node)
  | letStmt (token : Token) (name : Option Identifier) (value : Node)
  | returnStmt (token : Token) (value : Node)
  | exprStmt (token : Token) (expression : Node)
  | block (token : Token) (statements : List Node)
  | program (token : Token) (statements : List Node)
  deriving Inhabited, Repr

namespace Node

def isAbsent : Node → Bool
  | absent => true
  | _ => false

def token : Node → Token
  | absent => .unset
  | identifier id => id.token
  | integer t _ | string t _ | boolean t _ | array t _ | hash t _ | unary t _ _ | binary t _ _ _
  | index t _ _ | ifElse t _ _ _ | function t _ _ | call t _ _ | letStmt t _ _ | returnStmt t _
  | exprStmt t _ | block t _ | program t _ => t

/-- The literal of the token that a node begins with; a program has that of its first statement. -/
def tokenLiteral : Node → String
  | program _ [] => ""
  | program _ (first :: _) => first.tokenLiteral
  | n => n.token.literal

/-- The children of a node in the order of the source, without the absent ones. -/
def children (n : Node) : List Node :=
  let parts : List Node := match n with
    | absent | identifier _ | integer _ _ | string _ _ | boolean _ _ => []
    | array _ elements => elements
    | hash _ pairs => pairs.flatMap fun (key, value) => [key, value]
    | unary _ _ right => [right]
    | binary _ left _ right => [left, right]
    | index _ left i => [left, i]
    | ifElse _ condition consequence alternative => [condition, consequence, alternative]
    | function _ parameters body => parameters.map identifier ++ [body]
    | call _ callee arguments => callee :: arguments
    | letStmt _ name value => (name.map identifier).toList ++ [value]
    | returnStmt _ value => [value]
    | exprStmt _ expression => [expression]
    | block _ statements | program _ statements => statements
  parts.filter (!·.isAbsent)

mutual

/-- A node and all nodes below it, each before its own children. -/
def walk : Node → List Node
  | absent => []
  | n@(identifier _) | n@(integer _ _) | n@(string _ _) | n@(boolean _ _) => [n]
  | array t elements => array t elements :: walkEach elements
  | hash t pairs => hash t pairs :: walkPairs pairs
  | unary t op right => unary t op right :: walk right
  | binary t left op right => binary t left op right :: (walk left ++ walk right)
  | index t left i => index t left i :: (walk left ++ walk i)
  | ifElse t condition consequence alternative =>
    ifElse t condition consequence alternative ::
      (walk condition ++ walk consequence ++ walk alternative)
  | function t parameters body =>
    function t parameters body :: (parameters.map identifier ++ walk body)
  | call t callee arguments => call t callee arguments :: (walk callee ++ walkEach arguments)
  | letStmt t name value => letStmt t name value :: ((name.map identifier).toList ++ walk value)
  | returnStmt t value => returnStmt t value :: walk value
  | exprStmt t expression => exprStmt t expression :: walk expression
  | block t statements => block t statements :: walkEach statements
  | program t statements => program t statements :: walkEach statements

def walkEach : List Node → List Node
  | [] => []
  | n :: ns => walk n ++ walkEach ns

def walkPairs : List (Node × Node) → List Node
  | [] => []
  | (key, value) :: pairs => walk key ++ walk value ++ walkPairs pairs

end

end Node

end MonkeyLang
