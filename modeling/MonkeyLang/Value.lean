import MonkeyLang.Node.Render
import MonkeyLang.Upsert
import MonkeyLang.Word

/-!
Values of the Monkey language. Integers, strings, booleans and null are what they say; an array, a
hash, a function, an error and a return marker also has an identity of its own, which is all that
`==` compares of it.
-/

namespace MonkeyLang

namespace Value

inductive Tag
  | integer
  | boolean
  | string
  | null
  | array
  | hash
  | function
  | builtin
  | error
  | returned
  deriving DecidableEq, Repr, Inhabited

def Tag.name : Tag → String
  | integer => "INTEGER"
  | boolean => "BOOLEAN"
  | string => "STRING"
  | null => "NULL"
  | array => "ARRAY"
  | hash => "HASH"
  | function => "FUNCTION"
  | builtin => "BUILTIN"
  | error => "ERROR"
  | returned => "RETURN_VALUE"

/-- What a hash key is told apart by: keys of one type and with the same 64 bits are the same. -/
structure HashKey where
  tag : Tag
  bits : UInt64
  deriving DecidableEq, Repr

inductive Key
  | integer (n : Int)
  | boolean (b : Bool)
  | string (s : String)
  deriving DecidableEq, Repr, Inhabited

namespace Key

/-- The slot of a key: the bits of a number, and the hash of a string's UTF-8 form. -/
def slot : Key → HashKey
  | integer n => ⟨.integer, Word.bits n⟩
  | boolean b => ⟨.boolean, if b then 1 else 0⟩
  | string s => ⟨.string, Word.fnv s.toUTF8.data.toList⟩

def inspect : Key → String
  | integer n => toString n
  | boolean b => if b then "true" else "false"
  | string s => s

end Key

end Value

inductive Primitive
  | len
  | first
  | last
  | rest
  | push
  | puts
  deriving DecidableEq, Repr, Inhabited

namespace Primitive

def all : List Primitive := [.len, .first, .last, .rest, .push, .puts]

def name : Primitive → String
  | len => "len"
  | first => "first"
  | last => "last"
  | rest => "rest"
  | push => "push"
  | puts => "puts"

end Primitive

/-- Why an evaluation failed; `other` is a reason that the host gives. -/
inductive Failure
  | divisionByZero
  | typeMismatch (left : Value.Tag) (op : String) (right : Value.Tag)
  | unknownBinary (left : Value.Tag) (op : String) (right : Value.Tag)
  | unknownUnary (op : String) (right : Value.Tag)
  | unbound (name : String)
  | notAFunction (tag : Value.Tag)
  | notIndexable (tag : Value.Tag)
  | notAKey (tag : Value.Tag)
  | arity (got want : Nat)
  | noLength (tag : Value.Tag)
  | notAnArray (primitive : Primitive) (tag : Value.Tag)
  | other (text : String)
  deriving DecidableEq, Repr, Inhabited

def Failure.message : Failure → String
  | divisionByZero => "division by zero"
  | typeMismatch l op r => "type mismatch: " ++ l.name ++ " " ++ op ++ " " ++ r.name
  | unknownBinary l op r => "unknown operator: " ++ l.name ++ " " ++ op ++ " " ++ r.name
  | unknownUnary op r => "unknown operator: " ++ op ++ r.name
  | unbound name => "identifier not found: " ++ name
  | notAFunction t => "not a function: " ++ t.name
  | notIndexable t => "index operator not supported: " ++ t.name
  | notAKey t => "unusable as hash key: " ++ t.name
  | arity got want =>
    "wrong number of arguments. got=" ++ toString got ++ ", want=" ++ toString want
  | noLength t => "argument to `len` not supported, got " ++ t.name
  | notAnArray p t => "argument to `" ++ p.name ++ "` must be ARRAY, got " ++ t.name
  | other text => text

abbrev FrameId := Nat

/-- A value. The number `id` of an array, hash, function, error or return marker is its identity.
A `registered` function is one that the host has added: it ignores its arguments. -/
inductive Value
  | integer (n : Int)
  | boolean (b : Bool)
  | string (s : String)
  | null
  | array (id : Nat) (elements : List Value)
  | hash (id : Nat) (entries : List (Value.Key × Value))
  | function (id : Nat) (parameters : List Identifier) (body : Node) (frame : FrameId)
  | builtin (primitive : Primitive)
  | registered (id : Nat) (name : String) (result : Value)
  | error (id : Nat) (failure : Failure)
  | returned (id : Nat) (value : Value)
  deriving Inhabited, Repr

namespace Value

def tag : Value → Tag
  | integer _ => .integer
  | boolean _ => .boolean
  | string _ => .string
  | null => .null
  | array _ _ => .array
  | hash _ _ => .hash
  | function _ _ _ _ => .function
  | builtin _ | registered _ _ _ => .builtin
  | error _ _ => .error
  | returned _ _ => .returned

def isNull : Value → Bool
  | null => true
  | _ => false

def isError : Value → Bool
  | error _ _ => true
  | _ => false

def isReturned : Value → Bool
  | returned _ _ => true
  | _ => false

/-- Everything counts as true but `false` and null. -/
def isTruthy : Value → Bool
  | boolean false | null => false
  | _ => true

/-- Takes one return marker off. -/
def unwrap : Value → Value
  | returned _ v => v
  | v => v

def key? : Value → Option Key
  | integer n => some (.integer n)
  | boolean b => some (.boolean b)
  | string s => some (.string s)
  | _ => none

def ofKey : Key → Value
  | .integer n => integer n
  | .boolean b => boolean b
  | .string s => string s

/-- What `==` means outside numbers and strings: there is only one `true`, one `false`, one null
and one of each primitive, and all else is told apart by identity. -/
def identical : Value → Value → Bool
  | boolean a, boolean b => a == b
  | null, null => true
  | array i _, array j _ | hash i _, hash j _ | function i _ _ _, function j _ _ _
  | registered i _ _, registered j _ _ | error i _, error j _ | returned i _, returned j _ =>
    i == j
  | builtin p, builtin q => p == q
  | _, _ => false

/-- The source of a function's body; an absent one is written as a word of its own. -/
def bodyText : Node → String
  | .absent => "None"
  | body => body.render

mutual

def inspect : Value → String
  | integer n => toString n
  | boolean b => if b then "true" else "false"
  | string s => s
  | null => "null"
  | array _ elements => "[" ++ ", ".intercalate (inspectEach elements) ++ "]"
  | hash _ entries => "\x7b" ++ ", ".intercalate (inspectEntries entries) ++ "\x7d"
  | function _ parameters body _ =>
    "fn(" ++ ", ".intercalate (parameters.map (·.name)) ++ ") \x7b\n" ++ bodyText body ++ "\n\x7d"
  | builtin _ | registered _ _ _ => "builtin function"
  | error _ failure => "ERROR: " ++ failure.message
  | returned _ value => inspect value

def inspectEach : List Value → List String
  | [] => []
  | v :: vs => inspect v :: inspectEach vs

def inspectEntries : List (Key × Value) → List String
  | [] => []
  | (k, v) :: entries => (k.inspect ++ ": " ++ inspect v) :: inspectEntries entries

end

/-- Adds an entry to a hash, in place of the one in the same slot if there is one. -/
def putEntry (key : Key) (value : Value) (entries : List (Key × Value)) : List (Key × Value) :=
  upsert (·.1.slot) (key, value) entries

def slotValue? (key : Key) (entries : List (Key × Value)) : Option Value :=
  (withKey? (·.1.slot) key.slot entries).map (·.2)

end Value

end MonkeyLang
