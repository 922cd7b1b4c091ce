import MonkeyLang.Operator
import MonkeyLang.Store

/-!
Evaluation of trees. A failure is a value like any other, of type error: whoever gets one from a
part gives it back at once, and so it becomes the answer of the whole. A `return` gives its value
in a marker, which blocks pass on and which calls and programs take off. Evaluations inside
evaluations may be nested up to a limit; beyond it the evaluation is cut off, and what it printed
and bound stays.
-/

namespace MonkeyLang

/-- An evaluation was cut off because evaluations were nested too deep. -/
structure TooDeep where
  deriving DecidableEq, Repr, Inhabited

abbrev Eval (α : Type) := EStateM TooDeep Store α

namespace Eval

def freshId : Eval Nat := modifyGet Store.takeId

def fail (failure : Failure) : Eval Value := return .error (← freshId) failure

def ofExcept : Except Failure Value → Eval Value
  | .ok v => return v
  | .error failure => fail failure

/-- Goes on with the value of a part, unless it is an error, which is then the answer. -/
def unlessError (part : Eval Value) (next : Value → Eval Value) : Eval Value := do
  let v ← part
  if v.isError then return v else next v

/-- Evaluates from left to right and goes on with the values, unless one is an error. -/
def each (ev : Node → Eval Value) : List Node → (List Value → Eval Value) → Eval Value
  | [], next => next []
  | n :: ns, next => unlessError (ev n) fun v => each ev ns fun vs => next (v :: vs)

/-- Evaluates the entries of a hash, each key before its value, and goes on with all of them. A
key of the wrong type is refused before its value is evaluated. -/
def eachEntry (ev : Node → Eval Value) (next : List (Value.Key × Value) → Eval Value) :
    List (Node × Node) → List (Value.Key × Value) → Eval Value
  | [], entries => next entries
  | (k, v) :: pairs, entries =>
    unlessError (ev k) fun key =>
      match key.key? with
      | none => fail (.notAKey key.tag)
      | some key =>
        unlessError (ev v) fun value => eachEntry ev next pairs (Value.putEntry key value entries)

/-- Evaluates statements up to the first that returns or fails. The answer is that of the last
one evaluated, or `last` if there is none. -/
def sequence (ev : Node → Eval Value) (last : Value) : List Node → Eval Value
  | [] => return last
  | n :: ns => do
    let v ← ev n
    if v.isError || v.isReturned then return v else sequence ev v ns

end Eval

open Eval

/-- Calls a primitive. The number of the arguments is checked before their types. -/
def Primitive.call : Primitive → List Value → Eval Value
  | .puts, args => do
    modify (·.print (args.map (·.inspect)))
    return .null
  | .len, [.string s] => return .integer s.length
  | .len, [.array _ xs] => return .integer xs.length
  | .len, [v] => fail (.noLength v.tag)
  | .first, [.array _ xs] => return xs.headD .null
  | .last, [.array _ xs] => return xs.getLastD .null
  | .rest, [.array _ []] => return .null
  | .rest, [.array _ (_ :: xs)] => return .array (← freshId) xs
  | .push, [.array _ xs, v] => return .array (← freshId) (xs ++ [v])
  | .push, [v, _] => fail (.notAnArray .push v.tag)
  | .push, args => fail (.arity args.length 2)
  | p, [v] => fail (.notAnArray p v.tag)
  | _, args => fail (.arity args.length 1)

mutual

def eval : Nat → FrameId → Node → Eval Value
  | 0, _, _ => throw {}
  | limit + 1, env, node =>
    match node with
    | .absent => return .null
    | .program _ statements => Value.unwrap <$> sequence (eval limit env) .null statements
    | .block _ statements => sequence (eval limit env) .null statements
    | .exprStmt _ expression => eval limit env expression
    | .returnStmt _ value =>
      unlessError (eval limit env value) fun v => return .returned (← freshId) v
    | .letStmt _ name value =>
      unlessError (eval limit env value) fun v => do
        if let some id := name then modify (·.bind env id.name v)
        return .null
    | .integer _ n => return .integer n
    | .string _ s => return .string s
    | .boolean _ b => return .boolean b
    | .array _ elements =>
      each (eval limit env) elements fun vs => return .array (← freshId) vs
    | .hash _ pairs =>
      eachEntry (eval limit env) (fun entries => return .hash (← freshId) entries) pairs []
    | .function _ parameters body => return .function (← freshId) parameters body env
    | .unary _ op right => unlessError (eval limit env right) fun v => ofExcept (v.unary op)
    | .binary _ left op right =>
      unlessError (eval limit env left) fun l =>
        unlessError (eval limit env right) fun r => ofExcept (l.binary op r)
    | .index _ left i =>
      unlessError (eval limit env left) fun l =>
        unlessError (eval limit env i) fun n => ofExcept (l.index n)
    | .ifElse _ condition consequence alternative =>
      unlessError (eval limit env condition) fun c =>
        if c.isTruthy then eval limit env consequence
        else if alternative.isAbsent then return .null
        else eval limit env alternative
    | .identifier id => do
      match (← get).meaning? env id.name with
      | some v => return v
      | none => fail (.unbound id.name)
    | .call _ callee arguments =>
      unlessError (eval limit env callee) fun f =>
        each (eval limit env) arguments fun vs => apply limit f vs

/-- Calls a value. A function runs its body in a new frame inside the one that it was made in. -/
def apply : Nat → Value → List Value → Eval Value
  | 0, _, _ => throw {}
  | limit + 1, f, args =>
    match f with
    | .function _ parameters body frame => do
      let env := (← get).nextFrame
      modify (·.addInner frame (Bindings.ofArguments parameters args []))
      Value.unwrap <$> eval limit env body
    | .builtin p => p.call args
    | .registered _ _ result => return result
    | v => fail (.notAFunction v.tag)

end

end MonkeyLang
