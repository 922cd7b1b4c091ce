import MonkeyLang.Eval

/-!
A semantics with structured control flow, for comparison. A statement ends normally with a value, or
it exits: because it returns a value, because it failed, or because evaluations were nested too
deep. An exit skips all that is left up to the innermost call or program, which is where a returned
value arrives; a failure goes on from there. What has nothing to do with control flow, operators and
primitives above all, is as in the evaluator.
-/

namespace MonkeyLang.Reference

/-- Why nothing more is done in a block, a call or a program. -/
inductive Exit
  | returned (v : Value)
  | failed (id : Nat) (failure : Failure)
  | tooDeep
  deriving Inhabited

abbrev Exec (α : Type) := EStateM Exit Store α

def freshId : Exec Nat := modifyGet Store.takeId

def fail {α : Type} (failure : Failure) : Exec α := do throw (.failed (← freshId) failure)

def ofExcept : Except Failure Value → Exec Value
  | .ok v => return v
  | .error failure => fail failure

/-- Does what the evaluator does, where an error is a failure. -/
def lift (x : Eval Value) : Exec Value := fun s =>
  match x s with
  | .ok (.error id failure) s' => .error (.failed id failure) s'
  | .ok v s' => .ok v s'
  | .error _ s' => .error .tooDeep s'

/-- The place where a returned value arrives. -/
def catchReturn (x : Exec Value) : Exec Value := fun s =>
  match x s with
  | .error (.returned v) s' => .ok v s'
  | r => r

def execEntry (ev : Node → Exec Value) (entries : List (Value.Key × Value)) (k v : Node) :
    Exec (List (Value.Key × Value)) := do
  let key ← ev k
  match key.key? with
  | none => fail (.notAKey key.tag)
  | some slot => return Value.putEntry slot (← ev v) entries

mutual

/-- Executes a tree in a frame. A `return` takes an identity, as its marker in the evaluator does,
so that later values get the same ones. -/
def exec : Nat → FrameId → Node → Exec Value
  | 0, _, _ => throw .tooDeep
  | limit + 1, env, node =>
    match node with
    | .absent => return .null
    | .program _ statements =>
      catchReturn (statements.foldlM (fun _ n => exec limit env n) .null)
    | .block _ statements => statements.foldlM (fun _ n => exec limit env n) .null
    | .exprStmt _ expression => exec limit env expression
    | .returnStmt _ value => do
      let v ← exec limit env value
      let _ ← freshId
      throw (.returned v)
    | .letStmt _ name value => do
      let v ← exec limit env value
      if let some id := name then modify (·.bind env id.name v)
      return .null
    | .integer _ n => return .integer n
    | .string _ s => return .string s
    | .boolean _ b => return .boolean b
    | .array _ elements => do
      let vs ← elements.mapM (exec limit env)
      return .array (← freshId) vs
    | .hash _ pairs => do
      let entries ← pairs.foldlM (fun entries pair =>
        execEntry (exec limit env) entries pair.1 pair.2) []
      return .hash (← freshId) entries
    | .function _ parameters body => return .function (← freshId) parameters body env
    | .unary _ op right => do ofExcept ((← exec limit env right).unary op)
    | .binary _ left op right => do
      let l ← exec limit env left
      ofExcept (l.binary op (← exec limit env right))
    | .index _ left i => do
      let l ← exec limit env left
      ofExcept (l.index (← exec limit env i))
    | .ifElse _ condition consequence alternative => do
      let c ← exec limit env condition
      if c.isTruthy then exec limit env consequence
      else if alternative.isAbsent then return .null
      else exec limit env alternative
    | .identifier id => do
      match (← get).meaning? env id.name with
      | some v => return v
      | none => fail (.unbound id.name)
    | .call _ callee arguments => do
      let f ← exec limit env callee
      let vs ← arguments.mapM (exec limit env)
      invoke limit f vs

/-- Calls a value. What its body returns is what the call yields. -/
def invoke : Nat → Value → List Value → Exec Value
  | 0, _, _ => throw .tooDeep
  | limit + 1, f, args =>
    match f with
    | .function _ parameters body frame => do
      let env := (← get).nextFrame
      modify (·.addInner frame (Bindings.ofArguments parameters args []))
      catchReturn (exec limit env body)
    | .builtin p => lift (p.call args)
    | .registered _ _ result => return result
    | v => fail (.notAFunction v.tag)

end

end MonkeyLang.Reference
