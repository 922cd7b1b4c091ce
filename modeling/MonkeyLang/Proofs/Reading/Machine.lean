import MonkeyLang.Program

/-!
The reader as a machine. All phrases share one state: the cursor, what was reported so far, how many
blocks are open, and how many were when the last report arose. Lists, operators and the end of a
broken statement are read in loops, and each round of a loop leaves a record of where it began and
ended. Nothing is known here of how long any of this takes: each call has a budget of calls inside
it, and the machine gives up where that is used up.
-/

namespace MonkeyLang

open Token (Kind)

/-- One round of a loop: where the cursor stood when it began and when it ended, and whether the
loop may go on behind it. -/
structure Lap where
  start : Cursor
  stop : Cursor
  goesOn : Bool

/-- The round used up a token; or there was none left to use, and the loop stops. -/
def Lap.Advances (l : Lap) : Prop :=
  l.stop.left < l.start.left ∨ l.start.left = 0 ∧ l.goesOn = false

/-- The state of the reader. -/
structure Reader where
  cursor : Cursor
  reports : List Diagnostic
  depth : Nat
  reportDepth : Nat
  laps : List Lap

def Reader.start (tokens : List Token) : Reader := ⟨Cursor.ofTokens tokens, [], 0, 0, []⟩

def Reader.advance (r : Reader) : Reader := { r with cursor := r.cursor.advance }

@[simp] theorem Reader.cursor_advance (r : Reader) : r.advance.cursor = r.cursor.advance := rfl

/-- A computation of the reader, which gives up where its budget is used up. -/
abbrev Walk (α : Type) := StateT Reader Option α

namespace Walk

/-! ## Steps -/

def next : Walk Unit := modify Reader.advance

def skip (k : Kind) : Walk Unit := modify fun r => { r with cursor := r.cursor.skip k }

def report (cause : Diagnostic.Cause) : Walk Unit :=
  modify fun r =>
    { r with reports := r.reports ++ [r.cursor.report r.depth cause], reportDepth := r.depth }

/-- Reports something about the current token, and gives a value for the broken phrase. -/
def broken {α : Type} (value : α) (cause : Diagnostic.Cause) : Walk α := do
  report cause
  return value

/-- Steps onto the next token if it is of kind `k`, and goes on; without that token, `value`. -/
def expecting {α : Type} (k : Kind) (value : α) (goOn : Walk α) : Walk α := do
  let peek := (← get).cursor.peek
  if peek.kind = k then
    next
    goOn
  else
    broken value (.unexpected k peek.kind)

def lap (start : Cursor) (goesOn : Bool) : Walk Unit :=
  modify fun r => { r with laps := r.laps ++ [⟨start, r.cursor, goesOn⟩] }

def inBlock {α : Type} (body : Walk α) : Walk α := do
  modify fun r => { r with depth := r.depth + 1 }
  let value ← body
  modify fun r => { r with depth := r.depth - 1 }
  return value

/-! ## Loops and lists without phrases in them -/

/-- Goes to the end of a broken statement, token by token. -/
def synchronize : Nat → Walk Unit
  | 0 => failure
  | budget + 1 => do
    let c := (← get).cursor
    if c.cur.kind = .semicolon ∨ c.cur.kind = .eof ∨ c.peek.kind = .rbrace ∨
        c.peek.kind = .eof then
      return ()
    else
      next
      lap c true
      synchronize budget

/-- Gives the rest of a statement up if there are more reports than before it, the last of which
arose with as many blocks open as now. -/
def recover (budget before : Nat) : Walk Unit := do
  let r ← get
  if before < r.reports.length ∧ r.reportDepth = r.depth then synchronize budget else return ()

/-- The names after the first of a parameter list, each behind a comma, and the closing
parenthesis. -/
def moreNames : Nat → Walk (Option (List Identifier))
  | 0 => failure
  | budget + 1 => do
    let c := (← get).cursor
    if c.peek.kind = .comma then
      next
      let t := (← get).cursor.peek
      if t.kind ≠ .ident then
        lap c false
        broken none (.unexpected .ident t.kind)
      else
        next
        lap c true
        let names ← moreNames budget
        return names.map (⟨t, t.literal⟩ :: ·)
    else
      expecting .rparen none (return some [])

def parameters (budget : Nat) : Walk (Option (List Identifier)) := do
  let c := (← get).cursor
  if c.peek.kind = .rparen then
    next
    return some []
  else
    expecting .ident none do
      let t := (← get).cursor.cur
      let names ← moreNames budget
      return names.map (⟨t, t.literal⟩ :: ·)

def integer : Walk Node := do
  let t := (← get).cursor.cur
  match Numeral.read? t.literal.toList with
  | some value =>
    if value ≤ Word.greatest then return .integer t value
    else broken .absent (.notAnInteger t.literal)
  | none => broken .absent (.notAnInteger t.literal)

/-- Reports that the closing brace of a block is missing, if its statements ended at the end. -/
def closeBrace : Walk Unit := do
  if (← get).cursor.cur.kind = .eof then report (.unexpected .rbrace .eof) else return ()

/-! ## Phrases -/

mutual

/-- The statements up to the end or a token of kind `terminator`. -/
def statements : Nat → Kind → Walk (List Node)
  | 0, _ => failure
  | budget + 1, terminator => do
    let before ← get
    if before.cursor.cur.kind = terminator ∨ before.cursor.cur.kind = .eof then
      return []
    else
      let first ← statement budget
      recover budget before.reports.length
      next
      let kind := (← get).cursor.cur.kind
      lap before.cursor (decide (kind ≠ terminator ∧ kind ≠ .eof))
      let others ← statements budget terminator
      return first.toList ++ others

def statement : Nat → Walk (Option Node)
  | 0 => failure
  | budget + 1 => do
    let t := (← get).cursor.cur
    match t.kind with
    | .kwLet =>
      expecting .ident none do
        let name := (← get).cursor.cur
        expecting .assign none do
          next
          let value ← expression budget .lowest
          skip .semicolon
          return some (.letStmt t (some ⟨name, name.literal⟩) value)
    | .kwReturn =>
      next
      let value ← expression budget .lowest
      skip .semicolon
      return some (.returnStmt t value)
    | _ =>
      let value ← expression budget .lowest
      skip .semicolon
      return some (.exprStmt t value)

def block : Nat → Walk Node
  | 0 => failure
  | budget + 1 => do
    let brace := (← get).cursor.cur
    next
    inBlock do
      let body ← statements budget .rbrace
      closeBrace
      return .block brace body

/-- An operand with all operators after it that bind tighter than `level`. -/
def expression : Nat → Precedence → Walk Node
  | 0, _ => failure
  | budget + 1, level => do
    let left ← operand budget
    operators budget level left

/-- The operators after `left` that bind tighter than `level`, one a round. -/
def operators : Nat → Precedence → Node → Walk Node
  | 0, _, _ => failure
  | budget + 1, level, left => do
    let c := (← get).cursor
    if left.isAbsent = true ∨ c.peek.kind = .semicolon ∨
        c.peek.kind.precedence.rank ≤ level.rank then
      return left
    else
      next
      let applied ← application budget left
      lap c true
      operators budget level applied

/-- What the operator at the current token makes of the phrase before it. -/
def application : Nat → Node → Walk Node
  | 0, _ => failure
  | budget + 1, left => do
    let t := (← get).cursor.cur
    match t.kind with
    | .lparen =>
      let arguments ← items budget .rparen
      return (arguments.map (.call t left)).getD .absent
    | .lbracket =>
      next
      let i ← expression budget .lowest
      expecting .rbracket .absent (return .index t left i)
    | k =>
      next
      let right ← expression budget k.precedence
      return .binary t left t.literal right

/-- Expressions between commas, from the opening bracket on to the closing one. -/
def items : Nat → Kind → Walk (Option (List Node))
  | 0, _ => failure
  | budget + 1, close => do
    let c := (← get).cursor
    if c.peek.kind = close then
      next
      return some []
    else
      next
      let first ← expression budget .lowest
      let others ← moreItems budget close
      return others.map (first :: ·)

/-- The expressions after the first of a list, one a round, and the closing bracket. -/
def moreItems : Nat → Kind → Walk (Option (List Node))
  | 0, _ => failure
  | budget + 1, close => do
    let c := (← get).cursor
    if c.peek.kind = .comma then
      next
      next
      let item ← expression budget .lowest
      lap c true
      let others ← moreItems budget close
      return others.map (item :: ·)
    else
      expecting close none (return some [])

/-- The entries of a hash, one a round, and the closing brace. -/
def pairs : Nat → Walk (Option (List (Node × Node)))
  | 0 => failure
  | budget + 1 => do
    let c := (← get).cursor
    if c.peek.kind = .rbrace then
      next
      return some []
    else
      next
      let key ← expression budget .lowest
      let colon := (← get).cursor.peek
      if colon.kind ≠ .colon then
        lap c false
        broken none (.unexpected .colon colon.kind)
      else
        next
        next
        let value ← expression budget .lowest
        let comma := (← get).cursor.peek
        if comma.kind = .rbrace then
          lap c true
          let others ← pairs budget
          return others.map ((key, value) :: ·)
        else if comma.kind = .comma then
          next
          lap c true
          let others ← pairs budget
          return others.map ((key, value) :: ·)
        else
          lap c false
          broken none (.unexpected .comma comma.kind)

def function : Nat → Walk Node
  | 0 => failure
  | budget + 1 => do
    let t := (← get).cursor.cur
    expecting .lparen .absent do
      match ← parameters budget with
      | none => return .absent
      | some names =>
        expecting .lbrace .absent do
          let body ← block budget
          return .function t names body

def conditional : Nat → Walk Node
  | 0 => failure
  | budget + 1 => do
    let t := (← get).cursor.cur
    expecting .lparen .absent do
      next
      let condition ← expression budget .lowest
      expecting .rparen .absent do
        expecting .lbrace .absent do
          let consequence ← block budget
          if (← get).cursor.peek.kind = .kwElse then
            next
            expecting .lbrace .absent do
              let alternative ← block budget
              return .ifElse t condition consequence alternative
          else
            return .ifElse t condition consequence .absent

/-- The phrase that begins with the current token, without the operators after it. -/
def operand : Nat → Walk Node
  | 0 => failure
  | budget + 1 => do
    let t := (← get).cursor.cur
    match t.kind with
    | .ident => return .identifier ⟨t, t.literal⟩
    | .int => integer
    | .string => return .string t t.literal
    | .kwTrue => return .boolean t true
    | .kwFalse => return .boolean t false
    | .bang | .minus =>
      next
      let right ← expression budget .sign
      return .unary t t.literal right
    | .lparen =>
      next
      let inner ← expression budget .lowest
      expecting .rparen .absent (return inner)
    | .lbracket =>
      let elements ← items budget .rbracket
      return (elements.map (.array t)).getD .absent
    | .lbrace =>
      let entries ← pairs budget
      return (entries.map (.hash t)).getD .absent
    | .kwFn => function budget
    | .kwIf => conditional budget
    | k => broken .absent (.noOperand k)

end

def program (tokens : List Token) (budget : Nat) : Option (Program × Reader) := do
  let (body, r) ← statements budget .eof (Reader.start tokens)
  return (⟨(Cursor.ofTokens tokens).cur, body, r.reports⟩, r)

end Walk

end MonkeyLang
