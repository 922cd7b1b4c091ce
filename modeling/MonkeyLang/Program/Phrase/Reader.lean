import MonkeyLang.Node
import MonkeyLang.Numeral
import MonkeyLang.Program.Phrase
import MonkeyLang.Program.Precedence
import MonkeyLang.Word

/-!
The phrases of the language, read from a cursor by recursive descent, with operators taken by
precedence. A broken phrase gives an absent node, or none, and the statement list that it stands
in goes on behind it. What bounds the recursion is the number of tokens still to come: each of the
functions calls the others further along the list, or at the same place in the order statements,
statement, expression, operand.
-/

namespace MonkeyLang.Phrase

open Token (Kind)

/-- The names of a nonempty parameter list and its closing parenthesis; the current token is the
one before the first name. -/
def parameterNames (depth : Nat) (c : Cursor) : Phrase c (Option (List Identifier)) :=
  if h : c.peek.kind = .ident then
    have := Cursor.left_pos_of_peek h (by decide)
    let id : Identifier := ⟨c.peek, c.peek.literal⟩
    let name := c.advance
    if name.peek.kind = .comma then
      (parameterNames depth name.advance).map (·.map (id :: ·)) |>.after [] (by grind)
    else
      (done (some [id]) : Phrase name _).closed depth .rparen none |>.after [] (by grind)
  else
    .broken none (c.unexpected depth .ident)
termination_by c.left
decreasing_by all_goals grind

def parameters (depth : Nat) (c : Cursor) : Phrase c (Option (List Identifier)) :=
  if c.peek.kind = .rparen then
    (done (some []) : Phrase c.advance _).after [] (by grind)
  else
    parameterNames depth c

/-- An integer literal is read if it is a numeral that does not exceed the greatest signed word. -/
def integer (depth : Nat) (c : Cursor) : Phrase c Node :=
  match Numeral.read? c.cur.literal.toList with
  | some value =>
    if value ≤ Word.greatest then .done (.integer c.cur value)
    else .broken .absent (c.report depth (.notAnInteger c.cur.literal))
  | none => .broken .absent (c.report depth (.notAnInteger c.cur.literal))

mutual

/-- The statements up to the token that closes their list: the end or, inside a block, a closing
brace. The cursor is left on that token. -/
def statements (depth : Nat) (c : Cursor) : Phrase c (List Node) :=
  if h : c.cur.kind = .eof ∨ (c.cur.kind = .rbrace ∧ 0 < depth) then
    .done []
  else
    have real : c.cur.kind ≠ .eof := fun e => h (.inl e)
    let ⟨first, reports, stop, _⟩ := statement depth c
    let next := (stop.recover depth reports).advance
    ((statements depth next).map (first.toList ++ ·)).after reports (by grind)
termination_by 16 * c.pending + 7
decreasing_by all_goals grind

/-- The statement that begins with the current token; none if its beginning is broken. -/
def statement (depth : Nat) (c : Cursor) : Phrase c (Option Node) :=
  match c.cur.kind with
  | .kwLet =>
    let name := c.advance
    let equals := name.advance
    if c.peek.kind ≠ .ident then
      .broken none (c.unexpected depth .ident)
    else if name.peek.kind ≠ .assign then
      (broken none (name.unexpected depth .assign) : Phrase name _).after [] (by grind)
    else
      let value := expression depth .lowest equals.advance
      let id : Identifier := ⟨name.cur, name.cur.literal⟩
      (value.map fun v => some (.letStmt c.cur (some id) v)).terminated.after [] (by grind)
  | .kwReturn =>
    let value := expression depth .lowest c.advance
    (value.map fun v => some (.returnStmt c.cur v)).terminated.after [] (by grind)
  | _ =>
    let value := expression depth .lowest c
    (value.map fun v => some (.exprStmt c.cur v)).terminated
termination_by 16 * c.pending + 6
decreasing_by all_goals grind

/-- The block that begins with the current token, an opening brace. The cursor is left on its
closing brace. -/
def block (depth : Nat) (c : Cursor) : Phrase c Node :=
  let body := statements (depth + 1) c.advance
  let missing :=
    if body.stop.cur.kind = .eof then
      [body.stop.report (depth + 1) (.unexpected .rbrace .eof)]
    else []
  ⟨.block c.cur body.value, body.reports ++ missing, body.stop, by grind⟩
termination_by 16 * c.left + 8
decreasing_by all_goals grind

/-- The expression that begins with the current token, with all operators after it that bind
tighter than `level`. -/
def expression (depth : Nat) (level : Precedence) (c : Cursor) : Phrase c Node :=
  let ⟨first, reports, stop, le⟩ := operand depth c
  (operators depth level stop first).after reports le
termination_by 16 * c.pending + 3
decreasing_by all_goals grind

/-- The operators after `left` that bind tighter than `level`, applied from left to right. -/
def operators (depth : Nat) (level : Precedence) (c : Cursor) (left : Node) : Phrase c Node :=
  if h : left.isAbsent = true ∨ c.peek.kind.precedence.rank ≤ level.rank then
    .done left
  else
    have real : c.peek.kind ≠ .eof := fun e =>
      h (.inr (by simp [e, Kind.precedence, Precedence.rank]))
    have := Cursor.left_pos real
    let ⟨applied, reports, stop, _⟩ := application depth c.advance left
    (operators depth level stop applied).after reports (by grind)
termination_by 16 * c.left + 2
decreasing_by all_goals grind

/-- What the operator at the current token makes of the phrase before it: a call, an index or a
binary operation. -/
def application (depth : Nat) (c : Cursor) (left : Node) : Phrase c Node :=
  match c.cur.kind with
  | .lparen =>
    (items depth .rparen c).map fun args => (args.map (.call c.cur left)).getD .absent
  | .lbracket =>
    let i := expression depth .lowest c.advance
    ((i.map (.index c.cur left)).closed depth .rbracket .absent).after [] (by grind)
  | k =>
    let right := expression depth k.precedence c.advance
    (right.map (.binary c.cur left c.cur.literal)).after [] (by grind)
termination_by 16 * c.left + 6
decreasing_by all_goals grind

/-- Expressions between commas, from the opening bracket on to the closing one, of kind `close`. -/
def items (depth : Nat) (close : Kind) (c : Cursor) : Phrase c (Option (List Node)) :=
  if c.peek.kind = close then
    (done (some []) : Phrase c.advance _).after [] (by grind)
  else
    let ⟨first, reports, stop, _⟩ := expression depth .lowest c.advance
    ((moreItems depth close stop).map (·.map (first :: ·))).after reports (by grind)
termination_by 16 * c.left + 5
decreasing_by all_goals grind

def moreItems (depth : Nat) (close : Kind) (c : Cursor) : Phrase c (Option (List Node)) :=
  if h : c.peek.kind = .comma then
    have := Cursor.left_pos_of_peek h (by decide)
    let ⟨next, reports, stop, _⟩ := expression depth .lowest c.advance.advance
    ((moreItems depth close stop).map (·.map (next :: ·))).after reports (by grind)
  else
    (done (some []) : Phrase c _).closed depth close none
termination_by 16 * c.left + 4
decreasing_by all_goals grind

/-- The entries of a hash, from the token before the first of them on to the closing brace. A
comma may stand behind the last. -/
def pairs (depth : Nat) (c : Cursor) : Phrase c (Option (List (Node × Node))) :=
  if c.peek.kind = .rbrace then
    (done (some []) : Phrase c.advance _).after [] (by grind)
  else
    let ⟨key, reports, colon, _⟩ := expression depth .lowest c.advance
    if colon.peek.kind ≠ .colon then
      (broken none (colon.unexpected depth .colon) : Phrase colon _).after reports (by grind)
    else
      let ⟨value, reports', stop, _⟩ := expression depth .lowest colon.advance.advance
      if stop.peek.kind = .rbrace then
        (done (some [(key, value)]) : Phrase stop.advance _).after (reports ++ reports') (by grind)
      else if h : stop.peek.kind = .comma then
        have := Cursor.left_pos_of_peek h (by decide)
        ((pairs depth stop.advance).map (·.map ((key, value) :: ·))).after (reports ++ reports')
          (by grind)
      else
        (broken none (stop.unexpected depth .comma) : Phrase stop _).after (reports ++ reports')
          (by grind)
termination_by 16 * c.left + 5
decreasing_by all_goals grind

/-- The phrase that begins with the current token, without the operators after it. -/
def operand (depth : Nat) (c : Cursor) : Phrase c Node :=
  match h : c.cur.kind with
  | .ident => .done (.identifier ⟨c.cur, c.cur.literal⟩)
  | .int => integer depth c
  | .string => .done (.string c.cur c.cur.literal)
  | .kwTrue => .done (.boolean c.cur true)
  | .kwFalse => .done (.boolean c.cur false)
  | .bang | .minus =>
    let right := expression depth .sign c.advance
    (right.map (.unary c.cur c.cur.literal)).after [] (by grind)
  | .lparen =>
    let inner := expression depth .lowest c.advance
    (inner.closed depth .rparen .absent).after [] (by grind)
  | .lbracket =>
    (items depth .rbracket c).map fun elements => (elements.map (.array c.cur)).getD .absent
  | .lbrace =>
    (pairs depth c).map fun entries => (entries.map (.hash c.cur)).getD .absent
  | .kwFn =>
    if c.peek.kind ≠ .lparen then
      .broken .absent (c.unexpected depth .lparen)
    else
      let names := parameters depth c.advance
      match names.value with
      | none => (names.map fun _ => .absent).after [] (by grind)
      | some ps =>
        if names.stop.peek.kind ≠ .lbrace then
          (broken .absent (names.stop.unexpected depth .lbrace) : Phrase names.stop _).after
            names.reports (by grind)
        else
          let body := block depth names.stop.advance
          (body.map (.function c.cur ps)).after names.reports (by grind)
  | .kwIf =>
    if c.peek.kind ≠ .lparen then
      .broken .absent (c.unexpected depth .lparen)
    else
      let ⟨condition, reports, stop, _⟩ := expression depth .lowest c.advance.advance
      if stop.peek.kind ≠ .rparen then
        (broken .absent (stop.unexpected depth .rparen) : Phrase stop _).after reports (by grind)
      else if stop.advance.peek.kind ≠ .lbrace then
        (broken .absent (stop.advance.unexpected depth .lbrace) : Phrase stop.advance _).after
          reports (by grind)
      else
        let ⟨consequence, reports', brace, _⟩ := block depth stop.advance.advance
        if brace.peek.kind ≠ .kwElse then
          (done (.ifElse c.cur condition consequence .absent) : Phrase brace _).after
            (reports ++ reports') (by grind)
        else if brace.advance.peek.kind ≠ .lbrace then
          (broken .absent (brace.advance.unexpected depth .lbrace) : Phrase brace.advance _).after
            (reports ++ reports') (by grind)
        else
          let alternative := block depth brace.advance.advance
          (alternative.map (.ifElse c.cur condition consequence)).after (reports ++ reports')
            (by grind)
  | k => .broken .absent (c.report depth (.noOperand k))
termination_by 16 * c.pending + 1
decreasing_by all_goals grind

end

end MonkeyLang.Phrase
