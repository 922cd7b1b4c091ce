import MonkeyLang.Program

/-!
What reading a phrase gives, as a triple: its value, what was reported and the cursor at its last
token. Each function of the reader has one equation for its triple; nothing else in the theory of
reading unfolds them.
-/

namespace MonkeyLang.Phrase

open Token (Kind)

/-- A phrase without the place where it began. -/
def result {c : Cursor} {α : Type} (p : Phrase c α) : α × List Diagnostic × Cursor :=
  (p.value, p.reports, p.stop)

theorem value_of_result {c : Cursor} {α : Type} {p : Phrase c α} {v : α} {rs : List Diagnostic}
    {e : Cursor} (h : p.result = (v, rs, e)) : p.value = v :=
  congrArg Prod.fst h

theorem reports_of_result {c : Cursor} {α : Type} {p : Phrase c α} {v : α} {rs : List Diagnostic}
    {e : Cursor} (h : p.result = (v, rs, e)) : p.reports = rs :=
  congrArg (·.2.1) h

theorem stop_of_result {c : Cursor} {α : Type} {p : Phrase c α} {v : α} {rs : List Diagnostic}
    {e : Cursor} (h : p.result = (v, rs, e)) : p.stop = e :=
  congrArg (·.2.2) h

theorem result_closed {c : Cursor} {α : Type} (p : Phrase c α) (depth : Nat) (k : Kind)
    (broken : α) :
    (p.closed depth k broken).result =
      if p.stop.peek.kind = k then (p.value, p.reports, p.stop.advance)
      else (broken, p.reports ++ [p.stop.unexpected depth k], p.stop) := by
  unfold closed
  split <;> rfl

/-! ## Parameters and integers -/

theorem result_parameterNames (depth : Nat) (c : Cursor) :
    (parameterNames depth c).result =
      if c.peek.kind = .ident then
        let id : Identifier := ⟨c.peek, c.peek.literal⟩
        if c.advance.peek.kind = .comma then
          let p := parameterNames depth c.advance.advance
          (p.value.map (id :: ·), p.reports, p.stop)
        else if c.advance.peek.kind = .rparen then (some [id], [], c.advance.advance)
        else (none, [c.advance.unexpected depth .rparen], c.advance)
      else (none, [c.unexpected depth .ident], c) := by
  rw [parameterNames]
  split
  · dsimp only
    split
    · rfl
    · exact result_closed (done _ : Phrase c.advance _) depth .rparen none
  · rfl

theorem result_parameters (depth : Nat) (c : Cursor) :
    (parameters depth c).result =
      if c.peek.kind = .rparen then (some [], [], c.advance)
      else (parameterNames depth c).result := by
  unfold parameters
  split <;> rfl

theorem result_integer (depth : Nat) (c : Cursor) :
    (integer depth c).result =
      match Numeral.read? c.cur.literal.toList with
      | some value =>
        if value ≤ Word.greatest then (.integer c.cur value, [], c)
        else (.absent, [c.report depth (.notAnInteger c.cur.literal)], c)
      | none => (.absent, [c.report depth (.notAnInteger c.cur.literal)], c) := by
  unfold integer
  cases Numeral.read? c.cur.literal.toList with
  | none => rfl
  | some value =>
    dsimp only
    split <;> rfl

/-! ## Statements and blocks -/

theorem result_statements (depth : Nat) (c : Cursor) :
    (statements depth c).result =
      if c.cur.kind = .eof ∨ (c.cur.kind = .rbrace ∧ 0 < depth) then ([], [], c)
      else
        let p := statement depth c
        let q := statements depth (p.stop.recover depth p.reports).advance
        (p.value.toList ++ q.value, p.reports ++ q.reports, q.stop) := by
  rw [statements]
  split <;> rfl

theorem result_statement_let {depth : Nat} {c : Cursor} (h : c.cur.kind = .kwLet) :
    (statement depth c).result =
      if c.peek.kind ≠ .ident then (none, [c.unexpected depth .ident], c)
      else if c.advance.peek.kind ≠ .assign then
        (none, [c.advance.unexpected depth .assign], c.advance)
      else
        let p := expression depth .lowest c.advance.advance.advance
        (some (.letStmt c.cur (some ⟨c.peek, c.peek.literal⟩) p.value), p.reports,
          p.stop.skip .semicolon) := by
  rw [statement]
  split
  · dsimp only
    split
    · rfl
    · split <;> rfl
  · rename_i h'
    exact Kind.noConfusion (h.symm.trans h')
  · rename_i h' _
    exact absurd h h'

theorem result_statement_return {depth : Nat} {c : Cursor} (h : c.cur.kind = .kwReturn) :
    (statement depth c).result =
      let p := expression depth .lowest c.advance
      (some (.returnStmt c.cur p.value), p.reports, p.stop.skip .semicolon) := by
  rw [statement]
  split
  · rename_i h'
    exact Kind.noConfusion (h.symm.trans h')
  · rfl
  · rename_i h'
    exact absurd h h'

theorem result_statement_expression {depth : Nat} {c : Cursor} (h : c.cur.kind ≠ .kwLet)
    (h' : c.cur.kind ≠ .kwReturn) :
    (statement depth c).result =
      let p := expression depth .lowest c
      (some (.exprStmt c.cur p.value), p.reports, p.stop.skip .semicolon) := by
  rw [statement]
  split
  · contradiction
  · contradiction
  · rfl

theorem result_block (depth : Nat) (c : Cursor) :
    (block depth c).result =
      let p := statements (depth + 1) c.advance
      (.block c.cur p.value,
        p.reports ++ (if p.stop.cur.kind = .eof then
          [p.stop.report (depth + 1) (.unexpected .rbrace .eof)] else []), p.stop) := by
  rw [block]
  rfl

/-! ## Expressions -/

theorem result_expression (depth : Nat) (level : Precedence) (c : Cursor) :
    (expression depth level c).result =
      let p := operand depth c
      let q := operators depth level p.stop p.value
      (q.value, p.reports ++ q.reports, q.stop) := by
  rw [expression]
  rfl

theorem result_operators (depth : Nat) (level : Precedence) (c : Cursor) (left : Node) :
    (operators depth level c left).result =
      if left.isAbsent = true ∨ c.peek.kind.precedence.rank ≤ level.rank then (left, [], c)
      else
        let p := application depth c.advance left
        let q := operators depth level p.stop p.value
        (q.value, p.reports ++ q.reports, q.stop) := by
  rw [operators]
  split <;> rfl

theorem result_application_call {depth : Nat} {c : Cursor} {left : Node}
    (h : c.cur.kind = .lparen) :
    (application depth c left).result =
      let p := items depth .rparen c
      ((p.value.map (.call c.cur left)).getD .absent, p.reports, p.stop) := by
  rw [application]
  split
  · rfl
  · rename_i h'
    exact Kind.noConfusion (h.symm.trans h')
  · rename_i h' _
    exact absurd h h'

theorem result_application_index {depth : Nat} {c : Cursor} {left : Node}
    (h : c.cur.kind = .lbracket) :
    (application depth c left).result =
      let p := expression depth .lowest c.advance
      if p.stop.peek.kind = .rbracket then (.index c.cur left p.value, p.reports, p.stop.advance)
      else (.absent, p.reports ++ [p.stop.unexpected depth .rbracket], p.stop) := by
  rw [application]
  split
  · rename_i h'
    exact Kind.noConfusion (h.symm.trans h')
  · exact result_closed ((expression depth .lowest c.advance).map (Node.index c.cur left)) depth
      .rbracket Node.absent
  · rename_i h'
    exact absurd h h'

theorem result_application_binary {depth : Nat} {c : Cursor} {left : Node}
    (h : c.cur.kind ≠ .lparen) (h' : c.cur.kind ≠ .lbracket) :
    (application depth c left).result =
      let p := expression depth c.cur.kind.precedence c.advance
      (.binary c.cur left c.cur.literal p.value, p.reports, p.stop) := by
  rw [application]
  split
  · contradiction
  · contradiction
  · rfl

theorem result_items (depth : Nat) (close : Kind) (c : Cursor) :
    (items depth close c).result =
      if c.peek.kind = close then (some [], [], c.advance)
      else
        let p := expression depth .lowest c.advance
        let q := moreItems depth close p.stop
        (q.value.map (p.value :: ·), p.reports ++ q.reports, q.stop) := by
  rw [items]
  split <;> rfl

theorem result_moreItems (depth : Nat) (close : Kind) (c : Cursor) :
    (moreItems depth close c).result =
      if c.peek.kind = .comma then
        let p := expression depth .lowest c.advance.advance
        let q := moreItems depth close p.stop
        (q.value.map (p.value :: ·), p.reports ++ q.reports, q.stop)
      else if c.peek.kind = close then (some [], [], c.advance)
      else (none, [c.unexpected depth close], c) := by
  rw [moreItems]
  split
  · rfl
  · exact result_closed (done (some []) : Phrase c _) depth close none

theorem result_pairs (depth : Nat) (c : Cursor) :
    (pairs depth c).result =
      if c.peek.kind = .rbrace then (some [], [], c.advance)
      else
        let p := expression depth .lowest c.advance
        if p.stop.peek.kind ≠ .colon then
          (none, p.reports ++ [p.stop.unexpected depth .colon], p.stop)
        else
          let q := expression depth .lowest p.stop.advance.advance
          if q.stop.peek.kind = .rbrace then
            (some [(p.value, q.value)], p.reports ++ q.reports, q.stop.advance)
          else if q.stop.peek.kind = .comma then
            let r := pairs depth q.stop.advance
            (r.value.map ((p.value, q.value) :: ·), p.reports ++ q.reports ++ r.reports, r.stop)
          else
            (none, p.reports ++ q.reports ++ [q.stop.unexpected depth .comma], q.stop) := by
  rw [pairs]
  split
  · rfl
  · dsimp only
    split
    · rfl
    · split
      · simp [result, after, done]
      · split <;> rfl

/-! ## Operands -/

/-- The token alone is an operand, of which nothing can be reported. -/
inductive Leaf (t : Token) : Node → Prop
  | identifier : t.kind = .ident → Leaf t (.identifier ⟨t, t.literal⟩)
  | string : t.kind = .string → Leaf t (.string t t.literal)
  | truth : t.kind = .kwTrue → Leaf t (.boolean t true)
  | falsehood : t.kind = .kwFalse → Leaf t (.boolean t false)

theorem result_operand_leaf {depth : Nat} {c : Cursor} {n : Node} (h : Leaf c.cur n) :
    (operand depth c).result = (n, [], c) := by
  cases h with
  | identifier h | string h | truth h | falsehood h =>
    rw [operand]
    split <;> rename_i h' <;> first | rfl | exact Kind.noConfusion (h.symm.trans h') | simp_all

theorem result_operand_int {depth : Nat} {c : Cursor} (h : c.cur.kind = .int) :
    (operand depth c).result = (integer depth c).result := by
  rw [operand]
  split <;> rename_i h' <;> first | rfl | exact Kind.noConfusion (h.symm.trans h') | simp_all

theorem result_operand_sign {depth : Nat} {c : Cursor}
    (h : c.cur.kind = .bang ∨ c.cur.kind = .minus) :
    (operand depth c).result =
      let p := expression depth .sign c.advance
      (.unary c.cur c.cur.literal p.value, p.reports, p.stop) := by
  rcases h with h | h <;> rw [operand] <;> split <;>
    rename_i h' <;> first | rfl | exact Kind.noConfusion (h.symm.trans h') | simp_all

theorem result_operand_group {depth : Nat} {c : Cursor} (h : c.cur.kind = .lparen) :
    (operand depth c).result =
      let p := expression depth .lowest c.advance
      if p.stop.peek.kind = .rparen then (p.value, p.reports, p.stop.advance)
      else (.absent, p.reports ++ [p.stop.unexpected depth .rparen], p.stop) := by
  rw [operand]
  split <;> rename_i h' <;>
    first
    | exact Kind.noConfusion (h.symm.trans h')
    | exact result_closed (expression depth .lowest c.advance) depth .rparen Node.absent
    | simp_all

theorem result_operand_array {depth : Nat} {c : Cursor} (h : c.cur.kind = .lbracket) :
    (operand depth c).result =
      let p := items depth .rbracket c
      ((p.value.map (.array c.cur)).getD .absent, p.reports, p.stop) := by
  rw [operand]
  split <;> rename_i h' <;> first | rfl | exact Kind.noConfusion (h.symm.trans h') | simp_all

theorem result_operand_hash {depth : Nat} {c : Cursor} (h : c.cur.kind = .lbrace) :
    (operand depth c).result =
      let p := pairs depth c
      ((p.value.map (.hash c.cur)).getD .absent, p.reports, p.stop) := by
  rw [operand]
  split <;> rename_i h' <;> first | rfl | exact Kind.noConfusion (h.symm.trans h') | simp_all

theorem result_operand_function {depth : Nat} {c : Cursor} (h : c.cur.kind = .kwFn) :
    (operand depth c).result =
      if c.peek.kind ≠ .lparen then (.absent, [c.unexpected depth .lparen], c)
      else
        let p := parameters depth c.advance
        match p.value with
        | none => (.absent, p.reports, p.stop)
        | some names =>
          if p.stop.peek.kind ≠ .lbrace then
            (.absent, p.reports ++ [p.stop.unexpected depth .lbrace], p.stop)
          else
            let q := block depth p.stop.advance
            (.function c.cur names q.value, p.reports ++ q.reports, q.stop) := by
  rw [operand]
  split <;> rename_i h' <;> first | exact Kind.noConfusion (h.symm.trans h') | skip
  · split
    · rfl
    · dsimp only
      cases (parameters depth c.advance).value with
      | none => rfl
      | some names =>
        dsimp only
        split <;> rfl
  · simp_all

theorem result_operand_if {depth : Nat} {c : Cursor} (h : c.cur.kind = .kwIf) :
    (operand depth c).result =
      if c.peek.kind ≠ .lparen then (.absent, [c.unexpected depth .lparen], c)
      else
        let p := expression depth .lowest c.advance.advance
        if p.stop.peek.kind ≠ .rparen then
          (.absent, p.reports ++ [p.stop.unexpected depth .rparen], p.stop)
        else if p.stop.advance.peek.kind ≠ .lbrace then
          (.absent, p.reports ++ [p.stop.advance.unexpected depth .lbrace], p.stop.advance)
        else
          let q := block depth p.stop.advance.advance
          if q.stop.peek.kind ≠ .kwElse then
            (.ifElse c.cur p.value q.value .absent, p.reports ++ q.reports, q.stop)
          else if q.stop.advance.peek.kind ≠ .lbrace then
            (.absent, p.reports ++ q.reports ++ [q.stop.advance.unexpected depth .lbrace],
              q.stop.advance)
          else
            let r := block depth q.stop.advance.advance
            (.ifElse c.cur p.value q.value r.value, p.reports ++ q.reports ++ r.reports, r.stop) := by
  rw [operand]
  split <;> rename_i h' <;> first | exact Kind.noConfusion (h.symm.trans h') | skip
  · split
    · rfl
    · dsimp only
      split
      · rfl
      · split
        · rfl
        · split
          · simp [result, after, done]
          · split <;> rfl
  · simp_all

def beginsOperand (k : Kind) : Bool :=
  k matches .ident | .int | .string | .kwTrue | .kwFalse | .bang | .minus | .lparen | .lbracket |
    .lbrace | .kwFn | .kwIf

theorem result_operand_none {depth : Nat} {c : Cursor} (h : beginsOperand c.cur.kind = false) :
    (operand depth c).result = (.absent, [c.report depth (.noOperand c.cur.kind)], c) := by
  rw [operand]
  split <;> rename_i h' <;> first | rfl | simp [beginsOperand, h'] at h

inductive OperandForm (t : Token) : Prop
  | leaf {n : Node} : Leaf t n → OperandForm t
  | integer : t.kind = .int → OperandForm t
  | sign : t.kind = .bang ∨ t.kind = .minus → OperandForm t
  | group : t.kind = .lparen → OperandForm t
  | array : t.kind = .lbracket → OperandForm t
  | hash : t.kind = .lbrace → OperandForm t
  | function : t.kind = .kwFn → OperandForm t
  | conditional : t.kind = .kwIf → OperandForm t

theorem operandForm {t : Token} (h : ¬beginsOperand t.kind = false) : OperandForm t := by
  cases hk : t.kind with
  | ident => exact .leaf (.identifier hk)
  | int => exact .integer hk
  | string => exact .leaf (.string hk)
  | kwTrue => exact .leaf (.truth hk)
  | kwFalse => exact .leaf (.falsehood hk)
  | bang => exact .sign (.inl hk)
  | minus => exact .sign (.inr hk)
  | lparen => exact .group hk
  | lbracket => exact .array hk
  | lbrace => exact .hash hk
  | kwFn => exact .function hk
  | kwIf => exact .conditional hk
  | _ => simp [hk, beginsOperand] at h

theorem ne_eof_of_beginsOperand {k : Kind} (h : ¬beginsOperand k = false) : k ≠ .eof := by
  rintro rfl
  exact h rfl

end MonkeyLang.Phrase
