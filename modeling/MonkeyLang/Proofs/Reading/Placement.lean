import MonkeyLang.Proofs.Placement
import MonkeyLang.Proofs.Reading.Induction

/-!
Reading does not depend on where tokens stand: without their places, the same tokens give the same
phrases and the same reports, without their places.
-/

namespace MonkeyLang

open Token (Kind)

def Diagnostic.unplaced (d : Diagnostic) : Diagnostic := { d with pos := ⟨0, 0⟩ }

namespace Cursor

def unplaced (c : Cursor) : Cursor := ⟨c.cur.unplaced, c.rest.map (·.unplaced)⟩

variable (c : Cursor)

theorem cur_unplaced : c.unplaced.cur = c.cur.unplaced := rfl

theorem peek_unplaced : c.unplaced.peek = c.peek.unplaced := by
  obtain ⟨cur, rest⟩ := c
  cases rest <;> rfl

theorem advance_unplaced : c.unplaced.advance = c.advance.unplaced := by
  unfold advance
  rw [peek_unplaced, unplaced, unplaced, List.map_tail]

theorem skip_unplaced (k : Kind) : c.unplaced.skip k = (c.skip k).unplaced := by
  unfold skip
  rw [peek_unplaced, Token.kind_unplaced, advance_unplaced]
  split <;> rfl

theorem report_unplaced (depth : Nat) (cause : Diagnostic.Cause) :
    c.unplaced.report depth cause = (c.report depth cause).unplaced :=
  rfl

theorem unexpected_unplaced (depth : Nat) (k : Kind) :
    c.unplaced.unexpected depth k = (c.unexpected depth k).unplaced := by
  rw [unexpected, peek_unplaced]
  rfl

theorem synchronize_unplaced : c.unplaced.synchronize = c.synchronize.unplaced := by
  induction c using synchronize.induct with
  | case1 c hend =>
    rw [synchronize, if_pos (by rwa [cur_unplaced, peek_unplaced]), synchronize, if_pos hend]
  | case2 c hend ih =>
    have hmoves : c.synchronize = c.advance.synchronize := by
      rw [synchronize, if_neg hend]
    rw [hmoves, synchronize, if_neg (by rwa [cur_unplaced, peek_unplaced]), advance_unplaced, ih]

theorem recover_unplaced (depth : Nat) (reports : List Diagnostic) :
    c.unplaced.recover depth (reports.map (·.unplaced)) = (c.recover depth reports).unplaced := by
  have hlast : (reports.map (·.unplaced)).getLast?.map (·.depth) =
      reports.getLast?.map (·.depth) := by
    rw [List.getLast?_map, Option.map_map]
    rfl
  unfold recover
  rw [hlast, synchronize_unplaced]
  split <;> rfl

theorem unplaced_ofTokens (tokens : List Token) :
    ofTokens (tokens.map (·.unplaced)) = (ofTokens tokens).unplaced := by
  cases tokens <;> rfl

end Cursor

namespace Phrase

/-- A result without places, where `f` takes them from its value. -/
def forget {α : Type} (f : α → α) (r : α × List Diagnostic × Cursor) :
    α × List Diagnostic × Cursor :=
  (f r.1, r.2.1.map (·.unplaced), r.2.2.unplaced)

theorem parts_of_forget {α : Type} {f : α → α} {c c' : Cursor} {p : Phrase c α} {p' : Phrase c' α}
    (h : p'.result = forget f p.result) :
    p'.value = f p.value ∧ p'.reports = p.reports.map (·.unplaced) ∧ p'.stop = p.stop.unplaced :=
  ⟨congrArg Prod.fst h, congrArg (·.2.1) h, congrArg (·.2.2) h⟩

theorem parameterNames_unplaced (depth : Nat) (c : Cursor) :
    (parameterNames depth c.unplaced).result =
      forget (·.map (·.map (·.unplaced))) (parameterNames depth c).result := by
  rw [result_parameterNames, result_parameterNames, Cursor.peek_unplaced, Token.kind_unplaced,
    Cursor.advance_unplaced, Cursor.peek_unplaced, Token.kind_unplaced, Cursor.advance_unplaced,
    Cursor.unexpected_unplaced, Cursor.unexpected_unplaced]
  split
  · dsimp only
    split
    · rename_i hname hcomma
      have hpos := Cursor.left_pos_of_peek hname (by decide)
      obtain ⟨hv, hr, hs⟩ := parts_of_forget (parameterNames_unplaced depth c.advance.advance)
      rw [hv, hr, hs]
      cases (parameterNames depth c.advance.advance).value <;> rfl
    · split <;> rfl
  · rfl
termination_by c.left
decreasing_by
  simp only [Cursor.left_advance]
  omega

theorem parameters_unplaced (depth : Nat) (c : Cursor) :
    (parameters depth c.unplaced).result =
      forget (·.map (·.map (·.unplaced))) (parameters depth c).result := by
  rw [result_parameters, result_parameters, Cursor.peek_unplaced, Token.kind_unplaced,
    Cursor.advance_unplaced, parameterNames_unplaced]
  split <;> rfl

/-- What a phrase is does not depend on the places of tokens. -/
def Placeless : Property where
  statements depth c :=
    (statements depth c.unplaced).result = forget (·.map (·.unplaced)) (statements depth c).result
  statement depth c :=
    (statement depth c.unplaced).result = forget (·.map (·.unplaced)) (statement depth c).result
  block depth c := (block depth c.unplaced).result = forget Node.unplaced (block depth c).result
  expression depth m c :=
    (expression depth m c.unplaced).result = forget Node.unplaced (expression depth m c).result
  operators depth m c left :=
    (operators depth m c.unplaced left.unplaced).result =
      forget Node.unplaced (operators depth m c left).result
  application depth c left :=
    (application depth c.unplaced left.unplaced).result =
      forget Node.unplaced (application depth c left).result
  items depth close c :=
    (items depth close c.unplaced).result =
      forget (·.map (·.map (·.unplaced))) (items depth close c).result
  moreItems depth close c :=
    (moreItems depth close c.unplaced).result =
      forget (·.map (·.map (·.unplaced))) (moreItems depth close c).result
  pairs depth c :=
    (pairs depth c.unplaced).result =
      forget (·.map (·.map fun p => (p.1.unplaced, p.2.unplaced))) (pairs depth c).result
  operand depth c :=
    (operand depth c.unplaced).result = forget Node.unplaced (operand depth c).result

section Rules

variable {depth : Nat} {c : Cursor}

theorem statements_unplaced
    (hopen : ¬(c.cur.kind = .eof ∨ (c.cur.kind = .rbrace ∧ 0 < depth)))
    (hfirst : Placeless.statement depth c)
    (hmore : Placeless.statements depth
      ((statement depth c).stop.recover depth (statement depth c).reports).advance) :
    Placeless.statements depth c := by
  show (statements depth c.unplaced).result = _
  rw [result_statements, result_statements depth c, if_neg hopen, Cursor.cur_unplaced,
    Token.kind_unplaced, if_neg hopen]
  obtain ⟨hv, hr, hs⟩ := parts_of_forget hfirst
  dsimp only
  rw [hv, hr, hs, Cursor.recover_unplaced, Cursor.advance_unplaced]
  obtain ⟨hv', hr', hs'⟩ := parts_of_forget hmore
  rw [hv', hr', hs', forget, List.map_append, List.map_append]
  cases (statement depth c).value <;> rfl

theorem binding_unplaced (hk : c.cur.kind = .kwLet)
    (hvalue : Placeless.expression depth .lowest c.advance.advance.advance) :
    Placeless.statement depth c := by
  show (statement depth c.unplaced).result = _
  obtain ⟨hv, hr, hs⟩ := parts_of_forget hvalue
  rw [result_statement_let hk, result_statement_let (by rwa [Cursor.cur_unplaced]),
    Cursor.peek_unplaced, Token.kind_unplaced, Cursor.advance_unplaced, Cursor.peek_unplaced,
    Token.kind_unplaced, Cursor.advance_unplaced, Cursor.advance_unplaced,
    Cursor.unexpected_unplaced, Cursor.unexpected_unplaced]
  dsimp only
  rw [hv, hr, hs, Cursor.skip_unplaced]
  split
  · rfl
  · split <;> rfl

theorem returning_unplaced (hk : c.cur.kind = .kwReturn)
    (hvalue : Placeless.expression depth .lowest c.advance) : Placeless.statement depth c := by
  show (statement depth c.unplaced).result = _
  obtain ⟨hv, hr, hs⟩ := parts_of_forget hvalue
  rw [result_statement_return hk, result_statement_return (by rwa [Cursor.cur_unplaced]),
    Cursor.advance_unplaced]
  dsimp only
  rw [hv, hr, hs, Cursor.skip_unplaced]
  rfl

theorem expressionStatement_unplaced (hlet : c.cur.kind ≠ .kwLet) (hreturn : c.cur.kind ≠ .kwReturn)
    (hvalue : Placeless.expression depth .lowest c) : Placeless.statement depth c := by
  show (statement depth c.unplaced).result = _
  obtain ⟨hv, hr, hs⟩ := parts_of_forget hvalue
  rw [result_statement_expression hlet hreturn,
    result_statement_expression (by rwa [Cursor.cur_unplaced]) (by rwa [Cursor.cur_unplaced])]
  dsimp only
  rw [hv, hr, hs, Cursor.skip_unplaced]
  rfl

theorem block_unplaced (hbody : Placeless.statements (depth + 1) c.advance) :
    Placeless.block depth c := by
  show (block depth c.unplaced).result = _
  rw [result_block, result_block, Cursor.advance_unplaced]
  obtain ⟨hv, hr, hs⟩ := parts_of_forget hbody
  dsimp only
  rw [hv, hr, hs, Cursor.report_unplaced, Cursor.cur_unplaced, Cursor.cur_unplaced,
    Token.kind_unplaced, forget, List.map_append, Node.unplaced, Node.unplacedEach_eq_map]
  split <;> rfl

theorem expression_unplaced {m : Precedence} (hfirst : Placeless.operand depth c)
    (hmore : Placeless.operators depth m (operand depth c).stop (operand depth c).value) :
    Placeless.expression depth m c := by
  show (expression depth m c.unplaced).result = _
  rw [result_expression, result_expression]
  obtain ⟨hv, hr, hs⟩ := parts_of_forget hfirst
  dsimp only
  rw [hv, hr, hs]
  obtain ⟨hv', hr', hs'⟩ := parts_of_forget hmore
  rw [hv', hr', hs', forget, List.map_append]

theorem operators_unplaced {m : Precedence} {left : Node}
    (happlied : c.peek.kind ≠ .eof → Placeless.application depth c.advance left)
    (hmore : c.peek.kind ≠ .eof → Placeless.operators depth m
      (application depth c.advance left).stop (application depth c.advance left).value) :
    Placeless.operators depth m c left := by
  show (operators depth m c.unplaced left.unplaced).result = _
  rw [result_operators, result_operators depth m c left, Cursor.peek_unplaced,
    Token.kind_unplaced, Node.isAbsent_unplaced]
  split
  · rfl
  rename_i hgo
  have hreal : c.peek.kind ≠ .eof := fun heof => hgo (.inr (by rw [heof]; exact Nat.zero_le _))
  rw [Cursor.advance_unplaced]
  obtain ⟨hv, hr, hs⟩ := parts_of_forget (happlied hreal)
  dsimp only
  rw [hv, hr, hs]
  obtain ⟨hv', hr', hs'⟩ := parts_of_forget (hmore hreal)
  rw [hv', hr', hs', forget, List.map_append]

theorem application_unplaced {left : Node} (hitems : Placeless.items depth .rparen c)
    (hi : Placeless.expression depth .lowest c.advance)
    (hright : Placeless.expression depth c.cur.kind.precedence c.advance) :
    Placeless.application depth c left := by
  show (application depth c.unplaced left.unplaced).result = _
  by_cases hparen : c.cur.kind = .lparen
  · rw [result_application_call hparen, result_application_call (by rwa [Cursor.cur_unplaced])]
    obtain ⟨hv, hr, hs⟩ := parts_of_forget hitems
    dsimp only
    rw [hv, hr, hs, forget]
    cases (items depth .rparen c).value with
    | none => rfl
    | some args => simp [Node.unplaced, Node.unplacedEach_eq_map, Cursor.cur_unplaced]
  by_cases hbracket : c.cur.kind = .lbracket
  · rw [result_application_index hbracket,
      result_application_index (by rwa [Cursor.cur_unplaced]), Cursor.advance_unplaced]
    obtain ⟨hv, hr, hs⟩ := parts_of_forget hi
    dsimp only
    rw [hv, hr, hs, Cursor.peek_unplaced, Token.kind_unplaced, Cursor.advance_unplaced,
      Cursor.unexpected_unplaced]
    split
    · rfl
    · simp [forget, Node.unplaced]
  · rw [result_application_binary hparen hbracket, result_application_binary
      (by rwa [Cursor.cur_unplaced]) (by rwa [Cursor.cur_unplaced]), Cursor.advance_unplaced]
    obtain ⟨hv, hr, hs⟩ := parts_of_forget hright
    dsimp only
    rw [Cursor.cur_unplaced, Token.kind_unplaced, hv, hr, hs]
    rfl

theorem items_unplaced {close : Kind} (hfirst : Placeless.expression depth .lowest c.advance)
    (hmore : Placeless.moreItems depth close (expression depth .lowest c.advance).stop) :
    Placeless.items depth close c := by
  show (items depth close c.unplaced).result = _
  rw [result_items, result_items, Cursor.peek_unplaced, Token.kind_unplaced,
    Cursor.advance_unplaced]
  obtain ⟨hv, hr, hs⟩ := parts_of_forget hfirst
  dsimp only
  rw [hv, hr, hs]
  obtain ⟨hv', hr', hs'⟩ := parts_of_forget hmore
  rw [hv', hr', hs']
  split
  · rfl
  · rw [forget, List.map_append]
    cases (moreItems depth close (expression depth .lowest c.advance).stop).value <;> rfl

theorem moreItems_unplaced {close : Kind}
    (hfirst : Placeless.expression depth .lowest c.advance.advance)
    (hmore : c.peek.kind = .comma →
      Placeless.moreItems depth close (expression depth .lowest c.advance.advance).stop) :
    Placeless.moreItems depth close c := by
  show (moreItems depth close c.unplaced).result = _
  rw [result_moreItems, result_moreItems depth close c, Cursor.peek_unplaced, Token.kind_unplaced,
    Cursor.advance_unplaced, Cursor.advance_unplaced, Cursor.unexpected_unplaced]
  split
  · rename_i hcomma
    obtain ⟨hv, hr, hs⟩ := parts_of_forget hfirst
    dsimp only
    rw [hv, hr, hs]
    obtain ⟨hv', hr', hs'⟩ := parts_of_forget (hmore hcomma)
    rw [hv', hr', hs', forget, List.map_append]
    cases (moreItems depth close (expression depth .lowest c.advance.advance).stop).value <;> rfl
  · split <;> rfl

theorem pairs_unplaced (hkey : Placeless.expression depth .lowest c.advance)
    (hvalue : Placeless.expression depth .lowest
      (expression depth .lowest c.advance).stop.advance.advance)
    (hmore : (expression depth .lowest
        (expression depth .lowest c.advance).stop.advance.advance).stop.peek.kind = .comma →
      Placeless.pairs depth (expression depth .lowest
        (expression depth .lowest c.advance).stop.advance.advance).stop.advance) :
    Placeless.pairs depth c := by
  show (pairs depth c.unplaced).result = _
  rw [result_pairs, result_pairs depth c, Cursor.peek_unplaced, Token.kind_unplaced,
    Cursor.advance_unplaced]
  obtain ⟨hv, hr, hs⟩ := parts_of_forget hkey
  dsimp only
  rw [hv, hr, hs, Cursor.peek_unplaced, Token.kind_unplaced, Cursor.unexpected_unplaced,
    Cursor.advance_unplaced, Cursor.advance_unplaced]
  obtain ⟨hv', hr', hs'⟩ := parts_of_forget hvalue
  rw [hv', hr', hs', Cursor.peek_unplaced, Token.kind_unplaced, Cursor.unexpected_unplaced,
    Cursor.advance_unplaced]
  split
  · rfl
  split
  · simp [forget]
  split
  · simp [forget]
  split
  · rename_i hcomma
    obtain ⟨hv'', hr'', hs''⟩ := parts_of_forget (hmore hcomma)
    rw [hv'', hr'', hs'', forget, List.map_append, List.map_append]
    cases (pairs depth (expression depth .lowest
      (expression depth .lowest c.advance).stop.advance.advance).stop.advance).value <;> rfl
  · simp [forget]

theorem sign_unplaced (hk : c.cur.kind = .bang ∨ c.cur.kind = .minus)
    (hright : Placeless.expression depth .sign c.advance) : Placeless.operand depth c := by
  show (operand depth c.unplaced).result = _
  obtain ⟨hv, hr, hs⟩ := parts_of_forget hright
  rw [result_operand_sign hk, result_operand_sign (by rwa [Cursor.cur_unplaced]),
    Cursor.advance_unplaced]
  dsimp only
  rw [hv, hr, hs]
  rfl

theorem group_unplaced (hk : c.cur.kind = .lparen)
    (hinner : Placeless.expression depth .lowest c.advance) : Placeless.operand depth c := by
  show (operand depth c.unplaced).result = _
  obtain ⟨hv, hr, hs⟩ := parts_of_forget hinner
  rw [result_operand_group hk, result_operand_group (by rwa [Cursor.cur_unplaced]),
    Cursor.advance_unplaced]
  dsimp only
  rw [hv, hr, hs, Cursor.peek_unplaced, Token.kind_unplaced, Cursor.unexpected_unplaced,
    Cursor.advance_unplaced]
  split
  · rfl
  · simp [forget, Node.unplaced]

theorem array_unplaced (hk : c.cur.kind = .lbracket) (hitems : Placeless.items depth .rbracket c) :
    Placeless.operand depth c := by
  show (operand depth c.unplaced).result = _
  obtain ⟨hv, hr, hs⟩ := parts_of_forget hitems
  rw [result_operand_array hk, result_operand_array (by rwa [Cursor.cur_unplaced])]
  dsimp only
  rw [hv, hr, hs, forget]
  cases (items depth .rbracket c).value with
  | none => rfl
  | some elements => simp [Node.unplaced, Node.unplacedEach_eq_map, Cursor.cur_unplaced]

theorem hash_unplaced (hk : c.cur.kind = .lbrace) (hpairs : Placeless.pairs depth c) :
    Placeless.operand depth c := by
  show (operand depth c.unplaced).result = _
  obtain ⟨hv, hr, hs⟩ := parts_of_forget hpairs
  rw [result_operand_hash hk, result_operand_hash (by rwa [Cursor.cur_unplaced])]
  dsimp only
  rw [hv, hr, hs, forget]
  cases (pairs depth c).value with
  | none => rfl
  | some entries => simp [Node.unplaced, Node.unplacedPairs_eq_map, Cursor.cur_unplaced]

theorem function_unplaced (hk : c.cur.kind = .kwFn)
    (hbody : Placeless.block depth (parameters depth c.advance).stop.advance) :
    Placeless.operand depth c := by
  show (operand depth c.unplaced).result = _
  obtain ⟨hv, hr, hs⟩ := parts_of_forget (parameters_unplaced depth c.advance)
  obtain ⟨hv', hr', hs'⟩ := parts_of_forget hbody
  rw [result_operand_function hk, result_operand_function (by rwa [Cursor.cur_unplaced]),
    Cursor.peek_unplaced, Token.kind_unplaced, Cursor.unexpected_unplaced, Cursor.advance_unplaced]
  dsimp only
  rw [hv, hr, hs, Cursor.peek_unplaced, Token.kind_unplaced, Cursor.unexpected_unplaced,
    Cursor.advance_unplaced, hv', hr', hs']
  split
  · rfl
  cases (parameters depth c.advance).value with
  | none => rfl
  | some names =>
    dsimp only [Option.map]
    split
    · simp [forget, Node.unplaced]
    · simp [forget, Node.unplaced, Cursor.cur_unplaced]

theorem if_unplaced (hk : c.cur.kind = .kwIf)
    (hcondition : Placeless.expression depth .lowest c.advance.advance)
    (hconsequence : Placeless.block depth
      (expression depth .lowest c.advance.advance).stop.advance.advance)
    (halternative : Placeless.block depth (block depth
      (expression depth .lowest c.advance.advance).stop.advance.advance).stop.advance.advance) :
    Placeless.operand depth c := by
  show (operand depth c.unplaced).result = _
  obtain ⟨hv, hr, hs⟩ := parts_of_forget hcondition
  obtain ⟨hv', hr', hs'⟩ := parts_of_forget hconsequence
  obtain ⟨hv'', hr'', hs''⟩ := parts_of_forget halternative
  rw [result_operand_if hk, result_operand_if (by rwa [Cursor.cur_unplaced]),
    Cursor.peek_unplaced, Token.kind_unplaced, Cursor.unexpected_unplaced, Cursor.advance_unplaced,
    Cursor.advance_unplaced]
  dsimp only
  rw [hv, hr, hs, Cursor.peek_unplaced, Token.kind_unplaced, Cursor.unexpected_unplaced,
    Cursor.advance_unplaced, Cursor.peek_unplaced, Token.kind_unplaced,
    Cursor.unexpected_unplaced, Cursor.advance_unplaced, hv', hr', hs', Cursor.peek_unplaced,
    Token.kind_unplaced, Cursor.advance_unplaced, Cursor.peek_unplaced, Token.kind_unplaced,
    Cursor.unexpected_unplaced, Cursor.advance_unplaced, hv'', hr'', hs'']
  split
  · rfl
  split
  · simp [forget, Node.unplaced]
  split
  · simp [forget, Node.unplaced]
  split
  · simp [forget, Node.unplaced, Cursor.cur_unplaced]
  split
  · simp [forget, Node.unplaced]
  · simp [forget, Node.unplaced, Cursor.cur_unplaced]

theorem leaf_unplaced {n : Node} (h : Leaf c.cur n) : Placeless.operand depth c := by
  show (operand depth c.unplaced).result = _
  rw [result_operand_leaf h]
  cases h with
  | identifier h => exact result_operand_leaf (.identifier h)
  | string h => exact result_operand_leaf (.string h)
  | truth h => exact result_operand_leaf (.truth h)
  | falsehood h => exact result_operand_leaf (.falsehood h)

theorem integer_unplaced (hk : c.cur.kind = .int) : Placeless.operand depth c := by
  show (operand depth c.unplaced).result = _
  rw [result_operand_int hk, result_operand_int (by rwa [Cursor.cur_unplaced]), result_integer,
    result_integer, Cursor.cur_unplaced, Token.literal_unplaced]
  cases Numeral.read? c.cur.literal.toList with
  | none => rfl
  | some value =>
    dsimp only
    split <;> rfl

end Rules

theorem placeless_inductive : Placeless.Inductive where
  statements depth c hfirst hmore := by
    by_cases hclosed : c.cur.kind = .eof ∨ (c.cur.kind = .rbrace ∧ 0 < depth)
    · show (statements depth c.unplaced).result = _
      rw [result_statements, result_statements depth c, if_pos hclosed, Cursor.cur_unplaced,
        Token.kind_unplaced, if_pos hclosed]
      rfl
    · have hreal : c.cur.kind ≠ .eof := fun heof => hclosed (.inl heof)
      exact statements_unplaced hclosed (hfirst hreal) (hmore hreal)
  statement depth c hbinding hreturning hexpression := by
    by_cases hlet : c.cur.kind = .kwLet
    · exact binding_unplaced hlet hbinding
    by_cases hreturn : c.cur.kind = .kwReturn
    · exact returning_unplaced hreturn hreturning
    · exact expressionStatement_unplaced hlet hreturn hexpression
  block depth c hbody := block_unplaced hbody
  expression depth m c hfirst hmore := expression_unplaced hfirst hmore
  operators depth m c left happlied hmore := operators_unplaced happlied hmore
  application depth c left hitems hi hright := application_unplaced hitems hi hright
  items depth close c hfirst hmore := items_unplaced hfirst hmore
  moreItems depth close c hfirst hmore := moreItems_unplaced hfirst hmore
  pairs depth c hkey hvalue hmore := pairs_unplaced hkey hvalue hmore
  operand depth c hright hinner hitems hpairs hbody hcondition hconsequence halternative := by
    by_cases hbegins : beginsOperand c.cur.kind = false
    · show (operand depth c.unplaced).result = _
      rw [result_operand_none hbegins, result_operand_none (by rwa [Cursor.cur_unplaced])]
      rfl
    have hreal := ne_eof_of_beginsOperand hbegins
    cases operandForm hbegins with
    | leaf h => exact leaf_unplaced h
    | integer hk => exact integer_unplaced hk
    | sign hk => exact sign_unplaced hk (hright hreal)
    | group hk => exact group_unplaced hk (hinner hreal)
    | array hk => exact array_unplaced hk (hitems hreal)
    | hash hk => exact hash_unplaced hk (hpairs hreal)
    | function hk => exact function_unplaced hk (hbody hreal)
    | conditional hk =>
      exact if_unplaced hk (hcondition hreal) (hconsequence hreal) (halternative hreal)

end Phrase

namespace Program

/-- The same tokens at other places make the same statements, with the same reports. -/
theorem ofTokens_unplaced (tokens : List Token) :
    (ofTokens (tokens.map (·.unplaced))).statements =
        (ofTokens tokens).statements.map (·.unplaced) ∧
      (ofTokens (tokens.map (·.unplaced))).diagnostics =
        (ofTokens tokens).diagnostics.map (·.unplaced) := by
  have h := Phrase.placeless_inductive.all_statements 0 (Cursor.ofTokens tokens)
  obtain ⟨hv, hr, -⟩ := Phrase.parts_of_forget h
  unfold ofTokens
  dsimp only
  rw [Cursor.unplaced_ofTokens]
  exact ⟨hv, hr⟩

theorem isClean_ofTokens_unplaced (tokens : List Token) :
    (ofTokens (tokens.map (·.unplaced))).isClean = (ofTokens tokens).isClean := by
  rw [isClean, isClean, (ofTokens_unplaced tokens).2, List.isEmpty_map]

end Program

end MonkeyLang
