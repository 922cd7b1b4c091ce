import MonkeyLang.Proofs.Reading.Induction

/-!
How much is reported of a broken program. Each report is charged to a token that no other is charged
to: a phrase reports at most one thing for each token that it takes up, however many phrases it
breaks off with it. A list without an end has one more token to charge, the end that is found behind
its last one.
-/

namespace MonkeyLang

open Token (Kind)

namespace Cursor

variable {c : Cursor}

/-- The number of tokens after the current one, where an end that the list lacks counts too. -/
def ahead (c : Cursor) : Nat :=
  if ((c.cur :: c.rest).getLast (List.cons_ne_nil _ _)).kind = .eof then c.left else c.left + 1

theorem ahead_advance (c : Cursor) : c.advance.ahead = c.ahead - 1 := by
  obtain ⟨cur, rest⟩ := c
  cases rest with
  | nil => by_cases h : cur.kind = .eof <;> simp [ahead, left, advance, peek, h]
  | cons t ts =>
    have hlast : (cur :: t :: ts).getLast (List.cons_ne_nil _ _) =
        (t :: ts).getLast (List.cons_ne_nil _ _) := List.getLast_cons_cons
    by_cases h : ((t :: ts).getLast (List.cons_ne_nil _ _)).kind = .eof <;>
      simp [ahead, left, advance, peek, h, hlast]

/-- Behind a token that is no end there is something. -/
theorem ahead_pos (h : c.cur.kind ≠ .eof) : 0 < c.ahead := by
  obtain ⟨cur, rest⟩ := c
  cases rest with
  | nil => simp [ahead, show cur.kind ≠ .eof from h]
  | cons t ts =>
    unfold ahead left
    split <;> simp

theorem one_lt_ahead (h : c.peek.kind ≠ .eof) : 1 < c.ahead := by
  have hpos : 0 < c.advance.ahead := ahead_pos h
  rw [ahead_advance] at hpos
  omega

theorem one_lt_ahead_of_peek {k : Kind} (h : c.peek.kind = k) (hk : k ≠ .eof) : 1 < c.ahead :=
  one_lt_ahead (h ▸ hk)

theorem ahead_skip_le (c : Cursor) (k : Kind) : (c.skip k).ahead ≤ c.ahead := by
  unfold skip
  split
  · rw [ahead_advance]
    omega
  · exact Nat.le_refl _

theorem ahead_recover_le (c : Cursor) (depth : Nat) (reports : List Diagnostic) :
    (c.recover depth reports).ahead ≤ c.ahead := by
  have hnext (k : Cursor) (hk : k.ahead ≤ c.ahead) : k.advance.ahead ≤ c.ahead := by
    rw [ahead_advance]
    omega
  exact Phrase.holds_recover hnext (Nat.le_refl _) depth reports

end Cursor

namespace Phrase

open Cursor (ahead_advance ahead_pos one_lt_ahead one_lt_ahead_of_peek)

/-- There are `n` tokens for the reports and those ahead of the stop. -/
def Charged {α : Type} (n : Nat) (r : α × List Diagnostic × Cursor) : Prop :=
  r.2.1.length + r.2.2.ahead ≤ n

/-- What a phrase reports is charged to the tokens from its first one to its last. Operators have
none of their own in front, as the operand before them is read already. -/
def charging : Property where
  statements depth c := Charged (c.ahead + 1) (statements depth c).result
  statement depth c := c.cur.kind ≠ .eof → Charged (c.ahead + 1) (statement depth c).result
  block depth c := c.cur.kind ≠ .eof → Charged (c.ahead + 1) (block depth c).result
  expression depth m c := Charged (c.ahead + 1) (expression depth m c).result
  operators depth m c left := Charged c.ahead (operators depth m c left).result
  application depth c left :=
    c.cur.kind ≠ .eof → Charged (c.ahead + 1) (application depth c left).result
  items depth close c := c.cur.kind ≠ .eof → Charged (c.ahead + 1) (items depth close c).result
  moreItems depth close c := Charged (c.ahead + 1) (moreItems depth close c).result
  pairs depth c := c.cur.kind ≠ .eof → Charged (c.ahead + 1) (pairs depth c).result
  operand depth c := Charged (c.ahead + 1) (operand depth c).result

section Rules

variable {α : Type} {n depth : Nat} {c e : Cursor}

theorem charged_mk (v : α) (rs : List Diagnostic) :
    Charged n (v, rs, e) ↔ rs.length + e.ahead ≤ n :=
  Iff.rfl

theorem charged_result {p : Phrase c α} :
    Charged n p.result ↔ p.reports.length + p.stop.ahead ≤ n :=
  Iff.rfl

theorem charged_nil (v : α) (h : e.ahead ≤ n) : Charged n (v, [], e) := by
  rw [charged_mk, List.length_nil]
  omega

theorem charged_singleton (v : α) (d : Diagnostic) (h : e.ahead < n) : Charged n (v, [d], e) := by
  rw [charged_mk, List.length_singleton]
  omega

theorem parameterNames_charged (depth : Nat) (c : Cursor) :
    Charged (c.ahead + 1) (parameterNames depth c).result := by
  rw [result_parameterNames]
  split
  · rename_i hname
    have hpos := Cursor.left_pos_of_peek hname (by decide)
    have hfirst := one_lt_ahead_of_peek hname (by decide)
    dsimp only
    split
    · have hmore := parameterNames_charged depth c.advance.advance
      rw [charged_result, ahead_advance, ahead_advance] at hmore
      rw [charged_mk]
      omega
    · split
      · refine charged_nil _ ?_
        rw [ahead_advance, ahead_advance]
        omega
      · refine charged_singleton _ _ ?_
        rw [ahead_advance]
        omega
  · exact charged_singleton _ _ (Nat.lt_succ_self _)
termination_by c.left
decreasing_by
  simp only [Cursor.left_advance]
  omega

theorem parameters_charged (depth : Nat) (c : Cursor) :
    Charged (c.ahead + 1) (parameters depth c).result := by
  rw [result_parameters]
  split
  · refine charged_nil _ ?_
    rw [ahead_advance]
    omega
  · exact parameterNames_charged depth c

/-- Behind a statement that ends at the end of the list no other is read; any other leaves a token
over, which is charged for the statements behind it. -/
theorem statements_charged (hfirst : Charged (c.ahead + 1) (statement depth c).result)
    (hmore : charging.statements depth
      ((statement depth c).stop.recover depth (statement depth c).reports).advance) :
    Charged (c.ahead + 1) (statements depth c).result := by
  rw [result_statements]
  split
  · exact charged_nil _ (Nat.le_succ _)
  dsimp only
  have hrecover := (statement depth c).stop.ahead_recover_le depth (statement depth c).reports
  generalize (statement depth c).stop.recover depth (statement depth c).reports = k at *
  rw [charged_result] at hfirst
  by_cases hend : k.advance.cur.kind = .eof
  · have hnothing : (statements depth k.advance).result = ([], [], k.advance) := by
      rw [result_statements, if_pos (.inl hend)]
    rw [reports_of_result hnothing, stop_of_result hnothing, charged_mk, List.append_nil,
      ahead_advance]
    omega
  · have hleft := ahead_pos hend
    have hrest : Charged (k.advance.ahead + 1) (statements depth k.advance).result := hmore
    rw [charged_result] at hrest
    rw [ahead_advance] at hleft hrest
    rw [charged_mk, List.length_append]
    omega

theorem statement_charged (hvalue : charging.expression depth .lowest c.advance.advance.advance)
    (hreturned : charging.expression depth .lowest c.advance)
    (hplain : charging.expression depth .lowest c) (hc : c.cur.kind ≠ .eof) :
    Charged (c.ahead + 1) (statement depth c).result := by
  have hpos := ahead_pos hc
  by_cases hlet : c.cur.kind = .kwLet
  · rw [result_statement_let hlet]
    split
    · exact charged_singleton _ _ (Nat.lt_succ_self _)
    split
    · refine charged_singleton _ _ ?_
      rw [ahead_advance]
      omega
    · rename_i hequals
      rw [Decidable.not_not] at hequals
      have hassign := one_lt_ahead_of_peek hequals (by decide)
      have hskip := (expression depth .lowest c.advance.advance.advance).stop.ahead_skip_le
        .semicolon
      have hread := charged_result.mp hvalue
      simp only [ahead_advance] at hassign hread
      rw [charged_mk]
      omega
  by_cases hreturn : c.cur.kind = .kwReturn
  · have hskip := (expression depth .lowest c.advance).stop.ahead_skip_le .semicolon
    have hread := charged_result.mp hreturned
    rw [ahead_advance] at hread
    rw [result_statement_return hreturn, charged_mk]
    omega
  · have hskip := (expression depth .lowest c).stop.ahead_skip_le .semicolon
    have hread := charged_result.mp hplain
    rw [result_statement_expression hlet hreturn, charged_mk]
    omega

/-- The brace that is missing from a block is charged to the one that opens it. -/
theorem block_charged (hbody : charging.statements (depth + 1) c.advance)
    (hc : c.cur.kind ≠ .eof) : Charged (c.ahead + 1) (block depth c).result := by
  have hpos := ahead_pos hc
  have hread := charged_result.mp hbody
  rw [ahead_advance] at hread
  rw [result_block, charged_mk, List.length_append]
  split
  · rw [List.length_singleton]
    omega
  · rw [List.length_nil]
    omega

theorem expression_charged {m : Precedence} (hfirst : charging.operand depth c)
    (hmore : charging.operators depth m (operand depth c).stop (operand depth c).value) :
    Charged (c.ahead + 1) (expression depth m c).result := by
  have hread := charged_result.mp hfirst
  have hrest := charged_result.mp hmore
  rw [result_expression, charged_mk, List.length_append]
  omega

theorem operators_charged {m : Precedence} {left : Node}
    (happlied : c.peek.kind ≠ .eof → charging.application depth c.advance left)
    (hmore : c.peek.kind ≠ .eof → charging.operators depth m
      (application depth c.advance left).stop (application depth c.advance left).value) :
    Charged c.ahead (operators depth m c left).result := by
  rw [result_operators]
  split
  · exact charged_nil _ (Nat.le_refl _)
  rename_i hgo
  have hreal : c.peek.kind ≠ .eof := fun heof => hgo (.inr (by rw [heof]; exact Nat.zero_le _))
  have hpos := one_lt_ahead hreal
  have hread := charged_result.mp (happlied hreal hreal)
  have hrest := charged_result.mp (hmore hreal)
  rw [ahead_advance] at hread
  rw [charged_mk, List.length_append]
  omega

/-- A bracket that is missing is charged to the one that opens the phrase. -/
theorem closed_charged {p : Phrase c.advance α} {k : Kind} {v w : α} (hc : c.cur.kind ≠ .eof)
    (hp : Charged (c.advance.ahead + 1) p.result) :
    Charged (c.ahead + 1)
      (if p.stop.peek.kind = k then (v, p.reports, p.stop.advance)
        else (w, p.reports ++ [p.stop.unexpected depth k], p.stop)) := by
  have hpos := ahead_pos hc
  rw [charged_result, ahead_advance] at hp
  split
  · rw [charged_mk, ahead_advance]
    omega
  · rw [charged_mk, List.length_append, List.length_singleton]
    omega

theorem application_charged {left : Node} (hitems : charging.items depth .rparen c)
    (hi : charging.expression depth .lowest c.advance)
    (hright : charging.expression depth c.cur.kind.precedence c.advance)
    (hc : c.cur.kind ≠ .eof) : Charged (c.ahead + 1) (application depth c left).result := by
  by_cases hparen : c.cur.kind = .lparen
  · rw [result_application_call hparen]
    exact hitems hc
  by_cases hbracket : c.cur.kind = .lbracket
  · rw [result_application_index hbracket]
    exact closed_charged hc hi
  · have hpos := ahead_pos hc
    have hread := charged_result.mp hright
    rw [ahead_advance] at hread
    rw [result_application_binary hparen hbracket, charged_mk]
    omega

theorem items_charged {close : Kind} (hfirst : charging.expression depth .lowest c.advance)
    (hmore : charging.moreItems depth close (expression depth .lowest c.advance).stop)
    (hc : c.cur.kind ≠ .eof) : Charged (c.ahead + 1) (items depth close c).result := by
  rw [result_items]
  split
  · refine charged_nil _ ?_
    rw [ahead_advance]
    omega
  · have hpos := ahead_pos hc
    have hread := charged_result.mp hfirst
    have hrest := charged_result.mp hmore
    rw [ahead_advance] at hread
    rw [charged_mk, List.length_append]
    omega

theorem moreItems_charged {close : Kind}
    (hnext : charging.expression depth .lowest c.advance.advance)
    (hmore : c.peek.kind = .comma →
      charging.moreItems depth close (expression depth .lowest c.advance.advance).stop) :
    Charged (c.ahead + 1) (moreItems depth close c).result := by
  rw [result_moreItems]
  split
  · rename_i hcomma
    have hpos := one_lt_ahead_of_peek hcomma (by decide)
    have hread := charged_result.mp hnext
    have hrest := charged_result.mp (hmore hcomma)
    simp only [ahead_advance] at hread
    rw [charged_mk, List.length_append]
    omega
  · split
    · refine charged_nil _ ?_
      rw [ahead_advance]
      omega
    · exact charged_singleton _ _ (Nat.lt_succ_self _)

theorem pairs_charged (hkey : charging.expression depth .lowest c.advance)
    (hvalue : charging.expression depth .lowest
      (expression depth .lowest c.advance).stop.advance.advance)
    (hmore : (expression depth .lowest
        (expression depth .lowest c.advance).stop.advance.advance).stop.peek.kind = .comma →
      charging.pairs depth (expression depth .lowest
        (expression depth .lowest c.advance).stop.advance.advance).stop.advance)
    (hc : c.cur.kind ≠ .eof) : Charged (c.ahead + 1) (pairs depth c).result := by
  rw [result_pairs]
  split
  · refine charged_nil _ ?_
    rw [ahead_advance]
    omega
  dsimp only
  have hpos := ahead_pos hc
  have hread := charged_result.mp hkey
  rw [ahead_advance] at hread
  generalize expression depth .lowest c.advance = p at *
  split
  · rw [charged_mk, List.length_append, List.length_singleton]
    omega
  rename_i hcolon
  rw [Decidable.not_not] at hcolon
  have hcolon' := one_lt_ahead_of_peek hcolon (by decide)
  have hread' := charged_result.mp hvalue
  simp only [ahead_advance] at hread'
  generalize expression depth .lowest p.stop.advance.advance = q at *
  split
  · rw [charged_mk, List.length_append, ahead_advance]
    omega
  split
  · rename_i hcomma
    have hcomma' := one_lt_ahead_of_peek hcomma (by decide)
    have hreal : q.stop.advance.cur.kind ≠ .eof := by
      rw [Cursor.cur_advance, hcomma]
      decide
    have hrest := charged_result.mp (hmore hcomma hreal)
    rw [ahead_advance] at hrest
    rw [charged_mk, List.length_append, List.length_append]
    omega
  · rw [charged_mk, List.length_append, List.length_append, List.length_singleton]
    omega

theorem integer_charged (depth : Nat) (c : Cursor) :
    Charged (c.ahead + 1) (integer depth c).result := by
  rw [result_integer]
  split
  · split
    · exact charged_nil _ (Nat.le_succ _)
    · exact charged_singleton _ _ (Nat.lt_succ_self _)
  · exact charged_singleton _ _ (Nat.lt_succ_self _)

theorem function_charged (hk : c.cur.kind = .kwFn)
    (hbody : charging.block depth (parameters depth c.advance).stop.advance) :
    Charged (c.ahead + 1) (operand depth c).result := by
  rw [result_operand_function hk]
  split
  · exact charged_singleton _ _ (Nat.lt_succ_self _)
  dsimp only
  have hpos : 0 < c.ahead := ahead_pos (by rw [hk]; decide)
  have hnames := charged_result.mp (parameters_charged depth c.advance)
  rw [ahead_advance] at hnames
  generalize parameters depth c.advance = p at *
  split
  · rw [charged_mk]
    omega
  split
  · rw [charged_mk, List.length_append, List.length_singleton]
    omega
  · rename_i hbrace
    rw [Decidable.not_not] at hbrace
    have hpos' := one_lt_ahead_of_peek hbrace (by decide)
    have hreal : p.stop.advance.cur.kind ≠ .eof := by
      rw [Cursor.cur_advance, hbrace]
      decide
    have hread := charged_result.mp (hbody hreal)
    rw [ahead_advance] at hread
    rw [charged_mk, List.length_append]
    omega

theorem if_charged (hk : c.cur.kind = .kwIf)
    (hcondition : charging.expression depth .lowest c.advance.advance)
    (hconsequence : charging.block depth
      (expression depth .lowest c.advance.advance).stop.advance.advance)
    (halternative : charging.block depth (block depth (expression depth .lowest
      c.advance.advance).stop.advance.advance).stop.advance.advance) :
    Charged (c.ahead + 1) (operand depth c).result := by
  rw [result_operand_if hk]
  split
  · exact charged_singleton _ _ (Nat.lt_succ_self _)
  rename_i hparen
  rw [Decidable.not_not] at hparen
  dsimp only
  have hpos := one_lt_ahead_of_peek hparen (by decide)
  have hread := charged_result.mp hcondition
  simp only [ahead_advance] at hread
  generalize expression depth .lowest c.advance.advance = p at *
  split
  · rw [charged_mk, List.length_append, List.length_singleton]
    omega
  split
  · rw [charged_mk, List.length_append, List.length_singleton, ahead_advance]
    omega
  rename_i hbrace
  rw [Decidable.not_not] at hbrace
  have hpos' := one_lt_ahead_of_peek hbrace (by decide)
  have hreal : p.stop.advance.advance.cur.kind ≠ .eof := by
    rw [Cursor.cur_advance, hbrace]
    decide
  have hread' := charged_result.mp (hconsequence hreal)
  simp only [ahead_advance] at hpos' hread'
  generalize block depth p.stop.advance.advance = q at *
  split
  · rw [charged_mk, List.length_append]
    omega
  split
  · rw [charged_mk, List.length_append, List.length_append, List.length_singleton, ahead_advance]
    omega
  rename_i hbrace'
  rw [Decidable.not_not] at hbrace'
  have hpos'' := one_lt_ahead_of_peek hbrace' (by decide)
  have hreal' : q.stop.advance.advance.cur.kind ≠ .eof := by
    rw [Cursor.cur_advance, hbrace']
    decide
  have hread'' := charged_result.mp (halternative hreal')
  simp only [ahead_advance] at hpos'' hread''
  rw [charged_mk, List.length_append, List.length_append]
  omega

end Rules

theorem charging_inductive : charging.Inductive where
  statements depth c hfirst hmore := by
    by_cases heof : c.cur.kind = .eof
    · show Charged _ (statements depth c).result
      rw [result_statements, if_pos (.inl heof)]
      exact charged_nil _ (Nat.le_succ _)
    · exact statements_charged (hfirst heof heof) (hmore heof)
  statement _ _ hvalue hreturned hplain hc := statement_charged hvalue hreturned hplain hc
  block _ _ hbody hc := block_charged hbody hc
  expression _ _ _ hfirst hmore := expression_charged hfirst hmore
  operators _ _ _ _ happlied hmore := operators_charged happlied hmore
  application _ _ _ hitems hi hright hc := application_charged hitems hi hright hc
  items _ _ _ hfirst hmore hc := items_charged hfirst hmore hc
  moreItems _ _ _ hnext hmore := moreItems_charged hnext hmore
  pairs _ _ hkey hvalue hmore hc := pairs_charged hkey hvalue hmore hc
  operand depth c hsign hgroup hitems hpairs hbody hcondition hconsequence halternative := by
    show Charged (c.ahead + 1) (operand depth c).result
    by_cases hbegins : beginsOperand c.cur.kind = false
    · rw [result_operand_none hbegins]
      exact charged_singleton _ _ (Nat.lt_succ_self _)
    · have hreal := ne_eof_of_beginsOperand hbegins
      have hpos := ahead_pos hreal
      cases operandForm hbegins with
      | leaf hleaf =>
        rw [result_operand_leaf hleaf]
        exact charged_nil _ (Nat.le_succ _)
      | integer hk =>
        rw [result_operand_int hk]
        exact integer_charged depth c
      | sign hk =>
        have hread := charged_result.mp (hsign hreal)
        rw [ahead_advance] at hread
        rw [result_operand_sign hk, charged_mk]
        omega
      | group hk =>
        rw [result_operand_group hk]
        exact closed_charged hreal (hgroup hreal)
      | array hk =>
        rw [result_operand_array hk]
        exact hitems hreal hreal
      | hash hk =>
        rw [result_operand_hash hk]
        exact hpairs hreal hreal
      | function hk => exact function_charged hk (hbody hreal)
      | conditional hk =>
        exact if_charged hk (hcondition hreal) (hconsequence hreal) (halternative hreal)

end Phrase

/-- The tokens that reports are charged to are those of the list, and an end that it lacks. -/
theorem Cursor.ahead_ofTokens (tokens : List Token) : (ofTokens tokens).ahead + 1 ≤
    if tokens.getLast?.map (·.kind) = some .eof then tokens.length else tokens.length + 1 := by
  cases tokens with
  | nil => exact Nat.le_refl _
  | cons t ts =>
    have hahead : (ofTokens (t :: ts)).ahead =
        if ((t :: ts).getLast (List.cons_ne_nil _ _)).kind = .eof then ts.length
        else ts.length + 1 := rfl
    rw [hahead, List.getLast?_eq_some_getLast (List.cons_ne_nil _ _), Option.map_some]
    by_cases hend : ((t :: ts).getLast (List.cons_ne_nil _ _)).kind = .eof
    · rw [if_pos hend, if_pos (congrArg some hend)]
      exact Nat.le_refl _
    · rw [if_neg hend, if_neg fun heof => hend (Option.some.inj heof)]
      exact Nat.le_refl _

/-- A program reports at most one thing for each token of its list, and one more if the list does
not end in a token of kind `eof`. -/
theorem Program.length_errors_le (tokens : List Token) :
    (Program.ofTokens tokens).errors.length ≤
      if tokens.getLast?.map (·.kind) = some .eof then tokens.length else tokens.length + 1 := by
  have hread := Phrase.charged_result.mp
    (Phrase.charging_inductive.all_statements 0 (Cursor.ofTokens tokens))
  have htokens := Cursor.ahead_ofTokens tokens
  have hreports : (Program.ofTokens tokens).errors.length =
      (Phrase.statements 0 (Cursor.ofTokens tokens)).reports.length := by
    rw [Program.errors, List.length_map]
    rfl
  omega

/-- Nothing smaller would do: brackets that are never closed report one thing for each token. -/
example : (Program.ofTokens [⟨.lparen, "(", ⟨1, 1⟩⟩, ⟨.lparen, "(", ⟨1, 2⟩⟩,
    .eof ⟨1, 3⟩]).errors.length = 3 := by
  decide +kernel

end MonkeyLang
