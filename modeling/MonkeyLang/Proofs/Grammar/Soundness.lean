import MonkeyLang.Proofs.Grammar.Completeness
import MonkeyLang.Proofs.Reading.Induction

/-!
What is read without a report has a derivation, and the value read is its tree.
-/

namespace MonkeyLang

open Token (Kind)

/-- The integer tokens from the cursor on are runs of digits, if they are numerals at all. -/
def Cursor.Plain (c : Cursor) : Prop :=
  ∀ t ∈ c.cur :: c.rest, t.kind = .int → Numeral.read? t.literal.toList ≠ none →
    Grammar.Digits t.literal

theorem Cursor.Plain.advance {c : Cursor} (h : c.Plain) : c.advance.Plain := by
  obtain ⟨cur, rest⟩ := c
  cases rest with
  | nil =>
    intro t ht hk
    simp only [cur_advance, rest_advance, peek, List.headD_nil, List.tail_nil,
      List.mem_singleton] at ht
    subst ht
    exact Kind.noConfusion hk
  | cons u us =>
    intro t ht
    exact h t (List.mem_cons_of_mem _ ht)

theorem Cursor.Plain.stop {c e : Cursor} {ts : List Token} (h : c.Plain) (hs : c.Spans ts e) :
    e.Plain := by
  induction hs with
  | last => exact h
  | step _ ih => exact ih h.advance

namespace Grammar

theorem operatorLevel_le (k : Kind) : operatorLevel k ≤ 6 := by
  cases k <;> decide

theorem operatorLevel_le_four {k : Kind} (h : k ≠ .lparen) (h' : k ≠ .lbracket) :
    operatorLevel k ≤ 4 := by
  cases k <;> first | contradiction | simp [operatorLevel]

def Entries.behind (comma : Lexeme .comma) : Entries → MoreEntries
  | .empty => .comma comma
  | .list key colon value more => .next comma key colon value more

theorem Entries.tokens_behind (comma : Lexeme .comma) (entries : Entries) :
    (entries.behind comma).tokens = comma.1 :: entries.tokens := by
  cases entries <;> rfl

theorem Entries.trees_behind (comma : Lexeme .comma) (entries : Entries) :
    (entries.behind comma).trees = entries.trees := by
  cases entries <;> rfl

theorem Entries.Valid.behind {entries : Entries} (h : entries.Valid) (comma : Lexeme .comma) :
    (entries.behind comma).Valid := by
  cases entries <;> exact h

/-- Where a statement without a semicolon ends before no operator, none leads what follows. -/
theorem leadLevel_eq_zero {c e : Cursor} {ts : List Token} {r : Token}
    (h : c.advance.Spans (ts ++ [r]) e) (h0 : operatorLevel c.peek.kind = 0) : leadLevel ts = 0 := by
  cases ts with
  | nil => rfl
  | cons t ts =>
    rw [h.peek_eq] at h0
    exact h0

/-! ## What was read has a derivation -/

def OperandRead (c : Cursor) (r : Node × List Diagnostic × Cursor) : Prop :=
  r.2.1 = [] → ∃ d : Expr, d.Valid ∧ 5 ≤ d.level ∧ operatorLevel r.2.2.peek.kind ≤ d.level ∧
    c.Spans d.tokens r.2.2 ∧ r.1 = d.tree

/-- What was read as an expression at level `m` has a derivation above the level, up to a token
that is no operator above it. -/
def ExpressionRead (m : Precedence) (c : Cursor) (r : Node × List Diagnostic × Cursor) : Prop :=
  r.2.1 = [] → ∃ d : Expr, d.Valid ∧ min m.rank 4 < d.level ∧
    operatorLevel r.2.2.peek.kind ≤ m.rank ∧ c.Spans d.tokens r.2.2 ∧ r.1 = d.tree

/-- What the operator of level `n` made of the phrase before it has a derivation of that level. -/
def ApplicationRead (n : Nat) (c : Cursor) (r : Node × List Diagnostic × Cursor) : Prop :=
  r.2.1 = [] → ∃ d : Expr, d.Valid ∧ d.level = n ∧ operatorLevel r.2.2.peek.kind ≤ n ∧
    c.Spans d.tokens r.2.2 ∧ r.1 = d.tree

def NamesRead (c : Cursor) (r : Option (List Identifier) × List Diagnostic × Cursor) : Prop :=
  r.2.1 = [] → ∃ (names : Names) (last : Lexeme .rparen),
    c.advance.Spans (names.tokens ++ [last.1]) r.2.2 ∧ r.1 = some names.identifiers

def ItemsRead (close : Kind) (c : Cursor) (r : Option (List Node) × List Diagnostic × Cursor) :
    Prop :=
  r.2.1 = [] → ∃ (items : Items) (last : Lexeme close), items.Valid ∧
    c.advance.Spans (items.tokens ++ [last.1]) r.2.2 ∧ r.1 = some items.trees

def MoreItemsRead (close : Kind) (c : Cursor)
    (r : Option (List Node) × List Diagnostic × Cursor) : Prop :=
  r.2.1 = [] → ∃ (items : MoreItems) (last : Lexeme close), items.Valid ∧
    c.advance.Spans (items.tokens ++ [last.1]) r.2.2 ∧ r.1 = some items.trees

def EntriesRead (c : Cursor) (r : Option (List (Node × Node)) × List Diagnostic × Cursor) : Prop :=
  r.2.1 = [] → ∃ (entries : Entries) (last : Lexeme .rbrace), entries.Valid ∧
    c.advance.Spans (entries.tokens ++ [last.1]) r.2.2 ∧ r.1 = some entries.trees

def BlockRead (c : Cursor) (r : Node × List Diagnostic × Cursor) : Prop :=
  r.2.1 = [] → ∃ b : Block, b.Valid ∧ c.Spans b.tokens r.2.2 ∧ r.1 = b.tree

/-- A statement that was read has a derivation, and no operator follows it without a semicolon. -/
def StatementRead (c : Cursor) (r : Option Node × List Diagnostic × Cursor) : Prop :=
  r.2.1 = [] → ∃ s : Statement, s.Valid ∧
    (s.isTerminated = false → operatorLevel r.2.2.peek.kind = 0) ∧
    c.Spans s.tokens r.2.2 ∧ r.1 = some s.tree

def StatementsRead (depth : Nat) (c : Cursor) (r : List Node × List Diagnostic × Cursor) : Prop :=
  r.2.1 = [] → ∃ ss : Statements, ss.Valid ∧
    (r.2.2.cur.kind = .eof ∨ (r.2.2.cur.kind = .rbrace ∧ 0 < depth)) ∧
    c.Spans (ss.tokens ++ [r.2.2.cur]) r.2.2 ∧ r.1 = ss.trees

theorem parameterNames_read (depth : Nat) (c : Cursor) :
    (Phrase.parameterNames depth c).reports = [] →
      ∃ (first : Lexeme .ident) (more : List (Lexeme .comma × Lexeme .ident))
        (last : Lexeme .rparen),
        c.advance.Spans (first.1 :: (more.flatMap fun p => [p.1.1, p.2.1]) ++ [last.1])
          (Phrase.parameterNames depth c).stop ∧
        (Phrase.parameterNames depth c).value =
          some (nameOf first :: more.map fun p => nameOf p.2) := by
  have h := Phrase.result_parameterNames depth c
  split at h
  · rename_i hfirst
    have hleft := Cursor.left_pos_of_peek hfirst (by decide)
    dsimp only at h
    split at h
    · rename_i hcomma
      have ih := parameterNames_read depth c.advance.advance
      rw [Phrase.value_of_result h, Phrase.reports_of_result h, Phrase.stop_of_result h]
      intro hreports
      obtain ⟨next, more, last, hs, hv⟩ := ih hreports
      refine ⟨⟨c.peek, hfirst⟩, (⟨c.advance.peek, hcomma⟩, next) :: more, last, ?_, ?_⟩
      · exact .step (.step hs)
      · rw [hv]
        rfl
    · split at h
      · rename_i hlast
        rw [Phrase.value_of_result h, Phrase.stop_of_result h]
        exact fun _ => ⟨⟨c.peek, hfirst⟩, [], ⟨c.advance.peek, hlast⟩, .step (.last _), rfl⟩
      · rw [Phrase.reports_of_result h]
        simp
  · rw [Phrase.reports_of_result h]
    simp
termination_by c.left
decreasing_by
  simp only [Cursor.left_advance]
  omega

theorem Names.of_read (depth : Nat) (c : Cursor) : NamesRead c (Phrase.parameters depth c).result := by
  rw [Phrase.result_parameters]
  split
  · rename_i hlast
    exact fun _ => ⟨.empty, ⟨c.peek, hlast⟩, .last _, rfl⟩
  · intro hreports
    obtain ⟨first, more, last, hs, hv⟩ := parameterNames_read depth c hreports
    exact ⟨.list first more, last, hs, hv⟩

theorem integer_read (depth : Nat) {c : Cursor} (hk : c.cur.kind = .int) (hc : c.Plain) :
    OperandRead c (Phrase.integer depth c).result := by
  by_cases hread : Numeral.read? c.cur.literal.toList = none
  · rw [Phrase.result_integer, hread]
    exact fun h => absurd h (by simp)
  have hd : Digits c.cur.literal := hc c.cur (by simp) hk hread
  rw [Phrase.result_integer, Numeral.read?_digits hd]
  dsimp only
  split
  · rename_i hle
    have hle' : decimal c.cur.literal ≤ 0x7fffffffffffffff := by
      simp only [Word.greatest, Int.ofNat_eq_natCast] at hle
      omega
    exact fun _ => ⟨.integer ⟨c.cur, hk, hd, hle'⟩, trivial, Nat.le_succ 5,
      operatorLevel_le _, .last c, rfl⟩
  · exact fun h => absurd h (by simp)

/-- An expression and the semicolon behind it, if there is one, are the end of a statement. -/
theorem exists_ending {d : Expr} {c k : Cursor} (hs : c.Spans d.tokens k)
    (h0 : operatorLevel k.peek.kind ≤ 0) :
    ∃ semicolon, c.Spans (d.tokens ++ ending semicolon) (k.skip .semicolon) ∧
      (semicolon.isSome = false → operatorLevel (k.skip .semicolon).peek.kind = 0) := by
  unfold Cursor.skip
  split
  · rename_i hsemi
    exact ⟨some ⟨k.peek, hsemi⟩, hs.snoc, by simp⟩
  · exact ⟨none, by simpa [ending] using hs, fun _ => Nat.le_zero.1 h0⟩

/-! ## One lemma for each rule

What a rule reads has a derivation if what its parts read has one. -/

section Rules

variable {depth : Nat} {c : Cursor}

theorem statements_read (hopen : ¬(c.cur.kind = .eof ∨ (c.cur.kind = .rbrace ∧ 0 < depth)))
    (hc : c.Plain) (hfirst : StatementRead c (Phrase.statement depth c).result)
    (hmore : ((Phrase.statement depth c).stop.recover depth
        (Phrase.statement depth c).reports).advance.Plain →
      StatementsRead depth ((Phrase.statement depth c).stop.recover depth
        (Phrase.statement depth c).reports).advance
        (Phrase.statements depth ((Phrase.statement depth c).stop.recover depth
          (Phrase.statement depth c).reports).advance).result) :
    StatementsRead depth c (Phrase.statements depth c).result := by
  rw [Phrase.result_statements, if_neg hopen]
  dsimp only
  intro hreports
  obtain ⟨hreports, hreports'⟩ := List.append_eq_nil_iff.1 hreports
  obtain ⟨s, hvs, hend, hss, (hts : Phrase.value _ = _)⟩ := hfirst hreports
  have hstop : (Phrase.statement depth c).stop.recover depth (Phrase.statement depth c).reports =
      (Phrase.statement depth c).stop := by
    rw [hreports]
    rfl
  rw [hstop] at hmore hreports' ⊢
  obtain ⟨ss, hv, hclosed, hs, (ht : Phrase.value _ = _)⟩ :=
    hmore (hc.stop hss).advance hreports'
  refine ⟨.next s ss, ⟨hvs, fun hun => leadLevel_eq_zero hs (hend hun), hv⟩, hclosed, ?_, ?_⟩
  · rw [Statements.tokens, List.append_assoc]
    exact hss.append hs
  · rw [hts, ht]
    rfl

theorem binding_read (hk : c.cur.kind = .kwLet)
    (hvalue : ExpressionRead .lowest c.advance.advance.advance
      (Phrase.expression depth .lowest c.advance.advance.advance).result) :
    StatementRead c (Phrase.statement depth c).result := by
  rw [Phrase.result_statement_let hk]
  split
  · exact fun h => absurd h (by simp)
  rename_i hname
  rw [Decidable.not_not] at hname
  split
  · exact fun h => absurd h (by simp)
  rename_i hequals
  rw [Decidable.not_not] at hequals
  intro hreports
  obtain ⟨d, hv, -, h0, hs, (ht : Phrase.value _ = _)⟩ := hvalue hreports
  obtain ⟨semicolon, hs', hend⟩ := exists_ending hs h0
  refine ⟨.binding ⟨c.cur, hk⟩ ⟨c.peek, hname⟩ ⟨c.advance.peek, hequals⟩ d semicolon, hv, hend,
    .step (.step (.step hs')), ?_⟩
  dsimp only
  rw [ht]
  rfl

theorem returning_read (hk : c.cur.kind = .kwReturn)
    (hvalue : ExpressionRead .lowest c.advance
      (Phrase.expression depth .lowest c.advance).result) :
    StatementRead c (Phrase.statement depth c).result := by
  rw [Phrase.result_statement_return hk]
  intro hreports
  obtain ⟨d, hv, -, h0, hs, (ht : Phrase.value _ = _)⟩ := hvalue hreports
  obtain ⟨semicolon, hs', hend⟩ := exists_ending hs h0
  refine ⟨.returning ⟨c.cur, hk⟩ d semicolon, hv, hend, .step hs', ?_⟩
  dsimp only
  rw [ht]
  rfl

theorem expressionStatement_read (hlet : c.cur.kind ≠ .kwLet) (hreturn : c.cur.kind ≠ .kwReturn)
    (hvalue : ExpressionRead .lowest c (Phrase.expression depth .lowest c).result) :
    StatementRead c (Phrase.statement depth c).result := by
  rw [Phrase.result_statement_expression hlet hreturn]
  intro hreports
  obtain ⟨d, hv, -, h0, hs, (ht : Phrase.value _ = _)⟩ := hvalue hreports
  obtain ⟨semicolon, hs', hend⟩ := exists_ending hs h0
  refine ⟨.expression d semicolon, hv, hend, hs', ?_⟩
  obtain ⟨t, ts, hts, -⟩ := d.exists_head
  have hcur : c.cur = t := (hts ▸ hs).cur_eq
  dsimp only
  rw [ht, hcur, Statement.tree, hts]
  rfl

theorem block_read (hk : c.cur.kind = .lbrace)
    (hbody : StatementsRead (depth + 1) c.advance (Phrase.statements (depth + 1) c.advance).result) :
    BlockRead c (Phrase.block depth c).result := by
  rw [Phrase.result_block]
  intro hreports
  obtain ⟨hreports, hmissing⟩ := List.append_eq_nil_iff.1 hreports
  obtain ⟨ss, hv, hclosed, hs, (ht : Phrase.value _ = _)⟩ := hbody hreports
  have hlast : (Phrase.statements (depth + 1) c.advance).stop.cur.kind = .rbrace := by
    rcases hclosed with heof | ⟨hbrace, -⟩
    · rw [if_pos (show (Phrase.statements (depth + 1) c.advance).stop.cur.kind = _ from heof)]
        at hmissing
      exact absurd hmissing (by simp)
    · exact hbrace
  refine ⟨.mk ⟨c.cur, hk⟩ ss ⟨_, hlast⟩, hv, .step hs, ?_⟩
  dsimp only
  rw [ht]
  rfl

theorem expression_read {m : Precedence}
    (hfirst : OperandRead c (Phrase.operand depth c).result)
    (hmore : ∀ d : Expr, (Phrase.operand depth c).value = d.tree → d.Valid → 5 ≤ d.level →
      operatorLevel (Phrase.operand depth c).stop.peek.kind ≤ d.level →
      c.Spans d.tokens (Phrase.operand depth c).stop →
        ExpressionRead m c (Phrase.operators depth m (Phrase.operand depth c).stop
          (Phrase.operand depth c).value).result) :
    ExpressionRead m c (Phrase.expression depth m c).result := by
  rw [Phrase.result_expression]
  dsimp only
  intro hreports
  obtain ⟨hreports, hreports'⟩ := List.append_eq_nil_iff.1 hreports
  obtain ⟨d, hv, hlevel, hnext, hs, (ht : Phrase.value _ = _)⟩ := hfirst hreports
  exact hmore d ht hv hlevel hnext hs hreports'

/-- The next operator takes the phrase before the loop as its left operand; what it makes of it is
the phrase before the rest of the loop. -/
theorem operators_read {m : Precedence} {b : Cursor} {d : Expr} (hm : m.rank ≤ 5)
    (hgo : m.rank < operatorLevel c.peek.kind)
    (happlied : ApplicationRead (operatorLevel c.peek.kind) b
      (Phrase.application depth c.advance d.tree).result)
    (hmore : ∀ d' : Expr, (Phrase.application depth c.advance d.tree).value = d'.tree → d'.Valid →
      d'.level = operatorLevel c.peek.kind →
      operatorLevel (Phrase.application depth c.advance d.tree).stop.peek.kind ≤ d'.level →
      b.Spans d'.tokens (Phrase.application depth c.advance d.tree).stop →
        ExpressionRead m b (Phrase.operators depth m
          (Phrase.application depth c.advance d.tree).stop
          (Phrase.application depth c.advance d.tree).value).result) :
    ExpressionRead m b (Phrase.operators depth m c d.tree).result := by
  have hgo' : ¬(d.tree.isAbsent = true ∨ c.peek.kind.precedence.rank ≤ m.rank) := by
    rw [d.tree_isAbsent, rank_le_iff _ hm]
    simpa using hgo
  rw [Phrase.result_operators, if_neg hgo']
  dsimp only
  intro hreports
  obtain ⟨hreports, hreports'⟩ := List.append_eq_nil_iff.1 hreports
  obtain ⟨d', hv, hlevel, hnext, hs, (ht : Phrase.value _ = _)⟩ := happlied hreports
  exact hmore d' ht hv hlevel (by rw [hlevel]; exact hnext) hs hreports'

/-! The operators, behind a left operand that may stand before them. -/

section Operators

variable {b : Cursor} {left : Expr} (hv : left.Valid) (hs : b.Spans left.tokens c)
  (hnext : operatorLevel c.peek.kind ≤ left.level)

include hv hs hnext

theorem call_read (hk : c.peek.kind = .lparen)
    (hitems : ItemsRead .rparen c.advance (Phrase.items depth .rparen c.advance).result) :
    ApplicationRead (operatorLevel c.peek.kind) b
      (Phrase.application depth c.advance left.tree).result := by
  rw [Phrase.result_application_call (by rw [Cursor.cur_advance, hk])]
  dsimp only
  intro hreports
  obtain ⟨items, last, hvi, hi, (ht : Phrase.value _ = _)⟩ := hitems hreports
  rw [hk] at hnext ⊢
  refine ⟨.call left ⟨c.peek, hk⟩ items last, ⟨hv, hnext, hvi⟩, rfl, operatorLevel_le _,
    hs.append (.step hi), ?_⟩
  rw [ht]
  rfl

theorem index_read (hk : c.peek.kind = .lbracket)
    (hi : ExpressionRead .lowest c.advance.advance
      (Phrase.expression depth .lowest c.advance.advance).result) :
    ApplicationRead (operatorLevel c.peek.kind) b
      (Phrase.application depth c.advance left.tree).result := by
  rw [Phrase.result_application_index (by rw [Cursor.cur_advance, hk])]
  dsimp only
  split
  · rename_i hlast
    intro hreports
    obtain ⟨i, hvi, -, -, hsi, (ht : Phrase.value _ = _)⟩ := hi hreports
    rw [hk] at hnext ⊢
    refine ⟨.index left ⟨c.peek, hk⟩ i ⟨_, hlast⟩, ⟨hv, hnext, hvi⟩, rfl, operatorLevel_le _,
      hs.append (.step hsi.snoc), ?_⟩
    rw [ht]
    rfl
  · exact fun h => absurd h (by simp)

theorem binary_read (hpos : 1 ≤ operatorLevel c.peek.kind) (hle : operatorLevel c.peek.kind ≤ 4)
    (hright : ExpressionRead c.advance.cur.kind.precedence c.advance.advance
      (Phrase.expression depth c.advance.cur.kind.precedence c.advance.advance).result) :
    ApplicationRead (operatorLevel c.peek.kind) b
      (Phrase.application depth c.advance left.tree).result := by
  have hparen : c.advance.cur.kind ≠ .lparen := fun hk =>
    absurd hle (by rw [show c.peek.kind = .lparen from hk]; decide)
  have hbracket : c.advance.cur.kind ≠ .lbracket := fun hk =>
    absurd hle (by rw [show c.peek.kind = .lbracket from hk]; decide)
  rw [Phrase.result_application_binary hparen hbracket]
  dsimp only
  intro hreports
  obtain ⟨right, hvr, hlevel, hend, hr, (ht : Phrase.value _ = _)⟩ := hright hreports
  rw [Cursor.cur_advance, rank_eq_operatorLevel hpos hle] at hlevel hend
  rw [Nat.min_eq_left hle] at hlevel
  refine ⟨.binary left ⟨c.peek, hpos, hle⟩ right, ⟨hv, hvr, hnext, hlevel⟩, rfl, hend,
    hs.append (.step hr), ?_⟩
  rw [ht]
  rfl

end Operators

/-! Lists between commas. -/

theorem items_read {close : Kind} (hc : c.Plain) (hne : c.peek.kind ≠ close)
    (hfirst : ExpressionRead .lowest c.advance
      (Phrase.expression depth .lowest c.advance).result)
    (hmore : (Phrase.expression depth .lowest c.advance).stop.Plain →
      MoreItemsRead close (Phrase.expression depth .lowest c.advance).stop
        (Phrase.moreItems depth close (Phrase.expression depth .lowest c.advance).stop).result) :
    ItemsRead close c (Phrase.items depth close c).result := by
  rw [Phrase.result_items, if_neg hne]
  dsimp only
  intro hreports
  obtain ⟨hreports, hreports'⟩ := List.append_eq_nil_iff.1 hreports
  obtain ⟨d, hvd, -, -, hd, (htd : Phrase.value _ = _)⟩ := hfirst hreports
  obtain ⟨more, last, hv, hs, (ht : Phrase.value _ = _)⟩ := hmore (hc.advance.stop hd) hreports'
  refine ⟨.list d more, last, ⟨hvd, hv⟩, ?_, ?_⟩
  · rw [Items.tokens, List.append_assoc]
    exact hd.append hs
  · rw [htd, ht]
    rfl

theorem moreItems_read {close : Kind} (hc : c.Plain) (hcomma : c.peek.kind = .comma)
    (hfirst : ExpressionRead .lowest c.advance.advance
      (Phrase.expression depth .lowest c.advance.advance).result)
    (hmore : (Phrase.expression depth .lowest c.advance.advance).stop.Plain →
      MoreItemsRead close (Phrase.expression depth .lowest c.advance.advance).stop
        (Phrase.moreItems depth close
          (Phrase.expression depth .lowest c.advance.advance).stop).result) :
    MoreItemsRead close c (Phrase.moreItems depth close c).result := by
  rw [Phrase.result_moreItems, if_pos hcomma]
  dsimp only
  intro hreports
  obtain ⟨hreports, hreports'⟩ := List.append_eq_nil_iff.1 hreports
  obtain ⟨d, hvd, -, -, hd, (htd : Phrase.value _ = _)⟩ := hfirst hreports
  obtain ⟨more, last, hv, hs, (ht : Phrase.value _ = _)⟩ :=
    hmore (hc.advance.advance.stop hd) hreports'
  refine ⟨.next ⟨c.peek, hcomma⟩ d more, last, ⟨hvd, hv⟩, ?_, ?_⟩
  · rw [MoreItems.tokens, List.cons_append, List.append_assoc]
    exact .step (hd.append hs)
  · rw [htd, ht]
    rfl

theorem moreItems_read_done {close : Kind} (hne : c.peek.kind ≠ .comma) :
    MoreItemsRead close c (Phrase.moreItems depth close c).result := by
  rw [Phrase.result_moreItems, if_neg hne]
  split
  · rename_i hlast
    exact fun _ => ⟨.done, ⟨c.peek, hlast⟩, trivial, .last _, rfl⟩
  · exact fun h => absurd h (by simp)

theorem entries_read (hc : c.Plain) (hne : c.peek.kind ≠ .rbrace)
    (hkey : ExpressionRead .lowest c.advance (Phrase.expression depth .lowest c.advance).result)
    (hvalue : (Phrase.expression depth .lowest c.advance).stop.advance.advance.Plain →
      ExpressionRead .lowest (Phrase.expression depth .lowest c.advance).stop.advance.advance
        (Phrase.expression depth .lowest
          (Phrase.expression depth .lowest c.advance).stop.advance.advance).result)
    (hmore : (Phrase.expression depth .lowest
        (Phrase.expression depth .lowest c.advance).stop.advance.advance).stop.peek.kind = .comma →
      (Phrase.expression depth .lowest
        (Phrase.expression depth .lowest c.advance).stop.advance.advance).stop.advance.Plain →
      EntriesRead (Phrase.expression depth .lowest
        (Phrase.expression depth .lowest c.advance).stop.advance.advance).stop.advance
        (Phrase.pairs depth (Phrase.expression depth .lowest
          (Phrase.expression depth .lowest c.advance).stop.advance.advance).stop.advance).result) :
    EntriesRead c (Phrase.pairs depth c).result := by
  rw [Phrase.result_pairs, if_neg hne]
  dsimp only
  split
  · exact fun h => absurd h (by simp)
  rename_i hcolon
  rw [Decidable.not_not] at hcolon
  split
  · rename_i hlast
    intro hreports
    obtain ⟨hreports, hreports'⟩ := List.append_eq_nil_iff.1 hreports
    obtain ⟨k, hvk, -, -, hk, (htk : Phrase.value _ = _)⟩ := hkey hreports
    obtain ⟨v, hvv, -, -, hv, (htv : Phrase.value _ = _)⟩ :=
      hvalue (hc.advance.stop hk).advance.advance hreports'
    refine ⟨.list k ⟨_, hcolon⟩ v .done, ⟨_, hlast⟩, ⟨hvk, hvv, trivial⟩, ?_, ?_⟩
    · rw [Entries.tokens, MoreEntries.tokens, List.append_nil, List.append_assoc, List.cons_append]
      exact hk.append (.step hv.snoc)
    · rw [htk, htv]
      rfl
  split
  · rename_i hcomma
    intro hreports
    obtain ⟨hreports, hlast⟩ := List.append_eq_nil_iff.1 hreports
    obtain ⟨hreports, hreports'⟩ := List.append_eq_nil_iff.1 hreports
    obtain ⟨k, hvk, -, -, hk, (htk : Phrase.value _ = _)⟩ := hkey hreports
    have hc' := (hc.advance.stop hk).advance.advance
    obtain ⟨v, hvv, -, -, hv, (htv : Phrase.value _ = _)⟩ := hvalue hc' hreports'
    obtain ⟨entries, last, hve, he, (hte : Phrase.value _ = _)⟩ :=
      hmore hcomma (hc'.stop hv).advance hlast
    refine ⟨.list k ⟨_, hcolon⟩ v (entries.behind ⟨_, hcomma⟩), last,
      ⟨hvk, hvv, hve.behind _⟩, ?_, ?_⟩
    · rw [Entries.tokens, Entries.tokens_behind, List.append_assoc, List.cons_append,
        List.append_assoc]
      exact hk.append (.step (hv.append (.step he)))
    · rw [htk, htv, hte, Entries.trees, Entries.trees_behind]
      rfl
  · exact fun h => absurd h (by simp)

/-! Operands. -/

theorem leaf_read {n : Node} (h : Phrase.Leaf c.cur n) :
    OperandRead c (Phrase.operand depth c).result := by
  have hleaf : ∃ d : Expr, d.tree = n ∧ d.Valid ∧ d.level = 6 ∧ d.tokens = [c.cur] := by
    cases h with
    | identifier hk => exact ⟨.identifier ⟨c.cur, hk⟩, rfl, trivial, rfl, rfl⟩
    | string hk => exact ⟨.string ⟨c.cur, hk⟩, rfl, trivial, rfl, rfl⟩
    | truth hk => exact ⟨.truth ⟨c.cur, hk⟩, rfl, trivial, rfl, rfl⟩
    | falsehood hk => exact ⟨.falsehood ⟨c.cur, hk⟩, rfl, trivial, rfl, rfl⟩
  obtain ⟨d, rfl, hv, hlevel, ht⟩ := hleaf
  rw [Phrase.result_operand_leaf h]
  refine fun _ => ⟨d, hv, by omega, by rw [hlevel]; exact operatorLevel_le _, ?_, rfl⟩
  rw [ht]
  exact .last c

theorem sign_read (hk : c.cur.kind = .bang ∨ c.cur.kind = .minus)
    (hright : ExpressionRead .sign c.advance (Phrase.expression depth .sign c.advance).result) :
    OperandRead c (Phrase.operand depth c).result := by
  rw [Phrase.result_operand_sign hk]
  dsimp only
  intro hreports
  obtain ⟨d, hv, hlevel, hend, hs, (ht : Phrase.value _ = _)⟩ := hright hreports
  refine ⟨.unary ⟨c.cur, hk⟩ d, ⟨hv, hlevel⟩, Nat.le_refl 5, hend, .step hs, ?_⟩
  rw [ht]
  rfl

theorem group_read (hk : c.cur.kind = .lparen)
    (hinner : ExpressionRead .lowest c.advance
      (Phrase.expression depth .lowest c.advance).result) :
    OperandRead c (Phrase.operand depth c).result := by
  rw [Phrase.result_operand_group hk]
  dsimp only
  split
  · rename_i hlast
    intro hreports
    obtain ⟨d, hv, -, -, hs, (ht : Phrase.value _ = _)⟩ := hinner hreports
    exact ⟨.group ⟨c.cur, hk⟩ d ⟨_, hlast⟩, hv, Nat.le_succ 5, operatorLevel_le _, .step hs.snoc,
      ht⟩
  · exact fun h => absurd h (by simp)

theorem array_read (hk : c.cur.kind = .lbracket)
    (hitems : ItemsRead .rbracket c (Phrase.items depth .rbracket c).result) :
    OperandRead c (Phrase.operand depth c).result := by
  rw [Phrase.result_operand_array hk]
  dsimp only
  intro hreports
  obtain ⟨items, last, hv, hs, (ht : Phrase.value _ = _)⟩ := hitems hreports
  refine ⟨.array ⟨c.cur, hk⟩ items last, hv, Nat.le_succ 5, operatorLevel_le _, .step hs, ?_⟩
  rw [ht]
  rfl

theorem hash_read (hk : c.cur.kind = .lbrace)
    (hentries : EntriesRead c (Phrase.pairs depth c).result) :
    OperandRead c (Phrase.operand depth c).result := by
  rw [Phrase.result_operand_hash hk]
  dsimp only
  intro hreports
  obtain ⟨entries, last, hv, hs, (ht : Phrase.value _ = _)⟩ := hentries hreports
  refine ⟨.hash ⟨c.cur, hk⟩ entries last, hv, Nat.le_succ 5, operatorLevel_le _, .step hs, ?_⟩
  rw [ht]
  rfl

theorem function_read (hk : c.cur.kind = .kwFn) (hc : c.Plain)
    (hbody : (Phrase.parameters depth c.advance).stop.advance.Plain →
      (Phrase.parameters depth c.advance).stop.peek.kind = .lbrace →
      BlockRead (Phrase.parameters depth c.advance).stop.advance
        (Phrase.block depth (Phrase.parameters depth c.advance).stop.advance).result) :
    OperandRead c (Phrase.operand depth c).result := by
  rw [Phrase.result_operand_function hk]
  split
  · exact fun h => absurd h (by simp)
  rename_i hl
  rw [Decidable.not_not] at hl
  dsimp only
  split
  · rename_i hnone
    intro hreports
    obtain ⟨names, last, -, (ht : Phrase.value _ = _)⟩ := Names.of_read depth c.advance hreports
    exact absurd (hnone.symm.trans ht) (by simp)
  rename_i ids hids
  split
  · exact fun h => absurd h (by simp)
  rename_i hbrace
  rw [Decidable.not_not] at hbrace
  intro hreports
  obtain ⟨hreports, hreports'⟩ := List.append_eq_nil_iff.1 hreports
  obtain ⟨names, last, hn, (ht : Phrase.value _ = _)⟩ := Names.of_read depth c.advance hreports
  obtain ⟨body, hv, hs, (htb : Phrase.value _ = _)⟩ :=
    hbody (hc.advance.advance.stop hn).advance hbrace hreports'
  obtain rfl : ids = names.identifiers := Option.some.inj (hids.symm.trans ht)
  refine ⟨.function ⟨c.cur, hk⟩ ⟨c.peek, hl⟩ names last body, hv, Nat.le_succ 5,
    operatorLevel_le _, ?_, ?_⟩
  · rw [Expr.tokens, List.append_cons]
    exact .step (.step (hn.append hs))
  · rw [htb]
    rfl

theorem if_read (hk : c.cur.kind = .kwIf) (hc : c.Plain)
    (hcondition : ExpressionRead .lowest c.advance.advance
      (Phrase.expression depth .lowest c.advance.advance).result)
    (hconsequence : (Phrase.expression depth .lowest c.advance.advance).stop.advance.advance.Plain →
      (Phrase.expression depth .lowest c.advance.advance).stop.advance.peek.kind = .lbrace →
      BlockRead (Phrase.expression depth .lowest c.advance.advance).stop.advance.advance
        (Phrase.block depth
          (Phrase.expression depth .lowest c.advance.advance).stop.advance.advance).result)
    (halternative : (Phrase.block depth (Phrase.expression depth .lowest
        c.advance.advance).stop.advance.advance).stop.advance.advance.Plain →
      (Phrase.block depth (Phrase.expression depth .lowest
        c.advance.advance).stop.advance.advance).stop.advance.peek.kind = .lbrace →
      BlockRead (Phrase.block depth (Phrase.expression depth .lowest
        c.advance.advance).stop.advance.advance).stop.advance.advance
        (Phrase.block depth (Phrase.block depth (Phrase.expression depth .lowest
          c.advance.advance).stop.advance.advance).stop.advance.advance).result) :
    OperandRead c (Phrase.operand depth c).result := by
  rw [Phrase.result_operand_if hk]
  split
  · exact fun h => absurd h (by simp)
  rename_i hl
  rw [Decidable.not_not] at hl
  dsimp only
  split
  · exact fun h => absurd h (by simp)
  rename_i hr
  rw [Decidable.not_not] at hr
  split
  · exact fun h => absurd h (by simp)
  rename_i hbrace
  rw [Decidable.not_not] at hbrace
  split
  · intro hreports
    obtain ⟨hreports, hreports'⟩ := List.append_eq_nil_iff.1 hreports
    obtain ⟨d, hv, -, -, hs, (ht : Phrase.value _ = _)⟩ := hcondition hreports
    obtain ⟨b, hvb, hsb, (htb : Phrase.value _ = _)⟩ :=
      hconsequence (hc.advance.advance.stop hs).advance.advance hbrace hreports'
    refine ⟨.ifThen ⟨c.cur, hk⟩ ⟨c.peek, hl⟩ d ⟨_, hr⟩ b, ⟨hv, hvb⟩, Nat.le_succ 5,
      operatorLevel_le _, .step (.step (hs.append (.step hsb))), ?_⟩
    rw [ht, htb]
    rfl
  rename_i helse
  rw [Decidable.not_not] at helse
  split
  · exact fun h => absurd h (by simp)
  rename_i hbrace'
  rw [Decidable.not_not] at hbrace'
  intro hreports
  obtain ⟨hreports, hlast⟩ := List.append_eq_nil_iff.1 hreports
  obtain ⟨hreports, hreports'⟩ := List.append_eq_nil_iff.1 hreports
  obtain ⟨d, hv, -, -, hs, (ht : Phrase.value _ = _)⟩ := hcondition hreports
  have hc' := (hc.advance.advance.stop hs).advance.advance
  obtain ⟨b, hvb, hsb, (htb : Phrase.value _ = _)⟩ := hconsequence hc' hbrace hreports'
  obtain ⟨b', hvb', hsb', (htb' : Phrase.value _ = _)⟩ :=
    halternative (hc'.stop hsb).advance.advance hbrace' hlast
  refine ⟨.ifElse ⟨c.cur, hk⟩ ⟨c.peek, hl⟩ d ⟨_, hr⟩ b ⟨_, helse⟩ b', ⟨hv, hvb, hvb'⟩,
    Nat.le_succ 5, operatorLevel_le _,
    .step (.step (hs.append (.step (hsb.append (.step hsb'))))), ?_⟩
  rw [ht, htb, htb']
  rfl

end Rules

/-! ## All rules together -/

/-- What is read without a report has a derivation. The loop over operators carries the invariant:
the phrase before it has one, and nothing that binds tighter follows it. -/
def Derivable : Phrase.Property where
  statements depth c := c.Plain → StatementsRead depth c (Phrase.statements depth c).result
  statement depth c := c.Plain → StatementRead c (Phrase.statement depth c).result
  block depth c := c.Plain → c.cur.kind = .lbrace → BlockRead c (Phrase.block depth c).result
  expression depth m c :=
    m.rank ≤ 5 → c.Plain → ExpressionRead m c (Phrase.expression depth m c).result
  operators depth m c left :=
    m.rank ≤ 5 → ∀ ⦃b : Cursor⦄ ⦃d : Expr⦄, left = d.tree → b.Plain → d.Valid →
      min m.rank 4 < d.level → operatorLevel c.peek.kind ≤ d.level → b.Spans d.tokens c →
        ExpressionRead m b (Phrase.operators depth m c left).result
  application depth c left :=
    ∀ ⦃b e : Cursor⦄ ⦃d : Expr⦄, c = e.advance → left = d.tree → e.Plain → d.Valid →
      0 < operatorLevel e.peek.kind → operatorLevel e.peek.kind ≤ d.level → b.Spans d.tokens e →
        ApplicationRead (operatorLevel e.peek.kind) b (Phrase.application depth c left).result
  items depth close c := c.Plain → ItemsRead close c (Phrase.items depth close c).result
  moreItems depth close c := c.Plain → MoreItemsRead close c (Phrase.moreItems depth close c).result
  pairs depth c := c.Plain → EntriesRead c (Phrase.pairs depth c).result
  operand depth c := c.Plain → OperandRead c (Phrase.operand depth c).result

theorem derivable : Derivable.Inductive where
  statements depth c hfirst hmore hc := by
    by_cases hclosed : c.cur.kind = .eof ∨ (c.cur.kind = .rbrace ∧ 0 < depth)
    · rw [Phrase.result_statements, if_pos hclosed]
      exact fun _ => ⟨.done, trivial, hclosed, .last c, rfl⟩
    · have hreal : c.cur.kind ≠ .eof := fun heof => hclosed (.inl heof)
      exact statements_read hclosed hc (hfirst hreal hc) (hmore hreal)
  statement depth c hbinding hreturning hexpression hc := by
    by_cases hlet : c.cur.kind = .kwLet
    · exact binding_read hlet (hbinding (by decide) hc.advance.advance.advance)
    by_cases hreturn : c.cur.kind = .kwReturn
    · exact returning_read hreturn (hreturning (by decide) hc.advance)
    · exact expressionStatement_read hlet hreturn (hexpression (by decide) hc)
  block depth c hbody hc hk := block_read hk (hbody hc.advance)
  expression depth m c hfirst hmore hm hc := by
    refine expression_read (hfirst hc) ?_
    intro d ht hv hlevel hnext hs
    exact hmore hm ht hc hv (by omega) hnext hs
  operators depth m c left happlied hmore hm b d ht hb hv hlevel hnext hs := by
    subst ht
    by_cases hend : operatorLevel c.peek.kind ≤ m.rank
    · rw [operators_stop hm hend]
      exact fun _ => ⟨d, hv, hlevel, hend, hs, rfl⟩
    · have hpos : 0 < operatorLevel c.peek.kind := by omega
      have hreal : c.peek.kind ≠ .eof := fun heof => absurd hpos (by rw [heof]; decide)
      refine operators_read hm (Nat.not_le.1 hend)
        (happlied hreal rfl rfl (hb.stop hs) hv hpos hnext hs) ?_
      intro d' ht' hv' hlevel' hnext' hs'
      exact hmore hreal hm ht' hb hv' (by omega) hnext' hs'
  application depth c left hitems hi hright b e d he ht hc hv hpos hnext hs := by
    subst he ht
    by_cases hparen : e.peek.kind = .lparen
    · exact call_read hv hs hnext hparen (hitems hc.advance)
    by_cases hbracket : e.peek.kind = .lbracket
    · exact index_read hv hs hnext hbracket (hi (by decide) hc.advance.advance)
    · have hle := operatorLevel_le_four hparen hbracket
      have hrank := rank_eq_operatorLevel hpos hle
      exact binary_read hv hs hnext hpos hle
        (hright (by rw [Cursor.cur_advance]; omega) hc.advance.advance)
  items depth close c hfirst hmore hc := by
    by_cases hlast : c.peek.kind = close
    · rw [Phrase.result_items, if_pos hlast]
      exact fun _ => ⟨.empty, ⟨c.peek, hlast⟩, trivial, .last _, rfl⟩
    · exact items_read hc hlast (hfirst (by decide) hc.advance) hmore
  moreItems depth close c hfirst hmore hc := by
    by_cases hcomma : c.peek.kind = .comma
    · exact moreItems_read hc hcomma (hfirst (by decide) hc.advance.advance) (hmore hcomma)
    · exact moreItems_read_done hcomma
  pairs depth c hkey hvalue hmore hc := by
    by_cases hlast : c.peek.kind = .rbrace
    · rw [Phrase.result_pairs, if_pos hlast]
      exact fun _ => ⟨.empty, ⟨c.peek, hlast⟩, trivial, .last _, rfl⟩
    · exact entries_read hc hlast (hkey (by decide) hc.advance) (hvalue (by decide)) hmore
  operand depth c hright hinner hitems hpairs hbody hcondition hconsequence halternative hc := by
    by_cases hbegins : Phrase.beginsOperand c.cur.kind = false
    · rw [Phrase.result_operand_none hbegins]
      exact fun h => absurd h (by simp)
    have hreal := Phrase.ne_eof_of_beginsOperand hbegins
    cases Phrase.operandForm hbegins with
    | leaf h => exact leaf_read h
    | integer hk =>
      rw [Phrase.result_operand_int hk]
      exact integer_read depth hk hc
    | sign hk => exact sign_read hk (hright hreal (by decide) hc.advance)
    | group hk => exact group_read hk (hinner hreal (by decide) hc.advance)
    | array hk => exact array_read hk (hitems hreal hc)
    | hash hk => exact hash_read hk (hpairs hreal hc)
    | function hk => exact function_read hk hc (hbody hreal)
    | conditional hk =>
      exact if_read hk hc (hcondition hreal (by decide) hc.advance.advance) (hconsequence hreal)
        (halternative hreal)

end Grammar

end MonkeyLang
