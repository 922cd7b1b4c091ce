import MonkeyLang.Proofs.Numeral
import MonkeyLang.Proofs.Reading
import MonkeyLang.Proofs.Span

/-!
Reading a stretch of tokens that has a derivation gives the tree of the derivation and reports
nothing. The statement for expressions has to allow for what comes behind them: reading one is
reading on with the operators after it (`Expr.read`), because the left operand of an operator is
read before anything is known of the operator.
-/

namespace MonkeyLang.Grammar

open Token (Kind)
open Phrase (beginsOperand)

/-! ## First tokens -/

theorem Expr.exists_head : ∀ d : Expr, ∃ t ts, d.tokens = t :: ts ∧ beginsOperand t.kind = true
  | .identifier t => ⟨t.1, _, rfl, by simp [beginsOperand, t.2]⟩
  | .integer t => ⟨t.1, _, rfl, by simp [beginsOperand, t.2.1]⟩
  | .string t => ⟨t.1, _, rfl, by simp [beginsOperand, t.2]⟩
  | .truth t => ⟨t.1, _, rfl, by simp [beginsOperand, t.2]⟩
  | .falsehood t => ⟨t.1, _, rfl, by simp [beginsOperand, t.2]⟩
  | .group l _ _ => ⟨l.1, _, rfl, by simp [beginsOperand, l.2]⟩
  | .array l _ _ => ⟨l.1, _, rfl, by simp [beginsOperand, l.2]⟩
  | .hash l _ _ => ⟨l.1, _, rfl, by simp [beginsOperand, l.2]⟩
  | .function word _ _ _ _ => ⟨word.1, _, rfl, by simp [beginsOperand, word.2]⟩
  | .ifThen word _ _ _ _ => ⟨word.1, _, rfl, by simp [beginsOperand, word.2]⟩
  | .ifElse word _ _ _ _ _ _ => ⟨word.1, _, rfl, by simp [beginsOperand, word.2]⟩
  | .unary op _ => ⟨op.1, _, rfl, by rcases op.2 with h | h <;> simp [beginsOperand, h]⟩
  | .call callee _ _ _ => by
    obtain ⟨t, ts, h, ht⟩ := callee.exists_head
    exact ⟨t, _, by rw [Expr.tokens, h]; rfl, ht⟩
  | .index left _ _ _ => by
    obtain ⟨t, ts, h, ht⟩ := left.exists_head
    exact ⟨t, _, by rw [Expr.tokens, h]; rfl, ht⟩
  | .binary left _ _ => by
    obtain ⟨t, ts, h, ht⟩ := left.exists_head
    exact ⟨t, _, by rw [Expr.tokens, h]; rfl, ht⟩

theorem Expr.tokens_ne_nil (d : Expr) : d.tokens ≠ [] := by
  obtain ⟨t, ts, h, -⟩ := d.exists_head
  simp [h]

theorem Expr.tree_isAbsent : ∀ d : Expr, d.tree.isAbsent = false
  | .group _ inner _ => by rw [Expr.tree]; exact inner.tree_isAbsent
  | .identifier _ | .integer _ | .string _ | .truth _ | .falsehood _ | .array _ _ _ | .hash _ _ _
  | .function _ _ _ _ _ | .ifThen _ _ _ _ _ | .ifElse _ _ _ _ _ _ _ | .call _ _ _ _
  | .index _ _ _ _ | .unary _ _ | .binary _ _ _ => by rw [Expr.tree]; rfl

def beginsStatement (k : Kind) : Bool :=
  beginsOperand k || k matches .kwLet | .kwReturn

theorem Statement.exists_head : ∀ s : Statement, ∃ t ts, s.tokens = t :: ts ∧
    beginsStatement t.kind = true
  | .binding word _ _ _ _ => ⟨word.1, _, rfl, by simp [beginsStatement, word.2]⟩
  | .returning word _ _ => ⟨word.1, _, rfl, by simp [beginsStatement, word.2]⟩
  | .expression value semicolon => by
    obtain ⟨t, ts, h, ht⟩ := value.exists_head
    exact ⟨t, ts ++ ending semicolon, by rw [Statement.tokens, h]; rfl,
      by simp [beginsStatement, ht]⟩

theorem Statement.tokens_ne_nil (s : Statement) : s.tokens ≠ [] := by
  obtain ⟨t, ts, h, -⟩ := s.exists_head
  simp [h]

theorem Expr.level_pos (d : Expr) : 0 < d.level := by
  cases d with
  | binary _ op _ => exact op.2.1
  | _ => simp [Expr.level]

theorem Block.tokens_ne_nil (b : Block) : b.tokens ≠ [] := by
  cases b
  simp [Block.tokens]

theorem Block.peek_kind (b : Block) {c e : Cursor} (h : c.advance.Spans b.tokens e) :
    c.peek.kind = .lbrace := by
  cases b with
  | mk l body r => rw [show c.peek = l.1 from h.peek_eq, l.2]

/-! ## Levels and ranks -/

/-- Up to the level of signs, the reader's ranks and the levels of the grammar admit the same
operators. -/
theorem rank_le_iff (k : Kind) {m : Precedence} (hm : m.rank ≤ 5) :
    k.precedence.rank ≤ m.rank ↔ operatorLevel k ≤ m.rank := by
  generalize m.rank = r at *
  cases k <;> simp only [Kind.precedence, Precedence.rank, operatorLevel]
  -- The brackets of an index have a rank above calls, and no level of their own.
  omega

/-- An operator between operands is ranked by its level. -/
theorem rank_eq_operatorLevel {k : Kind} (h1 : 1 ≤ operatorLevel k) (h4 : operatorLevel k ≤ 4) :
    k.precedence.rank = operatorLevel k := by
  cases k <;> simp_all [Kind.precedence, Precedence.rank, operatorLevel]

theorem operators_stop {depth : Nat} {m : Precedence} {c : Cursor} {left : Node}
    (hm : m.rank ≤ 5) (h : operatorLevel c.peek.kind ≤ m.rank) :
    (Phrase.operators depth m c left).result = (left, [], c) := by
  rw [Phrase.result_operators, if_pos (.inr ((rank_le_iff _ hm).2 h))]

/-- An operand alone is read on with the operators behind it. -/
theorem expression_of_operand {depth : Nat} {m : Precedence} {c e : Cursor} {n : Node}
    (h : (Phrase.operand depth c).result = (n, [], e)) :
    (Phrase.expression depth m c).result = (Phrase.operators depth m e n).result := by
  rw [Phrase.result_expression]
  dsimp only
  rw [Phrase.value_of_result h, Phrase.reports_of_result h, Phrase.stop_of_result h]
  rfl

/-- What an operator makes of the phrase before it is read on with the operators behind it. -/
theorem operators_of_application {depth : Nat} {m : Precedence} {c e : Cursor} {left n : Node}
    (hm : m.rank ≤ 5) (hleft : left.isAbsent = false) (hlevel : m.rank < operatorLevel c.peek.kind)
    (h : (Phrase.application depth c.advance left).result = (n, [], e)) :
    (Phrase.operators depth m c left).result = (Phrase.operators depth m e n).result := by
  have hgo : ¬(left.isAbsent = true ∨ c.peek.kind.precedence.rank ≤ m.rank) := by
    rw [rank_le_iff _ hm, hleft]
    simp only [Bool.false_eq_true, false_or]
    omega
  rw [Phrase.result_operators, if_neg hgo]
  dsimp only
  rw [Phrase.value_of_result h, Phrase.reports_of_result h, Phrase.stop_of_result h]
  rfl

/-- A token of kind `k` may stand behind an expression of level `n`: it is no operator that binds
tighter, and no `else`, which would belong to the expression. -/
def MayFollow (n : Nat) (k : Kind) : Prop := operatorLevel k ≤ n ∧ k ≠ .kwElse

theorem MayFollow.mono {m n : Nat} {k : Kind} (h : MayFollow m k) (hmn : m ≤ n) : MayFollow n k :=
  ⟨Nat.le_trans h.1 hmn, h.2⟩

theorem mayFollow_closing {k : Kind}
    (h : k = .rparen ∨ k = .rbracket ∨ k = .rbrace ∨ k = .comma ∨ k = .colon ∨ k = .semicolon) :
    MayFollow 0 k := by
  rcases h with rfl | rfl | rfl | rfl | rfl | rfl <;> simp [MayFollow, operatorLevel]

/-- A stretch closed by one more token. -/
theorem split_closing {c e : Cursor} {ts : List Token} {r : Token} (hts : ts ≠ [])
    (h : c.Spans (ts ++ [r]) e) : ∃ m, c.Spans ts m ∧ m.peek = r ∧ e = m.advance := by
  obtain ⟨m, hm, he⟩ := h.split hts (by simp)
  obtain ⟨hr, rfl⟩ := Cursor.spans_singleton.1 he
  exact ⟨m, hm, hr, rfl⟩

/-! ## Parameters -/

theorem read_moreNames (depth : Nat) {r : Lexeme .rparen} :
    ∀ (more : List (Lexeme .comma × Lexeme .ident)) {first : Lexeme .ident} {c e : Cursor},
      c.advance.Spans (first.1 :: (more.flatMap fun p => [p.1.1, p.2.1]) ++ [r.1]) e →
        (Phrase.parameterNames depth c).result =
          (some (nameOf first :: more.map fun p => nameOf p.2), [], e)
  | [], first, c, e, h => by
    have hfirst : c.peek = first.1 := h.peek_eq
    obtain ⟨hr, rfl⟩ := Cursor.spans_singleton.1 (h.tail (by simp))
    rw [Cursor.cur_advance] at hr
    rw [Phrase.result_parameterNames, if_pos (by rw [hfirst, first.2])]
    dsimp only
    rw [if_neg (by rw [hr, r.2]; decide), if_pos (by rw [hr, r.2]), hfirst]
    rfl
  | (comma, next) :: more, first, c, e, h => by
    have hfirst : c.peek = first.1 := h.peek_eq
    have htail := h.tail (by simp)
    have hcomma : c.advance.peek = comma.1 := htail.peek_eq
    have ih := read_moreNames depth more (htail.tail (by simp))
    rw [Phrase.result_parameterNames, if_pos (by rw [hfirst, first.2])]
    dsimp only
    rw [if_pos (by rw [hcomma, comma.2]), Phrase.value_of_result ih, Phrase.reports_of_result ih,
      Phrase.stop_of_result ih, hfirst]
    rfl

theorem Names.read (depth : Nat) {r : Lexeme .rparen} {c e : Cursor} : ∀ {names : Names},
    c.advance.Spans (names.tokens ++ [r.1]) e →
      (Phrase.parameters depth c).result = (some names.identifiers, [], e)
  | .empty, h => by
    obtain ⟨hr, rfl⟩ := Cursor.spans_singleton.1 h
    rw [Phrase.result_parameters, if_pos (by rw [← Cursor.cur_advance, hr, r.2])]
    rfl
  | .list first more, h => by
    have hfirst : c.peek = first.1 := h.peek_eq
    rw [Phrase.result_parameters, if_neg (by rw [hfirst, first.2]; decide)]
    exact read_moreNames depth more h

/-! ## All other phrases -/

/-- Reading the expression is reading on with the operators after it, if none of those that follow
binds tighter than the expression's own. -/
def Expr.Reads (depth : Nat) (d : Expr) : Prop :=
  ∀ ⦃m : Precedence⦄ ⦃c e : Cursor⦄, m.rank ≤ 5 → min m.rank 4 < d.level →
    MayFollow d.level e.peek.kind → c.Spans d.tokens e →
      (Phrase.expression depth m c).result = (Phrase.operators depth m e d.tree).result

/-- Before a token that is no operator above level `m` the reading ends. -/
theorem Expr.Reads.upTo {depth : Nat} {d : Expr} (hd : d.Reads depth) {m : Precedence}
    {c e : Cursor} (hm : m.rank ≤ 5) (hlevel : min m.rank 4 < d.level)
    (hnext : MayFollow (min m.rank d.level) e.peek.kind) (h : c.Spans d.tokens e) :
    (Phrase.expression depth m c).result = (d.tree, [], e) :=
  (hd hm hlevel (hnext.mono (Nat.min_le_right ..)) h).trans
    (operators_stop hm (hnext.mono (Nat.min_le_left ..)).1)

theorem Expr.Reads.whole {depth : Nat} {d : Expr} (hd : d.Reads depth) {c e : Cursor}
    (hnext : MayFollow 0 e.peek.kind) (h : c.Spans d.tokens e) :
    (Phrase.expression depth .lowest c).result = (d.tree, [], e) := by
  have hpos := d.level_pos
  exact hd.upTo (by decide) (by simpa [Precedence.rank] using hpos) (hnext.mono (Nat.zero_le _)) h

/-- An expression with the semicolon that ends its statement. -/
theorem Expr.Reads.terminated {depth : Nat} {d : Expr} (hd : d.Reads depth)
    {semicolon : Option (Lexeme .semicolon)} {c e : Cursor}
    (hend : semicolon.isSome = false → MayFollow 0 e.peek.kind ∧ e.peek.kind ≠ .semicolon)
    (h : c.Spans (d.tokens ++ ending semicolon) e) :
    ∃ k, (Phrase.expression depth .lowest c).result = (d.tree, [], k) ∧ k.skip .semicolon = e := by
  cases semicolon with
  | none =>
    obtain ⟨hnext, hsemi⟩ := hend rfl
    refine ⟨e, hd.whole hnext (by simpa [ending] using h), ?_⟩
    rw [Cursor.skip, if_neg hsemi]
  | some t =>
    obtain ⟨k, hk, ht, rfl⟩ := split_closing d.tokens_ne_nil h
    refine ⟨k, hd.whole (by rw [ht, t.2]; exact mayFollow_closing (by simp)) hk, ?_⟩
    rw [Cursor.skip, if_pos (by rw [ht, t.2])]

theorem MoreItems.mayFollow {items : MoreItems} {close : Kind} {r : Token} {c e : Cursor}
    (hclose : close = .rparen ∨ close = .rbracket) (hr : r.kind = close)
    (h : c.advance.Spans (items.tokens ++ [r]) e) : MayFollow 0 c.peek.kind := by
  apply mayFollow_closing
  cases items with
  | done =>
    rw [show c.peek = r from h.peek_eq, hr]
    rcases hclose with hk | hk <;> simp [hk]
  | next comma item more =>
    rw [show c.peek = comma.1 from h.peek_eq, comma.2]
    simp

/-- A key and its value are read up to the token behind them, which says how the hash goes on. -/
theorem pairs_of_entry {depth : Nat} {key value : Expr} {colon : Lexeme .colon} {u : Token}
    {us : List Token} {c e : Cursor} (hk : key.Reads depth) (hv : value.Reads depth)
    (hu : MayFollow 0 u.kind)
    (h : c.advance.Spans (key.tokens ++ colon.1 :: (value.tokens ++ u :: us)) e) :
    ∃ k, k.advance.Spans (u :: us) e ∧
      (Phrase.pairs depth c).result =
        if k.peek.kind = .rbrace then (some [(key.tree, value.tree)], [], k.advance)
        else if k.peek.kind = .comma then
          let r := Phrase.pairs depth k.advance
          (r.value.map ((key.tree, value.tree) :: ·), r.reports, r.stop)
        else (none, [k.unexpected depth .comma], k) := by
  obtain ⟨t, ts, ht, hbegins⟩ := key.exists_head
  obtain ⟨j, hj, hrest⟩ := h.split key.tokens_ne_nil (by simp)
  have hcolon : j.peek = colon.1 := hrest.peek_eq
  obtain ⟨k, hk', hlast⟩ := (hrest.tail (by simp)).split value.tokens_ne_nil (by simp)
  have hc : c.peek = t := (ht ▸ hj).peek_eq
  have hne : c.peek.kind ≠ .rbrace := by
    intro heq
    simp [← hc, heq, beginsOperand] at hbegins
  have hp := hk.whole (by rw [hcolon, colon.2]; exact mayFollow_closing (by simp)) hj
  have hq := hv.whole (by rw [show k.peek = u from hlast.peek_eq]; exact hu) hk'
  refine ⟨k, hlast, ?_⟩
  rw [Phrase.result_pairs, if_neg hne]
  dsimp only
  rw [Phrase.stop_of_result hp, if_neg (by simp [hcolon, colon.2]), Phrase.value_of_result hp,
    Phrase.reports_of_result hp, Phrase.stop_of_result hq, Phrase.value_of_result hq,
    Phrase.reports_of_result hq]
  rfl

/-- Another statement behind a statement of a list. -/
theorem next_of_head {c e : Cursor} {s : Statement} {ts : List Token}
    (h : c.advance.Spans (s.tokens ++ ts) e) :
    c.peek.kind ≠ .kwElse ∧ c.peek.kind ≠ .semicolon ∧
      operatorLevel c.peek.kind = leadLevel (s.tokens ++ ts) := by
  obtain ⟨t, us, ht, hbegins⟩ := s.exists_head
  rw [ht, List.cons_append] at h ⊢
  rw [show c.peek = t from h.peek_eq]
  refine ⟨?_, ?_, rfl⟩ <;> intro hk <;> simp [beginsStatement, beginsOperand, hk] at hbegins

/-- What stands behind a statement of a list: another statement or the token that closes the
list. -/
theorem next_statement {c e : Cursor} {more : Statements} {r : Token}
    (hr : r.kind = .eof ∨ r.kind = .rbrace) (h : c.advance.Spans (more.tokens ++ [r]) e) :
    c.peek.kind ≠ .kwElse ∧ c.peek.kind ≠ .semicolon ∧
      operatorLevel c.peek.kind = leadLevel more.tokens := by
  cases more with
  | done =>
    rw [show c.peek = r from h.peek_eq]
    rcases hr with hr | hr <;> simp [hr, operatorLevel, leadLevel, Statements.tokens]
  | next first more =>
    rw [Statements.tokens, List.append_assoc] at h
    obtain ⟨helse, hsemi, hlevel⟩ := next_of_head h
    refine ⟨helse, hsemi, hlevel.trans ?_⟩
    obtain ⟨t, ts, ht, -⟩ := first.exists_head
    simp [Statements.tokens, ht, leadLevel]

/-- A statement does not begin with a token that closes a list. -/
theorem Statement.opens {s : Statement} {c e : Cursor} (h : c.Spans s.tokens e) (depth : Nat) :
    ¬(c.cur.kind = .eof ∨ (c.cur.kind = .rbrace ∧ 0 < depth)) := by
  obtain ⟨t, ts, ht, hbegins⟩ := s.exists_head
  rw [ht] at h
  rw [h.cur_eq]
  rintro (heq | ⟨heq, -⟩) <;> simp [beginsStatement, beginsOperand, heq] at hbegins

/-- Behind a statement without a report the others are read on. -/
theorem statements_of_statement {depth : Nat} {c e : Cursor} {n : Node}
    (hopen : ¬(c.cur.kind = .eof ∨ (c.cur.kind = .rbrace ∧ 0 < depth)))
    (h : (Phrase.statement depth c).result = (some n, [], e)) :
    (Phrase.statements depth c).result =
      (n :: (Phrase.statements depth e.advance).value,
        (Phrase.statements depth e.advance).reports,
        (Phrase.statements depth e.advance).stop) := by
  rw [Phrase.result_statements, if_neg hopen]
  dsimp only
  rw [Phrase.stop_of_result h, Phrase.value_of_result h, Phrase.reports_of_result h]
  rfl

def Items.Reads (depth : Nat) (items : Items) : Prop :=
  ∀ ⦃close : Kind⦄ ⦃r : Token⦄ ⦃c e : Cursor⦄, close = .rparen ∨ close = .rbracket →
    r.kind = close → c.advance.Spans (items.tokens ++ [r]) e →
      (Phrase.items depth close c).result = (some items.trees, [], e)

def Entries.Reads (depth : Nat) (entries : Entries) : Prop :=
  ∀ ⦃r : Token⦄ ⦃c e : Cursor⦄, r.kind = .rbrace → c.advance.Spans (entries.tokens ++ [r]) e →
    (Phrase.pairs depth c).result = (some entries.trees, [], e)

def Block.Reads (depth : Nat) (block : Block) : Prop :=
  ∀ ⦃c e : Cursor⦄, c.Spans block.tokens e → (Phrase.block depth c).result = (block.tree, [], e)

/-! ## One lemma for each form of expression

An expression is read as it should be if its parts are. -/

section Forms

variable {depth : Nat}

/-- An expression of one token is read if that token is an operand. -/
theorem Expr.Reads.of_operand {d : Expr} {t : Token} (ht : d.tokens = [t])
    (h : ∀ c : Cursor, c.cur = t → (Phrase.operand depth c).result = (d.tree, [], c)) :
    d.Reads depth := by
  intro m c e _ _ _ hs
  rw [ht] at hs
  obtain ⟨hc, rfl⟩ := Cursor.spans_singleton.1 hs
  exact expression_of_operand (h _ hc)

theorem reads_identifier (t : Lexeme .ident) : (Expr.identifier t).Reads depth := by
  refine .of_operand rfl fun c hc => Phrase.result_operand_leaf ?_
  rw [hc]
  exact .identifier t.2

theorem reads_integer (t : IntLexeme) : (Expr.integer t).Reads depth := by
  refine .of_operand rfl fun c hc => ?_
  have hle : (Int.ofNat (decimal t.1.literal)) ≤ Word.greatest := by
    have := t.2.2.2
    simp only [Word.greatest, Int.ofNat_eq_natCast]
    omega
  rw [Phrase.result_operand_int (by rw [hc, t.2.1]), Phrase.result_integer, hc,
    Numeral.read?_digits t.2.2.1]
  dsimp only
  rw [if_pos hle]
  rfl

theorem reads_string (t : Lexeme .string) : (Expr.string t).Reads depth := by
  refine .of_operand rfl fun c hc => Phrase.result_operand_leaf ?_
  rw [hc]
  exact .string t.2

theorem reads_truth (t : Lexeme .kwTrue) : (Expr.truth t).Reads depth := by
  refine .of_operand rfl fun c hc => Phrase.result_operand_leaf ?_
  rw [hc]
  exact .truth t.2

theorem reads_falsehood (t : Lexeme .kwFalse) : (Expr.falsehood t).Reads depth := by
  refine .of_operand rfl fun c hc => Phrase.result_operand_leaf ?_
  rw [hc]
  exact .falsehood t.2

theorem reads_group {l : Lexeme .lparen} {inner : Expr} {r : Lexeme .rparen}
    (hinner : inner.Reads depth) : (Expr.group l inner r).Reads depth := by
  intro m c e _ _ _ h
  have hc : c.cur = l.1 := h.cur_eq
  obtain ⟨k, hk, hr, rfl⟩ := split_closing inner.tokens_ne_nil (h.tail (by simp))
  have hp := hinner.whole (by rw [hr, r.2]; exact mayFollow_closing (.inl rfl)) hk
  apply expression_of_operand
  rw [Phrase.result_operand_group (by rw [hc, l.2])]
  dsimp only
  rw [Phrase.stop_of_result hp, if_pos (by rw [hr, r.2]), Phrase.value_of_result hp,
    Phrase.reports_of_result hp]
  rfl

theorem reads_array {l : Lexeme .lbracket} {items : Items} {r : Lexeme .rbracket}
    (hitems : items.Reads depth) : (Expr.array l items r).Reads depth := by
  intro m c e _ _ _ h
  have hc : c.cur = l.1 := h.cur_eq
  have hp := hitems (.inr rfl) r.2 (h.tail (by simp))
  apply expression_of_operand
  rw [Phrase.result_operand_array (by rw [hc, l.2])]
  dsimp only
  rw [Phrase.stop_of_result hp, Phrase.value_of_result hp, Phrase.reports_of_result hp, hc]
  rfl

theorem reads_hash {l : Lexeme .lbrace} {entries : Entries} {r : Lexeme .rbrace}
    (hentries : entries.Reads depth) : (Expr.hash l entries r).Reads depth := by
  intro m c e _ _ _ h
  have hc : c.cur = l.1 := h.cur_eq
  have hp := hentries r.2 (h.tail (by simp))
  apply expression_of_operand
  rw [Phrase.result_operand_hash (by rw [hc, l.2])]
  dsimp only
  rw [Phrase.stop_of_result hp, Phrase.value_of_result hp, Phrase.reports_of_result hp, hc]
  rfl

theorem reads_function {word : Lexeme .kwFn} {l : Lexeme .lparen} {names : Names}
    {r : Lexeme .rparen} {body : Block} (hread : body.Reads depth) :
    (Expr.function word l names r body).Reads depth := by
  intro m c e _ _ _ h
  have hc : c.cur = word.1 := h.cur_eq
  have hafter := h.tail (by simp)
  have hl : c.peek = l.1 := hafter.peek_eq
  obtain ⟨k, hk, hbody⟩ := Cursor.Spans.split (by simp) body.tokens_ne_nil
    (show c.advance.advance.Spans ((names.tokens ++ [r.1]) ++ body.tokens) e by
      simpa using hafter.tail (by simp))
  have hp := Names.read depth hk
  have hq := hread hbody
  apply expression_of_operand
  rw [Phrase.result_operand_function (by rw [hc, word.2]), if_neg (by simp [hl, l.2])]
  dsimp only
  rw [Phrase.value_of_result hp, Phrase.stop_of_result hp, Phrase.reports_of_result hp]
  dsimp only
  rw [if_neg (by rw [body.peek_kind hbody]; simp), Phrase.value_of_result hq,
    Phrase.reports_of_result hq, Phrase.stop_of_result hq, hc]
  rfl

theorem reads_ifThen {word : Lexeme .kwIf} {l : Lexeme .lparen} {condition : Expr}
    {r : Lexeme .rparen} {consequence : Block} (hcondition : condition.Reads depth)
    (hconsequence : consequence.Reads depth) :
    (Expr.ifThen word l condition r consequence).Reads depth := by
  intro m c e _ _ hnext h
  have hc : c.cur = word.1 := h.cur_eq
  have hafter := h.tail (by simp)
  have hl : c.peek = l.1 := hafter.peek_eq
  obtain ⟨k, hk, hrest⟩ := Cursor.Spans.split condition.tokens_ne_nil (by simp)
    (hafter.tail (by simp))
  have hr : k.peek = r.1 := hrest.peek_eq
  have hblock := hrest.tail consequence.tokens_ne_nil
  have hp := hcondition.whole (by rw [hr, r.2]; exact mayFollow_closing (.inl rfl)) hk
  have hq := hconsequence hblock
  apply expression_of_operand
  rw [Phrase.result_operand_if (by rw [hc, word.2]), if_neg (by simp [hl, l.2])]
  dsimp only
  rw [Phrase.stop_of_result hp, if_neg (by simp [hr, r.2]),
    if_neg (by rw [consequence.peek_kind hblock]; simp), Phrase.stop_of_result hq,
    if_pos hnext.2, Phrase.value_of_result hp, Phrase.reports_of_result hp,
    Phrase.value_of_result hq, Phrase.reports_of_result hq, hc]
  rfl

theorem reads_ifElse {word : Lexeme .kwIf} {l : Lexeme .lparen} {condition : Expr}
    {r : Lexeme .rparen} {consequence : Block} {word' : Lexeme .kwElse} {alternative : Block}
    (hcondition : condition.Reads depth) (hconsequence : consequence.Reads depth)
    (halternative : alternative.Reads depth) :
    (Expr.ifElse word l condition r consequence word' alternative).Reads depth := by
  intro m c e _ _ _ h
  have hc : c.cur = word.1 := h.cur_eq
  have hafter := h.tail (by simp)
  have hl : c.peek = l.1 := hafter.peek_eq
  obtain ⟨k, hk, hrest⟩ := Cursor.Spans.split condition.tokens_ne_nil (by simp)
    (hafter.tail (by simp))
  have hr : k.peek = r.1 := hrest.peek_eq
  obtain ⟨j, hj, helse⟩ := Cursor.Spans.split consequence.tokens_ne_nil (by simp)
    (hrest.tail (by simp))
  have hword' : j.peek = word'.1 := helse.peek_eq
  have hlast := helse.tail alternative.tokens_ne_nil
  have hp := hcondition.whole (by rw [hr, r.2]; exact mayFollow_closing (.inl rfl)) hk
  have hq := hconsequence hj
  have hs := halternative hlast
  apply expression_of_operand
  rw [Phrase.result_operand_if (by rw [hc, word.2]), if_neg (by simp [hl, l.2])]
  dsimp only
  rw [Phrase.stop_of_result hp, if_neg (by simp [hr, r.2]),
    if_neg (by rw [consequence.peek_kind hj]; simp), Phrase.stop_of_result hq,
    if_neg (by simp [hword', word'.2]), if_neg (by rw [alternative.peek_kind hlast]; simp),
    Phrase.value_of_result hp, Phrase.reports_of_result hp, Phrase.value_of_result hq,
    Phrase.reports_of_result hq, Phrase.value_of_result hs, Phrase.reports_of_result hs,
    Phrase.stop_of_result hs, hc]
  rfl

theorem reads_call {callee : Expr} {l : Lexeme .lparen} {items : Items} {r : Lexeme .rparen}
    (hcallee : callee.Reads depth) (hbinds : 6 ≤ callee.level) (hitems : items.Reads depth) :
    (Expr.call callee l items r).Reads depth := by
  intro m c e hm _ _ h
  obtain ⟨k, hk, hargs⟩ := Cursor.Spans.split callee.tokens_ne_nil (by simp) h
  have hl : k.peek = l.1 := hargs.peek_eq
  have hp := hitems (.inl rfl) r.2 (hargs.tail (by simp))
  have hread := hcallee hm (by omega) (by rw [hl, l.2]; exact ⟨hbinds, by simp⟩) hk
  refine hread.trans (operators_of_application hm callee.tree_isAbsent ?_ ?_)
  · rw [hl, l.2]
    exact Nat.lt_of_le_of_lt hm (by decide)
  · rw [Phrase.result_application_call (by rw [Cursor.cur_advance, hl, l.2])]
    dsimp only
    rw [Phrase.stop_of_result hp, Phrase.value_of_result hp, Phrase.reports_of_result hp,
      Cursor.cur_advance, hl]
    rfl

theorem reads_index {left i : Expr} {l : Lexeme .lbracket} {r : Lexeme .rbracket}
    (hleft : left.Reads depth) (hbinds : 6 ≤ left.level) (hi : i.Reads depth) :
    (Expr.index left l i r).Reads depth := by
  intro m c e hm _ _ h
  obtain ⟨k, hk, hrest⟩ := Cursor.Spans.split left.tokens_ne_nil (by simp) h
  have hl : k.peek = l.1 := hrest.peek_eq
  obtain ⟨j, hj, hr, rfl⟩ := split_closing i.tokens_ne_nil (hrest.tail (by simp))
  have hp := hi.whole (by rw [hr, r.2]; exact mayFollow_closing (.inr (.inl rfl))) hj
  have hread := hleft hm (by omega) (by rw [hl, l.2]; exact ⟨hbinds, by simp⟩) hk
  refine hread.trans (operators_of_application hm left.tree_isAbsent ?_ ?_)
  · rw [hl, l.2]
    exact Nat.lt_of_le_of_lt hm (by decide)
  · rw [Phrase.result_application_index (by rw [Cursor.cur_advance, hl, l.2])]
    dsimp only
    rw [Phrase.stop_of_result hp, if_pos (by rw [hr, r.2]), Phrase.value_of_result hp,
      Phrase.reports_of_result hp, Cursor.cur_advance, hl]
    rfl

theorem reads_unary {op : SignLexeme} {right : Expr} (hread : right.Reads depth)
    (hbinds : 5 ≤ right.level) : (Expr.unary op right).Reads depth := by
  intro m c e _ _ hnext h
  have hc : c.cur = op.1 := h.cur_eq
  have hright := h.tail right.tokens_ne_nil
  have hsign : min Precedence.sign.rank 4 < right.level := Nat.lt_of_lt_of_le (by decide) hbinds
  have hp := hread.upTo (by decide) hsign
    (hnext.mono (Nat.le_min.2 ⟨Nat.le_refl 5, hbinds⟩)) hright
  apply expression_of_operand
  rw [Phrase.result_operand_sign (by rw [hc]; exact op.2)]
  dsimp only
  rw [Phrase.stop_of_result hp, Phrase.value_of_result hp, Phrase.reports_of_result hp, hc]
  rfl

theorem reads_binary {left right : Expr} {op : OperatorLexeme} (hleft : left.Reads depth)
    (hright : right.Reads depth) (hle : operatorLevel op.1.kind ≤ left.level)
    (hlt : operatorLevel op.1.kind < right.level) : (Expr.binary left op right).Reads depth := by
  intro m c e hm hlevel hnext h
  obtain ⟨h1, h4⟩ := op.2
  have hrank := rank_eq_operatorLevel h1 h4
  obtain ⟨k, hk, hrest⟩ := Cursor.Spans.split left.tokens_ne_nil (by simp) h
  have hop : k.peek = op.1 := hrest.peek_eq
  have hnext' : MayFollow (operatorLevel op.1.kind) e.peek.kind := hnext
  have hlevel' : min m.rank 4 < operatorLevel op.1.kind := hlevel
  have hp := hright.upTo (m := op.1.kind.precedence) (by omega) (by omega)
    (hnext'.mono (by omega)) (hrest.tail right.tokens_ne_nil)
  have helse : op.1.kind ≠ .kwElse := fun hk => absurd h1 (by rw [hk]; decide)
  have hread := hleft hm (by omega) (by rw [hop]; exact ⟨hle, helse⟩) hk
  refine hread.trans (operators_of_application hm left.tree_isAbsent (by rw [hop]; omega) ?_)
  have hparen : op.1.kind ≠ .lparen := fun hk => absurd h4 (by rw [hk]; decide)
  have hbracket : op.1.kind ≠ .lbracket := fun hk => absurd h4 (by rw [hk]; decide)
  rw [Phrase.result_application_binary (by rw [Cursor.cur_advance, hop]; exact hparen)
    (by rw [Cursor.cur_advance, hop]; exact hbracket)]
  dsimp only
  rw [Cursor.cur_advance, hop, Phrase.value_of_result hp, Phrase.reports_of_result hp,
    Phrase.stop_of_result hp]
  rfl

end Forms

mutual

theorem Expr.read (depth : Nat) : ∀ {d : Expr}, d.Valid → d.Reads depth
  | .identifier t, _ => reads_identifier t
  | .integer t, _ => reads_integer t
  | .string t, _ => reads_string t
  | .truth t, _ => reads_truth t
  | .falsehood t, _ => reads_falsehood t
  | .group _ inner _, hv => reads_group (Expr.read depth (show inner.Valid from hv))
  | .array _ items _, hv => reads_array (Items.read depth (show items.Valid from hv))
  | .hash _ entries _, hv => reads_hash (Entries.read depth (show entries.Valid from hv))
  | .function _ _ _ _ body, hv => reads_function (Block.read depth (show body.Valid from hv))
  | .ifThen .., hv => reads_ifThen (Expr.read depth hv.1) (Block.read depth hv.2)
  | .ifElse .., hv =>
    reads_ifElse (Expr.read depth hv.1) (Block.read depth hv.2.1) (Block.read depth hv.2.2)
  | .call .., hv => reads_call (Expr.read depth hv.1) hv.2.1 (Items.read depth hv.2.2)
  | .index .., hv => reads_index (Expr.read depth hv.1) hv.2.1 (Expr.read depth hv.2.2)
  | .unary .., hv => reads_unary (Expr.read depth hv.1) hv.2
  | .binary .., hv =>
    reads_binary (Expr.read depth hv.1) (Expr.read depth hv.2.1) hv.2.2.1 hv.2.2.2

theorem Items.read (depth : Nat) : ∀ {items : Items}, items.Valid → items.Reads depth
  | .empty, _, close, r, c, e, _, hr, h => by
    obtain ⟨hc, rfl⟩ := Cursor.spans_singleton.1 h
    rw [Phrase.result_items, if_pos (by rw [← hr, ← hc]; rfl)]
    rfl
  | .list first more, hv, close, r, c, e, hclose, hr, h => by
    obtain ⟨t, ts, ht, hbegins⟩ := first.exists_head
    rw [Items.tokens, List.append_assoc] at h
    obtain ⟨k, hk, hmore⟩ := h.split first.tokens_ne_nil (by simp)
    have hc : c.peek = t := (ht ▸ hk).peek_eq
    have hne : c.peek.kind ≠ close := by
      intro heq
      rw [← hc, heq] at hbegins
      rcases hclose with rfl | rfl <;> simp [beginsOperand] at hbegins
    have hp := (Expr.read depth hv.1).whole (more.mayFollow hclose hr hmore) hk
    have hq := MoreItems.read depth hv.2 hclose hr hmore
    rw [Phrase.result_items, if_neg hne]
    dsimp only
    rw [Phrase.stop_of_result hp, Phrase.value_of_result hp, Phrase.reports_of_result hp,
      Phrase.stop_of_result hq, Phrase.value_of_result hq, Phrase.reports_of_result hq]
    rfl

theorem MoreItems.read (depth : Nat) : ∀ {items : MoreItems}, items.Valid →
    ∀ {close : Kind} {r : Token} {c e : Cursor}, close = .rparen ∨ close = .rbracket →
      r.kind = close → c.advance.Spans (items.tokens ++ [r]) e →
        (Phrase.moreItems depth close c).result = (some items.trees, [], e)
  | .done, _, close, r, c, e, hclose, hr, h => by
    obtain ⟨hc, rfl⟩ := Cursor.spans_singleton.1 h
    have hpeek : c.peek.kind = close := by rw [← hr, ← hc]; rfl
    rw [Phrase.result_moreItems, if_neg (by rcases hclose with rfl | rfl <;> simp [hpeek]),
      if_pos hpeek]
    rfl
  | .next comma item more, hv, close, r, c, e, hclose, hr, h => by
    rw [MoreItems.tokens, List.cons_append, List.append_assoc] at h
    have hcomma : c.peek = comma.1 := h.peek_eq
    obtain ⟨k, hk, hmore⟩ := (h.tail (by simp)).split item.tokens_ne_nil (by simp)
    have hp := (Expr.read depth hv.1).whole (more.mayFollow hclose hr hmore) hk
    have hq := MoreItems.read depth hv.2 hclose hr hmore
    rw [Phrase.result_moreItems, if_pos (by rw [hcomma, comma.2])]
    dsimp only
    rw [Phrase.stop_of_result hp, Phrase.value_of_result hp, Phrase.reports_of_result hp,
      Phrase.stop_of_result hq, Phrase.value_of_result hq, Phrase.reports_of_result hq]
    rfl

theorem Entries.read (depth : Nat) : ∀ {entries : Entries}, entries.Valid → entries.Reads depth
  | .empty, _, r, c, e, hr, h => by
    obtain ⟨hc, rfl⟩ := Cursor.spans_singleton.1 h
    rw [Phrase.result_pairs, if_pos (by rw [← hr, ← hc]; rfl)]
    rfl
  | .list key colon value more, hv, r, c, e, hr, h => by
    rw [Entries.tokens, List.append_assoc, List.cons_append, List.append_assoc] at h
    exact MoreEntries.read depth hv.2.2 (Expr.read depth hv.1) (Expr.read depth hv.2.1) hr h

theorem MoreEntries.read (depth : Nat) : ∀ {more : MoreEntries}, more.Valid → ∀ {key value : Expr}
    {colon : Lexeme .colon}, key.Reads depth → value.Reads depth → ∀ {r : Token} {c e : Cursor},
      r.kind = .rbrace →
        c.advance.Spans (key.tokens ++ colon.1 :: (value.tokens ++ (more.tokens ++ [r]))) e →
          (Phrase.pairs depth c).result = (some ((key.tree, value.tree) :: more.trees), [], e)
  | .done, _, key, value, colon, hk, hv, r, c, e, hr, h => by
    obtain ⟨k, hlast, hp⟩ := pairs_of_entry hk hv (mayFollow_closing (by simp [hr])) h
    obtain ⟨hpeek, rfl⟩ := Cursor.spans_singleton.1 hlast
    rw [hp, if_pos (by rw [← hr, ← hpeek]; rfl)]
    rfl
  | .comma comma, _, key, value, colon, hk, hv, r, c, e, hr, h => by
    obtain ⟨k, hlast, hp⟩ := pairs_of_entry hk hv (mayFollow_closing (by simp [comma.2])) h
    have hcomma : k.peek = comma.1 := hlast.peek_eq
    obtain ⟨hpeek, rfl⟩ := Cursor.spans_singleton.1 (hlast.tail (by simp))
    have hq : (Phrase.pairs depth k.advance).result = (some [], [], k.advance.advance) := by
      rw [Phrase.result_pairs, if_pos (by rw [← hr, ← hpeek]; rfl)]
    rw [hp, if_neg (by simp [hcomma, comma.2]), if_pos (by rw [hcomma, comma.2])]
    dsimp only
    rw [Phrase.value_of_result hq, Phrase.reports_of_result hq, Phrase.stop_of_result hq]
    rfl
  | .next comma key' colon' value' more, hvm, key, value, colon, hk, hv, r, c, e, hr, h => by
    obtain ⟨k, hlast, hp⟩ := pairs_of_entry hk hv (mayFollow_closing (by simp [comma.2])) h
    have hcomma : k.peek = comma.1 := hlast.peek_eq
    have hrest := hlast.tail (by simp)
    have hq := MoreEntries.read depth hvm.2.2 (Expr.read depth hvm.1) (Expr.read depth hvm.2.1) hr
      (by simpa using hrest)
    rw [hp, if_neg (by simp [hcomma, comma.2]), if_pos (by rw [hcomma, comma.2])]
    dsimp only
    rw [Phrase.value_of_result hq, Phrase.reports_of_result hq, Phrase.stop_of_result hq]
    rfl

theorem Block.read (depth : Nat) : ∀ {block : Block}, block.Valid → block.Reads depth
  | .mk l body r, hv, c, e, h => by
    have hc : c.cur = l.1 := h.cur_eq
    have hp := Statements.read (depth + 1) (show body.Valid from hv)
      (.inr ⟨r.2, Nat.succ_pos depth⟩) (h.tail (by simp))
    have hlast : e.cur = r.1 := (h.tail (by simp)).stop_cur
    rw [Phrase.result_block]
    dsimp only
    rw [Phrase.stop_of_result hp, if_neg (by simp [hlast, r.2]), Phrase.value_of_result hp,
      Phrase.reports_of_result hp, hc]
    rfl

theorem Statements.read (depth : Nat) : ∀ {ss : Statements}, ss.Valid → ∀ {r : Token}
    {c e : Cursor}, r.kind = .eof ∨ (r.kind = .rbrace ∧ 0 < depth) →
      c.Spans (ss.tokens ++ [r]) e → (Phrase.statements depth c).result = (ss.trees, [], e)
  | .done, _, r, c, e, hr, h => by
    obtain ⟨hc, rfl⟩ := Cursor.spans_singleton.1 h
    rw [Phrase.result_statements, if_pos (by rw [hc]; exact hr)]
    rfl
  | .next first more, hv, r, c, e, hr, h => by
    obtain ⟨hvf, hend, hvm⟩ := hv
    rw [Statements.tokens, List.append_assoc] at h
    obtain ⟨k, hk, hmore⟩ := h.split first.tokens_ne_nil (by simp)
    obtain ⟨helse, hsemi, hlevel⟩ := next_statement (hr.imp_right And.left) hmore
    have hp := Statement.read depth hvf
      (fun hun => ⟨⟨Nat.le_of_eq (hlevel.trans (hend hun)), helse⟩, hsemi⟩) hk
    have hq := Statements.read depth hvm hr hmore
    rw [statements_of_statement (Statement.opens hk depth) hp, Phrase.stop_of_result hq,
      Phrase.value_of_result hq, Phrase.reports_of_result hq]
    rfl

theorem Statement.read (depth : Nat) : ∀ {s : Statement}, s.Valid → ∀ {c e : Cursor},
    (s.isTerminated = false → MayFollow 0 e.peek.kind ∧ e.peek.kind ≠ .semicolon) →
      c.Spans s.tokens e → (Phrase.statement depth c).result = (some s.tree, [], e)
  | .binding word name equals value semicolon, hv, c, e, hend, h => by
    have hc : c.cur = word.1 := h.cur_eq
    have hafter := h.tail (by simp)
    have hname : c.peek = name.1 := hafter.peek_eq
    have hrest := hafter.tail (by simp)
    have hequals : c.advance.peek = equals.1 := hrest.peek_eq
    obtain ⟨k, hp, hskip⟩ := (Expr.read depth (show value.Valid from hv)).terminated hend
      (hrest.tail (by simp [value.tokens_ne_nil]))
    rw [Phrase.result_statement_let (by rw [hc, word.2]), if_neg (by simp [hname, name.2]),
      if_neg (by simp [hequals, equals.2])]
    dsimp only
    rw [Phrase.value_of_result hp, Phrase.reports_of_result hp, Phrase.stop_of_result hp, hskip,
      hname, hc]
    rfl
  | .returning word value semicolon, hv, c, e, hend, h => by
    have hc : c.cur = word.1 := h.cur_eq
    obtain ⟨k, hp, hskip⟩ := (Expr.read depth (show value.Valid from hv)).terminated hend
      (h.tail (by simp [value.tokens_ne_nil]))
    rw [Phrase.result_statement_return (by rw [hc, word.2])]
    dsimp only
    rw [Phrase.value_of_result hp, Phrase.reports_of_result hp, Phrase.stop_of_result hp, hskip, hc]
    rfl
  | .expression value semicolon, hv, c, e, hend, h => by
    obtain ⟨t, ts, ht, hbegins⟩ := value.exists_head
    have hc : c.cur = t := by
      rw [Statement.tokens, ht] at h
      exact h.cur_eq
    obtain ⟨k, hp, hskip⟩ := (Expr.read depth (show value.Valid from hv)).terminated hend h
    rw [Phrase.result_statement_expression
      (by rw [hc]; intro heq; simp [beginsOperand, heq] at hbegins)
      (by rw [hc]; intro heq; simp [beginsOperand, heq] at hbegins)]
    dsimp only
    rw [Phrase.value_of_result hp, Phrase.reports_of_result hp, Phrase.stop_of_result hp, hskip,
      hc, Statement.tree, ht]
    rfl

end

end MonkeyLang.Grammar
