import MonkeyLang.Proofs.Reading

/-!
Induction along the reader: a property of all phrases holds if it holds of each under the
assumption that it holds of the phrases that are read for it. The functions of the reader call one
another in this way only, so that nothing else in the theory of reading argues by recursion.
-/

namespace MonkeyLang.Phrase

open Token (Kind)

/-- What passes from each cursor to the next one holds where the skipping ends. -/
theorem holds_synchronize {C : Cursor → Prop} (hnext : ∀ c : Cursor, C c → C c.advance)
    {c : Cursor} (hc : C c) : C c.synchronize := by
  fun_induction Cursor.synchronize c with
  | case1 => exact hc
  | case2 c _ ih => exact ih (hnext c hc)

theorem holds_recover {C : Cursor → Prop} (hnext : ∀ c : Cursor, C c → C c.advance) {c : Cursor}
    (hc : C c) (depth : Nat) (reports : List Diagnostic) : C (c.recover depth reports) := by
  unfold Cursor.recover
  split
  · exact holds_synchronize hnext hc
  · exact hc

/-- A property of the places where phrases are read, one for each function of the reader. -/
structure Property where
  statements : Nat → Cursor → Prop
  statement : Nat → Cursor → Prop
  block : Nat → Cursor → Prop
  expression : Nat → Precedence → Cursor → Prop
  operators : Nat → Precedence → Cursor → Node → Prop
  application : Nat → Cursor → Node → Prop
  items : Nat → Kind → Cursor → Prop
  moreItems : Nat → Kind → Cursor → Prop
  pairs : Nat → Cursor → Prop
  operand : Nat → Cursor → Prop

/-- The property passes from the phrases that a function of the reader reads to its result. -/
structure Property.Inductive (P : Property) : Prop where
  statements (depth : Nat) (c : Cursor) :
    (c.cur.kind ≠ .eof → P.statement depth c) →
    (c.cur.kind ≠ .eof → P.statements depth
      ((Phrase.statement depth c).stop.recover depth (Phrase.statement depth c).reports).advance) →
    P.statements depth c
  statement (depth : Nat) (c : Cursor) :
    P.expression depth .lowest c.advance.advance.advance →
    P.expression depth .lowest c.advance → P.expression depth .lowest c → P.statement depth c
  block (depth : Nat) (c : Cursor) : P.statements (depth + 1) c.advance → P.block depth c
  expression (depth : Nat) (m : Precedence) (c : Cursor) :
    P.operand depth c →
    P.operators depth m (Phrase.operand depth c).stop (Phrase.operand depth c).value →
    P.expression depth m c
  operators (depth : Nat) (m : Precedence) (c : Cursor) (left : Node) :
    (c.peek.kind ≠ .eof → P.application depth c.advance left) →
    (c.peek.kind ≠ .eof → P.operators depth m (Phrase.application depth c.advance left).stop
      (Phrase.application depth c.advance left).value) →
    P.operators depth m c left
  application (depth : Nat) (c : Cursor) (left : Node) :
    P.items depth .rparen c → P.expression depth .lowest c.advance →
    P.expression depth c.cur.kind.precedence c.advance → P.application depth c left
  items (depth : Nat) (close : Kind) (c : Cursor) :
    P.expression depth .lowest c.advance →
    P.moreItems depth close (Phrase.expression depth .lowest c.advance).stop →
    P.items depth close c
  moreItems (depth : Nat) (close : Kind) (c : Cursor) :
    P.expression depth .lowest c.advance.advance →
    (c.peek.kind = .comma →
      P.moreItems depth close (Phrase.expression depth .lowest c.advance.advance).stop) →
    P.moreItems depth close c
  pairs (depth : Nat) (c : Cursor) :
    P.expression depth .lowest c.advance →
    P.expression depth .lowest
      (Phrase.expression depth .lowest c.advance).stop.advance.advance →
    ((Phrase.expression depth .lowest
        (Phrase.expression depth .lowest c.advance).stop.advance.advance).stop.peek.kind = .comma →
      P.pairs depth (Phrase.expression depth .lowest
        (Phrase.expression depth .lowest c.advance).stop.advance.advance).stop.advance) →
    P.pairs depth c
  operand (depth : Nat) (c : Cursor) :
    (c.cur.kind ≠ .eof → P.expression depth .sign c.advance) →
    (c.cur.kind ≠ .eof → P.expression depth .lowest c.advance) →
    (c.cur.kind ≠ .eof → P.items depth .rbracket c) →
    (c.cur.kind ≠ .eof → P.pairs depth c) →
    (c.cur.kind ≠ .eof → P.block depth (Phrase.parameters depth c.advance).stop.advance) →
    (c.cur.kind ≠ .eof → P.expression depth .lowest c.advance.advance) →
    (c.cur.kind ≠ .eof → P.block depth
      (Phrase.expression depth .lowest c.advance.advance).stop.advance.advance) →
    (c.cur.kind ≠ .eof → P.block depth (Phrase.block depth (Phrase.expression depth .lowest
      c.advance.advance).stop.advance.advance).stop.advance.advance) →
    P.operand depth c

namespace Property.Inductive

variable {P : Property}

theorem pending_advance_advance_le (c : Cursor) : c.advance.advance.pending ≤ c.left := by
  have h := c.advance.pending_advance_le
  rw [Cursor.left_advance] at h
  omega

theorem left_advance_advance_le (c : Cursor) : c.advance.advance.left ≤ c.left := by
  simp only [Cursor.left_advance]
  omega

theorem left_stop_advance_le {α : Type} {c : Cursor} (p : Phrase c.advance α) :
    p.stop.left ≤ c.left - 1 := by
  rw [← Cursor.left_advance]
  exact p.le

theorem pending_advance_advance_stop_le {α : Type} {c : Cursor} (p : Phrase c α) :
    p.stop.advance.advance.pending ≤ c.left :=
  Nat.le_trans (pending_advance_advance_le p.stop) p.le

mutual

theorem all_statements (h : P.Inductive) (depth : Nat) (c : Cursor) : P.statements depth c := by
  refine h.statements depth c ?_ ?_
  · intro hreal
    exact all_statement h depth c
  · intro hreal
    have hpending := Cursor.pending_of_ne_eof hreal
    have hstop := (Phrase.statement depth c).le
    have hrecover := (Phrase.statement depth c).stop.left_recover_le depth (Phrase.statement depth c).reports
    have hnext := ((Phrase.statement depth c).stop.recover depth
      (Phrase.statement depth c).reports).pending_advance_le
    exact all_statements h depth _
termination_by 16 * c.pending + 7
decreasing_by all_goals omega

theorem all_statement (h : P.Inductive) (depth : Nat) (c : Cursor) : P.statement depth c := by
  have hpending := c.left_le_pending
  have hadvance := c.pending_advance_le
  have hleft := c.left_advance
  have hvalue := pending_advance_advance_le c.advance
  exact h.statement depth c (all_expression h depth .lowest c.advance.advance.advance)
    (all_expression h depth .lowest c.advance) (all_expression h depth .lowest c)
termination_by 16 * c.pending + 6
decreasing_by all_goals omega

theorem all_block (h : P.Inductive) (depth : Nat) (c : Cursor) : P.block depth c := by
  have hadvance := c.pending_advance_le
  exact h.block depth c (all_statements h (depth + 1) c.advance)
termination_by 16 * c.left + 8
decreasing_by all_goals omega

theorem all_expression (h : P.Inductive) (depth : Nat) (m : Precedence) (c : Cursor) :
    P.expression depth m c := by
  have hpending := c.left_le_pending
  have hstop := (Phrase.operand depth c).le
  exact h.expression depth m c (all_operand h depth c) (all_operators h depth m _ _)
termination_by 16 * c.pending + 3
decreasing_by all_goals omega

theorem all_operators (h : P.Inductive) (depth : Nat) (m : Precedence) (c : Cursor)
    (left : Node) : P.operators depth m c left := by
  have hadvance := c.left_advance
  have hstop := (Phrase.application depth c.advance left).le
  refine h.operators depth m c left ?_ ?_
  · intro hreal
    have hleft := Cursor.left_pos hreal
    exact all_application h depth c.advance left
  · intro hreal
    have hleft := Cursor.left_pos hreal
    exact all_operators h depth m _ _
termination_by 16 * c.left + 2
decreasing_by all_goals omega

theorem all_application (h : P.Inductive) (depth : Nat) (c : Cursor) (left : Node) :
    P.application depth c left := by
  have hadvance := c.pending_advance_le
  exact h.application depth c left (all_items h depth .rparen c)
    (all_expression h depth .lowest c.advance)
    (all_expression h depth c.cur.kind.precedence c.advance)
termination_by 16 * c.left + 6
decreasing_by all_goals omega

theorem all_items (h : P.Inductive) (depth : Nat) (close : Kind) (c : Cursor) :
    P.items depth close c := by
  have hadvance := c.pending_advance_le
  have hleft := c.left_advance
  have hstop := (Phrase.expression depth .lowest c.advance).le
  exact h.items depth close c (all_expression h depth .lowest c.advance)
    (all_moreItems h depth close _)
termination_by 16 * c.left + 5
decreasing_by all_goals omega

theorem all_moreItems (h : P.Inductive) (depth : Nat) (close : Kind) (c : Cursor) :
    P.moreItems depth close c := by
  have hadvance := pending_advance_advance_le c
  have hstop := left_stop_advance_le (Phrase.expression depth .lowest c.advance.advance)
  have hleft := c.left_advance
  refine h.moreItems depth close c (all_expression h depth .lowest c.advance.advance) ?_
  intro hcomma
  have hpos := Cursor.left_pos_of_peek hcomma (by decide)
  exact all_moreItems h depth close _
termination_by 16 * c.left + 4
decreasing_by all_goals omega

theorem all_pairs (h : P.Inductive) (depth : Nat) (c : Cursor) : P.pairs depth c := by
  have hadvance := c.pending_advance_le
  have hleft := c.left_advance
  have hkey := pending_advance_advance_stop_le (Phrase.expression depth .lowest c.advance)
  have hstop := (Phrase.expression depth .lowest c.advance).le
  have hcolon := (Phrase.expression depth .lowest c.advance).stop.left_advance
  have hvalue := left_stop_advance_le (Phrase.expression depth .lowest
    (Phrase.expression depth .lowest c.advance).stop.advance.advance)
  refine h.pairs depth c (all_expression h depth .lowest c.advance)
    (all_expression h depth .lowest _) ?_
  intro hcomma
  have hpos := Cursor.left_pos_of_peek hcomma (by decide)
  have hnext := (Phrase.expression depth .lowest
    (Phrase.expression depth .lowest c.advance).stop.advance.advance).stop.left_advance
  exact all_pairs h depth _
termination_by 16 * c.left + 5
decreasing_by all_goals omega

theorem all_operand (h : P.Inductive) (depth : Nat) (c : Cursor) : P.operand depth c := by
  refine h.operand depth c ?_ ?_ ?_ ?_ ?_ ?_ ?_ ?_ <;> intro hreal <;>
    have hpending := Cursor.pending_of_ne_eof hreal
  · have hadvance := c.pending_advance_le
    exact all_expression h depth .sign c.advance
  · have hadvance := c.pending_advance_le
    exact all_expression h depth .lowest c.advance
  · exact all_items h depth .rbracket c
  · exact all_pairs h depth c
  · have hstop := left_stop_advance_le (Phrase.parameters depth c.advance)
    have hnext := (Phrase.parameters depth c.advance).stop.left_advance
    exact all_block h depth _
  · have hadvance := pending_advance_advance_le c
    exact all_expression h depth .lowest c.advance.advance
  · have hstop := left_stop_advance_le (Phrase.expression depth .lowest c.advance.advance)
    have hleft := c.left_advance
    have hnext := left_advance_advance_le (Phrase.expression depth .lowest c.advance.advance).stop
    exact all_block h depth _
  · have hstop := left_stop_advance_le (Phrase.expression depth .lowest c.advance.advance)
    have hleft := c.left_advance
    have hbrace := left_stop_advance_le (Phrase.block depth
      (Phrase.expression depth .lowest c.advance.advance).stop.advance.advance)
    have hnext := (Phrase.expression depth .lowest c.advance.advance).stop.left_advance
    have hlast := left_advance_advance_le (Phrase.block depth
      (Phrase.expression depth .lowest c.advance.advance).stop.advance.advance).stop
    exact all_block h depth _
termination_by 16 * c.pending + 1
decreasing_by all_goals omega

end

end Property.Inductive

end MonkeyLang.Phrase
