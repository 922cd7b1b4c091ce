import MonkeyLang.Proofs.Grammar
import MonkeyLang.Proofs.Reading.Locality

/-!
What a broken block does to the statements behind it. A block without inner braces is either read
up to its own closing brace, or some phrase of it takes that brace for the operand it lacks: then
the semicolon behind the brace ends the broken statement, and the block goes on into what follows.
-/

namespace MonkeyLang

open Token (Kind)
open Grammar (Lexeme)

/-- No token of the list opens or closes a block, and none is the end. -/
def Flat (ts : List Token) : Prop :=
  ∀ t ∈ ts, t.kind ≠ .lbrace ∧ t.kind ≠ .rbrace ∧ t.kind ≠ .eof

theorem Flat.head {t : Token} {ts : List Token} (h : Flat (t :: ts)) :
    t.kind ≠ .lbrace ∧ t.kind ≠ .rbrace ∧ t.kind ≠ .eof :=
  h t (by simp)

theorem Flat.tail {t : Token} {ts : List Token} (h : Flat (t :: ts)) : Flat ts :=
  fun u hu => h u (List.mem_cons_of_mem _ hu)

namespace Recovery

section Region

variable (close : Lexeme .rbrace) (semi : Lexeme .semicolon) (after : List Token)

def brace : Cursor := ⟨close.1, semi.1 :: after⟩

def Inside (c : Cursor) : Prop :=
  ∃ ts, Flat (c.cur :: ts) ∧ c.rest = ts ++ close.1 :: semi.1 :: after

variable {close semi after}

theorem peek_brace : (brace close semi after).peek.kind = .semicolon := semi.2

theorem Inside.cur {c : Cursor} (h : Inside close semi after c) :
    c.cur.kind ≠ .lbrace ∧ c.cur.kind ≠ .rbrace ∧ c.cur.kind ≠ .eof := by
  obtain ⟨ts, hflat, -⟩ := h
  exact hflat.head

/-- The next token is the closing brace, or another token inside. -/
theorem Inside.next {c : Cursor} (h : Inside close semi after c) :
    (c.peek.kind = .rbrace ∧ c.advance = brace close semi after) ∨
      (c.peek.kind ≠ .rbrace ∧ Inside close semi after c.advance) := by
  obtain ⟨ts, hflat, hrest⟩ := h
  cases ts with
  | nil =>
    have hpeek : c.peek = close.1 := by
      rw [Cursor.peek, hrest]
      rfl
    refine .inl ⟨by rw [hpeek, close.2], ?_⟩
    rw [Cursor.advance, hpeek, hrest]
    rfl
  | cons t ts =>
    have hpeek : c.peek = t := by
      rw [Cursor.peek, hrest]
      rfl
    refine .inr ⟨by rw [hpeek]; exact hflat.tail.head.2.1, ts, ?_, ?_⟩
    · rw [Cursor.cur_advance, hpeek]
      exact hflat.tail
    · rw [Cursor.rest_advance, hrest]
      rfl

theorem Inside.peek {c : Cursor} (h : Inside close semi after c) :
    c.peek.kind ≠ .lbrace ∧ c.peek.kind ≠ .eof := by
  rcases h.next with ⟨hk, -⟩ | ⟨-, hin⟩
  · rw [hk]
    exact ⟨by decide, by decide⟩
  · exact ⟨hin.cur.1, hin.cur.2.2⟩

theorem Inside.advance {c : Cursor} (h : Inside close semi after c) {k : Kind}
    (hk : c.peek.kind = k) (hne : k ≠ .rbrace) : Inside close semi after c.advance := by
  rcases h.next with ⟨hbrace, -⟩ | ⟨-, hin⟩
  · exact absurd (hk.symm.trans hbrace) hne
  · exact hin

def Reaches (close : Lexeme .rbrace) (semi : Lexeme .semicolon) (after : List Token)
    (c : Cursor) : Prop :=
  Inside close semi after c ∨ c = brace close semi after

theorem Inside.reaches {c : Cursor} (h : Inside close semi after c) :
    Reaches close semi after c.advance := by
  rcases h.next with ⟨-, hbrace⟩ | ⟨-, hin⟩
  · exact .inr hbrace
  · exact .inl hin

theorem Inside.skip {c : Cursor} (h : Inside close semi after c) :
    Inside close semi after (c.skip .semicolon) := by
  unfold Cursor.skip
  split
  · rename_i hk
    exact h.advance hk (by decide)
  · exact h

/-- The search for the end of a statement does not leave the block. -/
theorem Inside.synchronize {c : Cursor} (h : Inside close semi after c) :
    Inside close semi after c.synchronize := by
  induction c using Cursor.synchronize.induct with
  | case1 c hend =>
    rw [Cursor.synchronize, if_pos hend]
    exact h
  | case2 c hend ih =>
    rw [Cursor.synchronize, if_neg hend]
    simp only [not_or] at hend
    rcases h.next with ⟨hk, -⟩ | ⟨-, hin⟩
    · exact absurd hk hend.2.2.1
    · exact ih hin

theorem Inside.recover {c : Cursor} (h : Inside close semi after c) (depth : Nat)
    (reports : List Diagnostic) : Inside close semi after (c.recover depth reports) := by
  unfold Cursor.recover
  split
  · exact h.synchronize
  · exact h

end Region

/-! ## What is reported inside a block -/

/-- The report arose at the depth, and neither the brace of a block was missing nor was one met for
an operand. -/
def Calm (depth : Nat) (r : Diagnostic) : Prop :=
  r.depth = depth ∧ r.cause ≠ .noOperand .rbrace ∧ ∀ found, r.cause ≠ .unexpected .rbrace found

/-- The reports of a phrase that is read inside a block and where it stops: inside, with calm
reports, or at the brace, which was met for an operand. -/
def Settles (close : Lexeme .rbrace) (semi : Lexeme .semicolon) (after : List Token) (depth : Nat)
    (reports : List Diagnostic) (stop : Cursor) : Prop :=
  ((∀ r ∈ reports, Calm depth r) ∧ Inside close semi after stop) ∨
    ((∀ r ∈ reports, r.depth = depth) ∧ (∃ r ∈ reports, r.cause = .noOperand .rbrace) ∧
      stop = brace close semi after)

variable {close : Lexeme .rbrace} {semi : Lexeme .semicolon} {after : List Token} {depth : Nat}

theorem calm_unexpected (c : Cursor) (depth : Nat) {k : Kind} (hk : k ≠ .rbrace) :
    Calm depth (c.unexpected depth k) := by
  refine ⟨rfl, fun h => Diagnostic.Cause.noConfusion h, fun found h => ?_⟩
  exact hk (Diagnostic.Cause.unexpected.inj h).1

theorem settles_nil {c : Cursor} (h : Inside close semi after c) :
    Settles close semi after depth [] c :=
  .inl ⟨fun _ hr => absurd hr List.not_mem_nil, h⟩

theorem settles_singleton {c : Cursor} {r : Diagnostic} (hr : Calm depth r)
    (h : Inside close semi after c) : Settles close semi after depth [r] c := by
  refine .inl ⟨?_, h⟩
  intro r' hr'
  rw [List.mem_singleton.1 hr']
  exact hr

/-- One more calm report at the same place. -/
theorem Settles.snoc {reports : List Diagnostic} {stop : Cursor} {r : Diagnostic}
    (h : Settles close semi after depth reports stop) (hr : Calm depth r) :
    Settles close semi after depth (reports ++ [r]) stop := by
  rcases h with ⟨hall, hin⟩ | ⟨hall, ⟨r', hr', hcause⟩, hstop⟩
  · refine .inl ⟨?_, hin⟩
    intro r' hr'
    rcases List.mem_append.1 hr' with hr' | hr'
    · exact hall r' hr'
    · rw [List.mem_singleton.1 hr']
      exact hr
  · refine .inr ⟨?_, ⟨r', List.mem_append_left _ hr', hcause⟩, hstop⟩
    intro r' hr'
    rcases List.mem_append.1 hr' with hr' | hr'
    · exact hall r' hr'
    · rw [List.mem_singleton.1 hr']
      exact hr.1

/-- Calm reports before. -/
theorem Settles.append {before reports : List Diagnostic} {stop : Cursor}
    (hbefore : ∀ r ∈ before, Calm depth r) (h : Settles close semi after depth reports stop) :
    Settles close semi after depth (before ++ reports) stop := by
  rcases h with ⟨hall, hin⟩ | ⟨hall, ⟨r', hr', hcause⟩, hstop⟩
  · refine .inl ⟨?_, hin⟩
    intro r hr
    rcases List.mem_append.1 hr with hr | hr
    · exact hbefore r hr
    · exact hall r hr
  · refine .inr ⟨?_, ⟨r', List.mem_append_right _ hr', hcause⟩, hstop⟩
    intro r hr
    rcases List.mem_append.1 hr with hr | hr
    · exact (hbefore r hr).1
    · exact hall r hr

/-- A closing token of kind `k` after the phrase; the brace and the semicolon behind it are
none. -/
theorem Settles.closed {reports : List Diagnostic} {stop : Cursor}
    (h : Settles close semi after depth reports stop) {k : Kind}
    (hk : k = .rparen ∨ k = .rbracket) :
    (stop.peek.kind = k → Settles close semi after depth reports stop.advance) ∧
      Settles close semi after depth (reports ++ [stop.unexpected depth k]) stop := by
  have hbrace : k ≠ .rbrace := by rcases hk with rfl | rfl <;> decide
  refine ⟨?_, h.snoc (calm_unexpected stop depth hbrace)⟩
  intro hpeek
  rcases h with ⟨hall, hin⟩ | ⟨-, -, rfl⟩
  · exact .inl ⟨hall, hin.advance hpeek hbrace⟩
  · rw [peek_brace] at hpeek
    rcases hk with rfl | rfl <;> exact Kind.noConfusion hpeek

/-- What is read from the stop of a settled phrase on settles, if it stays at the brace. -/
theorem Settles.next {before reports : List Diagnostic} {c stop : Cursor}
    (h : Settles close semi after depth before c)
    (hin : Inside close semi after c → Settles close semi after depth reports stop)
    (hbrace : c = brace close semi after → (∀ r ∈ reports, r.depth = depth) ∧ stop = c) :
    Settles close semi after depth (before ++ reports) stop := by
  rcases h with ⟨hall, hc⟩ | ⟨hall, ⟨r', hr', hcause⟩, hc⟩
  · exact (hin hc).append hall
  · obtain ⟨hreports, hstop⟩ := hbrace hc
    refine .inr ⟨?_, ⟨r', List.mem_append_left _ hr', hcause⟩, hstop.trans hc⟩
    intro r hr
    rcases List.mem_append.1 hr with hr | hr
    · exact hall r hr
    · exact hreports r hr

/-! ## Every phrase of a block settles -/

theorem parameterNames_settles (depth : Nat) (c : Cursor) (hc : Inside close semi after c) :
    (∀ r ∈ (Phrase.parameterNames depth c).reports, Calm depth r) ∧
      Inside close semi after (Phrase.parameterNames depth c).stop := by
  have h := Phrase.result_parameterNames depth c
  split at h
  · rename_i hname
    have hleft := Cursor.left_pos_of_peek hname (by decide)
    have hc' := hc.advance hname (by decide)
    dsimp only at h
    split at h
    · rename_i hcomma
      rw [Phrase.reports_of_result h, Phrase.stop_of_result h]
      exact parameterNames_settles depth _ (hc'.advance hcomma (by decide))
    · split at h
      · rename_i hlast
        rw [Phrase.reports_of_result h, Phrase.stop_of_result h]
        exact ⟨fun _ hr => absurd hr List.not_mem_nil, hc'.advance hlast (by decide)⟩
      · rw [Phrase.reports_of_result h, Phrase.stop_of_result h]
        refine ⟨?_, hc'⟩
        intro r hr
        rw [List.mem_singleton.1 hr]
        exact calm_unexpected _ _ (by decide)
  · rw [Phrase.reports_of_result h, Phrase.stop_of_result h]
    refine ⟨?_, hc⟩
    intro r hr
    rw [List.mem_singleton.1 hr]
    exact calm_unexpected _ _ (by decide)
termination_by c.left
decreasing_by
  simp only [Cursor.left_advance]
  omega

theorem parameters_settles (depth : Nat) {c : Cursor} (hc : Inside close semi after c) :
    (∀ r ∈ (Phrase.parameters depth c).reports, Calm depth r) ∧
      Inside close semi after (Phrase.parameters depth c).stop := by
  have h := Phrase.result_parameters depth c
  split at h
  · rename_i hlast
    rw [Phrase.reports_of_result h, Phrase.stop_of_result h]
    exact ⟨fun _ hr => absurd hr List.not_mem_nil, hc.advance hlast (by decide)⟩
  · have hr : (Phrase.parameters depth c).reports = _ := Phrase.reports_of_result h
    have hs : (Phrase.parameters depth c).stop = _ := Phrase.stop_of_result h
    rw [hr, hs]
    exact parameterNames_settles depth c hc

/-- The brace closes the block: every report before it was calm. -/
def Closes (close : Lexeme .rbrace) (semi : Lexeme .semicolon) (after : List Token) (depth : Nat)
    (r : List Node × List Diagnostic × Cursor) : Prop :=
  (∀ d ∈ r.2.1, Calm depth d) ∧ r.2.2 = brace close semi after

/-- The brace was met for an operand, and the block went on into what follows. -/
def Escapes (after : List Token) (depth : Nat) (r : List Node × List Diagnostic × Cursor) : Prop :=
  ∃ before, (∃ d ∈ before, d.cause = .noOperand .rbrace) ∧
    r.2.1 = before ++ (Phrase.statements depth (Cursor.ofTokens after)).reports ∧
    r.2.2 = (Phrase.statements depth (Cursor.ofTokens after)).stop

/-- Every phrase of a block settles, and the block closes or escapes. Blocks and hashes inside it
are not reached, since it has no brace for them. -/
def Settling (close : Lexeme .rbrace) (semi : Lexeme .semicolon) (after : List Token) :
    Phrase.Property where
  statements depth c := 0 < depth → after ≠ [] → Reaches close semi after c →
    Closes close semi after depth (Phrase.statements depth c).result ∨
      Escapes after depth (Phrase.statements depth c).result
  statement depth c := Inside close semi after c →
    ((∀ r ∈ (Phrase.statement depth c).reports, Calm depth r) ∧
      Inside close semi after (Phrase.statement depth c).stop) ∨
    ((∀ r ∈ (Phrase.statement depth c).reports, r.depth = depth) ∧
      (∃ r ∈ (Phrase.statement depth c).reports, r.cause = .noOperand .rbrace) ∧
      (Phrase.statement depth c).stop = ⟨semi.1, after⟩)
  block _ _ := True
  expression depth m c := Reaches close semi after c → Settles close semi after depth
    (Phrase.expression depth m c).reports (Phrase.expression depth m c).stop
  operators depth m c left := Inside close semi after c → Settles close semi after depth
    (Phrase.operators depth m c left).reports (Phrase.operators depth m c left).stop
  application depth c left := Inside close semi after c → Settles close semi after depth
    (Phrase.application depth c left).reports (Phrase.application depth c left).stop
  items depth k c := k = .rparen ∨ k = .rbracket → Inside close semi after c →
    Settles close semi after depth (Phrase.items depth k c).reports (Phrase.items depth k c).stop
  moreItems depth k c := k = .rparen ∨ k = .rbracket → Inside close semi after c →
    Settles close semi after depth (Phrase.moreItems depth k c).reports
      (Phrase.moreItems depth k c).stop
  pairs _ _ := True
  operand depth c := Reaches close semi after c → Settles close semi after depth
    (Phrase.operand depth c).reports (Phrase.operand depth c).stop

section Rules

variable {c : Cursor}

/-- The brace is no operand. -/
theorem operand_brace : Settles close semi after depth
    (Phrase.operand depth (brace close semi after)).reports
    (Phrase.operand depth (brace close semi after)).stop := by
  have h := @Phrase.result_operand_none depth (brace close semi after)
    (by rw [show (brace close semi after).cur.kind = _ from close.2]; rfl)
  rw [Phrase.reports_of_result h, Phrase.stop_of_result h]
  refine .inr ⟨?_, ⟨_, List.mem_singleton_self _, ?_⟩, rfl⟩
  · intro r hr
    rw [List.mem_singleton.1 hr]
    rfl
  · rw [Cursor.report, show (brace close semi after).cur.kind = _ from close.2]

theorem operators_brace (m : Precedence) (left : Node) :
    (Phrase.operators depth m (brace close semi after) left).result =
      (left, [], brace close semi after) := by
  rw [Phrase.result_operators, peek_brace, if_pos (.inr (Nat.zero_le _))]

theorem moreItems_brace {k : Kind} (hk : k = .rparen ∨ k = .rbracket) :
    (Phrase.moreItems depth k (brace close semi after)).result =
      (none, [(brace close semi after).unexpected depth k], brace close semi after) := by
  rw [Phrase.result_moreItems, peek_brace, if_neg (by decide),
    if_neg (by rcases hk with rfl | rfl <;> decide)]

theorem expression_settles {m : Precedence}
    (hfirst : Settles close semi after depth (Phrase.operand depth c).reports
      (Phrase.operand depth c).stop)
    (hmore : (Settling close semi after).operators depth m (Phrase.operand depth c).stop
      (Phrase.operand depth c).value) :
    Settles close semi after depth (Phrase.expression depth m c).reports
      (Phrase.expression depth m c).stop := by
  have h := Phrase.result_expression depth m c
  rw [Phrase.reports_of_result h, Phrase.stop_of_result h]
  refine hfirst.next hmore ?_
  intro hbrace
  have hend := @operators_brace close semi after depth m (Phrase.operand depth c).value
  rw [← hbrace] at hend
  rw [Phrase.reports_of_result hend, Phrase.stop_of_result hend]
  exact ⟨fun _ hr => absurd hr List.not_mem_nil, rfl⟩

theorem operators_settles {m : Precedence} {left : Node} (hc : Inside close semi after c)
    (happlied : (Settling close semi after).application depth c.advance left)
    (hmore : (Settling close semi after).operators depth m
      (Phrase.application depth c.advance left).stop
      (Phrase.application depth c.advance left).value) :
    Settles close semi after depth (Phrase.operators depth m c left).reports
      (Phrase.operators depth m c left).stop := by
  have h := Phrase.result_operators depth m c left
  split at h
  · rw [Phrase.reports_of_result h, Phrase.stop_of_result h]
    exact settles_nil hc
  rename_i hgo
  have hc' : Inside close semi after c.advance := by
    rcases hc.next with ⟨hk, -⟩ | ⟨-, hin⟩
    · exact absurd (.inr (by rw [hk]; exact Nat.zero_le _)) hgo
    · exact hin
  rw [Phrase.reports_of_result h, Phrase.stop_of_result h]
  refine (happlied hc').next hmore ?_
  intro hbrace
  have hend := @operators_brace close semi after depth m
    (Phrase.application depth c.advance left).value
  rw [← hbrace] at hend
  rw [Phrase.reports_of_result hend, Phrase.stop_of_result hend]
  exact ⟨fun _ hr => absurd hr List.not_mem_nil, rfl⟩

theorem application_settles {left : Node} (hc : Inside close semi after c)
    (hitems : (Settling close semi after).items depth .rparen c)
    (hi : (Settling close semi after).expression depth .lowest c.advance)
    (hright : (Settling close semi after).expression depth c.cur.kind.precedence c.advance) :
    Settles close semi after depth (Phrase.application depth c left).reports
      (Phrase.application depth c left).stop := by
  by_cases hparen : c.cur.kind = .lparen
  · have h := @Phrase.result_application_call depth c left hparen
    rw [Phrase.reports_of_result h, Phrase.stop_of_result h]
    exact hitems (.inl rfl) hc
  by_cases hbracket : c.cur.kind = .lbracket
  · have h := @Phrase.result_application_index depth c left hbracket
    obtain ⟨hclosed, hopen⟩ := (hi hc.reaches).closed (.inr rfl)
    dsimp only at h
    split at h
    · rename_i hlast
      rw [Phrase.reports_of_result h, Phrase.stop_of_result h]
      exact hclosed hlast
    · rw [Phrase.reports_of_result h, Phrase.stop_of_result h]
      exact hopen
  · have h := @Phrase.result_application_binary depth c left hparen hbracket
    rw [Phrase.reports_of_result h, Phrase.stop_of_result h]
    exact hright hc.reaches

theorem items_settles {k : Kind} (hk : k = .rparen ∨ k = .rbracket)
    (hc : Inside close semi after c)
    (hfirst : (Settling close semi after).expression depth .lowest c.advance)
    (hmore : (Settling close semi after).moreItems depth k
      (Phrase.expression depth .lowest c.advance).stop) :
    Settles close semi after depth (Phrase.items depth k c).reports
      (Phrase.items depth k c).stop := by
  have h := Phrase.result_items depth k c
  split at h
  · rename_i hlast
    rw [Phrase.reports_of_result h, Phrase.stop_of_result h]
    exact settles_nil (hc.advance hlast (by rcases hk with rfl | rfl <;> decide))
  · rw [Phrase.reports_of_result h, Phrase.stop_of_result h]
    refine (hfirst hc.reaches).next (hmore hk) ?_
    intro hbrace
    have hend := @moreItems_brace close semi after depth k hk
    rw [← hbrace] at hend
    rw [Phrase.reports_of_result hend, Phrase.stop_of_result hend]
    refine ⟨?_, rfl⟩
    intro r hr
    rw [List.mem_singleton.1 hr]
    rfl

theorem moreItems_settles {k : Kind} (hk : k = .rparen ∨ k = .rbracket)
    (hc : Inside close semi after c)
    (hfirst : (Settling close semi after).expression depth .lowest c.advance.advance)
    (hmore : c.peek.kind = .comma → (Settling close semi after).moreItems depth k
      (Phrase.expression depth .lowest c.advance.advance).stop) :
    Settles close semi after depth (Phrase.moreItems depth k c).reports
      (Phrase.moreItems depth k c).stop := by
  have hne : k ≠ .rbrace := by rcases hk with rfl | rfl <;> decide
  have h := Phrase.result_moreItems depth k c
  split at h
  · rename_i hcomma
    rw [Phrase.reports_of_result h, Phrase.stop_of_result h]
    refine (hfirst (hc.advance hcomma (by decide)).reaches).next (hmore hcomma hk) ?_
    intro hbrace
    have hend := @moreItems_brace close semi after depth k hk
    rw [← hbrace] at hend
    rw [Phrase.reports_of_result hend, Phrase.stop_of_result hend]
    refine ⟨?_, rfl⟩
    intro r hr
    rw [List.mem_singleton.1 hr]
    rfl
  · split at h
    · rename_i hlast
      rw [Phrase.reports_of_result h, Phrase.stop_of_result h]
      exact settles_nil (hc.advance hlast hne)
    · rw [Phrase.reports_of_result h, Phrase.stop_of_result h]
      exact settles_singleton (calm_unexpected c depth hne) hc

theorem group_settles (hk : c.cur.kind = .lparen) (hc : Inside close semi after c)
    (hinner : (Settling close semi after).expression depth .lowest c.advance) :
    Settles close semi after depth (Phrase.operand depth c).reports
      (Phrase.operand depth c).stop := by
  have h := @Phrase.result_operand_group depth c hk
  obtain ⟨hclosed, hopen⟩ := (hinner hc.reaches).closed (.inl rfl)
  dsimp only at h
  split at h
  · rename_i hlast
    rw [Phrase.reports_of_result h, Phrase.stop_of_result h]
    exact hclosed hlast
  · rw [Phrase.reports_of_result h, Phrase.stop_of_result h]
    exact hopen

theorem function_settles (hk : c.cur.kind = .kwFn) (hc : Inside close semi after c) :
    Settles close semi after depth (Phrase.operand depth c).reports
      (Phrase.operand depth c).stop := by
  have h := @Phrase.result_operand_function depth c hk
  split at h
  · rw [Phrase.reports_of_result h, Phrase.stop_of_result h]
    exact settles_singleton (calm_unexpected c depth (by decide)) hc
  rename_i hl
  rw [Decidable.not_not] at hl
  obtain ⟨hall, hin⟩ := parameters_settles depth (hc.advance hl (by decide))
  dsimp only at h
  split at h
  · rw [Phrase.reports_of_result h, Phrase.stop_of_result h]
    exact .inl ⟨hall, hin⟩
  rw [if_pos hin.peek.1] at h
  rw [Phrase.reports_of_result h, Phrase.stop_of_result h]
  exact Settles.snoc (.inl ⟨hall, hin⟩) (calm_unexpected _ depth (by decide))

theorem if_settles (hk : c.cur.kind = .kwIf) (hc : Inside close semi after c)
    (hcondition : (Settling close semi after).expression depth .lowest c.advance.advance) :
    Settles close semi after depth (Phrase.operand depth c).reports
      (Phrase.operand depth c).stop := by
  have h := @Phrase.result_operand_if depth c hk
  split at h
  · rw [Phrase.reports_of_result h, Phrase.stop_of_result h]
    exact settles_singleton (calm_unexpected c depth (by decide)) hc
  rename_i hl
  rw [Decidable.not_not] at hl
  have hsettles := hcondition (hc.advance hl (by decide)).reaches
  dsimp only at h
  split at h
  · rw [Phrase.reports_of_result h, Phrase.stop_of_result h]
    exact hsettles.snoc (calm_unexpected _ depth (by decide))
  rename_i hr
  rw [Decidable.not_not] at hr
  have hsettles' := (hsettles.closed (.inl rfl)).1 hr
  rcases hsettles' with ⟨hall, hin⟩ | ⟨-, -, hbrace⟩
  · rw [if_pos hin.peek.1] at h
    rw [Phrase.reports_of_result h, Phrase.stop_of_result h]
    exact Settles.snoc (.inl ⟨hall, hin⟩) (calm_unexpected _ depth (by decide))
  · refine absurd (congrArg (fun e : Cursor => e.cur.kind) hbrace) ?_
    rw [Cursor.cur_advance, hr, show (brace close semi after).cur.kind = _ from close.2]
    decide

theorem integer_settles (hk : c.cur.kind = .int) (hc : Inside close semi after c) :
    Settles close semi after depth (Phrase.operand depth c).reports
      (Phrase.operand depth c).stop := by
  have hcalm : Calm depth (c.report depth (.notAnInteger c.cur.literal)) :=
    ⟨rfl, fun h => Diagnostic.Cause.noConfusion h, fun _ h => Diagnostic.Cause.noConfusion h⟩
  have h := (@Phrase.result_operand_int depth c hk).trans (Phrase.result_integer depth c)
  split at h
  · split at h
    · rw [Phrase.reports_of_result h, Phrase.stop_of_result h]
      exact settles_nil hc
    · rw [Phrase.reports_of_result h, Phrase.stop_of_result h]
      exact settles_singleton hcalm hc
  · rw [Phrase.reports_of_result h, Phrase.stop_of_result h]
    exact settles_singleton hcalm hc

theorem leaf_settles {n : Node} (hleaf : Phrase.Leaf c.cur n) (hc : Inside close semi after c) :
    Settles close semi after depth (Phrase.operand depth c).reports
      (Phrase.operand depth c).stop := by
  have h := @Phrase.result_operand_leaf depth c n hleaf
  rw [Phrase.reports_of_result h, Phrase.stop_of_result h]
  exact settles_nil hc

/-- The expression of a statement with the semicolon behind it. -/
theorem terminated_settles {e : Cursor} {rs : List Diagnostic}
    (h : Settles close semi after depth rs e) :
    ((∀ r ∈ rs, Calm depth r) ∧ Inside close semi after (e.skip .semicolon)) ∨
      ((∀ r ∈ rs, r.depth = depth) ∧ (∃ r ∈ rs, r.cause = .noOperand .rbrace) ∧
        e.skip .semicolon = ⟨semi.1, after⟩) := by
  rcases h with ⟨hall, hin⟩ | ⟨hall, hcause, rfl⟩
  · exact .inl ⟨hall, hin.skip⟩
  · refine .inr ⟨hall, hcause, ?_⟩
    rw [Cursor.skip, if_pos peek_brace]
    rfl

theorem binding_settles (hk : c.cur.kind = .kwLet) (hc : Inside close semi after c)
    (hvalue : (Settling close semi after).expression depth .lowest c.advance.advance.advance) :
    (Settling close semi after).statement depth c := by
  intro _
  have h := @Phrase.result_statement_let depth c hk
  split at h
  · rw [Phrase.reports_of_result h, Phrase.stop_of_result h]
    refine .inl ⟨?_, hc⟩
    intro r hr
    rw [List.mem_singleton.1 hr]
    exact calm_unexpected c depth (by decide)
  rename_i hname
  rw [Decidable.not_not] at hname
  have hc' := hc.advance hname (by decide)
  split at h
  · rw [Phrase.reports_of_result h, Phrase.stop_of_result h]
    refine .inl ⟨?_, hc'⟩
    intro r hr
    rw [List.mem_singleton.1 hr]
    exact calm_unexpected _ depth (by decide)
  rename_i hequals
  rw [Decidable.not_not] at hequals
  rw [Phrase.reports_of_result h, Phrase.stop_of_result h]
  exact terminated_settles (hvalue (hc'.advance hequals (by decide)).reaches)

theorem statements_settles (hdepth : 0 < depth) (hafter : after ≠ [])
    (hc : Inside close semi after c)
    (hfirst : (Settling close semi after).statement depth c)
    (hmore : (Settling close semi after).statements depth
      ((Phrase.statement depth c).stop.recover depth (Phrase.statement depth c).reports).advance) :
    Closes close semi after depth (Phrase.statements depth c).result ∨
      Escapes after depth (Phrase.statements depth c).result := by
  have hopen : ¬(c.cur.kind = .eof ∨ (c.cur.kind = .rbrace ∧ 0 < depth)) := by
    rintro (h | ⟨h, -⟩)
    · exact hc.cur.2.2 h
    · exact hc.cur.2.1 h
  rw [Phrase.result_statements, if_neg hopen]
  dsimp only
  rcases hfirst hc with ⟨hall, hin⟩ | ⟨hall, ⟨d, hd, hcause⟩, hstop⟩
  · rcases hmore hdepth hafter (hin.recover depth _).reaches with ⟨hall', hstop⟩ |
      ⟨before, ⟨d, hd, hcause⟩, hreports, hstop⟩
    · refine .inl ⟨?_, hstop⟩
      intro r hr
      rcases List.mem_append.1 hr with hr | hr
      · exact hall r hr
      · exact hall' r hr
    · refine .inr ⟨(Phrase.statement depth c).reports ++ before,
        ⟨d, List.mem_append_right _ hd, hcause⟩, ?_, hstop⟩
      rw [List.append_assoc, ← hreports]
      rfl
  · -- The semicolon behind the brace ended the statement, so that nothing is given up.
    have hlast : (Phrase.statement depth c).reports.getLast?.map (·.depth) = some depth := by
      obtain ⟨r, hr⟩ := List.getLast?_isSome.2 (List.ne_nil_of_mem hd) |> Option.isSome_iff_exists.1
      rw [hr, Option.map_some, hall r (List.mem_of_getLast? hr)]
    have hrecover : (Phrase.statement depth c).stop.recover depth
        (Phrase.statement depth c).reports = ⟨semi.1, after⟩ := by
      rw [Cursor.recover, if_pos hlast, hstop, Cursor.synchronize, if_pos (.inl semi.2)]
    have hnext : (⟨semi.1, after⟩ : Cursor).advance = Cursor.ofTokens after := by
      cases after with
      | nil => exact absurd rfl hafter
      | cons t ts => rfl
    rw [hrecover, hnext]
    exact .inr ⟨_, ⟨d, hd, hcause⟩, rfl, rfl⟩

end Rules

theorem settling (close : Lexeme .rbrace) (semi : Lexeme .semicolon) (after : List Token) :
    (Settling close semi after).Inductive where
  statements depth c hfirst hmore hdepth hafter hc := by
    rcases hc with hc | rfl
    · exact statements_settles hdepth hafter hc (hfirst hc.cur.2.2) (hmore hc.cur.2.2)
    · rw [Phrase.result_statements, if_pos (.inr ⟨close.2, hdepth⟩)]
      exact .inl ⟨fun _ hr => absurd hr List.not_mem_nil, rfl⟩
  statement depth c hbinding hreturning hexpression hc := by
    by_cases hlet : c.cur.kind = .kwLet
    · exact binding_settles hlet hc hbinding hc
    by_cases hreturn : c.cur.kind = .kwReturn
    · have h := @Phrase.result_statement_return depth c hreturn
      rw [Phrase.reports_of_result h, Phrase.stop_of_result h]
      exact terminated_settles (hreturning hc.reaches)
    · have h := @Phrase.result_statement_expression depth c hlet hreturn
      rw [Phrase.reports_of_result h, Phrase.stop_of_result h]
      exact terminated_settles (hexpression (.inl hc))
  block _ _ _ := trivial
  expression depth m c hfirst hmore hc := expression_settles (hfirst hc) hmore
  operators depth m c left happlied hmore hc :=
    operators_settles hc (happlied hc.peek.2) (hmore hc.peek.2)
  application depth c left hitems hi hright hc := application_settles hc hitems hi hright
  items depth k c hfirst hmore hk hc := items_settles hk hc hfirst hmore
  moreItems depth k c hfirst hmore hk hc := moreItems_settles hk hc hfirst hmore
  pairs _ _ _ _ _ := trivial
  operand depth c hright hinner hitems _ _ hcondition _ _ hc := by
    rcases hc with hc | rfl
    · have hreal := hc.cur.2.2
      by_cases hbegins : Phrase.beginsOperand c.cur.kind = false
      · have h := @Phrase.result_operand_none depth c hbegins
        rw [Phrase.reports_of_result h, Phrase.stop_of_result h]
        refine settles_singleton ⟨rfl, ?_, fun _ h => Diagnostic.Cause.noConfusion h⟩ hc
        intro h
        exact hc.cur.2.1 (Diagnostic.Cause.noOperand.inj h)
      cases Phrase.operandForm hbegins with
      | leaf h => exact leaf_settles h hc
      | integer hk => exact integer_settles hk hc
      | sign hk =>
        have h := @Phrase.result_operand_sign depth c hk
        rw [Phrase.reports_of_result h, Phrase.stop_of_result h]
        exact hright hreal hc.reaches
      | group hk => exact group_settles hk hc (hinner hreal)
      | array hk =>
        have h := @Phrase.result_operand_array depth c hk
        rw [Phrase.reports_of_result h, Phrase.stop_of_result h]
        exact hitems hreal (.inr rfl) hc
      | hash hk => exact absurd hk hc.cur.1
      | function hk => exact function_settles hk hc
      | conditional hk => exact if_settles hk hc (hcondition hreal)
    · exact operand_brace

end Recovery

end MonkeyLang
