import Mathlib.Data.List.Forall2
import MonkeyLang.Proofs.Grammar
import MonkeyLang.Proofs.Reading.Induction

/-!
What reading does at a semicolon between statements. Whatever stands before it, two lists that
differ only behind the semicolon are read alike up to it, and from there on each goes on with what
stands behind it there; unless a phrase that lacks an operand is taken up to the semicolon, and what
follows begins with a token that can also be an operator. The tokens of `[]` tell whether that can
happen.
-/

namespace MonkeyLang

open Token (Kind)
open Grammar (Lexeme)

namespace Separator

/-- No token of the list separates statements, opens or closes a block, or is the end. -/
def Plain (ts : List Token) : Prop :=
  ∀ t ∈ ts, t.kind ≠ .semicolon ∧ t.kind ≠ .lbrace ∧ t.kind ≠ .rbrace ∧ t.kind ≠ .eof

instance (ts : List Token) : Decidable (Plain ts) :=
  inferInstanceAs (Decidable (∀ t ∈ ts, t.kind ≠ .semicolon ∧ t.kind ≠ .lbrace ∧
    t.kind ≠ .rbrace ∧ t.kind ≠ .eof))

def mark (semi : Lexeme .semicolon) (after : List Token) : Cursor := ⟨semi.1, after⟩

section Region

variable (semi : Lexeme .semicolon) (after after' : List Token)

/-- Both cursors stand at the same token before the semicolon. -/
def Inside (c c' : Cursor) : Prop :=
  ∃ t ts, Plain (t :: ts) ∧ c = ⟨t, ts ++ semi.1 :: after⟩ ∧ c' = ⟨t, ts ++ semi.1 :: after'⟩

/-- Both cursors stand at the same token, before the semicolon or at it. -/
def Twin (c c' : Cursor) : Prop :=
  Inside semi after after' c c' ∨ c = mark semi after ∧ c' = mark semi after'

variable {semi after after'} {c c' : Cursor}

namespace Inside

theorem cur (h : Inside semi after after' c c') : c'.cur = c.cur := by
  obtain ⟨t, ts, -, rfl, rfl⟩ := h
  rfl

theorem kinds (h : Inside semi after after' c c') : c.cur.kind ≠ .semicolon ∧
    c.cur.kind ≠ .lbrace ∧ c.cur.kind ≠ .rbrace ∧ c.cur.kind ≠ .eof := by
  obtain ⟨t, ts, hplain, rfl, rfl⟩ := h
  exact hplain t List.mem_cons_self

theorem peek (h : Inside semi after after' c c') : c'.peek = c.peek := by
  obtain ⟨t, ts, -, rfl, rfl⟩ := h
  cases ts <;> rfl

/-- The next token is the semicolon, or another one before it. -/
theorem next (h : Inside semi after after' c c') :
    (c.peek.kind = .semicolon ∧ c.advance = mark semi after ∧ c'.advance = mark semi after') ∨
      (c.peek.kind ≠ .semicolon ∧ Inside semi after after' c.advance c'.advance) := by
  obtain ⟨t, ts, hplain, rfl, rfl⟩ := h
  cases ts with
  | nil => exact .inl ⟨semi.2, rfl, rfl⟩
  | cons u ts =>
    have hrest : Plain (u :: ts) := fun t ht => hplain t (List.mem_cons_of_mem _ ht)
    exact .inr ⟨(hrest u List.mem_cons_self).1, u, ts, hrest, rfl, rfl⟩

theorem peek_kinds (h : Inside semi after after' c c') :
    c.peek.kind ≠ .lbrace ∧ c.peek.kind ≠ .rbrace ∧ c.peek.kind ≠ .eof := by
  rcases h.next with ⟨hk, -⟩ | ⟨-, hin⟩
  · rw [hk]
    exact ⟨nofun, nofun, nofun⟩
  · exact hin.kinds.2

theorem advance (h : Inside semi after after' c c') {k : Kind} (hk : c.peek.kind = k)
    (hne : k ≠ .semicolon) : Inside semi after after' c.advance c'.advance := by
  rcases h.next with ⟨hsemi, -⟩ | ⟨-, hin⟩
  · exact absurd (hk.symm.trans hsemi) hne
  · exact hin

theorem twin (h : Inside semi after after' c c') :
    Twin semi after after' c.advance c'.advance := by
  rcases h.next with ⟨-, hmarks⟩ | ⟨-, hin⟩
  · exact .inr hmarks
  · exact .inl hin

/-- The search for the end of a statement ends at the semicolon. -/
theorem synchronize {c c' : Cursor} (h : Inside semi after after' c c') :
    c.synchronize = mark semi after ∧ c'.synchronize = mark semi after' := by
  obtain ⟨hsemi, -, -, heof⟩ := h.kinds
  obtain ⟨-, hrbrace', heof'⟩ := h.peek_kinds
  have hgo : ¬(c.cur.kind = .semicolon ∨ c.cur.kind = .eof ∨ c.peek.kind = .rbrace ∨
      c.peek.kind = .eof) := by
    simp only [not_or]
    exact ⟨hsemi, heof, hrbrace', heof'⟩
  have hstop (x : List Token) : (mark semi x).synchronize = mark semi x := by
    rw [Cursor.synchronize, if_pos (.inl semi.2)]
  rw [Cursor.synchronize, if_neg hgo, Cursor.synchronize.eq_def c', h.cur, h.peek, if_neg hgo]
  rcases h.next with ⟨-, hmark, hmark'⟩ | ⟨-, hin⟩
  · rw [hmark, hmark', hstop, hstop]
    exact ⟨rfl, rfl⟩
  · exact hin.synchronize
termination_by c.left
decreasing_by
  have hpos := Cursor.left_pos h.peek_kinds.2.2
  rw [Cursor.left_advance]
  omega

end Inside

/-- The kind of a token that ends part of a phrase without ending the phrase. -/
def Inner (k : Kind) : Prop := k = .rparen ∨ k = .rbracket ∨ k = .comma

theorem Inner.ne_semicolon {k : Kind} (h : Inner k) : k ≠ .semicolon := by
  rcases h with rfl | rfl | rfl <;> decide

theorem Inner.ne_eof {k : Kind} (h : Inner k) : k ≠ .eof := by
  rcases h with rfl | rfl | rfl <;> decide

/-- The token behind the semicolon is none that a phrase up to the semicolon could wait for. -/
def Still (c : Cursor) : Prop := c.peek.kind ≠ .semicolon ∧ ∀ k, Inner k → c.peek.kind ≠ k

/-- The token behind the semicolon is no operator either. -/
def Idle (c : Cursor) : Prop := c.peek.kind.precedence = .lowest

end Region

/-! ## Reading up to the semicolon -/

def probe : List Token :=
  [⟨.lbracket, "[", ⟨0, 0⟩⟩, ⟨.rbracket, "]", ⟨0, 0⟩⟩, .eof ⟨0, 0⟩]

def stuck : Cursor := ⟨⟨.rbracket, "]", ⟨0, 0⟩⟩, [.eof ⟨0, 0⟩]⟩

/-- What stands behind the semicolon is nothing that a phrase waits for. Nor is it an operator; or
else the second list goes on with `[]`. -/
structure Comparable (semi : Lexeme .semicolon) (after after' : List Token) : Prop where
  still : Still (mark semi after)
  still' : Still (mark semi after')
  idle : Idle (mark semi after) ∧ Idle (mark semi after') ∨ after' = probe

/-- As many reports in both runs, and all of them at the depth. -/
abbrev Matched (depth : Nat) : List Diagnostic → List Diagnostic → Prop :=
  List.Forall₂ fun r r' => r.depth = depth ∧ r'.depth = depth

section Outcomes

variable {α β : Type} (semi : Lexeme .semicolon) (after after' : List Token) (depth : Nat)

/-- The same was read in both runs, up to the semicolon at most. -/
structure Same (r r' : α × List Diagnostic × Cursor) : Prop where
  value : r'.1 = r.1
  reports : Matched depth r.2.1 r'.2.1
  stop : Twin semi after after' r.2.2 r'.2.2

/-- The same was read in both runs; or else the second took `[` for an operator, so that it stopped
at the bracket behind it, and its value is what it then can be. -/
def Outcome (stuckValue : α → Prop) (r r' : α × List Diagnostic × Cursor) : Prop :=
  Same semi after after' depth r r' ∨ after' = probe ∧ r'.2.2 = stuck ∧ stuckValue r'.1

variable {semi after after' depth} {P : α → Prop} {Q : β → Prop}
  {r r' : α × List Diagnostic × Cursor}

theorem Matched.append {rs rs' qs qs' : List Diagnostic} (h : Matched depth rs rs')
    (hq : Matched depth qs qs') : Matched depth (rs ++ qs) (rs' ++ qs') :=
  List.rel_append h hq

theorem Matched.singleton {d d' : Diagnostic} (h : d.depth = depth) (h' : d'.depth = depth) :
    Matched depth [d] [d'] :=
  .cons ⟨h, h'⟩ .nil

theorem Matched.depths {rs rs' : List Diagnostic} (h : Matched depth rs rs') :
    (∀ d ∈ rs, d.depth = depth) ∧ ∀ d ∈ rs', d.depth = depth := by
  induction h with
  | nil => exact ⟨List.forall_mem_nil _, List.forall_mem_nil _⟩
  | cons h _ ih =>
    exact ⟨List.forall_mem_cons.mpr ⟨h.1, ih.1⟩, List.forall_mem_cons.mpr ⟨h.2, ih.2⟩⟩

theorem Outcome.map (h : Outcome semi after after' depth P r r') {f : α → β}
    (hf : ∀ v, P v → Q (f v)) :
    Outcome semi after after' depth Q (f r.1, r.2.1, r.2.2) (f r'.1, r'.2.1, r'.2.2) := by
  rcases h with ⟨hvalue, hreports, hstop⟩ | ⟨hprobe, hstuck, hvalue⟩
  · exact .inl ⟨congrArg f hvalue, hreports, hstop⟩
  · exact .inr ⟨hprobe, hstuck, hf _ hvalue⟩

/-- Matching reports before. -/
theorem Outcome.behind (h : Outcome semi after after' depth P r r') {before before' : List Diagnostic}
    (hbefore : Matched depth before before') :
    Outcome semi after after' depth P (r.1, before ++ r.2.1, r.2.2)
      (r'.1, before' ++ r'.2.1, r'.2.2) := by
  rcases h with ⟨hvalue, hreports, hstop⟩ | h
  · exact .inl ⟨hvalue, hbefore.append hreports, hstop⟩
  · exact .inr h

theorem Same.parts {c c' : Cursor} {p : Phrase c α} {p' : Phrase c' α}
    (h : Same semi after after' depth p.result p'.result) :
    p'.value = p.value ∧ Matched depth p.reports p'.reports ∧
      Twin semi after after' p.stop p'.stop :=
  ⟨h.value, h.reports, h.stop⟩

end Outcomes

/-! ## Every phrase is read alike -/

def NoArray (n : Node) : Prop := ∀ t elements, n ≠ .array t elements

def NoArrayStatement (n : Node) : Prop := ∀ t t' elements, n ≠ .exprStmt t (.array t' elements)

/-- Both lists go on behind the semicolon with the statements there, after equal ones and as many
reports; or else the second ends in a statement that is not just an array. -/
def Splits (semi : Lexeme .semicolon) (after after' : List Token) (depth : Nat)
    (r r' : List Node × List Diagnostic × Cursor) : Prop :=
  (∃ ns rs rs', Matched depth rs rs' ∧
    (let q := Phrase.statements depth (mark semi after).advance
     r = (ns ++ q.value, rs ++ q.reports, q.stop)) ∧
    let q := Phrase.statements depth (mark semi after').advance
    r' = (ns ++ q.value, rs' ++ q.reports, q.stop)) ∨
  after' = probe ∧ ∃ ns n, r'.1 = ns ++ [n] ∧ NoArrayStatement n

/-- Phrases before the semicolon or at it are read alike in both lists. Blocks and hashes are not
reached, since no brace stands there. -/
def Uniform (semi : Lexeme .semicolon) (after after' : List Token) : Phrase.Property where
  statements depth c := ∀ ⦃c' : Cursor⦄, Twin semi after after' c c' → Splits semi after after' depth
    (Phrase.statements depth c).result (Phrase.statements depth c').result
  statement depth c := ∀ ⦃c' : Cursor⦄, Twin semi after after' c c' → Outcome semi after after' depth
    (fun v => ∃ n, v = some n ∧ NoArrayStatement n)
    (Phrase.statement depth c).result (Phrase.statement depth c').result
  block _ _ := True
  expression depth m c := ∀ ⦃c' : Cursor⦄, Twin semi after after' c c' →
    Outcome semi after after' depth NoArray (Phrase.expression depth m c).result
      (Phrase.expression depth m c').result
  operators depth m c left := ∀ ⦃c' : Cursor⦄, Twin semi after after' c c' →
    Outcome semi after after' depth NoArray (Phrase.operators depth m c left).result
      (Phrase.operators depth m c' left).result
  application depth c left := ∀ ⦃c' : Cursor⦄, Inside semi after after' c c' →
    Outcome semi after after' depth NoArray (Phrase.application depth c left).result
      (Phrase.application depth c' left).result
  items depth close c := Inner close → ∀ ⦃c' : Cursor⦄, Inside semi after after' c c' →
    Outcome semi after after' depth (· = none) (Phrase.items depth close c).result
      (Phrase.items depth close c').result
  moreItems depth close c := Inner close → ∀ ⦃c' : Cursor⦄, Twin semi after after' c c' →
    Outcome semi after after' depth (· = none) (Phrase.moreItems depth close c).result
      (Phrase.moreItems depth close c').result
  pairs _ _ := True
  operand depth c := ∀ ⦃c' : Cursor⦄, Twin semi after after' c c' →
    Outcome semi after after' depth NoArray (Phrase.operand depth c).result
      (Phrase.operand depth c').result

theorem noArray_absent : NoArray .absent := nofun

theorem noArray_letStmt {t : Token} {name : Option Identifier} {value : Node} :
    NoArrayStatement (.letStmt t name value) := by
  rintro _ _ _ ⟨⟩

theorem noArray_returnStmt {t : Token} {value : Node} :
    NoArrayStatement (.returnStmt t value) := by
  rintro _ _ _ ⟨⟩

/-- Nothing more is taken behind the bracket at which the second run stopped. -/
theorem operators_stuck (depth : Nat) (m : Precedence) (left : Node) :
    (Phrase.operators depth m stuck left).result = (left, [], stuck) := by
  rw [Phrase.result_operators, if_pos (.inr (Nat.zero_le _))]

section Rules

variable {semi : Lexeme .semicolon} {after after' : List Token} {depth : Nat} {c c' : Cursor}

theorem Twin.skip (hcomparable : Comparable semi after after') (h : Twin semi after after' c c') :
    Twin semi after after' (c.skip .semicolon) (c'.skip .semicolon) := by
  unfold Cursor.skip
  rcases h with hin | ⟨rfl, rfl⟩
  · rw [hin.peek]
    split
    · exact hin.twin
    · exact .inl hin
  · rw [if_neg hcomparable.still.1, if_neg hcomparable.still'.1]
    exact .inr ⟨rfl, rfl⟩

/-- A token that ends part of a phrase is met in both lists, before the semicolon, or in none. -/
theorem Twin.met (hcomparable : Comparable semi after after') (h : Twin semi after after' c c')
    {k : Kind} (hk : Inner k) :
    c.peek.kind = k ∧ c'.peek.kind = k ∧ Inside semi after after' c.advance c'.advance ∨
      c.peek.kind ≠ k ∧ c'.peek.kind ≠ k := by
  rcases h with hin | ⟨rfl, rfl⟩
  · rw [hin.peek]
    by_cases heq : c.peek.kind = k
    · exact .inl ⟨heq, heq, hin.advance heq hk.ne_semicolon⟩
    · exact .inr ⟨heq, heq⟩
  · exact .inr ⟨hcomparable.still.2 k hk, hcomparable.still'.2 k hk⟩

/-- Given up at the same place, for the same value. -/
theorem outcome_broken {α : Type} {P : α → Prop} {v : α} {d d' : Diagnostic}
    (h : Twin semi after after' c c') (hd : d.depth = depth) (hd' : d'.depth = depth) :
    Outcome semi after after' depth P (v, [d], c) (v, [d'], c') :=
  .inl ⟨rfl, .singleton hd hd', h⟩

theorem outcome_done {α : Type} {P : α → Prop} {v : α} (h : Twin semi after after' c c') :
    Outcome semi after after' depth P (v, [], c) (v, [], c') :=
  .inl ⟨rfl, .nil, h⟩

/-- A phrase with the token that closes it. -/
theorem outcome_closed (hcomparable : Comparable semi after after') {α : Type} {P : α → Prop}
    {p : Phrase c α} {p' : Phrase c' α} {f : α → Node} {k : Kind} (hk : Inner k)
    (h : Outcome semi after after' depth P p.result p'.result) :
    Outcome semi after after' depth NoArray
      (if p.stop.peek.kind = k then (f p.value, p.reports, p.stop.advance)
        else (.absent, p.reports ++ [p.stop.unexpected depth k], p.stop))
      (if p'.stop.peek.kind = k then (f p'.value, p'.reports, p'.stop.advance)
        else (.absent, p'.reports ++ [p'.stop.unexpected depth k], p'.stop)) := by
  rcases h with h | ⟨hprobe, hstuck, -⟩
  · obtain ⟨hvalue, hreports, hstop⟩ := h.parts
    rcases hstop.met hcomparable hk with ⟨hpeek, hpeek', hin⟩ | ⟨hpeek, hpeek'⟩
    · rw [if_pos hpeek, if_pos hpeek', hvalue]
      exact .inl ⟨rfl, hreports, .inl hin⟩
    · rw [if_neg hpeek, if_neg hpeek']
      exact .inl ⟨rfl, hreports.append (.singleton rfl rfl), hstop⟩
  · have hstuck : p'.stop = stuck := hstuck
    rw [if_neg (c := p'.stop.peek.kind = k) (by rw [hstuck]; exact hk.ne_eof.symm)]
    exact .inr ⟨hprobe, hstuck, noArray_absent⟩

theorem expression_outcome {m : Precedence} (hc : Twin semi after after' c c')
    (hfirst : (Uniform semi after after').operand depth c)
    (hmore : (Uniform semi after after').operators depth m (Phrase.operand depth c).stop
      (Phrase.operand depth c).value) :
    Outcome semi after after' depth NoArray (Phrase.expression depth m c).result
      (Phrase.expression depth m c').result := by
  rw [Phrase.result_expression, Phrase.result_expression]
  dsimp only
  rcases hfirst hc with h | ⟨hprobe, hstuck, hvalue⟩
  · obtain ⟨hvalue, hreports, hstop⟩ := h.parts
    rw [hvalue]
    exact (hmore hstop).behind hreports
  · have hend := operators_stuck depth m (Phrase.operand depth c').value
    rw [← show (Phrase.operand depth c').stop = stuck from hstuck] at hend
    rw [Phrase.value_of_result hend, Phrase.stop_of_result hend]
    exact .inr ⟨hprobe, hstuck, hvalue⟩

theorem expression_stuck (depth : Nat) (m : Precedence) :
    (Phrase.expression depth m stuck).result =
      (.absent, [stuck.report depth (.noOperand .rbracket)], stuck) := by
  have hoperand := @Phrase.result_operand_none depth stuck rfl
  rw [Phrase.result_expression]
  dsimp only
  rw [Phrase.value_of_result hoperand, Phrase.reports_of_result hoperand,
    Phrase.stop_of_result hoperand]
  have hend := operators_stuck depth m .absent
  rw [Phrase.value_of_result hend, Phrase.reports_of_result hend, Phrase.stop_of_result hend]
  rfl

/-- The index operator of `[]` finds no index, and makes nothing of the phrase before it. -/
theorem application_probe (depth : Nat) (left : Node) :
    ∃ rs, (Phrase.application depth (mark semi probe).advance left).result = (.absent, rs, stuck) := by
  have hindex := expression_stuck depth .lowest
  rw [Phrase.result_application_index rfl]
  dsimp only
  rw [show (mark semi probe).advance.advance = stuck from rfl, Phrase.stop_of_result hindex]
  exact ⟨_, rfl⟩

/-- At the semicolon nothing is taken; or else the second run takes the bracket for an operator. -/
theorem operators_mark (hcomparable : Comparable semi after after') (m : Precedence) (left : Node) :
    Outcome semi after after' depth NoArray
      (Phrase.operators depth m (mark semi after) left).result
      (Phrase.operators depth m (mark semi after') left).result := by
  have hmarks : Twin semi after after' (mark semi after) (mark semi after') := .inr ⟨rfl, rfl⟩
  have hrank (k : Kind) : k.precedence.rank ≤ 7 := by cases k <;> decide
  rw [Phrase.result_operators, Phrase.result_operators]
  by_cases hleft : left.isAbsent = true
  · rw [if_pos (.inl hleft), if_pos (.inl hleft)]
    exact outcome_done hmarks
  rcases hcomparable.idle with ⟨hidle, hidle'⟩ | hprobe
  · rw [if_pos (.inr (by rw [hidle]; exact Nat.zero_le _)),
      if_pos (.inr (by rw [hidle']; exact Nat.zero_le _))]
    exact outcome_done hmarks
  by_cases hm : 7 ≤ m.rank
  · rw [if_pos (.inr (Nat.le_trans (hrank _) hm)), if_pos (.inr (Nat.le_trans (hrank _) hm))]
    exact outcome_done hmarks
  · subst hprobe
    obtain ⟨rs, happlied⟩ := @application_probe semi depth left
    have hgo : ¬(left.isAbsent = true ∨
        (mark semi probe).peek.kind.precedence.rank ≤ m.rank) := by
      rintro (h | h)
      · exact hleft h
      · exact hm h
    have hend := operators_stuck depth m .absent
    refine .inr ⟨rfl, ?_⟩
    rw [if_neg hgo]
    dsimp only
    rw [Phrase.value_of_result happlied, Phrase.stop_of_result happlied,
      Phrase.value_of_result hend, Phrase.stop_of_result hend]
    exact ⟨rfl, noArray_absent⟩

theorem operators_outcome (hcomparable : Comparable semi after after') {m : Precedence}
    {left : Node} (hc : Twin semi after after' c c')
    (happlied : c.peek.kind ≠ .eof →
      (Uniform semi after after').application depth c.advance left)
    (hmore : c.peek.kind ≠ .eof → (Uniform semi after after').operators depth m
      (Phrase.application depth c.advance left).stop
      (Phrase.application depth c.advance left).value) :
    Outcome semi after after' depth NoArray (Phrase.operators depth m c left).result
      (Phrase.operators depth m c' left).result := by
  rcases hc with hc | ⟨rfl, rfl⟩
  · rw [Phrase.result_operators, Phrase.result_operators, hc.peek]
    split
    · exact outcome_done (.inl hc)
    rename_i hgo
    have hin : Inside semi after after' c.advance c'.advance := by
      rcases hc.next with ⟨hk, -⟩ | ⟨-, hin⟩
      · exact absurd (.inr (by rw [hk]; exact Nat.zero_le _)) hgo
      · exact hin
    have hreal := hc.peek_kinds.2.2
    dsimp only
    rcases happlied hreal hin with h | ⟨hprobe, hstuck, hvalue⟩
    · obtain ⟨hvalue, hreports, hstop⟩ := h.parts
      rw [hvalue]
      exact (hmore hreal hstop).behind hreports
    · have hend := operators_stuck depth m (Phrase.application depth c'.advance left).value
      rw [← show (Phrase.application depth c'.advance left).stop = stuck from hstuck] at hend
      rw [Phrase.value_of_result hend, Phrase.stop_of_result hend]
      exact .inr ⟨hprobe, hstuck, hvalue⟩
  · exact operators_mark hcomparable m left

theorem application_outcome (hcomparable : Comparable semi after after') {left : Node}
    (hc : Inside semi after after' c c')
    (hitems : (Uniform semi after after').items depth .rparen c)
    (hi : (Uniform semi after after').expression depth .lowest c.advance)
    (hright : (Uniform semi after after').expression depth c.cur.kind.precedence c.advance) :
    Outcome semi after after' depth NoArray (Phrase.application depth c left).result
      (Phrase.application depth c' left).result := by
  by_cases hparen : c.cur.kind = .lparen
  · rw [Phrase.result_application_call hparen,
      Phrase.result_application_call (by rw [hc.cur, hparen]), hc.cur]
    refine (hitems (.inl rfl) hc).map (f := fun v => (v.map (Node.call c.cur left)).getD Node.absent) ?_
    rintro _ rfl
    exact noArray_absent
  by_cases hbracket : c.cur.kind = .lbracket
  · rw [Phrase.result_application_index hbracket,
      Phrase.result_application_index (by rw [hc.cur, hbracket]), hc.cur]
    exact outcome_closed hcomparable (.inr (.inl rfl)) (hi hc.twin)
  · rw [Phrase.result_application_binary hparen hbracket, Phrase.result_application_binary
      (by rw [hc.cur]; exact hparen) (by rw [hc.cur]; exact hbracket), hc.cur]
    exact (hright hc.twin).map (f := Node.binary c.cur left c.cur.literal) fun _ _ => nofun

theorem moreItems_stuck (depth : Nat) {close : Kind} (hclose : Inner close) :
    (Phrase.moreItems depth close stuck).result =
      (none, [stuck.unexpected depth close], stuck) := by
  rw [Phrase.result_moreItems, if_neg (c := stuck.peek.kind = .comma) (by decide),
    if_neg (c := stuck.peek.kind = close) hclose.ne_eof.symm]

/-- An expression of a list with those behind it. -/
theorem more_outcome {close : Kind} (hclose : Inner close) {p : Phrase c Node} {p' : Phrase c' Node}
    (hfirst : Outcome semi after after' depth NoArray p.result p'.result)
    (hmore : (Uniform semi after after').moreItems depth close p.stop) :
    Outcome semi after after' depth (· = none)
      (let q := Phrase.moreItems depth close p.stop
       (q.value.map (p.value :: ·), p.reports ++ q.reports, q.stop))
      (let q := Phrase.moreItems depth close p'.stop
       (q.value.map (p'.value :: ·), p'.reports ++ q.reports, q.stop)) := by
  dsimp only
  rcases hfirst with h | ⟨hprobe, hstuck, -⟩
  · obtain ⟨hvalue, hreports, hstop⟩ := h.parts
    rw [hvalue]
    refine ((hmore hclose hstop).map (f := Option.map (p.value :: ·)) ?_).behind hreports
    rintro _ rfl
    rfl
  · have hend := moreItems_stuck depth hclose
    rw [← show p'.stop = stuck from hstuck] at hend
    rw [Phrase.value_of_result hend, Phrase.stop_of_result hend]
    exact .inr ⟨hprobe, hstuck, rfl⟩

theorem items_outcome {close : Kind} (hclose : Inner close) (hc : Inside semi after after' c c')
    (hfirst : (Uniform semi after after').expression depth .lowest c.advance)
    (hmore : (Uniform semi after after').moreItems depth close
      (Phrase.expression depth .lowest c.advance).stop) :
    Outcome semi after after' depth (· = none) (Phrase.items depth close c).result
      (Phrase.items depth close c').result := by
  rw [Phrase.result_items, Phrase.result_items, hc.peek]
  split
  · rename_i hpeek
    exact outcome_done (.inl (hc.advance hpeek hclose.ne_semicolon))
  · dsimp only
    exact more_outcome hclose (hfirst hc.twin) hmore

theorem moreItems_outcome (hcomparable : Comparable semi after after') {close : Kind}
    (hclose : Inner close) (hc : Twin semi after after' c c')
    (hfirst : (Uniform semi after after').expression depth .lowest c.advance.advance)
    (hmore : c.peek.kind = .comma → (Uniform semi after after').moreItems depth close
      (Phrase.expression depth .lowest c.advance.advance).stop) :
    Outcome semi after after' depth (· = none) (Phrase.moreItems depth close c).result
      (Phrase.moreItems depth close c').result := by
  rw [Phrase.result_moreItems, Phrase.result_moreItems]
  rcases hc.met hcomparable (.inr (.inr rfl)) with ⟨hcomma, hcomma', hin⟩ | ⟨hcomma, hcomma'⟩
  · rw [if_pos hcomma, if_pos hcomma']
    dsimp only
    exact more_outcome hclose (hfirst hin.twin) (hmore hcomma)
  rw [if_neg hcomma, if_neg hcomma']
  rcases hc.met hcomparable hclose with ⟨hpeek, hpeek', hin⟩ | ⟨hpeek, hpeek'⟩
  · rw [if_pos hpeek, if_pos hpeek']
    exact outcome_done (.inl hin)
  · rw [if_neg hpeek, if_neg hpeek']
    exact outcome_broken hc rfl rfl

/-! ### Operands -/

/-- The same was read in both runs, and the semicolon is still to come. -/
structure Within {α : Type} (semi : Lexeme .semicolon) (after after' : List Token) (depth : Nat)
    (r r' : α × List Diagnostic × Cursor) : Prop where
  value : r'.1 = r.1
  reports : Matched depth r.2.1 r'.2.1
  stop : Inside semi after after' r.2.2 r'.2.2

theorem parameterNames_within (depth : Nat) {c c' : Cursor} (hc : Inside semi after after' c c') :
    Within semi after after' depth (Phrase.parameterNames depth c).result
      (Phrase.parameterNames depth c').result := by
  rw [Phrase.result_parameterNames, Phrase.result_parameterNames depth c', hc.peek]
  by_cases hname : c.peek.kind = .ident
  · have hleft := Cursor.left_pos_of_peek hname (by decide)
    have hc' := hc.advance hname (by decide)
    rw [if_pos hname, if_pos hname]
    dsimp only
    rw [hc'.peek]
    by_cases hcomma : c.advance.peek.kind = .comma
    · rw [if_pos hcomma, if_pos hcomma]
      obtain ⟨hvalue, hreports, hin⟩ :=
        parameterNames_within depth (hc'.advance hcomma (by decide))
      exact ⟨congrArg (Option.map _) hvalue, hreports, hin⟩
    rw [if_neg hcomma, if_neg hcomma]
    split
    · rename_i hlast
      exact ⟨rfl, .nil, hc'.advance hlast (by decide)⟩
    · exact ⟨rfl, .singleton rfl rfl, hc'⟩
  · rw [if_neg hname, if_neg hname]
    exact ⟨rfl, .singleton rfl rfl, hc⟩
termination_by c.left
decreasing_by
  simp only [Cursor.left_advance]
  omega

theorem parameters_within (depth : Nat) (hc : Inside semi after after' c c') :
    Within semi after after' depth (Phrase.parameters depth c).result
      (Phrase.parameters depth c').result := by
  rw [Phrase.result_parameters, Phrase.result_parameters, hc.peek]
  split
  · rename_i hlast
    exact ⟨rfl, .nil, hc.advance hlast (by decide)⟩
  · exact parameterNames_within depth hc

theorem function_outcome (hk : c.cur.kind = .kwFn) (hc : Inside semi after after' c c') :
    Outcome semi after after' depth NoArray (Phrase.operand depth c).result
      (Phrase.operand depth c').result := by
  rw [Phrase.result_operand_function hk, Phrase.result_operand_function (by rw [hc.cur, hk]),
    hc.peek]
  split
  · exact outcome_broken (.inl hc) rfl rfl
  rename_i hl
  rw [Decidable.not_not] at hl
  have hparameters := parameters_within depth (hc.advance hl (by decide))
  have hvalue : (Phrase.parameters depth c'.advance).value =
      (Phrase.parameters depth c.advance).value := hparameters.value
  have hin : Inside semi after after' (Phrase.parameters depth c.advance).stop
      (Phrase.parameters depth c'.advance).stop := hparameters.stop
  dsimp only
  rw [hvalue]
  split
  · exact .inl ⟨rfl, hparameters.reports, .inl hin⟩
  -- No brace stands before the semicolon, so that the body of the function is missing.
  rw [hin.peek, if_pos hin.peek_kinds.1, if_pos hin.peek_kinds.1]
  exact .inl ⟨rfl, hparameters.reports.append (.singleton rfl rfl), .inl hin⟩

theorem if_outcome (hcomparable : Comparable semi after after') (hk : c.cur.kind = .kwIf)
    (hc : Inside semi after after' c c')
    (hcondition : (Uniform semi after after').expression depth .lowest c.advance.advance) :
    Outcome semi after after' depth NoArray (Phrase.operand depth c).result
      (Phrase.operand depth c').result := by
  rw [Phrase.result_operand_if hk, Phrase.result_operand_if (by rw [hc.cur, hk]), hc.peek]
  split
  · exact outcome_broken (.inl hc) rfl rfl
  rename_i hl
  rw [Decidable.not_not] at hl
  dsimp only
  rcases hcondition (hc.advance hl (by decide)).twin with h | ⟨hprobe, hstuck, -⟩
  · obtain ⟨-, hreports, hstop⟩ := h.parts
    rcases hstop.met hcomparable (.inl rfl) with ⟨hpeek, hpeek', hin⟩ | ⟨hpeek, hpeek'⟩
    · rw [if_neg (not_not.mpr hpeek), if_neg (not_not.mpr hpeek'), hin.peek,
        if_pos hin.peek_kinds.1, if_pos hin.peek_kinds.1]
      exact .inl ⟨rfl, hreports.append (.singleton rfl rfl), .inl hin⟩
    · rw [if_pos hpeek, if_pos hpeek']
      exact .inl ⟨rfl, hreports.append (.singleton rfl rfl), hstop⟩
  · have hopen : (Phrase.expression depth .lowest c'.advance.advance).stop.peek.kind ≠ .rparen := by
      rw [show (Phrase.expression depth .lowest c'.advance.advance).stop = stuck from hstuck]
      decide
    rw [if_pos hopen]
    exact .inr ⟨hprobe, hstuck, noArray_absent⟩

theorem integer_outcome (hk : c.cur.kind = .int) (hc : Inside semi after after' c c') :
    Outcome semi after after' depth NoArray (Phrase.operand depth c).result
      (Phrase.operand depth c').result := by
  rw [Phrase.result_operand_int hk, Phrase.result_operand_int (by rw [hc.cur, hk]),
    Phrase.result_integer, Phrase.result_integer, hc.cur]
  split
  · split
    · exact outcome_done (.inl hc)
    · exact outcome_broken (.inl hc) rfl rfl
  · exact outcome_broken (.inl hc) rfl rfl

theorem none_outcome (hc : Twin semi after after' c c') (h : Phrase.beginsOperand c.cur.kind = false)
    (hcur : c'.cur = c.cur) :
    Outcome semi after after' depth NoArray (Phrase.operand depth c).result
      (Phrase.operand depth c').result := by
  rw [Phrase.result_operand_none h, Phrase.result_operand_none (by rw [hcur]; exact h)]
  exact outcome_broken hc rfl rfl

/-! ### Statements -/

/-- The expression of a statement with the semicolon behind it. -/
theorem terminated_outcome (hcomparable : Comparable semi after after') {p : Phrase c Node}
    {p' : Phrase c' Node} {f : Node → Node} (hf : ∀ n, NoArray n → NoArrayStatement (f n))
    (h : Outcome semi after after' depth NoArray p.result p'.result) :
    Outcome semi after after' depth (fun v => ∃ n, v = some n ∧ NoArrayStatement n)
      (some (f p.value), p.reports, p.stop.skip .semicolon)
      (some (f p'.value), p'.reports, p'.stop.skip .semicolon) := by
  rcases h with h | ⟨hprobe, hstuck, hvalue⟩
  · obtain ⟨hvalue, hreports, hstop⟩ := h.parts
    rw [hvalue]
    exact .inl ⟨rfl, hreports, hstop.skip hcomparable⟩
  · have hstuck : p'.stop = stuck := hstuck
    refine .inr ⟨hprobe, ?_, _, rfl, hf _ hvalue⟩
    show p'.stop.skip .semicolon = stuck
    rw [hstuck, Cursor.skip, if_neg (by decide)]

theorem binding_outcome (hcomparable : Comparable semi after after') (hk : c.cur.kind = .kwLet)
    (hc : Inside semi after after' c c')
    (hvalue : (Uniform semi after after').expression depth .lowest c.advance.advance.advance) :
    Outcome semi after after' depth (fun v => ∃ n, v = some n ∧ NoArrayStatement n)
      (Phrase.statement depth c).result (Phrase.statement depth c').result := by
  rw [Phrase.result_statement_let hk, Phrase.result_statement_let (by rw [hc.cur, hk]), hc.peek,
    hc.cur]
  split
  · exact outcome_broken (.inl hc) rfl rfl
  rename_i hname
  rw [Decidable.not_not] at hname
  have hc' := hc.advance hname (by decide)
  rw [hc'.peek]
  split
  · exact outcome_broken (.inl hc') rfl rfl
  rename_i hequals
  rw [Decidable.not_not] at hequals
  exact terminated_outcome hcomparable (f := .letStmt c.cur (some ⟨c.peek, c.peek.literal⟩))
    (fun _ _ => noArray_letStmt) (hvalue (hc'.advance hequals (by decide)).twin)

theorem statement_outcome (hcomparable : Comparable semi after after')
    (hc : Twin semi after after' c c')
    (hbinding : (Uniform semi after after').expression depth .lowest c.advance.advance.advance)
    (hreturning : (Uniform semi after after').expression depth .lowest c.advance)
    (hexpression : (Uniform semi after after').expression depth .lowest c) :
    Outcome semi after after' depth (fun v => ∃ n, v = some n ∧ NoArrayStatement n)
      (Phrase.statement depth c).result (Phrase.statement depth c').result := by
  have hcur : c'.cur = c.cur := by
    rcases hc with hin | ⟨rfl, rfl⟩
    · exact hin.cur
    · rfl
  have hin (hne : c.cur.kind ≠ .semicolon) : Inside semi after after' c c' := by
    rcases hc with hin | ⟨rfl, rfl⟩
    · exact hin
    · exact absurd semi.2 hne
  by_cases hlet : c.cur.kind = .kwLet
  · exact binding_outcome hcomparable hlet (hin (by rw [hlet]; decide)) hbinding
  by_cases hreturn : c.cur.kind = .kwReturn
  · rw [Phrase.result_statement_return hreturn,
      Phrase.result_statement_return (by rw [hcur, hreturn]), hcur]
    exact terminated_outcome hcomparable (f := .returnStmt c.cur) (fun _ _ => noArray_returnStmt)
      (hreturning (hin (by rw [hreturn]; decide)).twin)
  · rw [Phrase.result_statement_expression hlet hreturn, Phrase.result_statement_expression
      (by rw [hcur]; exact hlet) (by rw [hcur]; exact hreturn), hcur]
    refine terminated_outcome hcomparable (f := .exprStmt c.cur) ?_ (hexpression hc)
    rintro n hn _ t elements ⟨⟩
    exact hn t elements rfl

/-- Reports of a statement make the list go on behind the next semicolon. -/
theorem Inside.recover {rs rs' : List Diagnostic} (hc : Inside semi after after' c c')
    (h : Matched depth rs rs') (hne : rs ≠ []) :
    c.recover depth rs = mark semi after ∧ c'.recover depth rs' = mark semi after' := by
  have hlast (ds : List Diagnostic) (hds : ds ≠ []) (hdepth : ∀ d ∈ ds, d.depth = depth) :
      ds.getLast?.map (·.depth) = some depth := by
    rw [List.getLast?_eq_some_getLast hds, Option.map_some, hdepth _ (List.getLast_mem hds)]
  have hne' : rs' ≠ [] := by
    rintro rfl
    cases h
    exact hne rfl
  obtain ⟨hstop, hstop'⟩ := hc.synchronize
  obtain ⟨hdepths, hdepths'⟩ := h.depths
  unfold Cursor.recover
  rw [if_pos (hlast rs hne hdepths), if_pos (hlast rs' hne' hdepths')]
  exact ⟨hstop, hstop'⟩

theorem recover_mark (after : List Token) (depth : Nat) (rs : List Diagnostic) :
    (mark semi after).recover depth rs = mark semi after := by
  unfold Cursor.recover
  split
  · rw [Cursor.synchronize, if_pos (.inl semi.2)]
  · rfl

/-- Behind a statement that ended at the semicolon, or was given up, the list goes on there. -/
theorem Twin.next {rs rs' : List Diagnostic} (hc : Twin semi after after' c c')
    (h : Matched depth rs rs') :
    (c.recover depth rs = mark semi after ∧ c'.recover depth rs' = mark semi after') ∨
      rs = [] ∧ rs' = [] ∧ Inside semi after after' c c' := by
  rcases hc with hin | ⟨rfl, rfl⟩
  · by_cases hnone : rs = []
    · subst hnone
      exact .inr ⟨rfl, List.forall₂_nil_left_iff.mp h, hin⟩
    · exact .inl (hin.recover h hnone)
  · exact .inl ⟨recover_mark after depth rs, recover_mark after' depth rs'⟩

theorem recover_stuck (depth : Nat) (rs : List Diagnostic) : stuck.recover depth rs = stuck := by
  unfold Cursor.recover
  split
  · rw [Cursor.synchronize, if_pos (.inr (.inr (.inr rfl)))]
  · rfl

theorem statements_open (depth : Nat) (hc : Twin semi after after' c c') :
    ¬(c.cur.kind = .eof ∨ (c.cur.kind = .rbrace ∧ 0 < depth)) ∧
      ¬(c'.cur.kind = .eof ∨ (c'.cur.kind = .rbrace ∧ 0 < depth)) := by
  have hkind : c.cur.kind ≠ .eof ∧ c.cur.kind ≠ .rbrace ∧ c'.cur = c.cur := by
    rcases hc with hin | ⟨rfl, rfl⟩
    · exact ⟨hin.kinds.2.2.2, hin.kinds.2.2.1, hin.cur⟩
    · have hsemi : (mark semi after).cur.kind = .semicolon := semi.2
      rw [hsemi]
      exact ⟨nofun, nofun, rfl⟩
  rw [hkind.2.2]
  exact ⟨fun h => h.elim hkind.1 fun h => hkind.2.1 h.1,
    fun h => h.elim hkind.1 fun h => hkind.2.1 h.1⟩

/-- A statement before others that are read alike. -/
theorem Splits.cons {first : List Node} {rs rs' : List Diagnostic}
    {r r' : List Node × List Diagnostic × Cursor} (h : Splits semi after after' depth r r')
    (hreports : Matched depth rs rs') :
    Splits semi after after' depth (first ++ r.1, rs ++ r.2.1, r.2.2)
      (first ++ r'.1, rs' ++ r'.2.1, r'.2.2) := by
  rcases h with ⟨ns, qs, qs', hqs, hr, hr'⟩ | ⟨hprobe, ns, n, hvalue, hn⟩
  · refine .inl ⟨first ++ ns, rs ++ qs, rs' ++ qs', hreports.append hqs, ?_, ?_⟩
    · rw [hr]
      simp
    · rw [hr']
      simp
  · refine .inr ⟨hprobe, first ++ ns, n, ?_, hn⟩
    rw [List.append_assoc, ← hvalue]

theorem statements_split (hc : Twin semi after after' c c')
    (hfirst : (Uniform semi after after').statement depth c)
    (hmore : (Uniform semi after after').statements depth
      ((Phrase.statement depth c).stop.recover depth (Phrase.statement depth c).reports).advance) :
    Splits semi after after' depth (Phrase.statements depth c).result
      (Phrase.statements depth c').result := by
  obtain ⟨hopen, hopen'⟩ := statements_open depth hc
  rw [Phrase.result_statements depth c, if_neg hopen, Phrase.result_statements depth c',
    if_neg hopen']
  dsimp only
  rcases hfirst hc with h | ⟨hprobe, hstuck, n, hvalue, hn⟩
  · obtain ⟨hvalue, hreports, hstop⟩ := h.parts
    rw [hvalue]
    rcases hstop.next hreports with ⟨hmark, hmark'⟩ | ⟨hnone, hnone', hin⟩
    · rw [hmark, hmark']
      exact .inl ⟨_, _, _, hreports, rfl, rfl⟩
    · have hstay (e : Cursor) : e.recover depth [] = e := if_neg nofun
      rw [hnone, hstay] at hmore
      rw [hnone, hnone', hstay, hstay]
      exact (hmore hin.twin).cons .nil
  · have hstuck : (Phrase.statement depth c').stop = stuck := hstuck
    have hvalue : (Phrase.statement depth c').value = some n := hvalue
    have hend : (Phrase.statements depth stuck.advance).result = ([], [], stuck.advance) := by
      rw [Phrase.result_statements, if_pos (.inl rfl)]
    rw [hstuck, recover_stuck, hvalue, Phrase.value_of_result hend]
    exact .inr ⟨hprobe, [], n, rfl, hn⟩

end Rules

theorem uniform_inductive {semi : Lexeme .semicolon} {after after' : List Token}
    (hcomparable : Comparable semi after after') : (Uniform semi after after').Inductive where
  statements depth c hfirst hmore c' hc := by
    have hreal : c.cur.kind ≠ .eof := fun heof => (statements_open 0 hc).1 (.inl heof)
    exact statements_split hc (hfirst hreal) (hmore hreal)
  statement depth c hbinding hreturning hexpression c' hc :=
    statement_outcome hcomparable hc hbinding hreturning hexpression
  block _ _ _ := trivial
  expression depth m c hfirst hmore c' hc := expression_outcome hc hfirst hmore
  operators depth m c left happlied hmore c' hc :=
    operators_outcome hcomparable hc happlied hmore
  application depth c left hitems hi hright c' hc :=
    application_outcome hcomparable hc hitems hi hright
  items depth close c hfirst hmore hclose c' hc := items_outcome hclose hc hfirst hmore
  moreItems depth close c hfirst hmore hclose c' hc :=
    moreItems_outcome hcomparable hclose hc hfirst hmore
  pairs _ _ _ _ _ := trivial
  operand depth c hright hinner hitems _ _ hcondition _ _ c' hc := by
    rcases hc with hc | ⟨rfl, rfl⟩
    · have hreal := hc.kinds.2.2.2
      by_cases hbegins : Phrase.beginsOperand c.cur.kind = false
      · exact none_outcome (.inl hc) hbegins hc.cur
      cases Phrase.operandForm hbegins with
      | leaf h =>
        rw [Phrase.result_operand_leaf h, Phrase.result_operand_leaf (by rw [hc.cur]; exact h)]
        exact outcome_done (.inl hc)
      | integer hk => exact integer_outcome hk hc
      | sign hk =>
        rw [Phrase.result_operand_sign hk,
          Phrase.result_operand_sign (by rw [hc.cur]; exact hk), hc.cur]
        exact (hright hreal hc.twin).map (f := Node.unary c.cur c.cur.literal) fun _ _ => nofun
      | group hk =>
        rw [Phrase.result_operand_group hk, Phrase.result_operand_group (by rw [hc.cur, hk])]
        exact outcome_closed hcomparable (f := id) (.inl rfl) (hinner hreal hc.twin)
      | array hk =>
        rw [Phrase.result_operand_array hk, Phrase.result_operand_array (by rw [hc.cur, hk]),
          hc.cur]
        refine (hitems hreal (.inr (.inl rfl)) hc).map
          (f := fun v => (v.map (Node.array c.cur)).getD Node.absent) ?_
        rintro _ rfl
        exact noArray_absent
      | hash hk => exact absurd hk hc.kinds.2.1
      | function hk => exact function_outcome hk hc
      | conditional hk => exact if_outcome hcomparable hk hc (hcondition hreal)
    · have hsemi : (mark semi after).cur.kind = .semicolon := semi.2
      exact none_outcome (.inr ⟨rfl, rfl⟩) (by rw [hsemi]; rfl) rfl

end Separator

end MonkeyLang
