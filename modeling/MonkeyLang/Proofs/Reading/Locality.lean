import MonkeyLang.Proofs.Reading.Induction

/-!
Reading looks one token ahead and no further: a phrase that stops before the end of a beginning of
the list, with the token behind it still in that beginning, does not depend on what comes after.
-/

namespace MonkeyLang

open Token (Kind)

namespace Cursor

variable {x x' : List Token} {c c' : Cursor}

/-- The cursors stand at the same token and have the same tokens before them, up to the ends `x`
and `x'` of their lists. -/
def Alike (x x' : List Token) (c c' : Cursor) : Prop :=
  c'.cur = c.cur ∧ ∃ ahead, c.rest = ahead ++ x ∧ c'.rest = ahead ++ x'

theorem Alike.exists_ahead (h : Alike x x' c c') (hleft : x.length < c.left) :
    ∃ t ahead, c.rest = t :: (ahead ++ x) ∧ c'.rest = t :: (ahead ++ x') := by
  obtain ⟨-, ahead, hc, hc'⟩ := h
  cases ahead with
  | nil =>
    simp only [left, hc, List.nil_append] at hleft
    omega
  | cons t ahead => exact ⟨t, ahead, hc, hc'⟩

theorem Alike.peek (h : Alike x x' c c') (hleft : x.length < c.left) : c'.peek = c.peek := by
  obtain ⟨t, ahead, hc, hc'⟩ := h.exists_ahead hleft
  rw [Cursor.peek, Cursor.peek, hc, hc']
  rfl

theorem Alike.advance (h : Alike x x' c c') (hleft : x.length < c.left) :
    Alike x x' c.advance c'.advance := by
  obtain ⟨t, ahead, hc, hc'⟩ := h.exists_ahead hleft
  refine ⟨h.peek hleft, ahead, ?_, ?_⟩
  · rw [rest_advance, hc]
    rfl
  · rw [rest_advance, hc']
    rfl

theorem Alike.skip (h : Alike x x' c c') (hleft : x.length < c.left) (k : Kind) :
    Alike x x' (c.skip k) (c'.skip k) := by
  unfold Cursor.skip
  rw [h.peek hleft]
  split
  · exact h.advance hleft
  · exact h

theorem Alike.unexpected (h : Alike x x' c c') (hleft : x.length < c.left) (depth : Nat)
    (k : Kind) : c'.unexpected depth k = c.unexpected depth k := by
  rw [Cursor.unexpected, Cursor.unexpected, Cursor.report, Cursor.report, h.1, h.peek hleft]

/-- The search for the end of a statement does not depend on what comes after it. -/
theorem Alike.synchronize (h : Alike x x' c c') (hleft : x.length < c.synchronize.left) :
    Alike x x' c.synchronize c'.synchronize := by
  induction c using Cursor.synchronize.induct generalizing c' with
  | case1 c hend =>
    rw [Cursor.synchronize, if_pos hend] at hleft ⊢
    rw [Cursor.synchronize, h.1, h.peek hleft, if_pos hend]
    exact h
  | case2 c hend ih =>
    rw [Cursor.synchronize, if_neg hend] at hleft ⊢
    have hc : x.length < c.left := by
      have hle := c.advance.left_synchronize_le
      rw [left_advance] at hle
      omega
    have hmoves : c'.synchronize = c'.advance.synchronize := by
      rw [Cursor.synchronize, h.1, h.peek hc, if_neg hend]
    rw [hmoves]
    exact ih (h.advance hc) hleft

theorem Alike.recover (h : Alike x x' c c') {depth : Nat} {reports : List Diagnostic}
    (hleft : x.length < (c.recover depth reports).left) :
    Alike x x' (c.recover depth reports) (c'.recover depth reports) := by
  unfold Cursor.recover at hleft ⊢
  split
  · rename_i hlast
    rw [if_pos hlast] at hleft
    exact h.synchronize hleft
  · exact h

end Cursor

namespace Phrase

open Cursor (Alike)

/-- Unless the first result stops within the end of its list, both are the same. -/
def Agrees {α : Type} (x x' : List Token) (r r' : α × List Diagnostic × Cursor) : Prop :=
  x.length < r.2.2.left → r'.1 = r.1 ∧ r'.2.1 = r.2.1 ∧ Alike x x' r.2.2 r'.2.2

variable {x x' : List Token}

theorem Agrees.parts {α : Type} {c c' : Cursor} {p : Phrase c α} {p' : Phrase c' α}
    (h : Agrees x x' p.result p'.result) (hstop : x.length < p.stop.left) :
    p'.value = p.value ∧ p'.reports = p.reports ∧ Alike x x' p.stop p'.stop :=
  h hstop

theorem lt_of_stop {α : Type} {c : Cursor} {n : Nat} (p : Phrase c α) (h : n < p.stop.left) :
    n < c.left :=
  Nat.lt_of_lt_of_le h p.le

theorem lt_of_advance {c : Cursor} {n : Nat} (h : n < c.advance.left) : n < c.left := by
  rw [Cursor.left_advance] at h
  omega

theorem parameterNames_local (depth : Nat) (c : Cursor) : ∀ ⦃c' : Cursor⦄, Alike x x' c c' →
    Agrees x x' (parameterNames depth c).result (parameterNames depth c').result := by
  intro c' hc hstop
  have hleft : x.length < c.left := Nat.lt_of_lt_of_le hstop (parameterNames depth c).le
  rw [result_parameterNames] at hstop ⊢
  rw [result_parameterNames, hc.peek hleft]
  split
  · rename_i hname
    rw [if_pos hname] at hstop
    dsimp only at hstop ⊢
    have hpos := Cursor.left_pos_of_peek hname (by decide)
    have hname' : x.length < c.advance.left := by
      split at hstop
      · have hle := (parameterNames depth c.advance.advance).le
        simp only [Cursor.left_advance] at hle hstop ⊢
        omega
      · split at hstop <;> simp only [Cursor.left_advance] at hstop ⊢ <;> omega
    rw [(hc.advance hleft).peek hname']
    split
    · rename_i hcomma
      rw [if_pos hcomma] at hstop
      obtain ⟨hv, hr, hs⟩ := parameterNames_local depth c.advance.advance
        ((hc.advance hleft).advance hname') hstop
      exact ⟨by rw [show (parameterNames depth c'.advance.advance).value = _ from hv]; rfl, hr, hs⟩
    · split
      · exact ⟨rfl, rfl, (hc.advance hleft).advance hname'⟩
      · exact ⟨rfl, by rw [(hc.advance hleft).unexpected hname'], hc.advance hleft⟩
  · exact ⟨rfl, by rw [hc.unexpected hleft], hc⟩
termination_by c.left
decreasing_by
  simp only [Cursor.left_advance]
  omega

theorem parameters_local (depth : Nat) {c c' : Cursor} (hc : Alike x x' c c') :
    Agrees x x' (parameters depth c).result (parameters depth c').result := by
  intro hstop
  have hleft : x.length < c.left := Nat.lt_of_lt_of_le hstop (parameters depth c).le
  rw [result_parameters] at hstop ⊢
  rw [result_parameters, hc.peek hleft]
  split
  · exact ⟨rfl, rfl, hc.advance hleft⟩
  · rename_i hne
    rw [if_neg hne] at hstop
    exact parameterNames_local depth c hc hstop

/-- What a phrase is depends on no token after the one behind it. -/
def Local (x x' : List Token) : Property where
  statements depth c := ∀ ⦃c' : Cursor⦄, Alike x x' c c' →
    Agrees x x' (statements depth c).result (statements depth c').result
  statement depth c := ∀ ⦃c' : Cursor⦄, Alike x x' c c' →
    Agrees x x' (statement depth c).result (statement depth c').result
  block depth c := ∀ ⦃c' : Cursor⦄, Alike x x' c c' →
    Agrees x x' (block depth c).result (block depth c').result
  expression depth m c := ∀ ⦃c' : Cursor⦄, Alike x x' c c' →
    Agrees x x' (expression depth m c).result (expression depth m c').result
  operators depth m c left := ∀ ⦃c' : Cursor⦄, Alike x x' c c' →
    Agrees x x' (operators depth m c left).result (operators depth m c' left).result
  application depth c left := ∀ ⦃c' : Cursor⦄, Alike x x' c c' →
    Agrees x x' (application depth c left).result (application depth c' left).result
  items depth close c := ∀ ⦃c' : Cursor⦄, Alike x x' c c' →
    Agrees x x' (items depth close c).result (items depth close c').result
  moreItems depth close c := ∀ ⦃c' : Cursor⦄, Alike x x' c c' →
    Agrees x x' (moreItems depth close c).result (moreItems depth close c').result
  pairs depth c := ∀ ⦃c' : Cursor⦄, Alike x x' c c' →
    Agrees x x' (pairs depth c).result (pairs depth c').result
  operand depth c := ∀ ⦃c' : Cursor⦄, Alike x x' c c' →
    Agrees x x' (operand depth c).result (operand depth c').result


section Rules

variable {depth : Nat} {c c' : Cursor} (hc : Alike x x' c c')

include hc

theorem statements_local
    (hopen : ¬(c.cur.kind = .eof ∨ (c.cur.kind = .rbrace ∧ 0 < depth)))
    (hfirst : (Local x x').statement depth c)
    (hmore : (Local x x').statements depth
      ((statement depth c).stop.recover depth (statement depth c).reports).advance) :
    Agrees x x' (statements depth c).result (statements depth c').result := by
  rw [result_statements depth c, result_statements depth c', hc.1, if_neg hopen, if_neg hopen]
  dsimp only
  intro hstop
  have hnext := lt_of_advance (lt_of_stop _ hstop)
  obtain ⟨hv, hr, hs⟩ := (hfirst hc).parts (Nat.lt_of_lt_of_le hnext (Cursor.left_recover_le ..))
  obtain ⟨hv', hr', hs'⟩ := (hmore ((hs.recover hnext).advance hnext)).parts hstop
  dsimp only
  rw [hv, hr, hv', hr']
  exact ⟨rfl, rfl, hs'⟩

theorem binding_local (hk : c.cur.kind = .kwLet)
    (hvalue : (Local x x').expression depth .lowest c.advance.advance.advance) :
    Agrees x x' (statement depth c).result (statement depth c').result := by
  intro hstop
  have hleft := lt_of_stop (statement depth c) hstop
  rw [result_statement_let hk] at hstop ⊢
  rw [result_statement_let (by rw [hc.1, hk]), hc.peek hleft, hc.1]
  split
  · exact ⟨rfl, by rw [hc.unexpected hleft], hc⟩
  rename_i hname
  rw [if_neg hname] at hstop
  have hleft' : x.length < c.advance.left := by
    split at hstop
    · exact hstop
    · exact lt_of_advance (lt_of_advance (lt_of_stop _
        (Nat.lt_of_lt_of_le hstop (Cursor.left_skip_le ..))))
  have hc' := hc.advance hleft
  rw [hc'.peek hleft']
  split
  · exact ⟨rfl, by rw [hc'.unexpected hleft'], hc'⟩
  rename_i hequals
  rw [if_neg hequals] at hstop
  have hstop' := Nat.lt_of_lt_of_le hstop (Cursor.left_skip_le ..)
  have hleft'' := lt_of_advance (lt_of_stop _ hstop')
  obtain ⟨hv, hr, hs⟩ := (hvalue ((hc'.advance hleft').advance hleft'')).parts hstop'
  dsimp only
  rw [hv, hr]
  exact ⟨rfl, rfl, hs.skip hstop' .semicolon⟩

theorem returning_local (hk : c.cur.kind = .kwReturn)
    (hvalue : (Local x x').expression depth .lowest c.advance) :
    Agrees x x' (statement depth c).result (statement depth c').result := by
  rw [result_statement_return hk, result_statement_return (by rw [hc.1, hk]), hc.1]
  intro hstop
  have hstop' := Nat.lt_of_lt_of_le hstop (Cursor.left_skip_le ..)
  have hleft := lt_of_advance (lt_of_stop _ hstop')
  obtain ⟨hv, hr, hs⟩ := (hvalue (hc.advance hleft)).parts hstop'
  dsimp only
  rw [hv, hr]
  exact ⟨rfl, rfl, hs.skip hstop' .semicolon⟩

theorem expressionStatement_local (hlet : c.cur.kind ≠ .kwLet) (hreturn : c.cur.kind ≠ .kwReturn)
    (hvalue : (Local x x').expression depth .lowest c) :
    Agrees x x' (statement depth c).result (statement depth c').result := by
  rw [result_statement_expression hlet hreturn,
    result_statement_expression (by rw [hc.1]; exact hlet) (by rw [hc.1]; exact hreturn), hc.1]
  intro hstop
  have hstop' := Nat.lt_of_lt_of_le hstop (Cursor.left_skip_le ..)
  obtain ⟨hv, hr, hs⟩ := (hvalue hc).parts hstop'
  dsimp only
  rw [hv, hr]
  exact ⟨rfl, rfl, hs.skip hstop' .semicolon⟩

theorem block_local (hbody : (Local x x').statements (depth + 1) c.advance) :
    Agrees x x' (block depth c).result (block depth c').result := by
  rw [result_block, result_block, hc.1]
  intro hstop
  have hleft := lt_of_advance (lt_of_stop _ hstop)
  obtain ⟨hv, hr, hs⟩ := (hbody (hc.advance hleft)).parts hstop
  dsimp only
  rw [hv, hr, Cursor.report, Cursor.report, hs.1]
  exact ⟨rfl, rfl, hs⟩

theorem expression_local {m : Precedence} (hfirst : (Local x x').operand depth c)
    (hmore : (Local x x').operators depth m (operand depth c).stop (operand depth c).value) :
    Agrees x x' (expression depth m c).result (expression depth m c').result := by
  rw [result_expression, result_expression]
  intro hstop
  obtain ⟨hv, hr, hs⟩ := (hfirst hc).parts (lt_of_stop _ hstop)
  obtain ⟨hv', hr', hs'⟩ := (hmore hs).parts hstop
  dsimp only
  rw [hv, hr, hv', hr']
  exact ⟨rfl, rfl, hs'⟩

theorem operators_local {m : Precedence} {left : Node}
    (happlied : c.peek.kind ≠ .eof → (Local x x').application depth c.advance left)
    (hmore : c.peek.kind ≠ .eof → (Local x x').operators depth m
      (application depth c.advance left).stop (application depth c.advance left).value) :
    Agrees x x' (operators depth m c left).result (operators depth m c' left).result := by
  intro hstop
  have hleft := lt_of_stop (operators depth m c left) hstop
  rw [result_operators] at hstop ⊢
  rw [result_operators, hc.peek hleft]
  split
  · exact ⟨rfl, rfl, hc⟩
  rename_i hgo
  rw [if_neg hgo] at hstop
  have hreal : c.peek.kind ≠ .eof := fun heof => hgo (.inr (by rw [heof]; exact Nat.zero_le _))
  obtain ⟨hv, hr, hs⟩ := (happlied hreal (hc.advance hleft)).parts (lt_of_stop _ hstop)
  obtain ⟨hv', hr', hs'⟩ := (hmore hreal hs).parts hstop
  dsimp only
  rw [hv, hr, hv', hr']
  exact ⟨rfl, rfl, hs'⟩

theorem application_local {left : Node} (hitems : (Local x x').items depth .rparen c)
    (hi : (Local x x').expression depth .lowest c.advance)
    (hright : (Local x x').expression depth c.cur.kind.precedence c.advance) :
    Agrees x x' (application depth c left).result (application depth c' left).result := by
  by_cases hparen : c.cur.kind = .lparen
  · rw [result_application_call hparen, result_application_call (by rw [hc.1, hparen]), hc.1]
    intro hstop
    obtain ⟨hv, hr, hs⟩ := (hitems hc).parts hstop
    dsimp only
    rw [hv, hr]
    exact ⟨rfl, rfl, hs⟩
  by_cases hbracket : c.cur.kind = .lbracket
  · rw [result_application_index hbracket, result_application_index (by rw [hc.1, hbracket]), hc.1]
    dsimp only
    intro hstop
    have hstop' : x.length < (expression depth .lowest c.advance).stop.left := by
      split at hstop
      · exact lt_of_advance hstop
      · exact hstop
    obtain ⟨hv, hr, hs⟩ := (hi (hc.advance (lt_of_advance (lt_of_stop _ hstop')))).parts hstop'
    rw [hs.peek hstop', hv, hr, hs.unexpected hstop']
    split
    · exact ⟨rfl, rfl, hs.advance hstop'⟩
    · exact ⟨rfl, rfl, hs⟩
  · rw [result_application_binary hparen hbracket,
      result_application_binary (by rw [hc.1]; exact hparen) (by rw [hc.1]; exact hbracket), hc.1]
    intro hstop
    obtain ⟨hv, hr, hs⟩ := (hright (hc.advance (lt_of_advance (lt_of_stop _ hstop)))).parts hstop
    dsimp only
    rw [hv, hr]
    exact ⟨rfl, rfl, hs⟩

theorem items_local {close : Kind} (hfirst : (Local x x').expression depth .lowest c.advance)
    (hmore : (Local x x').moreItems depth close (expression depth .lowest c.advance).stop) :
    Agrees x x' (items depth close c).result (items depth close c').result := by
  intro hstop
  have hleft := lt_of_stop (items depth close c) hstop
  rw [result_items] at hstop ⊢
  rw [result_items, hc.peek hleft]
  split
  · exact ⟨rfl, rfl, hc.advance hleft⟩
  rename_i hne
  rw [if_neg hne] at hstop
  obtain ⟨hv, hr, hs⟩ := (hfirst (hc.advance hleft)).parts (lt_of_stop _ hstop)
  obtain ⟨hv', hr', hs'⟩ := (hmore hs).parts hstop
  dsimp only
  rw [hv, hr, hv', hr']
  exact ⟨rfl, rfl, hs'⟩

theorem moreItems_local {close : Kind}
    (hfirst : (Local x x').expression depth .lowest c.advance.advance)
    (hmore : c.peek.kind = .comma →
      (Local x x').moreItems depth close (expression depth .lowest c.advance.advance).stop) :
    Agrees x x' (moreItems depth close c).result (moreItems depth close c').result := by
  intro hstop
  have hleft := lt_of_stop (moreItems depth close c) hstop
  rw [result_moreItems] at hstop ⊢
  rw [result_moreItems, hc.peek hleft]
  split
  · rename_i hcomma
    rw [if_pos hcomma] at hstop
    have hleft' := lt_of_advance (lt_of_stop _ (lt_of_stop _ hstop))
    obtain ⟨hv, hr, hs⟩ :=
      (hfirst ((hc.advance hleft).advance hleft')).parts (lt_of_stop _ hstop)
    obtain ⟨hv', hr', hs'⟩ := (hmore hcomma hs).parts hstop
    dsimp only
    rw [hv, hr, hv', hr']
    exact ⟨rfl, rfl, hs'⟩
  · split
    · exact ⟨rfl, rfl, hc.advance hleft⟩
    · exact ⟨rfl, by rw [hc.unexpected hleft], hc⟩

theorem pairs_local (hkey : (Local x x').expression depth .lowest c.advance)
    (hvalue : (Local x x').expression depth .lowest
      (expression depth .lowest c.advance).stop.advance.advance)
    (hmore : (expression depth .lowest
        (expression depth .lowest c.advance).stop.advance.advance).stop.peek.kind = .comma →
      (Local x x').pairs depth (expression depth .lowest
        (expression depth .lowest c.advance).stop.advance.advance).stop.advance) :
    Agrees x x' (pairs depth c).result (pairs depth c').result := by
  intro hstop
  have hleft := lt_of_stop (pairs depth c) hstop
  rw [result_pairs] at hstop ⊢
  rw [result_pairs, hc.peek hleft]
  split
  · exact ⟨rfl, rfl, hc.advance hleft⟩
  rename_i hne
  rw [if_neg hne] at hstop
  dsimp only at hstop ⊢
  have hkeyStop : x.length < (expression depth .lowest c.advance).stop.left := by
    split at hstop
    · exact hstop
    · refine lt_of_advance (lt_of_advance (lt_of_stop (expression depth .lowest _) ?_))
      split at hstop
      · exact lt_of_advance hstop
      · split at hstop
        · exact lt_of_advance (lt_of_stop _ hstop)
        · exact hstop
  obtain ⟨hv, hr, hs⟩ := (hkey (hc.advance hleft)).parts hkeyStop
  rw [hv, hr, hs.peek hkeyStop, hs.unexpected hkeyStop]
  split
  · exact ⟨rfl, rfl, hs⟩
  rename_i hcolon
  rw [if_neg hcolon] at hstop
  have hvalueStop : x.length < (expression depth .lowest
      (expression depth .lowest c.advance).stop.advance.advance).stop.left := by
    split at hstop
    · exact lt_of_advance hstop
    · split at hstop
      · exact lt_of_advance (lt_of_stop _ hstop)
      · exact hstop
  have hs' := (hs.advance hkeyStop).advance (lt_of_advance (lt_of_stop _ hvalueStop))
  obtain ⟨hv', hr', hs'⟩ := (hvalue hs').parts hvalueStop
  rw [hv', hr', hs'.peek hvalueStop, hs'.unexpected hvalueStop]
  split
  · exact ⟨rfl, rfl, hs'.advance hvalueStop⟩
  rename_i hlast
  rw [if_neg hlast] at hstop
  split
  · rename_i hcomma
    rw [if_pos hcomma] at hstop
    obtain ⟨hv'', hr'', hs''⟩ := (hmore hcomma (hs'.advance hvalueStop)).parts hstop
    rw [hv'', hr'']
    exact ⟨rfl, rfl, hs''⟩
  · exact ⟨rfl, rfl, hs'⟩

theorem sign_local (hk : c.cur.kind = .bang ∨ c.cur.kind = .minus)
    (hright : (Local x x').expression depth .sign c.advance) :
    Agrees x x' (operand depth c).result (operand depth c').result := by
  rw [result_operand_sign hk, result_operand_sign (by rw [hc.1]; exact hk), hc.1]
  intro hstop
  obtain ⟨hv, hr, hs⟩ := (hright (hc.advance (lt_of_advance (lt_of_stop _ hstop)))).parts hstop
  dsimp only
  rw [hv, hr]
  exact ⟨rfl, rfl, hs⟩

theorem group_local (hk : c.cur.kind = .lparen)
    (hinner : (Local x x').expression depth .lowest c.advance) :
    Agrees x x' (operand depth c).result (operand depth c').result := by
  rw [result_operand_group hk, result_operand_group (by rw [hc.1, hk])]
  dsimp only
  intro hstop
  have hstop' : x.length < (expression depth .lowest c.advance).stop.left := by
    split at hstop
    · exact lt_of_advance hstop
    · exact hstop
  obtain ⟨hv, hr, hs⟩ := (hinner (hc.advance (lt_of_advance (lt_of_stop _ hstop')))).parts hstop'
  rw [hs.peek hstop', hv, hr, hs.unexpected hstop']
  split
  · exact ⟨rfl, rfl, hs.advance hstop'⟩
  · exact ⟨rfl, rfl, hs⟩

theorem array_local (hk : c.cur.kind = .lbracket)
    (hitems : (Local x x').items depth .rbracket c) :
    Agrees x x' (operand depth c).result (operand depth c').result := by
  rw [result_operand_array hk, result_operand_array (by rw [hc.1, hk]), hc.1]
  intro hstop
  obtain ⟨hv, hr, hs⟩ := (hitems hc).parts hstop
  dsimp only
  rw [hv, hr]
  exact ⟨rfl, rfl, hs⟩

theorem hash_local (hk : c.cur.kind = .lbrace) (hpairs : (Local x x').pairs depth c) :
    Agrees x x' (operand depth c).result (operand depth c').result := by
  rw [result_operand_hash hk, result_operand_hash (by rw [hc.1, hk]), hc.1]
  intro hstop
  obtain ⟨hv, hr, hs⟩ := (hpairs hc).parts hstop
  dsimp only
  rw [hv, hr]
  exact ⟨rfl, rfl, hs⟩

theorem function_local (hk : c.cur.kind = .kwFn)
    (hbody : (Local x x').block depth (parameters depth c.advance).stop.advance) :
    Agrees x x' (operand depth c).result (operand depth c').result := by
  intro hstop
  have hleft := lt_of_stop (operand depth c) hstop
  rw [result_operand_function hk] at hstop ⊢
  rw [result_operand_function (by rw [hc.1, hk]), hc.peek hleft, hc.unexpected hleft, hc.1]
  split
  · exact ⟨rfl, rfl, hc⟩
  rename_i hl
  rw [if_neg hl] at hstop
  dsimp only at hstop ⊢
  have hstop' : x.length < (parameters depth c.advance).stop.left := by
    split at hstop
    · exact hstop
    · split at hstop
      · exact hstop
      · exact lt_of_advance (lt_of_stop _ hstop)
  obtain ⟨hv, hr, hs⟩ := (parameters_local depth (hc.advance hleft)).parts hstop'
  rw [hv, hr, hs.peek hstop', hs.unexpected hstop']
  split
  · exact ⟨rfl, rfl, hs⟩
  rename_i names hnames
  rw [hnames] at hstop
  split
  · exact ⟨rfl, rfl, hs⟩
  rename_i hbrace
  dsimp only at hstop
  rw [if_neg hbrace] at hstop
  obtain ⟨hv', hr', hs'⟩ := (hbody (hs.advance hstop')).parts hstop
  rw [hv', hr']
  exact ⟨rfl, rfl, hs'⟩

theorem if_local (hk : c.cur.kind = .kwIf)
    (hcondition : (Local x x').expression depth .lowest c.advance.advance)
    (hconsequence : (Local x x').block depth
      (expression depth .lowest c.advance.advance).stop.advance.advance)
    (halternative : (Local x x').block depth (block depth
      (expression depth .lowest c.advance.advance).stop.advance.advance).stop.advance.advance) :
    Agrees x x' (operand depth c).result (operand depth c').result := by
  intro hstop
  have hleft := lt_of_stop (operand depth c) hstop
  rw [result_operand_if hk] at hstop ⊢
  rw [result_operand_if (by rw [hc.1, hk]), hc.peek hleft, hc.unexpected hleft, hc.1]
  split
  · exact ⟨rfl, rfl, hc⟩
  rename_i hl
  rw [if_neg hl] at hstop
  dsimp only at hstop ⊢
  have hconditionStop : x.length < (expression depth .lowest c.advance.advance).stop.left := by
    split at hstop
    · exact hstop
    · refine lt_of_advance ?_
      split at hstop
      · exact hstop
      · refine lt_of_advance (lt_of_stop (block depth _) ?_)
        split at hstop
        · exact hstop
        · refine lt_of_advance ?_
          split at hstop
          · exact hstop
          · exact lt_of_advance (lt_of_stop _ hstop)
  have hleft' := lt_of_advance (lt_of_stop _ hconditionStop)
  obtain ⟨hv, hr, hs⟩ := (hcondition ((hc.advance hleft).advance hleft')).parts hconditionStop
  rw [hv, hr, hs.peek hconditionStop, hs.unexpected hconditionStop]
  split
  · exact ⟨rfl, rfl, hs⟩
  rename_i hparen
  rw [if_neg hparen] at hstop
  have hs := hs.advance hconditionStop
  have hparenLeft : x.length < (expression depth .lowest c.advance.advance).stop.advance.left := by
    split at hstop
    · exact hstop
    · refine lt_of_advance (lt_of_stop (block depth _) ?_)
      split at hstop
      · exact hstop
      · refine lt_of_advance ?_
        split at hstop
        · exact hstop
        · exact lt_of_advance (lt_of_stop _ hstop)
  rw [hs.peek hparenLeft, hs.unexpected hparenLeft]
  split
  · exact ⟨rfl, rfl, hs⟩
  rename_i hbrace
  rw [if_neg hbrace] at hstop
  have hconsequenceStop : x.length < (block depth
      (expression depth .lowest c.advance.advance).stop.advance.advance).stop.left := by
    split at hstop
    · exact hstop
    · refine lt_of_advance ?_
      split at hstop
      · exact hstop
      · exact lt_of_advance (lt_of_stop _ hstop)
  obtain ⟨hv', hr', hs'⟩ := (hconsequence (hs.advance hparenLeft)).parts hconsequenceStop
  rw [hv', hr', hs'.peek hconsequenceStop]
  split
  · exact ⟨rfl, rfl, hs'⟩
  rename_i helse
  rw [if_neg helse] at hstop
  have hs' := hs'.advance hconsequenceStop
  have helseLeft : x.length < (block depth (expression depth .lowest
      c.advance.advance).stop.advance.advance).stop.advance.left := by
    split at hstop
    · exact hstop
    · exact lt_of_advance (lt_of_stop _ hstop)
  rw [hs'.peek helseLeft, hs'.unexpected helseLeft]
  split
  · exact ⟨rfl, rfl, hs'⟩
  rename_i hbrace'
  rw [if_neg hbrace'] at hstop
  obtain ⟨hv'', hr'', hs''⟩ := (halternative (hs'.advance helseLeft)).parts hstop
  rw [hv'', hr'']
  exact ⟨rfl, rfl, hs''⟩

theorem leaf_local {n : Node} (h : Leaf c.cur n) :
    Agrees x x' (operand depth c).result (operand depth c').result := by
  rw [result_operand_leaf h, result_operand_leaf (n := n) (by rw [hc.1]; exact h)]
  exact fun _ => ⟨rfl, rfl, hc⟩

theorem integer_local (hk : c.cur.kind = .int) :
    Agrees x x' (operand depth c).result (operand depth c').result := by
  rw [result_operand_int hk, result_operand_int (by rw [hc.1, hk]), result_integer, result_integer,
    Cursor.report, Cursor.report, hc.1]
  split
  · split <;> exact fun _ => ⟨rfl, rfl, hc⟩
  · exact fun _ => ⟨rfl, rfl, hc⟩

end Rules

theorem local_inductive (x x' : List Token) : (Local x x').Inductive where
  statements depth c hfirst hmore c' hc := by
    by_cases hclosed : c.cur.kind = .eof ∨ (c.cur.kind = .rbrace ∧ 0 < depth)
    · rw [result_statements, result_statements, hc.1, if_pos hclosed, if_pos hclosed]
      exact fun _ => ⟨rfl, rfl, hc⟩
    · have hreal : c.cur.kind ≠ .eof := fun heof => hclosed (.inl heof)
      exact statements_local hc hclosed (hfirst hreal) (hmore hreal)
  statement depth c hbinding hreturning hexpression c' hc := by
    by_cases hlet : c.cur.kind = .kwLet
    · exact binding_local hc hlet hbinding
    by_cases hreturn : c.cur.kind = .kwReturn
    · exact returning_local hc hreturn hreturning
    · exact expressionStatement_local hc hlet hreturn hexpression
  block depth c hbody c' hc := block_local hc hbody
  expression depth m c hfirst hmore c' hc := expression_local hc hfirst hmore
  operators depth m c left happlied hmore c' hc := operators_local hc happlied hmore
  application depth c left hitems hi hright c' hc := application_local hc hitems hi hright
  items depth close c hfirst hmore c' hc := items_local hc hfirst hmore
  moreItems depth close c hfirst hmore c' hc := moreItems_local hc hfirst hmore
  pairs depth c hkey hvalue hmore c' hc := pairs_local hc hkey hvalue hmore
  operand depth c hright hinner hitems hpairs hbody hcondition hconsequence halternative c' hc := by
    by_cases hbegins : beginsOperand c.cur.kind = false
    · rw [result_operand_none hbegins, result_operand_none (by rw [hc.1]; exact hbegins),
        Cursor.report, Cursor.report, hc.1]
      exact fun _ => ⟨rfl, rfl, hc⟩
    have hreal := ne_eof_of_beginsOperand hbegins
    cases operandForm hbegins with
    | leaf h => exact leaf_local hc h
    | integer hk => exact integer_local hc hk
    | sign hk => exact sign_local hc hk (hright hreal)
    | group hk => exact group_local hc hk (hinner hreal)
    | array hk => exact array_local hc hk (hitems hreal)
    | hash hk => exact hash_local hc hk (hpairs hreal)
    | function hk => exact function_local hc hk (hbody hreal)
    | conditional hk =>
      exact if_local hc hk (hcondition hreal) (hconsequence hreal) (halternative hreal)

end Phrase

end MonkeyLang
