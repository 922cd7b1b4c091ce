import MonkeyLang.Proofs.Grammar.Completeness

/-!
A token list has at most one derivation. Two expressions that begin alike need not be equal, since
one may go on as the operand of an operator where the other ends: what is shown of them by
induction is that one is the leftmost part of the other (`Expr.aligns`). What may follow decides
then that neither goes on.
-/

namespace MonkeyLang.Grammar

open Token (Kind)
open Phrase (beginsOperand)

/-! ## Leftmost parts -/

def leadKind (ts : List Token) : Kind := (ts.head?.map (·.kind)).getD .eof

@[simp] theorem leadKind_cons (t : Token) (ts : List Token) : leadKind (t :: ts) = t.kind := rfl

/-- The derivation `d` before the tokens `r` is the leftmost part of `d'` before `r'`. -/
inductive LeftOf : Expr → List Token → Expr → List Token → Prop
  | refl (d : Expr) (r : List Token) : LeftOf d r d r
  | call {d d' : Expr} {l : Lexeme .lparen} {items : Items} {e : Lexeme .rparen}
      {r r' : List Token} :
      LeftOf (.call d l items e) r d' r' → LeftOf d (l.1 :: (items.tokens ++ e.1 :: r)) d' r'
  | index {d d' i : Expr} {l : Lexeme .lbracket} {e : Lexeme .rbracket} {r r' : List Token} :
      LeftOf (.index d l i e) r d' r' → LeftOf d (l.1 :: (i.tokens ++ e.1 :: r)) d' r'
  | binary {d d' right : Expr} {op : OperatorLexeme} {r r' : List Token} :
      LeftOf (.binary d op right) r d' r' → LeftOf d (op.1 :: (right.tokens ++ r)) d' r'

theorem LeftOf.trans {d₁ d₂ d₃ : Expr} {r₁ r₂ r₃ : List Token} (h : LeftOf d₁ r₁ d₂ r₂)
    (h' : LeftOf d₂ r₂ d₃ r₃) : LeftOf d₁ r₁ d₃ r₃ := by
  induction h with
  | refl => exact h'
  | call _ ih => exact .call (ih h')
  | index _ ih => exact .index (ih h')
  | binary _ ih => exact .binary (ih h')

theorem LeftOf.valid {d d' : Expr} {r r' : List Token} (h : LeftOf d r d' r') (hv : d'.Valid) :
    d.Valid := by
  induction h with
  | refl => exact hv
  | call _ ih => exact (ih hv).1
  | index _ ih => exact (ih hv).1
  | binary _ ih => exact (ih hv).1

/-- What comes behind a proper leftmost part is an operator, between the levels of the part and the
whole. -/
theorem LeftOf.lead {d d' : Expr} {r r' : List Token} (h : LeftOf d r d' r') (hv : d'.Valid) :
    (d = d' ∧ r = r') ∨ (0 < operatorLevel (leadKind r) ∧ d'.level ≤ operatorLevel (leadKind r) ∧
      operatorLevel (leadKind r) ≤ d.level) := by
  induction h with
  | refl => exact .inl ⟨rfl, rfl⟩
  | @call d d' l items e r r' h ih =>
    have hlevel : d'.level ≤ 6 := by
      rcases ih hv with ⟨rfl, -⟩ | ⟨-, hle, hle'⟩
      · exact Nat.le_refl 6
      · exact Nat.le_trans hle hle'
    rw [leadKind_cons, l.2]
    exact .inr ⟨by decide, hlevel, (h.valid hv).2.1⟩
  | @index d d' i l e r r' h ih =>
    have hlevel : d'.level ≤ 6 := by
      rcases ih hv with ⟨rfl, -⟩ | ⟨-, hle, hle'⟩
      · exact Nat.le_refl 6
      · exact Nat.le_trans hle hle'
    rw [leadKind_cons, l.2]
    exact .inr ⟨by decide, hlevel, (h.valid hv).2.1⟩
  | @binary d d' right op r r' h ih =>
    have hlevel : d'.level ≤ operatorLevel op.1.kind := by
      rcases ih hv with ⟨rfl, -⟩ | ⟨-, hle, hle'⟩
      · exact Nat.le_refl _
      · exact Nat.le_trans hle hle'
    rw [leadKind_cons]
    exact .inr ⟨op.2.1, hlevel, (h.valid hv).2.2.1⟩

theorem operatorLevel_ne_five (k : Kind) : operatorLevel k ≠ 5 := by
  cases k <;> decide

/-- A leftmost part that no operator above level `m` follows is the whole, if the whole is above
the level. -/
theorem LeftOf.eq {d d' : Expr} {r r' : List Token} {m : Nat} (h : LeftOf d r d' r')
    (hv : d'.Valid) (hm : m ≤ 5) (hlevel : min m 4 < d'.level) (hr : MayFollow m (leadKind r)) :
    d = d' ∧ r = r' := by
  rcases h.lead hv with heq | ⟨-, hle, -⟩
  · exact heq
  · have hr := hr.1
    have hne := operatorLevel_ne_five (leadKind r)
    omega

theorem LeftOf.mayFollow {d d' : Expr} {r r' : List Token} (h : LeftOf d r d' r') (hv : d'.Valid)
    (hr' : MayFollow d'.level (leadKind r')) : MayFollow d.level (leadKind r) := by
  rcases h.lead hv with ⟨rfl, rfl⟩ | ⟨hpos, -, hle⟩
  · exact hr'
  · refine ⟨hle, fun helse => ?_⟩
    rw [helse] at hpos
    exact absurd hpos (by decide)

/-- Of the two derivations that begin a token list, one is the leftmost part of the other. -/
def Expr.Aligns (d : Expr) : Prop :=
  ∀ ⦃d' : Expr⦄ ⦃r r' : List Token⦄, d'.Valid → MayFollow d.level (leadKind r) →
    MayFollow d'.level (leadKind r') → d.tokens ++ r = d'.tokens ++ r' →
      LeftOf d r d' r' ∨ LeftOf d' r' d r

theorem Expr.Aligns.eq {d d' : Expr} {r r' : List Token} {m : Nat} (hd : d.Aligns) (hv : d.Valid)
    (hv' : d'.Valid) (hm : m ≤ 5) (hlevel : min m 4 < d.level) (hlevel' : min m 4 < d'.level)
    (hr : MayFollow m (leadKind r)) (hr' : MayFollow m (leadKind r'))
    (h : d.tokens ++ r = d'.tokens ++ r') : d = d' ∧ r = r' := by
  rcases hd hv' (hr.mono (by omega)) (hr'.mono (by omega)) h with hleft | hleft
  · exact hleft.eq hv' hm hlevel' hr
  · obtain ⟨rfl, rfl⟩ := hleft.eq hv hm hlevel hr'
    exact ⟨rfl, rfl⟩

theorem Expr.Aligns.eq_whole {d d' : Expr} {r r' : List Token} (hd : d.Aligns) (hv : d.Valid)
    (hv' : d'.Valid) (hr : MayFollow 0 (leadKind r)) (hr' : MayFollow 0 (leadKind r'))
    (h : d.tokens ++ r = d'.tokens ++ r') : d = d' ∧ r = r' :=
  hd.eq hv hv' (Nat.zero_le 5) (by simpa using d.level_pos) (by simpa using d'.level_pos) hr hr' h

/-! ## Operands

A derivation that is no operand of an operator to its right is told by its first token. -/

/-- The kind of the first token of an operand, the signs taken as one; `eof` for what begins with
an operand of its own. -/
def Expr.form : Expr → Kind
  | .identifier _ => .ident
  | .integer _ => .int
  | .string _ => .string
  | .truth _ => .kwTrue
  | .falsehood _ => .kwFalse
  | .group _ _ _ => .lparen
  | .array _ _ _ => .lbracket
  | .hash _ _ _ => .lbrace
  | .function _ _ _ _ _ => .kwFn
  | .ifThen _ _ _ _ _ | .ifElse _ _ _ _ _ _ _ => .kwIf
  | .unary _ _ => .bang
  | .call _ _ _ _ | .index _ _ _ _ | .binary _ _ _ => .eof

def formOf (k : Kind) : Kind := if k = .minus then .bang else k

theorem Expr.formOf_head {d : Expr} (hd : d.form ≠ .eof) (r : List Token) :
    formOf (leadKind (d.tokens ++ r)) = d.form := by
  cases d with
  | integer t => rw [Expr.tokens, List.cons_append, leadKind_cons, t.2.1]; rfl
  | unary op right =>
    rw [Expr.tokens, List.cons_append, leadKind_cons]
    rcases op.2 with hk | hk <;> rw [hk] <;> rfl
  | call | index | binary => exact absurd rfl hd
  | identifier t | string t | truth t | falsehood t | group t | array t | hash t | function t
  | ifThen t | ifElse t => rw [Expr.tokens, List.cons_append, leadKind_cons, t.2]; rfl

theorem Expr.form_eq {d d' : Expr} {r r' : List Token} (hd : d.form ≠ .eof) (hd' : d'.form ≠ .eof)
    (h : d.tokens ++ r = d'.tokens ++ r') : d.form = d'.form := by
  rw [← Expr.formOf_head hd r, h, Expr.formOf_head hd' r']

/-- An operand is the leftmost part of every derivation that begins alike, if it is equal to every
operand that does. -/
theorem leftOf_of_operand {d : Expr} {r : List Token} (hd : d.form ≠ .eof)
    (hunique : ∀ d' r', d'.form = d.form → d'.Valid → MayFollow d'.level (leadKind r') →
      d.tokens ++ r = d'.tokens ++ r' → d = d' ∧ r = r') :
    ∀ d' r', d'.Valid → MayFollow d'.level (leadKind r') → d.tokens ++ r = d'.tokens ++ r' →
      LeftOf d r d' r'
  | .call callee l items e, r', hv, _, h => by
    rw [Expr.tokens, List.append_assoc, List.cons_append, List.append_assoc] at h
    have hnext : MayFollow callee.level (leadKind (l.1 :: (items.tokens ++ e.1 :: r'))) := by
      rw [leadKind_cons, l.2]
      exact ⟨hv.2.1, by decide⟩
    exact (leftOf_of_operand hd hunique callee _ hv.1 hnext h).trans (.call (.refl _ _))
  | .index left l i e, r', hv, _, h => by
    rw [Expr.tokens, List.append_assoc, List.cons_append, List.append_assoc] at h
    have hnext : MayFollow left.level (leadKind (l.1 :: (i.tokens ++ e.1 :: r'))) := by
      rw [leadKind_cons, l.2]
      exact ⟨hv.2.1, by decide⟩
    exact (leftOf_of_operand hd hunique left _ hv.1 hnext h).trans (.index (.refl _ _))
  | .binary left op right, r', hv, _, h => by
    rw [Expr.tokens, List.append_assoc, List.cons_append] at h
    have hnext : MayFollow left.level (leadKind (op.1 :: (right.tokens ++ r'))) :=
      ⟨hv.2.2.1, fun helse => absurd op.2.1 (by rw [show op.1.kind = _ from helse]; decide)⟩
    exact (leftOf_of_operand hd hunique left _ hv.1 hnext h).trans (.binary (.refl _ _))
  | .identifier _, r', hv, hr, h | .integer _, r', hv, hr, h | .string _, r', hv, hr, h
  | .truth _, r', hv, hr, h | .falsehood _, r', hv, hr, h | .group _ _ _, r', hv, hr, h
  | .array _ _ _, r', hv, hr, h | .hash _ _ _, r', hv, hr, h | .function _ _ _ _ _, r', hv, hr, h
  | .ifThen _ _ _ _ _, r', hv, hr, h | .ifElse _ _ _ _ _ _ _, r', hv, hr, h
  | .unary _ _, r', hv, hr, h => by
    obtain ⟨rfl, rfl⟩ := hunique _ r' (Expr.form_eq hd (by simp [Expr.form]) h).symm hv hr h
    exact .refl _ _

theorem Expr.aligns_of_operand {d : Expr} (hd : d.form ≠ .eof)
    (hunique : ∀ d' r r', d'.form = d.form → d'.Valid → MayFollow d.level (leadKind r) →
      MayFollow d'.level (leadKind r') → d.tokens ++ r = d'.tokens ++ r' → d = d' ∧ r = r') :
    d.Aligns := by
  intro d' r r' hv' hr hr' h
  refine .inl (leftOf_of_operand hd ?_ d' r' hv' hr' h)
  intro d'' r'' hform hv'' hr'' h''
  exact hunique d'' r r'' hform hv'' hr hr'' h''

/-! ## What stands behind a part -/

theorem mayFollow_lexeme {k : Kind} (t : Lexeme k) (r : List Token)
    (hk : k = .rparen ∨ k = .rbracket ∨ k = .rbrace ∨ k = .comma ∨ k = .colon ∨ k = .semicolon) :
    MayFollow 0 (leadKind (t.1 :: r)) := by
  rw [leadKind_cons, t.2]
  exact mayFollow_closing hk

/-- An expression before a token that closes it is determined together with that token. -/
theorem Expr.Aligns.eq_closed {d d' : Expr} {k : Kind} {e e' : Lexeme k} {r r' : List Token}
    (hd : d.Aligns) (hv : d.Valid) (hv' : d'.Valid)
    (hk : k = .rparen ∨ k = .rbracket ∨ k = .rbrace ∨ k = .comma ∨ k = .colon ∨ k = .semicolon)
    (h : d.tokens ++ e.1 :: r = d'.tokens ++ e'.1 :: r') : d = d' ∧ e = e' ∧ r = r' := by
  obtain ⟨rfl, hlast⟩ := hd.eq_whole hv hv' (mayFollow_lexeme e r hk) (mayFollow_lexeme e' r' hk) h
  simp only [List.cons.injEq, ← Subtype.ext_iff] at hlast
  exact ⟨rfl, hlast⟩

theorem operatorLexeme_ne (op : OperatorLexeme) {k : Kind} (hk : k = .lparen ∨ k = .lbracket) :
    op.1.kind ≠ k := by
  rintro rfl
  rcases hk with hk | hk <;> exact absurd op.2.2 (by rw [hk]; decide)

theorem leadKind_operand (d : Expr) (r : List Token) :
    beginsOperand (leadKind (d.tokens ++ r)) = true := by
  obtain ⟨t, ts, ht, hbegins⟩ := d.exists_head
  rw [ht]
  exact hbegins

theorem leadKind_statement (s : Statement) (r : List Token) :
    beginsStatement (leadKind (s.tokens ++ r)) = true := by
  obtain ⟨t, ts, ht, hbegins⟩ := s.exists_head
  rw [ht]
  exact hbegins

theorem MoreItems.mayFollow_leadKind (items : MoreItems) {t : Token} (r : List Token)
    (ht : t.kind = .rparen ∨ t.kind = .rbracket) :
    MayFollow 0 (leadKind (items.tokens ++ t :: r)) := by
  apply mayFollow_closing
  cases items with
  | done =>
    rw [MoreItems.tokens, List.nil_append, leadKind_cons]
    rcases ht with ht | ht <;> simp [ht]
  | next comma item more =>
    rw [MoreItems.tokens, List.cons_append, leadKind_cons, comma.2]
    simp

theorem MoreEntries.mayFollow_leadKind (more : MoreEntries) {t : Token} (r : List Token)
    (ht : t.kind = .rbrace) : MayFollow 0 (leadKind (more.tokens ++ t :: r)) := by
  apply mayFollow_closing
  cases more with
  | done =>
    rw [MoreEntries.tokens, List.nil_append, leadKind_cons]
    simp [ht]
  | comma comma =>
    rw [MoreEntries.tokens, List.cons_append, leadKind_cons, comma.2]
    simp
  | next comma key colon value more =>
    rw [MoreEntries.tokens, List.cons_append, leadKind_cons, comma.2]
    simp

/-- What stands behind a statement of a list: another statement or the token that closes the
list. -/
theorem Statements.leadKind_more (more : Statements) {t : Token} (r : List Token)
    (ht : t.kind = .eof ∨ t.kind = .rbrace) :
    leadKind (more.tokens ++ t :: r) ≠ .kwElse ∧ leadKind (more.tokens ++ t :: r) ≠ .semicolon ∧
      operatorLevel (leadKind (more.tokens ++ t :: r)) = leadLevel more.tokens := by
  cases more with
  | done =>
    rw [Statements.tokens, List.nil_append, leadKind_cons]
    rcases ht with ht | ht <;> simp [ht, operatorLevel, leadLevel]
  | next first more =>
    obtain ⟨u, us, hu, hbegins⟩ := first.exists_head
    rw [Statements.tokens, hu, List.cons_append, List.cons_append, leadKind_cons]
    refine ⟨?_, ?_, rfl⟩ <;>
      · intro hk
        simp [beginsStatement, beginsOperand, hk] at hbegins

/-- An expression and the semicolon behind it, if there is one, are determined together. -/
theorem Expr.Aligns.eq_terminated {d d' : Expr} {semicolon semicolon' : Option (Lexeme .semicolon)}
    {r r' : List Token} (hd : d.Aligns) (hv : d.Valid) (hv' : d'.Valid)
    (hr : semicolon.isSome = false → MayFollow 0 (leadKind r) ∧ leadKind r ≠ .semicolon)
    (hr' : semicolon'.isSome = false → MayFollow 0 (leadKind r') ∧ leadKind r' ≠ .semicolon)
    (h : d.tokens ++ (ending semicolon ++ r) = d'.tokens ++ (ending semicolon' ++ r')) :
    d = d' ∧ semicolon = semicolon' ∧ r = r' := by
  have hnext : ∀ {o : Option (Lexeme .semicolon)} {r : List Token},
      (o.isSome = false → MayFollow 0 (leadKind r) ∧ leadKind r ≠ .semicolon) →
        MayFollow 0 (leadKind (ending o ++ r)) := by
    intro o r hr
    cases o with
    | none => exact (hr rfl).1
    | some t =>
      refine mayFollow_closing ?_
      rw [show leadKind (ending (some t) ++ r) = t.1.kind from rfl, t.2]
      simp
  obtain ⟨rfl, hends⟩ := hd.eq_whole hv hv' (hnext hr) (hnext hr') h
  cases semicolon with
  | none =>
    cases semicolon' with
    | none => exact ⟨rfl, rfl, hends⟩
    | some t =>
      refine absurd t.2 ?_
      rw [show r = t.1 :: r' from hends] at hr
      exact (hr rfl).2
  | some t =>
    cases semicolon' with
    | none =>
      refine absurd t.2 ?_
      rw [show r' = t.1 :: r from hends.symm] at hr'
      exact (hr' rfl).2
    | some t' =>
      obtain ⟨ht, hrest⟩ := List.cons.inj hends
      exact ⟨rfl, by rw [Subtype.ext ht], hrest⟩

theorem kind_eq {k k' : Kind} (t : Lexeme k) (t' : Lexeme k') (h : t.1 = t'.1) : k = k' := by
  rw [← t.2, h, t'.2]

theorem eq_of_moreNames {e e' : Lexeme .rparen} {r r' : List Token} :
    ∀ {more more' : List (Lexeme .comma × Lexeme .ident)},
      (more.flatMap fun p => [p.1.1, p.2.1]) ++ e.1 :: r =
        (more'.flatMap fun p => [p.1.1, p.2.1]) ++ e'.1 :: r' → more = more' ∧ e = e' ∧ r = r'
  | [], [], h => by
    obtain ⟨he, hr⟩ := List.cons.inj h
    exact ⟨rfl, Subtype.ext he, hr⟩
  | [], (comma, name) :: more, h =>
    Kind.noConfusion (kind_eq e comma (List.cons.inj h).1)
  | (comma, name) :: more, [], h =>
    Kind.noConfusion (kind_eq comma e' (List.cons.inj h).1)
  | (comma, name) :: more, (comma', name') :: more', h => by
    simp only [List.flatMap_cons, List.cons_append, List.nil_append, List.cons.injEq,
      ← Subtype.ext_iff] at h
    obtain ⟨rfl, rfl, h⟩ := h
    obtain ⟨rfl, he, hr⟩ := eq_of_moreNames h
    exact ⟨rfl, he, hr⟩

theorem Names.eq_of_tokens {names names' : Names} {e e' : Lexeme .rparen} {r r' : List Token}
    (h : names.tokens ++ e.1 :: r = names'.tokens ++ e'.1 :: r') :
    names = names' ∧ e = e' ∧ r = r' := by
  cases names with
  | empty =>
    cases names' with
    | empty =>
      obtain ⟨he, hr⟩ := List.cons.inj h
      exact ⟨rfl, Subtype.ext he, hr⟩
    | list first more => exact Kind.noConfusion (kind_eq e first (List.cons.inj h).1)
  | list first more =>
    cases names' with
    | empty => exact Kind.noConfusion (kind_eq first e' (List.cons.inj h).1)
    | list first' more' =>
      simp only [Names.tokens, List.cons_append, List.cons.injEq, ← Subtype.ext_iff] at h
      obtain ⟨rfl, h⟩ := h
      obtain ⟨rfl, he, hr⟩ := eq_of_moreNames h
      exact ⟨rfl, he, hr⟩

/-! ## Behind an operator

Where a derivation and an operator begin a token list, every other derivation that begins it is the
left operand or has the operator too. -/

section Operators

variable {d d' : Expr} {r r' : List Token} (hv : d'.Valid)

include hv

theorem LeftOf.behind_call {l : Lexeme .lparen} {items : Items} {e : Lexeme .rparen}
    (hunique : ∀ ⦃items' : Items⦄ ⦃e' : Lexeme .rparen⦄ ⦃r'' : List Token⦄, items'.Valid →
      items.tokens ++ e.1 :: r = items'.tokens ++ e'.1 :: r'' →
        items = items' ∧ e.1 = e'.1 ∧ r = r'')
    (h : LeftOf d (l.1 :: (items.tokens ++ e.1 :: r)) d' r') :
    LeftOf (.call d l items e) r d' r' ∨ LeftOf d' r' (.call d l items e) r := by
  generalize hq : l.1 :: (items.tokens ++ e.1 :: r) = q at h
  cases h with
  | refl =>
    rw [← hq]
    exact .inr (.call (.refl _ _))
  | call h =>
    simp only [List.cons.injEq, ← Subtype.ext_iff] at hq
    obtain ⟨rfl, hq⟩ := hq
    obtain ⟨rfl, he, rfl⟩ := hunique (h.valid hv).2.2 hq
    obtain rfl := Subtype.ext he
    exact .inl h
  | index h => exact Kind.noConfusion (kind_eq _ _ (List.cons.inj hq).1)
  | @binary _ _ _ op _ _ h =>
    exact absurd (l.2 ▸ congrArg (·.kind) (List.cons.inj hq).1.symm)
      (operatorLexeme_ne op (.inl rfl))

theorem LeftOf.behind_index {l : Lexeme .lbracket} {i : Expr} {e : Lexeme .rbracket}
    (hunique : ∀ ⦃i' : Expr⦄ ⦃e' : Lexeme .rbracket⦄ ⦃r'' : List Token⦄, i'.Valid →
      i.tokens ++ e.1 :: r = i'.tokens ++ e'.1 :: r'' → i = i' ∧ e = e' ∧ r = r'')
    (h : LeftOf d (l.1 :: (i.tokens ++ e.1 :: r)) d' r') :
    LeftOf (.index d l i e) r d' r' ∨ LeftOf d' r' (.index d l i e) r := by
  generalize hq : l.1 :: (i.tokens ++ e.1 :: r) = q at h
  cases h with
  | refl =>
    rw [← hq]
    exact .inr (.index (.refl _ _))
  | call h => exact Kind.noConfusion (kind_eq _ _ (List.cons.inj hq).1)
  | index h =>
    simp only [List.cons.injEq, ← Subtype.ext_iff] at hq
    obtain ⟨rfl, hq⟩ := hq
    obtain ⟨rfl, rfl, rfl⟩ := hunique (h.valid hv).2.2 hq
    exact .inl h
  | @binary _ _ _ op _ _ h =>
    exact absurd (l.2 ▸ congrArg (·.kind) (List.cons.inj hq).1.symm)
      (operatorLexeme_ne op (.inr rfl))

theorem LeftOf.behind_binary {op : OperatorLexeme} {right : Expr}
    (hr' : MayFollow d'.level (leadKind r'))
    (hunique : ∀ ⦃right' : Expr⦄ ⦃r'' : List Token⦄, right'.Valid →
      operatorLevel op.1.kind < right'.level → MayFollow (operatorLevel op.1.kind) (leadKind r'') →
      right.tokens ++ r = right'.tokens ++ r'' → right = right' ∧ r = r'')
    (h : LeftOf d (op.1 :: (right.tokens ++ r)) d' r') :
    LeftOf (.binary d op right) r d' r' ∨ LeftOf d' r' (.binary d op right) r := by
  generalize hq : op.1 :: (right.tokens ++ r) = q at h
  cases h with
  | refl =>
    rw [← hq]
    exact .inr (.binary (.refl _ _))
  | @call _ _ l _ _ _ _ h =>
    exact absurd (l.2 ▸ congrArg (·.kind) (List.cons.inj hq).1) (operatorLexeme_ne op (.inl rfl))
  | @index _ _ _ l _ _ _ h =>
    exact absurd (l.2 ▸ congrArg (·.kind) (List.cons.inj hq).1) (operatorLexeme_ne op (.inr rfl))
  | binary h =>
    simp only [List.cons.injEq, ← Subtype.ext_iff] at hq
    obtain ⟨rfl, hq⟩ := hq
    obtain ⟨-, hvr, -, hlevel⟩ := h.valid hv
    obtain ⟨rfl, rfl⟩ := hunique hvr hlevel (h.mayFollow hv hr') hq
    exact .inl h

end Operators

/-! ## One lemma for each form of expression

An expression is aligned with all others if its parts are determined by their tokens. -/

def Items.Unique (items : Items) : Prop :=
  ∀ ⦃items' : Items⦄ ⦃t t' : Token⦄ ⦃r r' : List Token⦄, items'.Valid →
    t.kind = .rparen ∨ t.kind = .rbracket → t'.kind = .rparen ∨ t'.kind = .rbracket →
      items.tokens ++ t :: r = items'.tokens ++ t' :: r' → items = items' ∧ t = t' ∧ r = r'

def Entries.Unique (entries : Entries) : Prop :=
  ∀ ⦃entries' : Entries⦄ ⦃t t' : Token⦄ ⦃r r' : List Token⦄, entries'.Valid →
    t.kind = .rbrace → t'.kind = .rbrace →
      entries.tokens ++ t :: r = entries'.tokens ++ t' :: r' →
        entries = entries' ∧ t = t' ∧ r = r'

def Block.Unique (b : Block) : Prop :=
  ∀ ⦃b' : Block⦄ ⦃r r' : List Token⦄, b'.Valid → b.tokens ++ r = b'.tokens ++ r' → b = b' ∧ r = r'

/-- An operand of one token is determined by that token and the form. -/
theorem Expr.aligns_of_token {d : Expr} {t : Token} (hd : d.form ≠ .eof) (ht : d.tokens = [t])
    (h : ∀ d' : Expr, d'.form = d.form → ∃ t', d'.tokens = [t'] ∧ (t = t' → d = d')) :
    d.Aligns := by
  refine Expr.aligns_of_operand hd ?_
  intro d' r r' hform _ _ _ heq
  obtain ⟨t', ht', hd'⟩ := h d' hform
  rw [ht, ht'] at heq
  obtain ⟨htoken, hr⟩ := List.cons.inj heq
  exact ⟨hd' htoken, hr⟩

theorem aligns_identifier (t : Lexeme .ident) : (Expr.identifier t).Aligns := by
  refine Expr.aligns_of_token (by simp [Expr.form]) rfl fun d' hform => ?_
  cases d' with
  | identifier t' => exact ⟨t'.1, rfl, fun h => by rw [Subtype.ext h]⟩
  | _ => exact Kind.noConfusion hform

theorem aligns_integer (t : IntLexeme) : (Expr.integer t).Aligns := by
  refine Expr.aligns_of_token (by simp [Expr.form]) rfl fun d' hform => ?_
  cases d' with
  | integer t' => exact ⟨t'.1, rfl, fun h => by rw [Subtype.ext h]⟩
  | _ => exact Kind.noConfusion hform

theorem aligns_string (t : Lexeme .string) : (Expr.string t).Aligns := by
  refine Expr.aligns_of_token (by simp [Expr.form]) rfl fun d' hform => ?_
  cases d' with
  | string t' => exact ⟨t'.1, rfl, fun h => by rw [Subtype.ext h]⟩
  | _ => exact Kind.noConfusion hform

theorem aligns_truth (t : Lexeme .kwTrue) : (Expr.truth t).Aligns := by
  refine Expr.aligns_of_token (by simp [Expr.form]) rfl fun d' hform => ?_
  cases d' with
  | truth t' => exact ⟨t'.1, rfl, fun h => by rw [Subtype.ext h]⟩
  | _ => exact Kind.noConfusion hform

theorem aligns_falsehood (t : Lexeme .kwFalse) : (Expr.falsehood t).Aligns := by
  refine Expr.aligns_of_token (by simp [Expr.form]) rfl fun d' hform => ?_
  cases d' with
  | falsehood t' => exact ⟨t'.1, rfl, fun h => by rw [Subtype.ext h]⟩
  | _ => exact Kind.noConfusion hform

theorem aligns_group {l : Lexeme .lparen} {inner : Expr} {e : Lexeme .rparen} (hv : inner.Valid)
    (hinner : inner.Aligns) : (Expr.group l inner e).Aligns := by
  refine Expr.aligns_of_operand (by simp [Expr.form]) ?_
  intro d' r r' hform hv' _ _ h
  cases d' with
  | group l' inner' e' =>
    simp only [Expr.tokens, List.cons_append, List.append_assoc, List.nil_append, List.cons.injEq,
      ← Subtype.ext_iff] at h
    obtain ⟨rfl, h⟩ := h
    obtain ⟨rfl, rfl, hr⟩ := hinner.eq_closed hv (show inner'.Valid from hv') (by simp) h
    exact ⟨rfl, hr⟩
  | _ => exact Kind.noConfusion hform

theorem aligns_array {l : Lexeme .lbracket} {items : Items} {e : Lexeme .rbracket}
    (hitems : items.Unique) : (Expr.array l items e).Aligns := by
  refine Expr.aligns_of_operand (by simp [Expr.form]) ?_
  intro d' r r' hform hv' _ _ h
  cases d' with
  | array l' items' e' =>
    simp only [Expr.tokens, List.cons_append, List.append_assoc, List.nil_append, List.cons.injEq,
      ← Subtype.ext_iff] at h
    obtain ⟨rfl, h⟩ := h
    obtain ⟨rfl, he, hr⟩ := hitems hv' (.inr e.2) (.inr e'.2) h
    exact ⟨by rw [Subtype.ext he], hr⟩
  | _ => exact Kind.noConfusion hform

theorem aligns_hash {l : Lexeme .lbrace} {entries : Entries} {e : Lexeme .rbrace}
    (hentries : entries.Unique) : (Expr.hash l entries e).Aligns := by
  refine Expr.aligns_of_operand (by simp [Expr.form]) ?_
  intro d' r r' hform hv' _ _ h
  cases d' with
  | hash l' entries' e' =>
    simp only [Expr.tokens, List.cons_append, List.append_assoc, List.nil_append, List.cons.injEq,
      ← Subtype.ext_iff] at h
    obtain ⟨rfl, h⟩ := h
    obtain ⟨rfl, he, hr⟩ := hentries hv' e.2 e'.2 h
    exact ⟨by rw [Subtype.ext he], hr⟩
  | _ => exact Kind.noConfusion hform

theorem aligns_function {word : Lexeme .kwFn} {l : Lexeme .lparen} {names : Names}
    {e : Lexeme .rparen} {body : Block} (hbody : body.Unique) :
    (Expr.function word l names e body).Aligns := by
  refine Expr.aligns_of_operand (by simp [Expr.form]) ?_
  intro d' r r' hform hv' _ _ h
  cases d' with
  | function word' l' names' e' body' =>
    simp only [Expr.tokens, List.cons_append, List.append_assoc, List.cons.injEq,
      ← Subtype.ext_iff] at h
    obtain ⟨rfl, rfl, h⟩ := h
    obtain ⟨rfl, rfl, hblock⟩ := Names.eq_of_tokens h
    obtain ⟨rfl, hr⟩ := hbody hv' hblock
    exact ⟨rfl, hr⟩
  | _ => exact Kind.noConfusion hform

/-- A conditional without alternative may not stand before `else`. -/
theorem aligns_ifThen {word : Lexeme .kwIf} {l : Lexeme .lparen} {condition : Expr}
    {e : Lexeme .rparen} {consequence : Block} (hv : condition.Valid)
    (hcondition : condition.Aligns) (hconsequence : consequence.Unique) :
    (Expr.ifThen word l condition e consequence).Aligns := by
  refine Expr.aligns_of_operand (by simp [Expr.form]) ?_
  intro d' r r' hform hv' hr hr' h
  cases d' with
  | ifThen word' l' condition' e' consequence' =>
    simp only [Expr.tokens, List.cons_append, List.append_assoc, List.cons.injEq,
      ← Subtype.ext_iff] at h
    obtain ⟨rfl, rfl, h⟩ := h
    obtain ⟨rfl, rfl, hblock⟩ := hcondition.eq_closed hv hv'.1 (by simp) h
    obtain ⟨rfl, hr⟩ := hconsequence hv'.2 hblock
    exact ⟨rfl, hr⟩
  | ifElse word' l' condition' e' consequence' word'' alternative' =>
    simp only [Expr.tokens, List.cons_append, List.append_assoc, List.cons.injEq,
      ← Subtype.ext_iff] at h
    obtain ⟨rfl, rfl, h⟩ := h
    obtain ⟨rfl, rfl, hblock⟩ := hcondition.eq_closed hv hv'.1 (by simp) h
    obtain ⟨-, rfl⟩ := hconsequence hv'.2.1 hblock
    exact absurd word''.2 hr.2
  | _ => exact Kind.noConfusion hform

theorem aligns_ifElse {word : Lexeme .kwIf} {l : Lexeme .lparen} {condition : Expr}
    {e : Lexeme .rparen} {consequence : Block} {word₂ : Lexeme .kwElse} {alternative : Block}
    (hv : condition.Valid) (hcondition : condition.Aligns) (hconsequence : consequence.Unique)
    (halternative : alternative.Unique) :
    (Expr.ifElse word l condition e consequence word₂ alternative).Aligns := by
  refine Expr.aligns_of_operand (by simp [Expr.form]) ?_
  intro d' r r' hform hv' hr hr' h
  cases d' with
  | ifThen word' l' condition' e' consequence' =>
    simp only [Expr.tokens, List.cons_append, List.append_assoc, List.cons.injEq,
      ← Subtype.ext_iff] at h
    obtain ⟨rfl, rfl, h⟩ := h
    obtain ⟨rfl, rfl, hblock⟩ := hcondition.eq_closed hv hv'.1 (by simp) h
    obtain ⟨-, rfl⟩ := hconsequence hv'.2 hblock
    exact absurd word₂.2 hr'.2
  | ifElse word' l' condition' e' consequence' word₂' alternative' =>
    simp only [Expr.tokens, List.cons_append, List.append_assoc, List.cons.injEq,
      ← Subtype.ext_iff] at h
    obtain ⟨rfl, rfl, h⟩ := h
    obtain ⟨rfl, rfl, hblock⟩ := hcondition.eq_closed hv hv'.1 (by simp) h
    obtain ⟨rfl, hlast⟩ := hconsequence hv'.2.1 hblock
    simp only [List.cons.injEq, ← Subtype.ext_iff] at hlast
    obtain ⟨rfl, hlast⟩ := hlast
    obtain ⟨rfl, hr⟩ := halternative hv'.2.2 hlast
    exact ⟨rfl, hr⟩
  | _ => exact Kind.noConfusion hform

theorem aligns_unary {op : SignLexeme} {right : Expr} (hv : right.Valid) (hright : right.Aligns)
    (hbinds : 5 ≤ right.level) : (Expr.unary op right).Aligns := by
  refine Expr.aligns_of_operand (by simp [Expr.form]) ?_
  intro d' r r' hform hv' hr hr' h
  cases d' with
  | unary op' right' =>
    simp only [Expr.tokens, List.cons_append, List.cons.injEq, ← Subtype.ext_iff] at h
    obtain ⟨rfl, h⟩ := h
    obtain ⟨rfl, hr⟩ := hright.eq hv hv'.1 (Nat.le_refl 5) hbinds hv'.2 hr hr' h
    exact ⟨rfl, hr⟩
  | _ => exact Kind.noConfusion hform

/-- A derivation that begins like a call is aligned with the callee, and past it with the call. -/
theorem aligns_call {callee : Expr} {l : Lexeme .lparen} {items : Items} {e : Lexeme .rparen}
    (hcallee : callee.Aligns) (hbinds : 6 ≤ callee.level) (hitems : items.Unique) :
    (Expr.call callee l items e).Aligns := by
  intro d' r r' hv' hr hr' h
  rw [Expr.tokens, List.append_assoc, List.cons_append, List.append_assoc] at h
  have hnext : MayFollow callee.level (leadKind (l.1 :: (items.tokens ++ e.1 :: r))) := by
    rw [leadKind_cons, l.2]
    exact ⟨hbinds, by decide⟩
  rcases hcallee hv' hnext hr' h with hleft | hleft
  · exact LeftOf.behind_call hv'
      (fun _ e' _ hvi heq => hitems hvi (.inl e.2) (.inl e'.2) heq) hleft
  · exact .inr (hleft.trans (.call (.refl _ _)))

theorem aligns_index {left i : Expr} {l : Lexeme .lbracket} {e : Lexeme .rbracket}
    (hleft : left.Aligns) (hbinds : 6 ≤ left.level) (hv : i.Valid) (hi : i.Aligns) :
    (Expr.index left l i e).Aligns := by
  intro d' r r' hv' hr hr' h
  rw [Expr.tokens, List.append_assoc, List.cons_append, List.append_assoc] at h
  have hnext : MayFollow left.level (leadKind (l.1 :: (i.tokens ++ e.1 :: r))) := by
    rw [leadKind_cons, l.2]
    exact ⟨hbinds, by decide⟩
  rcases hleft hv' hnext hr' h with hpart | hpart
  · exact LeftOf.behind_index hv' (fun _ _ _ hvi heq => hi.eq_closed hv hvi (by simp) heq) hpart
  · exact .inr (hpart.trans (.index (.refl _ _)))

theorem aligns_binary {left right : Expr} {op : OperatorLexeme} (hleft : left.Aligns)
    (hv : right.Valid) (hright : right.Aligns) (hle : operatorLevel op.1.kind ≤ left.level)
    (hlt : operatorLevel op.1.kind < right.level) : (Expr.binary left op right).Aligns := by
  intro d' r r' hv' hr hr' h
  rw [Expr.tokens, List.append_assoc, List.cons_append] at h
  have hnext : MayFollow left.level (leadKind (op.1 :: (right.tokens ++ r))) :=
    ⟨hle, fun helse => absurd op.2.1 (by rw [show op.1.kind = _ from helse]; decide)⟩
  have hmin : min (operatorLevel op.1.kind) 4 = operatorLevel op.1.kind := Nat.min_eq_left op.2.2
  rcases hleft hv' hnext hr' h with hpart | hpart
  · exact LeftOf.behind_binary hv' hr' (fun _ _ hvr' hlt' hr'' heq =>
      hright.eq hv hvr' (Nat.le_succ_of_le op.2.2) (by rwa [hmin]) (by rwa [hmin]) hr hr'' heq)
      hpart
  · exact .inr (hpart.trans (.binary (.refl _ _)))

/-! ## All derivations -/

mutual

theorem Expr.aligns : ∀ {d : Expr}, d.Valid → d.Aligns
  | .identifier t, _ => aligns_identifier t
  | .integer t, _ => aligns_integer t
  | .string t, _ => aligns_string t
  | .truth t, _ => aligns_truth t
  | .falsehood t, _ => aligns_falsehood t
  | .group _ inner _, hv => aligns_group hv (Expr.aligns (show inner.Valid from hv))
  | .array _ items _, hv => aligns_array (Items.unique (show items.Valid from hv))
  | .hash _ entries _, hv => aligns_hash (Entries.unique (show entries.Valid from hv))
  | .function _ _ _ _ body, hv => aligns_function (Block.unique (show body.Valid from hv))
  | .ifThen .., hv => aligns_ifThen hv.1 (Expr.aligns hv.1) (Block.unique hv.2)
  | .ifElse .., hv =>
    aligns_ifElse hv.1 (Expr.aligns hv.1) (Block.unique hv.2.1) (Block.unique hv.2.2)
  | .unary .., hv => aligns_unary hv.1 (Expr.aligns hv.1) hv.2
  | .call .., hv => aligns_call (Expr.aligns hv.1) hv.2.1 (Items.unique hv.2.2)
  | .index .., hv => aligns_index (Expr.aligns hv.1) hv.2.1 hv.2.2 (Expr.aligns hv.2.2)
  | .binary .., hv =>
    aligns_binary (Expr.aligns hv.1) hv.2.1 (Expr.aligns hv.2.1) hv.2.2.1 hv.2.2.2

theorem Items.unique : ∀ {items : Items}, items.Valid → items.Unique
  | .empty, _, .empty, t, t', r, r', _, _, _, h => ⟨rfl, List.cons.inj h⟩
  | .empty, _, .list first more, t, t', r, r', _, ht, _, h => by
    have hbegins := leadKind_operand first (more.tokens ++ t' :: r')
    rw [← List.append_assoc, ← Items.tokens, ← h, Items.tokens, List.nil_append, leadKind_cons]
      at hbegins
    rcases ht with ht | ht <;> simp [ht, beginsOperand] at hbegins
  | .list first more, _, .empty, t, t', r, r', _, _, ht', h => by
    have hbegins := leadKind_operand first (more.tokens ++ t :: r)
    rw [← List.append_assoc, ← Items.tokens, h, Items.tokens, List.nil_append, leadKind_cons]
      at hbegins
    rcases ht' with ht | ht <;> simp [ht, beginsOperand] at hbegins
  | .list first more, hv, .list first' more', t, t', r, r', hv', ht, ht', h => by
    simp only [Items.tokens, List.append_assoc] at h
    obtain ⟨rfl, hmore⟩ := (Expr.aligns hv.1).eq_whole hv.1 hv'.1 (more.mayFollow_leadKind r ht)
      (more'.mayFollow_leadKind r' ht') h
    obtain ⟨rfl, hlast⟩ := MoreItems.eq_of_tokens hv.2 hv'.2 ht ht' hmore
    exact ⟨rfl, hlast⟩

theorem MoreItems.eq_of_tokens : ∀ {items items' : MoreItems}, items.Valid → items'.Valid →
    ∀ {t t' : Token} {r r' : List Token}, t.kind = .rparen ∨ t.kind = .rbracket →
      t'.kind = .rparen ∨ t'.kind = .rbracket → items.tokens ++ t :: r = items'.tokens ++ t' :: r' →
        items = items' ∧ t = t' ∧ r = r'
  | .done, .done, _, _, t, t', r, r', _, _, h => ⟨rfl, List.cons.inj h⟩
  | .done, .next comma item more, _, _, t, t', r, r', ht, _, h => by
    have hk : t.kind = .comma := (congrArg (·.kind) (List.cons.inj h).1).trans comma.2
    rcases ht with ht | ht <;> exact Kind.noConfusion (ht.symm.trans hk)
  | .next comma item more, .done, _, _, t, t', r, r', _, ht', h => by
    have hk : t'.kind = .comma := (congrArg (·.kind) (List.cons.inj h).1.symm).trans comma.2
    rcases ht' with ht | ht <;> exact Kind.noConfusion (ht.symm.trans hk)
  | .next comma item more, .next comma' item' more', hv, hv', t, t', r, r', ht, ht', h => by
    simp only [MoreItems.tokens, List.cons_append, List.append_assoc, List.cons.injEq,
      ← Subtype.ext_iff] at h
    obtain ⟨rfl, h⟩ := h
    obtain ⟨rfl, hmore⟩ := (Expr.aligns hv.1).eq_whole hv.1 hv'.1 (more.mayFollow_leadKind r ht)
      (more'.mayFollow_leadKind r' ht') h
    obtain ⟨rfl, hlast⟩ := MoreItems.eq_of_tokens hv.2 hv'.2 ht ht' hmore
    exact ⟨rfl, hlast⟩

theorem Entries.unique : ∀ {entries : Entries}, entries.Valid → entries.Unique
  | .empty, _, .empty, t, t', r, r', _, _, _, h => ⟨rfl, List.cons.inj h⟩
  | .empty, _, .list key colon value more, t, t', r, r', _, ht, _, h => by
    have hbegins := leadKind_operand key (colon.1 :: (value.tokens ++ more.tokens) ++ t' :: r')
    rw [← List.append_assoc, ← Entries.tokens, ← h, Entries.tokens, List.nil_append,
      leadKind_cons] at hbegins
    simp [ht, beginsOperand] at hbegins
  | .list key colon value more, _, .empty, t, t', r, r', _, _, ht', h => by
    have hbegins := leadKind_operand key (colon.1 :: (value.tokens ++ more.tokens) ++ t :: r)
    rw [← List.append_assoc, ← Entries.tokens, h, Entries.tokens, List.nil_append,
      leadKind_cons] at hbegins
    simp [ht', beginsOperand] at hbegins
  | .list key colon value more, hv, .list key' colon' value' more', t, t', r, r', hv', ht, ht',
      h => by
    simp only [Entries.tokens, List.append_assoc, List.cons_append] at h
    obtain ⟨rfl, rfl, hvalue⟩ := (Expr.aligns hv.1).eq_closed hv.1 hv'.1 (by simp) h
    obtain ⟨rfl, hmore⟩ := (Expr.aligns hv.2.1).eq_whole hv.2.1 hv'.2.1
      (more.mayFollow_leadKind r ht) (more'.mayFollow_leadKind r' ht') hvalue
    obtain ⟨rfl, hlast⟩ := MoreEntries.eq_of_tokens hv.2.2 hv'.2.2 ht ht' hmore
    exact ⟨rfl, hlast⟩

theorem MoreEntries.eq_of_tokens : ∀ {more more' : MoreEntries}, more.Valid → more'.Valid →
    ∀ {t t' : Token} {r r' : List Token}, t.kind = .rbrace → t'.kind = .rbrace →
      more.tokens ++ t :: r = more'.tokens ++ t' :: r' → more = more' ∧ t = t' ∧ r = r'
  | .done, .done, _, _, t, t', r, r', _, _, h => ⟨rfl, List.cons.inj h⟩
  | .done, .comma comma, _, _, t, t', r, r', ht, _, h
  | .done, .next comma _ _ _ _, _, _, t, t', r, r', ht, _, h =>
    Kind.noConfusion (kind_eq ⟨t, ht⟩ comma (List.cons.inj h).1)
  | .comma comma, .done, _, _, t, t', r, r', _, ht', h
  | .next comma _ _ _ _, .done, _, _, t, t', r, r', _, ht', h =>
    Kind.noConfusion (kind_eq comma ⟨t', ht'⟩ (List.cons.inj h).1)
  | .comma comma, .comma comma', _, _, t, t', r, r', _, _, h => by
    simp only [MoreEntries.tokens, List.cons_append, List.nil_append, List.cons.injEq,
      ← Subtype.ext_iff] at h
    obtain ⟨rfl, hlast⟩ := h
    exact ⟨rfl, hlast⟩
  | .comma comma, .next comma' key' colon' value' more', _, _, t, t', r, r', ht, _, h => by
    simp only [MoreEntries.tokens, List.cons_append, List.nil_append, List.append_assoc,
      List.cons.injEq] at h
    have hbegins := leadKind_operand key' (colon'.1 :: (value'.tokens ++ (more'.tokens ++ t' :: r')))
    rw [← h.2, leadKind_cons] at hbegins
    simp [ht, beginsOperand] at hbegins
  | .next comma key colon value more, .comma comma', _, _, t, t', r, r', _, ht', h => by
    simp only [MoreEntries.tokens, List.cons_append, List.nil_append, List.append_assoc,
      List.cons.injEq] at h
    have hbegins := leadKind_operand key (colon.1 :: (value.tokens ++ (more.tokens ++ t :: r)))
    rw [h.2, leadKind_cons] at hbegins
    simp [ht', beginsOperand] at hbegins
  | .next comma key colon value more, .next comma' key' colon' value' more', hv, hv', t, t', r, r',
      ht, ht', h => by
    simp only [MoreEntries.tokens, List.append_assoc, List.cons_append, List.cons.injEq,
      ← Subtype.ext_iff] at h
    obtain ⟨rfl, hkey⟩ := h
    obtain ⟨rfl, rfl, hvalue⟩ := (Expr.aligns hv.1).eq_closed hv.1 hv'.1 (by simp) hkey
    obtain ⟨rfl, hmore⟩ := (Expr.aligns hv.2.1).eq_whole hv.2.1 hv'.2.1
      (more.mayFollow_leadKind r ht) (more'.mayFollow_leadKind r' ht') hvalue
    obtain ⟨rfl, hlast⟩ := MoreEntries.eq_of_tokens hv.2.2 hv'.2.2 ht ht' hmore
    exact ⟨rfl, hlast⟩

theorem Block.unique : ∀ {b : Block}, b.Valid → b.Unique
  | .mk l body e, hv, .mk l' body' e', r, r', hv', h => by
    simp only [Block.tokens, List.cons_append, List.append_assoc, List.nil_append,
      List.cons.injEq, ← Subtype.ext_iff] at h
    obtain ⟨rfl, h⟩ := h
    obtain ⟨rfl, he, hr⟩ := Statements.eq_of_tokens hv hv' (.inr e.2) (.inr e'.2) h
    exact ⟨by rw [Subtype.ext he], hr⟩

theorem Statements.eq_of_tokens : ∀ {ss ss' : Statements}, ss.Valid → ss'.Valid →
    ∀ {t t' : Token} {r r' : List Token}, t.kind = .eof ∨ t.kind = .rbrace →
      t'.kind = .eof ∨ t'.kind = .rbrace → ss.tokens ++ t :: r = ss'.tokens ++ t' :: r' →
        ss = ss' ∧ t = t' ∧ r = r'
  | .done, .done, _, _, t, t', r, r', _, _, h => ⟨rfl, List.cons.inj h⟩
  | .done, .next first more, _, _, t, t', r, r', ht, _, h => by
    have hbegins := leadKind_statement first (more.tokens ++ t' :: r')
    rw [← List.append_assoc, ← Statements.tokens, ← h, Statements.tokens, List.nil_append,
      leadKind_cons] at hbegins
    rcases ht with ht | ht <;> simp [ht, beginsStatement, beginsOperand] at hbegins
  | .next first more, .done, _, _, t, t', r, r', _, ht', h => by
    have hbegins := leadKind_statement first (more.tokens ++ t :: r)
    rw [← List.append_assoc, ← Statements.tokens, h, Statements.tokens, List.nil_append,
      leadKind_cons] at hbegins
    rcases ht' with ht | ht <;> simp [ht, beginsStatement, beginsOperand] at hbegins
  | .next first more, .next first' more', hv, hv', t, t', r, r', ht, ht', h => by
    simp only [Statements.tokens, List.append_assoc] at h
    obtain ⟨hvf, hend, hvm⟩ := hv
    obtain ⟨hvf', hend', hvm'⟩ := hv'
    obtain ⟨helse, hsemi, hlevel⟩ := more.leadKind_more r ht
    obtain ⟨helse', hsemi', hlevel'⟩ := more'.leadKind_more r' ht'
    obtain ⟨rfl, hmore⟩ := Statement.eq_of_tokens hvf hvf'
      (fun hun => ⟨⟨Nat.le_of_eq (hlevel.trans (hend hun)), helse⟩, hsemi⟩)
      (fun hun => ⟨⟨Nat.le_of_eq (hlevel'.trans (hend' hun)), helse'⟩, hsemi'⟩) h
    obtain ⟨rfl, hlast⟩ := Statements.eq_of_tokens hvm hvm' ht ht' hmore
    exact ⟨rfl, hlast⟩

theorem Statement.eq_of_tokens : ∀ {s s' : Statement}, s.Valid → s'.Valid →
    ∀ {r r' : List Token},
      (s.isTerminated = false → MayFollow 0 (leadKind r) ∧ leadKind r ≠ .semicolon) →
      (s'.isTerminated = false → MayFollow 0 (leadKind r') ∧ leadKind r' ≠ .semicolon) →
      s.tokens ++ r = s'.tokens ++ r' → s = s' ∧ r = r'
  | .binding word name equals value semicolon, .binding word' name' equals' value' semicolon', hv,
      hv', r, r', hr, hr', h => by
    simp only [Statement.tokens, List.cons_append, List.append_assoc, List.cons.injEq,
      ← Subtype.ext_iff] at h
    obtain ⟨rfl, rfl, rfl, hvalue⟩ := h
    obtain ⟨rfl, rfl, hlast⟩ :=
      (Expr.aligns (d := value) hv).eq_terminated hv hv' hr hr' hvalue
    exact ⟨rfl, hlast⟩
  | .returning word value semicolon, .returning word' value' semicolon', hv, hv', r, r', hr, hr',
      h => by
    simp only [Statement.tokens, List.cons_append, List.append_assoc, List.cons.injEq,
      ← Subtype.ext_iff] at h
    obtain ⟨rfl, hvalue⟩ := h
    obtain ⟨rfl, rfl, hlast⟩ :=
      (Expr.aligns (d := value) hv).eq_terminated hv hv' hr hr' hvalue
    exact ⟨rfl, hlast⟩
  | .expression value semicolon, .expression value' semicolon', hv, hv', r, r', hr, hr', h => by
    simp only [Statement.tokens, List.append_assoc] at h
    obtain ⟨rfl, rfl, hlast⟩ :=
      (Expr.aligns (d := value) hv).eq_terminated hv hv' hr hr' h
    exact ⟨rfl, hlast⟩
  | .binding word _ _ _ _, .returning word' _ _, _, _, r, r', _, _, h =>
    Kind.noConfusion (kind_eq word word' (List.cons.inj h).1)
  | .returning word _ _, .binding word' _ _ _ _, _, _, r, r', _, _, h =>
    Kind.noConfusion (kind_eq word word' (List.cons.inj h).1)
  | .binding word _ _ _ _, .expression value semicolon, _, _, r, r', _, _, h
  | .returning word _ _, .expression value semicolon, _, _, r, r', _, _, h => by
    have hbegins := leadKind_operand value (ending semicolon ++ r')
    rw [← List.append_assoc, ← Statement.tokens, ← h, Statement.tokens, List.cons_append,
      leadKind_cons, word.2] at hbegins
    exact absurd hbegins (by decide)
  | .expression value semicolon, .binding word _ _ _ _, _, _, r, r', _, _, h
  | .expression value semicolon, .returning word _ _, _, _, r, r', _, _, h => by
    have hbegins := leadKind_operand value (ending semicolon ++ r)
    rw [← List.append_assoc, ← Statement.tokens, h, Statement.tokens, List.cons_append,
      leadKind_cons, word.2] at hbegins
    exact absurd hbegins (by decide)

end

end MonkeyLang.Grammar
