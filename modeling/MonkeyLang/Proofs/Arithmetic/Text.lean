import Mathlib.Algebra.Group.Nat.Defs
import MonkeyLang.Proofs.Arithmetic.Machine
import MonkeyLang.Proofs.Grammar
import MonkeyLang.Proofs.Lexing

/-!
Texts of arithmetic trees. Whatever a text looks like that writes a tree, with blanks and with more
parentheses than are needed, its tokens have a derivation whose tree is the written one.
-/

namespace MonkeyLang

open Token (Kind)

namespace Arith

def Op.level : Op → Nat
  | plus | minus => 3
  | times | divide => 4

def Op.kind : Op → Kind
  | plus => .plus
  | minus => .minus
  | times => .asterisk
  | divide => .slash

/-- The text writes the tree where operators from the level on may stand without parentheses: 3 is
the level of sums, 4 that of products, 5 that of signs, and at level 6 there are only literals and
parentheses. The operands on the right of an operator are above its level, as operators of one level
are applied from the left. Blanks and parentheses may be added anywhere. -/
inductive Writes : Nat → Arith → List Char → Prop
  | literal {n : Nat} {digits : List Char} : Grammar.Digits (String.ofList digits) →
      Grammar.decimal (String.ofList digits) = n → n ≤ 2 ^ 63 - 1 → Writes 6 (literal n) digits
  | group {a : Arith} {text : List Char} : Writes 3 a text → Writes 6 a ('(' :: text ++ [')'])
  | negate {a : Arith} {text : List Char} : Writes 5 a text → Writes 5 (negate a) ('-' :: text)
  | binary {op : Op} {a b : Arith} {left right : List Char} : Writes op.level a left →
      Writes (op.level + 1) b right → Writes op.level (binary op a b) (left ++ op.char :: right)
  | tighter {m k : Nat} {a : Arith} {text : List Char} : m ≤ k → Writes k a text → Writes m a text
  | blankBefore {m : Nat} {a : Arith} {c : Char} {text : List Char} : Lexer.isBlank c = true →
      Writes m a text → Writes m a (c :: text)
  | blankBehind {m : Nat} {a : Arith} {c : Char} {text : List Char} : Lexer.isBlank c = true →
      Writes m a text → Writes m a (text ++ [c])

/-- The tree of nodes is the arithmetic tree, with literals that fit into a word. -/
inductive Denotes : Node → Arith → Prop
  | literal {t : Token} {n : Nat} : n ≤ 2 ^ 63 - 1 → Denotes (.integer t n) (literal n)
  | negate {t : Token} {e : Node} {a : Arith} : Denotes e a → Denotes (.unary t "-" e) (negate a)
  | binary {t : Token} {l r : Node} {op : Op} {a b : Arith} : Denotes l a → Denotes r b →
      Denotes (.binary t l op.char.toString r) (binary op a b)

end Arith

namespace Lexer

/-- A token that ends where it ends by itself: the text does not go on with a digit. -/
def Ends (more : List Char) : Prop := ∀ c ∈ more.head?, isDigit c = false

theorem ends_cons {c : Char} (more : List Char) (h : isDigit c = false) : Ends (c :: more) := by
  intro d hd
  cases hd
  exact h

/-- A run of digits is one token if no digit follows. -/
theorem scan_digits (pos last : Position) {digits more : List Char} (hne : digits ≠ [])
    (hd : ∀ c ∈ digits, isDigit c = true) (hmore : Ends more) :
    ∃ pos', scan pos last (digits ++ more) =
      ⟨.int, String.ofList digits, pos⟩ :: scan pos' pos' more := by
  obtain ⟨c, cs, rfl⟩ := List.exists_cons_of_ne_nil hne
  have hc := hd c List.mem_cons_self
  have hcs : ∀ c ∈ cs, isDigit c = true := fun c h => hd c (List.mem_cons_of_mem _ h)
  obtain ⟨htake, hdrop⟩ := takeWhile_append_stop hcs hmore
  have hblank : isBlank c = false := by
    by_contra h
    rw [Bool.not_eq_false] at h
    rw [isDigit_of_isBlank h] at hc
    cases hc
  rw [List.cons_append, scan_token hblank, munch_of_digit _ hc, htake, hdrop]
  exact ⟨_, rfl⟩

def symbols : List (Char × Kind) :=
  [('+', .plus), ('-', .minus), ('*', .asterisk), ('/', .slash), ('(', .lparen), (')', .rparen)]

theorem scan_symbol {c : Char} {k : Kind} (h : (c, k) ∈ symbols) (pos last : Position)
    (cs : List Char) : ∃ pos', scan pos last (c :: cs) =
      ⟨k, String.ofList [c], pos⟩ :: scan pos' pos' cs := by
  have hmunch : isBlank c = false ∧ munch c cs = ⟨k, [c], cs⟩ ∧ k ≠ .string := by
    simp only [symbols, List.mem_cons, List.not_mem_nil, or_false, Prod.mk.injEq] at h
    rcases h with ⟨rfl, rfl⟩ | ⟨rfl, rfl⟩ | ⟨rfl, rfl⟩ | ⟨rfl, rfl⟩ | ⟨rfl, rfl⟩ | ⟨rfl, rfl⟩ <;>
      exact ⟨rfl, rfl, by decide⟩
  obtain ⟨hblank, hmunch, hk⟩ := hmunch
  rw [scan_token hblank, hmunch, Munch.token, if_neg hk]
  exact ⟨_, rfl⟩

theorem isDigit_of_symbol {c : Char} {k : Kind} (h : (c, k) ∈ symbols) : isDigit c = false := by
  simp only [symbols, List.mem_cons, List.not_mem_nil, or_false, Prod.mk.injEq] at h
  rcases h with ⟨rfl, -⟩ | ⟨rfl, -⟩ | ⟨rfl, -⟩ | ⟨rfl, -⟩ | ⟨rfl, -⟩ | ⟨rfl, -⟩ <;> decide

end Lexer

namespace Arith

open Lexer

theorem Op.mem_symbols (op : Op) : (op.char, op.kind) ∈ symbols := by
  cases op <;> decide

theorem Op.operatorLevel_kind (op : Op) : Grammar.operatorLevel op.kind = op.level := by
  cases op <;> rfl

theorem Op.level_bounds (op : Op) : 1 ≤ op.level ∧ op.level ≤ 4 := by
  cases op <;> decide

/-- What is written is read off as a derivation of the tree, whatever follows it. -/
theorem Writes.scan {m : Nat} {a : Arith} {text : List Char} (h : Writes m a text) :
    ∀ (pos last : Position) (more : List Char), Ends more →
      ∃ (d : Grammar.Expr) (pos' last' : Position), d.Valid ∧ m ≤ d.level ∧ Denotes d.tree a ∧
        Lexer.scan pos last (text ++ more) = d.tokens ++ Lexer.scan pos' last' more := by
  induction h with
  | @literal n digits hdigits hn hle =>
    intro pos last more hmore
    subst hn
    have hd : ∀ c ∈ digits, isDigit c = true := by
      intro c hc
      have := hdigits.2.2 c (by simpa using hc)
      simpa [isDigit] using this
    obtain ⟨pos', hscan⟩ := scan_digits pos last (by simpa using hdigits.1) hd hmore
    exact ⟨.integer ⟨⟨.int, String.ofList digits, pos⟩, rfl, hdigits, hle⟩, pos', pos', trivial,
      Nat.le_refl 6, .literal hle, hscan⟩
  | @group a text _ ih =>
    intro pos last more hmore
    obtain ⟨inside, hopen⟩ := scan_symbol (c := '(') (k := .lparen) (by decide) pos last
      (text ++ ')' :: more)
    obtain ⟨d, closing, last', hv, -, hd, hscan⟩ := ih inside inside (')' :: more)
      (ends_cons more (by decide))
    obtain ⟨pos', hclose⟩ := scan_symbol (c := ')') (k := .rparen) (by decide) closing last' more
    refine ⟨.group ⟨⟨.lparen, String.ofList ['('], pos⟩, rfl⟩ d
      ⟨⟨.rparen, String.ofList [')'], closing⟩, rfl⟩, pos', pos', hv, Nat.le_refl 6, hd, ?_⟩
    have htext : '(' :: text ++ [')'] ++ more = '(' :: (text ++ ')' :: more) := by simp
    rw [htext, hopen, hscan, hclose]
    simp [Grammar.Expr.tokens]
  | @negate a text _ ih =>
    intro pos last more hmore
    obtain ⟨inside, hsign⟩ := scan_symbol (c := '-') (k := .minus) (by decide) pos last
      (text ++ more)
    obtain ⟨d, pos', last', hv, hlevel, hd, hscan⟩ := ih inside inside more hmore
    refine ⟨.unary ⟨⟨.minus, String.ofList ['-'], pos⟩, .inr rfl⟩ d, pos', last', ⟨hv, hlevel⟩,
      Nat.le_refl 5, .negate hd, ?_⟩
    rw [List.cons_append, hsign, hscan]
    rfl
  | @binary op a b left right _ _ ihl ihr =>
    intro pos last more hmore
    have hsymbol := op.mem_symbols
    obtain ⟨l, middle, last₁, hvl, hll, hdl, hscanl⟩ := ihl pos last (op.char :: (right ++ more))
      (ends_cons _ (isDigit_of_symbol hsymbol))
    obtain ⟨inside, hop⟩ := scan_symbol hsymbol middle last₁ (right ++ more)
    obtain ⟨r, pos', last', hvr, hlr, hdr, hscanr⟩ := ihr inside inside more hmore
    have hlevel := op.operatorLevel_kind
    refine ⟨.binary l ⟨⟨op.kind, String.ofList [op.char], middle⟩, ?_⟩ r, pos', last',
      ⟨hvl, hvr, ?_, ?_⟩, ?_, .binary hdl hdr, ?_⟩
    · rw [hlevel]
      exact op.level_bounds
    · rw [hlevel]
      exact hll
    · rw [hlevel]
      exact hlr
    · exact Nat.le_of_eq hlevel.symm
    · have htext : left ++ op.char :: right ++ more = left ++ op.char :: (right ++ more) := by simp
      rw [htext, hscanl, hop, hscanr]
      simp [Grammar.Expr.tokens]
  | tighter hmk _ ih =>
    intro pos last more hmore
    obtain ⟨d, pos', last', hv, hlevel, hd, hscan⟩ := ih pos last more hmore
    exact ⟨d, pos', last', hv, Nat.le_trans hmk hlevel, hd, hscan⟩
  | blankBefore hblank _ ih =>
    intro pos last more hmore
    rw [List.cons_append, scan_blank hblank]
    exact ih _ last more hmore
  | @blankBehind m a c text hblank _ ih =>
    intro pos last more hmore
    obtain ⟨d, pos', last', hv, hlevel, hd, hscan⟩ := ih pos last (c :: more)
      (ends_cons more (isDigit_of_isBlank hblank))
    refine ⟨d, pos'.step c, last', hv, hlevel, hd, ?_⟩
    rw [List.append_assoc, List.singleton_append, hscan, scan_blank hblank]

end Arith

end MonkeyLang
