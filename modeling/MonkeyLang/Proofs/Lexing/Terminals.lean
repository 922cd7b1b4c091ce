import Mathlib.Data.ENat.Basic
import Mathlib.Data.List.Induction
import Mathlib.Data.Prod.Lex
import Mathlib.Data.Set.Finite.Lemmas
import MonkeyLang.Proofs.Lexing.Joining

/-!
The grammar of tokens, apart from any scanner: what texts its terminals cover and which of them
comes first. A basic scanner takes at each place a terminal that ranks highest of those that match
there, by priority and then by width, and makes a keyword of a word that is spelled like one.
Whatever it does beyond that, the tokens that are made of what it takes are those of `tokenize`.
-/

namespace MonkeyLang

open Token (Kind)

def lastLineLength (text : List Char) : Nat := (text.reverse.takeWhile (· != '\n')).length

/-- The place after a text, found by counting its line feeds. -/
def Position.feed (p : Position) (text : List Char) : Position :=
  if '\n' ∈ text then ⟨p.line + text.count '\n', 1 + lastLineLength text⟩
  else ⟨p.line, p.column + text.length⟩

theorem lastLineLength_concat (text : List Char) (c : Char) :
    lastLineLength (text ++ [c]) = if c = '\n' then 0 else lastLineLength text + 1 := by
  by_cases hc : c = '\n' <;> simp [lastLineLength, hc]

theorem lastLineLength_of_notMem {text : List Char} (h : '\n' ∉ text) :
    lastLineLength text = text.length := by
  have hall : text.reverse.takeWhile (· != '\n') = text.reverse := by
    rw [List.takeWhile_eq_self_iff]
    intro c hc
    simpa using fun heq : c = '\n' => h (heq ▸ List.mem_reverse.mp hc)
  rw [lastLineLength, hall, List.length_reverse]

/-- Counting line feeds gives the same place as going on character by character. -/
theorem Position.advance_eq_feed (p : Position) (text : List Char) :
    p.advance text = p.feed text := by
  induction text using List.reverseRecOn with
  | nil => simp [feed]
  | append_singleton text c ih =>
    rw [advance_append, ih, advance_cons, advance_nil]
    by_cases hc : c = '\n'
    · subst hc
      by_cases htext : '\n' ∈ text <;>
        simp [feed, step, htext, lastLineLength_concat, List.count_eq_zero_of_not_mem,
          Nat.add_assoc]
    · have hc' : '\n' ≠ c := fun h => hc h.symm
      by_cases htext : '\n' ∈ text <;>
        simp [feed, step, htext, hc, hc', lastLineLength_concat, Nat.add_assoc]

namespace Lexer

/-! ## Terminals -/

inductive Pattern
  | digits
  | quoted
  | word
  | literal (text : List Char)
  | anything
  | blanks
  deriving DecidableEq

/-- A pattern covers a text: digits, one or more; a text without quotes, in quotes; a word; one
text only; any one character but a line feed; blanks, one or more. -/
def Pattern.Covers : Pattern → List Char → Prop
  | digits, w => w ≠ [] ∧ ∀ c ∈ w, isDigit c = true
  | quoted, w => ∃ inner, w = '"' :: inner ++ ['"'] ∧ '"' ∉ inner
  | word, w => IsWord w
  | literal text, w => w = text
  | anything, w => ∃ c, w = [c] ∧ c ≠ '\n'
  | blanks, w => w ≠ [] ∧ ∀ c ∈ w, isBlank c = true

def Pattern.maxWidth : Pattern → ℕ∞
  | literal text => text.length
  | anything => 1
  | digits | quoted | word | blanks => ⊤

/-- A terminal: the kind of its tokens, none if they are left out, what it covers, and how it ranks
among the others. -/
structure Terminal where
  kind : Option Kind
  pattern : Pattern
  priority : Int
  deriving DecidableEq

def doubles : List (List Char × Kind) := [(['=', '='], .eq), (['!', '='], .notEq)]

def Terminal.operator (text : List Char) (k : Kind) : Terminal := ⟨some k, .literal text, 0⟩

/-- All terminals. What fits no other is illegal, and blanks are left out. -/
def terminals : List Terminal :=
  [⟨some .int, .digits, 0⟩, ⟨some .string, .quoted, 0⟩, ⟨some .ident, .word, 0⟩] ++
    doubles.map (fun e => .operator e.1 e.2) ++
    Kind.symbols.map (fun e => .operator [e.1] e.2) ++
    [⟨some .illegal, .anything, -1⟩, ⟨none, .blanks, 0⟩]

/-- The terminal covers `w` at the beginning of a text, and no longer beginning of it. -/
def Terminal.Matches (t : Terminal) (w text : List Char) : Prop :=
  w <+: text ∧ t.pattern.Covers w ∧ ∀ v, v <+: text → t.pattern.Covers v → v.length ≤ w.length

/-- Terminals rank by their priority, and then by their width. -/
def Terminal.rank (t : Terminal) : ℤ ×ₗ ℕ∞ := toLex (t.priority, t.pattern.maxWidth)

/-- The terminal matches `w` at the beginning of a text, where none matches of a greater rank. -/
structure Takes (t : Terminal) (w text : List Char) : Prop where
  mem : t ∈ terminals
  matched : t.Matches w text
  first : ∀ u ∈ terminals, ∀ v, u.Matches v text → ¬t.rank < u.rank

/-- A word that is spelled like a keyword becomes one. -/
def retype (k : Kind) (w : List Char) : Kind :=
  if k = .ident then (Kind.keywords.lookup (String.ofList w)).getD .ident else k

/-- What a scanner takes: a kind, the text, and the places where it begins and where it ends. -/
structure Raw where
  kind : Kind
  text : List Char
  start : Position
  stop : Position
  deriving DecidableEq

inductive Scans : Position → List Char → List Raw → Prop
  | nil (p : Position) : Scans p [] []
  | skip {p : Position} {t : Terminal} {w rest : List Char} {raws : List Raw} :
      Takes t w (w ++ rest) → t.kind = none → Scans (p.feed w) rest raws → Scans p (w ++ rest) raws
  | take {p : Position} {t : Terminal} {k : Kind} {w rest : List Char} {raws : List Raw} :
      Takes t w (w ++ rest) → t.kind = some k → Scans (p.feed w) rest raws →
      Scans p (w ++ rest) (⟨retype k w, w, p, p.feed w⟩ :: raws)

def Raw.token (r : Raw) : Token :=
  ⟨r.kind, String.ofList (if r.kind = .string then r.text.tail.dropLast else r.text), r.start⟩

def stopOf (last : Position) (raws : List Raw) : Position := (raws.getLast?.map (·.stop)).getD last

/-- The tokens of what a scanner takes, with an end just after the last of them. -/
def assemble (raws : List Raw) : List Token :=
  raws.map (·.token) ++ [Token.eof (stopOf .start raws)]

/-- A scanner that takes of every text what a basic scanner does. -/
def IsBasic (scanner : List Char → List Raw) : Prop :=
  ∀ text, Scans .start text (scanner text)

/-! ## What matches -/

section Matches

variable {t : Terminal} {w text v : List Char} {p : Char → Bool} {c : Char} {cs : List Char}

theorem mem_terminals : t ∈ terminals ↔
    t = ⟨some .int, .digits, 0⟩ ∨ t = ⟨some .string, .quoted, 0⟩ ∨ t = ⟨some .ident, .word, 0⟩ ∨
      (∃ e ∈ doubles, t = .operator e.1 e.2) ∨ (∃ e ∈ Kind.symbols, t = .operator [e.1] e.2) ∨
      t = ⟨some .illegal, .anything, -1⟩ ∨ t = ⟨none, .blanks, 0⟩ := by
  simp only [terminals, List.mem_append, List.mem_cons, List.mem_map, List.not_mem_nil, or_false,
    or_assoc, eq_comm (b := t)]

/-- A beginning of a text in which every character satisfies `p` is no longer than the row of such
characters that the text begins with. -/
theorem length_le_takeWhile (hv : v <+: text) (hp : ∀ d ∈ v, p d = true) :
    v.length ≤ (text.takeWhile p).length := by
  obtain ⟨rest, rfl⟩ := hv
  rw [List.takeWhile_append_of_pos hp, List.length_append]
  exact Nat.le_add_right _ _

theorem takeWhile_covered (hc : p c = true) :
    (c :: cs).takeWhile p ≠ [] ∧ ∀ d ∈ (c :: cs).takeWhile p, p d = true := by
  rw [List.takeWhile_cons_of_pos hc]
  refine ⟨List.cons_ne_nil _ _, fun d hd => ?_⟩
  rcases List.mem_cons.mp hd with rfl | hd
  · exact hc
  · exact List.mem_takeWhile_imp hd

/-- What begins a text and is as long as another of its beginnings is that. -/
theorem eq_of_length_le (hw : w <+: text) (hv : v <+: text) (hle : w.length ≤ v.length)
    (hge : v.length ≤ w.length) : w = v :=
  (List.prefix_of_prefix_length_le hw hv hle).eq_of_length (Nat.le_antisymm hle hge)

theorem matches_run {k : Option Kind} {pattern : Pattern} {i : Int} (hc : p c = true)
    (hcovers : ∀ w, pattern.Covers w ↔ w ≠ [] ∧ ∀ d ∈ w, p d = true) :
    Terminal.Matches ⟨k, pattern, i⟩ w (c :: cs) ↔ w = (c :: cs).takeWhile p := by
  have hrun := (hcovers ((c :: cs).takeWhile p)).mpr (takeWhile_covered hc)
  constructor
  · rintro ⟨hw, hcov, hlongest⟩
    exact eq_of_length_le hw (List.takeWhile_prefix p)
      (length_le_takeWhile hw ((hcovers w).mp hcov).2) (hlongest _ (List.takeWhile_prefix p) hrun)
  · rintro rfl
    exact ⟨List.takeWhile_prefix p, hrun, fun v hv hcov =>
      length_le_takeWhile hv ((hcovers v).mp hcov).2⟩

theorem not_matches_run {k : Option Kind} {pattern : Pattern} {i : Int} (hc : p c = false)
    (hcovers : ∀ w, pattern.Covers w ↔ w ≠ [] ∧ ∀ d ∈ w, p d = true) :
    ¬Terminal.Matches ⟨k, pattern, i⟩ w (c :: cs) := by
  rintro ⟨hw, hcov, -⟩
  obtain ⟨hne, hall⟩ := (hcovers w).mp hcov
  cases w with
  | nil => exact hne rfl
  | cons d ds =>
    obtain ⟨rfl, -⟩ := List.cons_prefix_cons.mp hw
    rw [hall d List.mem_cons_self] at hc
    cases hc

theorem matches_word {k : Option Kind} {i : Int} (hc : isWordStart c = true) :
    Terminal.Matches ⟨k, .word, i⟩ w (c :: cs) ↔ w = (c :: cs).takeWhile isWordPart := by
  have hpart := isWordPart_of_isWordStart hc
  have hall : ∀ v, IsWord v → ∀ d ∈ v, isWordPart d = true := by
    rintro v ⟨d, ds, rfl, hd, hds⟩ e he
    rcases List.mem_cons.mp he with rfl | he
    · exact isWordPart_of_isWordStart hd
    · exact hds e he
  have hrun : IsWord ((c :: cs).takeWhile isWordPart) := by
    rw [List.takeWhile_cons_of_pos hpart]
    exact ⟨c, _, rfl, hc, fun d hd => List.mem_takeWhile_imp hd⟩
  constructor
  · rintro ⟨hw, hcov, hlongest⟩
    exact eq_of_length_le hw (List.takeWhile_prefix _) (length_le_takeWhile hw (hall w hcov))
      (hlongest _ (List.takeWhile_prefix _) hrun)
  · rintro rfl
    exact ⟨List.takeWhile_prefix _, hrun, fun v hv hcov => length_le_takeWhile hv (hall v hcov)⟩

theorem not_matches_word {k : Option Kind} {i : Int} (hc : isWordStart c = false) :
    ¬Terminal.Matches ⟨k, .word, i⟩ w (c :: cs) := by
  rintro ⟨hw, ⟨d, ds, rfl, hd, -⟩, -⟩
  obtain ⟨rfl, -⟩ := List.cons_prefix_cons.mp hw
  rw [hc] at hd
  cases hd

/-- A string ends at the first quote after the one that it begins with. -/
theorem matches_quoted {k : Option Kind} {i : Int} :
    Terminal.Matches ⟨k, .quoted, i⟩ w text ↔
      ∃ inner rest, '"' ∉ inner ∧ text = '"' :: inner ++ '"' :: rest ∧
        w = '"' :: inner ++ ['"'] := by
  constructor
  · rintro ⟨⟨rest, rfl⟩, ⟨inner, rfl, hinner⟩, -⟩
    exact ⟨inner, rest, hinner, by simp, rfl⟩
  · rintro ⟨inner, rest, hinner, rfl, rfl⟩
    refine ⟨⟨rest, by simp⟩, ⟨inner, rfl, hinner⟩, ?_⟩
    rintro v ⟨rest', hv⟩ ⟨inner', rfl, hinner'⟩
    have htail : inner' ++ '"' :: rest' = inner ++ '"' :: rest := by simpa using hv
    have htake := congrArg (List.takeWhile (· != '"')) htail
    rw [List.takeWhile_append_of_pos (ne_quote_of_notMem hinner'),
      List.takeWhile_append_of_pos (ne_quote_of_notMem hinner)] at htake
    have hsame : inner' = inner := by simpa using htake
    rw [hsame]

theorem matches_literal {k : Option Kind} {i : Int} {x : List Char} :
    Terminal.Matches ⟨k, .literal x, i⟩ w text ↔ w = x ∧ x <+: text := by
  constructor
  · rintro ⟨hw, rfl, -⟩
    exact ⟨rfl, hw⟩
  · rintro ⟨rfl, hw⟩
    exact ⟨hw, rfl, fun v _ hv => Nat.le_of_eq (congrArg List.length hv)⟩

theorem matches_anything {k : Option Kind} {i : Int} :
    Terminal.Matches ⟨k, .anything, i⟩ w (c :: cs) ↔ w = [c] ∧ c ≠ '\n' := by
  constructor
  · rintro ⟨hw, ⟨d, rfl, hd⟩, -⟩
    obtain ⟨rfl, -⟩ := List.cons_prefix_cons.mp hw
    exact ⟨rfl, hd⟩
  · rintro ⟨rfl, hc⟩
    refine ⟨by simp, ⟨c, rfl, hc⟩, ?_⟩
    rintro v - ⟨d, rfl, -⟩
    exact Nat.le_refl _

end Matches

/-! ## What is taken -/

section Takes

variable {t u : Terminal} {w v : List Char} {c : Char} {cs : List Char}

/-- What is illegal fits no other terminal. -/
theorem Takes.not_matches (h : Takes ⟨some .illegal, .anything, -1⟩ w (c :: cs))
    (hu : u ∈ terminals) (hzero : u.priority = 0) : ¬u.Matches v (c :: cs) := by
  intro hv
  refine h.first u hu v hv (Prod.Lex.toLex_lt_toLex.mpr (.inl ?_))
  show (-1 : ℤ) < u.priority
  rw [hzero]
  decide

/-- The tokens that `munch` gives for what single terminals match. -/
theorem munch_of_word (hc : isWordStart c = true) :
    (munch c cs).kind = retype .ident ((c :: cs).takeWhile isWordPart) ∧
      (munch c cs).taken = (c :: cs).takeWhile isWordPart := by
  have hpart := isWordPart_of_isWordStart hc
  rw [munch_of_wordStart cs hc, List.takeWhile_cons_of_pos hpart]
  exact ⟨rfl, rfl⟩

theorem mem_doubles {e : List Char × Kind} :
    e ∈ doubles ↔ e = (['=', '='], .eq) ∨ e = (['!', '='], .notEq) := by
  simp only [doubles, List.mem_cons, List.not_mem_nil, or_false]

theorem munch_of_double {e : List Char × Kind} (he : e ∈ doubles) (h : e.1 <+: c :: cs) :
    munch c cs = ⟨e.2, e.1, cs.tail⟩ ∧ isBlank c = false ∧ e.2 ≠ .ident := by
  obtain ⟨rest, hrest⟩ := h
  rcases mem_doubles.mp he with rfl | rfl
  all_goals
    obtain ⟨rfl, rfl⟩ := List.cons.inj hrest
    exact ⟨rfl, rfl, nofun⟩

/-- A symbol is taken only where it makes no longer one with the next character. -/
theorem Takes.head_ne {k : Kind} (h : Takes (.operator [c] k) w (c :: cs)) :
    c = '=' ∨ c = '!' → cs.head? ≠ some '=' := by
  intro hc hhead
  obtain ⟨rest, rfl⟩ := List.head?_eq_some_iff.mp hhead
  have hdouble : ∃ k', ([c, '='], k') ∈ doubles := by
    rcases hc with rfl | rfl
    · exact ⟨.eq, by decide⟩
    · exact ⟨.notEq, by decide⟩
  obtain ⟨k', hk'⟩ := hdouble
  refine h.first (.operator [c, '='] k') ?_ [c, '='] ?_
    (Prod.Lex.toLex_lt_toLex.mpr (.inr ⟨rfl, ?_⟩))
  · exact mem_terminals.mpr (.inr (.inr (.inr (.inl ⟨_, hk', rfl⟩))))
  · exact matches_literal.mpr ⟨rfl, rest, rfl⟩
  · show ((1 : Nat) : ℕ∞) < ((2 : Nat) : ℕ∞)
    exact Nat.cast_lt.mpr (by decide)

/-- What is illegal is a single character that begins no other token. -/
theorem Takes.munch_illegal (h : Takes ⟨some .illegal, .anything, -1⟩ w (c :: cs)) :
    isBlank c = false ∧ munch c cs = ⟨.illegal, [c], cs⟩ := by
  have hblank : isBlank c = false := by
    by_contra hc
    rw [Bool.not_eq_false] at hc
    exact h.not_matches (u := ⟨none, .blanks, 0⟩) (by decide) rfl
      ((matches_run hc fun _ => Iff.rfl).mpr rfl)
  have hsymbol : Kind.ofSymbol? c = none := by
    by_contra hc
    obtain ⟨k, hk⟩ := Option.ne_none_iff_exists'.mp hc
    exact h.not_matches (u := .operator [c] k)
      (mem_terminals.mpr (.inr (.inr (.inr (.inr (.inl ⟨_, mem_symbols_of_ofSymbol? hk, rfl⟩))))))
      rfl (matches_literal.mpr ⟨rfl, by simp⟩)
  refine ⟨hblank, ?_⟩
  have hmunching := munching c cs
  generalize munch c cs = m at hmunching ⊢
  cases hmunching with
  | digits hdigit =>
    exact (h.not_matches (u := ⟨some .int, .digits, 0⟩) (by decide) rfl
      ((matches_run hdigit fun _ => Iff.rfl).mpr rfl)).elim
  | word hword =>
    exact (h.not_matches (u := ⟨some .ident, .word, 0⟩) (by decide) rfl
      ((matches_word hword).mpr rfl)).elim
  | @quoted inner rest hinner =>
    exact (h.not_matches (u := ⟨some .string, .quoted, 0⟩) (by decide) rfl
      (matches_quoted.mpr ⟨inner, rest, hinner, rfl, rfl⟩)).elim
  | stray => rfl
  | equal => cases hsymbol
  | different => cases hsymbol
  | single => rw [hsymbol, Option.getD_none]

/-- A basic scanner takes the row of blanks that a text begins with, or else what `munch` does. -/
theorem Takes.eq_munch (h : Takes t w (c :: cs)) :
    (t.kind = none ∧ isBlank c = true ∧ w = (c :: cs).takeWhile isBlank) ∨
      (isBlank c = false ∧ ∃ k, t.kind = some k ∧ (munch c cs).kind = retype k w ∧
        (munch c cs).taken = w) := by
  have hmatch := h.matched
  rcases mem_terminals.mp h.mem with rfl | rfl | rfl | ⟨e, he, rfl⟩ | ⟨e, he, rfl⟩ | rfl | rfl
  · -- digits
    cases hc : isDigit c with
    | false => exact absurd hmatch (not_matches_run hc fun _ => Iff.rfl)
    | true =>
      obtain rfl := (matches_run hc fun _ => Iff.rfl).mp hmatch
      refine .inr ⟨isBlank_of_isWordPart (isWordPart_of_isDigit hc), .int, rfl, ?_⟩
      rw [munch_of_digit cs hc, List.takeWhile_cons_of_pos hc]
      exact ⟨rfl, rfl⟩
  · -- a string
    obtain ⟨inner, rest, hinner, htext, rfl⟩ := matches_quoted.mp hmatch
    obtain ⟨rfl, rfl⟩ := List.cons.inj htext
    refine .inr ⟨rfl, .string, rfl, ?_⟩
    have hmunch : munch '"' (inner ++ '"' :: rest) = _ := munch_of_quoted hinner
    exact ⟨congrArg Munch.kind hmunch, congrArg Munch.taken hmunch⟩
  · -- a word
    cases hc : isWordStart c with
    | false => exact absurd hmatch (not_matches_word hc)
    | true =>
      obtain rfl := (matches_word hc).mp hmatch
      have hblank := isBlank_of_isWordPart (isWordPart_of_isWordStart hc)
      exact .inr ⟨hblank, .ident, rfl, munch_of_word hc⟩
  · -- an operator of two characters
    obtain ⟨rfl, hprefix⟩ := matches_literal.mp hmatch
    obtain ⟨hmunch, hblank, hident⟩ := munch_of_double he hprefix
    refine .inr ⟨hblank, e.2, rfl, ?_, congrArg Munch.taken hmunch⟩
    rw [hmunch, retype, if_neg hident]
  · -- an operator of one character
    obtain ⟨rfl, hprefix⟩ := matches_literal.mp hmatch
    obtain ⟨rfl, -⟩ := List.cons_prefix_cons.mp hprefix
    have hmunch := munch_symbol he h.head_ne
    have hident : ∀ e ∈ Kind.symbols, e.2 ≠ .ident := by decide
    refine .inr ⟨(symbol_class e he).1, e.2, rfl, ?_, congrArg Munch.taken hmunch⟩
    rw [hmunch, retype, if_neg (hident e he)]
  · -- what is illegal
    obtain ⟨rfl, -⟩ := matches_anything.mp hmatch
    obtain ⟨hblank, hmunch⟩ := h.munch_illegal
    exact .inr ⟨hblank, .illegal, rfl, congrArg Munch.kind hmunch, congrArg Munch.taken hmunch⟩
  · -- blanks
    cases hc : isBlank c with
    | false => exact absurd hmatch (not_matches_run hc fun _ => Iff.rfl)
    | true => exact .inl ⟨rfl, rfl, (matches_run hc fun _ => Iff.rfl).mp hmatch⟩

/-- Something is always taken. -/
theorem exists_takes (c : Char) (cs : List Char) : ∃ t w, Takes t w (c :: cs) := by
  have hfinite : {t | t ∈ terminals ∧ ∃ w, t.Matches w (c :: cs)}.Finite :=
    (List.finite_toSet terminals).subset fun t ht => ht.1
  have hsome : {t | t ∈ terminals ∧ ∃ w, t.Matches w (c :: cs)}.Nonempty := by
    cases hc : isBlank c with
    | true => exact ⟨⟨none, .blanks, 0⟩, by decide, _, (matches_run hc fun _ => Iff.rfl).mpr rfl⟩
    | false =>
      have hlf : c ≠ '\n' := by
        rintro rfl
        cases hc
      exact ⟨⟨some .illegal, .anything, -1⟩, by decide, _, matches_anything.mpr ⟨rfl, hlf⟩⟩
  obtain ⟨t, ⟨ht, w, hw⟩, hgreatest⟩ := Set.exists_max_image _ Terminal.rank hfinite hsome
  exact ⟨t, w, ht, hw, fun u hu v hv => (hgreatest u ⟨hu, v, hv⟩).not_gt⟩

end Takes

/-! ## Scanners -/

/-- A scanner that goes on by rows of blanks and by `munch`. -/
def rawsFrom (p : Position) : List Char → List Raw
  | [] => []
  | c :: cs =>
    if isBlank c then
      rawsFrom (p.feed (c :: cs.takeWhile isBlank)) (cs.dropWhile isBlank)
    else
      let m := munch c cs
      ⟨m.kind, m.taken, p, p.feed m.taken⟩ :: rawsFrom (p.feed m.taken) m.rest
termination_by text => text.length
decreasing_by
  · exact Nat.lt_succ_of_le (List.dropWhile_suffix _).length_le
  · exact Nat.lt_succ_of_le (length_rest_le c cs)

theorem rest_of_taken {w rest cs : List Char} {c : Char} (h : w ++ rest = c :: cs)
    (hw : (munch c cs).taken = w) : (munch c cs).rest = rest := by
  have hcut := taken_append_rest c cs
  rw [hw, ← h] at hcut
  exact List.append_cancel_left hcut

/-- There is a basic scanner. -/
theorem scans_rawsFrom (p : Position) (text : List Char) : Scans p text (rawsFrom p text) := by
  fun_induction rawsFrom p text with
  | case1 p => exact .nil p
  | case2 p c cs hblank ih =>
    obtain ⟨_, w, htakes⟩ := exists_takes c cs
    have hcut : c :: cs = (c :: cs.takeWhile isBlank) ++ cs.dropWhile isBlank := by simp
    rcases htakes.eq_munch with ⟨hkind, -, rfl⟩ | ⟨hno, -⟩
    · rw [List.takeWhile_cons_of_pos hblank] at htakes
      rw [hcut] at htakes ⊢
      exact .skip htakes hkind ih
    · rw [hblank] at hno
      cases hno
  | case3 p c cs hblank m ih =>
    obtain ⟨t, w, htakes⟩ := exists_takes c cs
    rcases htakes.eq_munch with ⟨-, hyes, -⟩ | ⟨-, k, hkind, hretype, rfl⟩
    · exact absurd hyes hblank
    · have hcut := taken_append_rest c cs
      rw [← hcut] at htakes ⊢
      rw [show m.kind = retype k m.taken from hretype]
      exact .take htakes hkind ih

theorem isBasic_rawsFrom : IsBasic (rawsFrom .start) := scans_rawsFrom .start

theorem scan_blanks {w : List Char} (hw : ∀ c ∈ w, isBlank c = true) (pos last : Position)
    (rest : List Char) : scan pos last (w ++ rest) = scan (pos.advance w) last rest := by
  induction w generalizing pos with
  | nil => rfl
  | cons c w ih =>
    obtain ⟨hc, hw⟩ := List.forall_mem_cons.mp hw
    rw [List.cons_append, scan_blank hc, ih hw, Position.advance_cons]

/-- Only what begins a text that is not empty is taken. -/
theorem Takes.exists_cons {t : Terminal} {w rest : List Char} (h : Takes t w (w ++ rest)) :
    ∃ c cs, w ++ rest = c :: cs := by
  cases htext : w ++ rest with
  | cons c cs => exact ⟨c, cs, rfl⟩
  | nil =>
    obtain ⟨rfl, rfl⟩ := List.append_eq_nil_iff.mp htext
    obtain ⟨-, hcov, -⟩ := h.matched
    have hliteral : ∀ t ∈ terminals, t.pattern ≠ .literal [] := by decide
    have hpattern := hliteral t h.mem
    revert hcov hpattern
    cases t.pattern with
    | literal x => exact fun hx hne => absurd (congrArg Pattern.literal hx.symm) hne
    | digits | blanks => exact fun hcov _ => absurd rfl hcov.1
    | quoted => rintro ⟨_, h, -⟩; cases h
    | word => rintro ⟨_, _, h, -⟩; cases h
    | anything => rintro ⟨_, h, -⟩; cases h

theorem stopOf_cons (last : Position) (raw : Raw) (raws : List Raw) :
    stopOf last (raw :: raws) = stopOf raw.stop raws := by
  cases raws with
  | nil => rfl
  | cons raw' raws => rw [stopOf, stopOf, List.getLast?_cons_cons, List.getLast?_cons]; rfl

/-- The tokens of what a basic scanner takes are those of the lexer. -/
theorem Scans.tokens {p : Position} {text : List Char} {raws : List Raw} (h : Scans p text raws)
    (last : Position) :
    raws.map (·.token) ++ [Token.eof (stopOf last raws)] = scan p last text := by
  induction h generalizing last with
  | nil p => rw [scan]; rfl
  | @skip p t w rest raws htakes hkind _ ih =>
    obtain ⟨c, cs, htext⟩ := htakes.exists_cons
    rw [htext] at htakes
    rcases htakes.eq_munch with ⟨-, -, hw⟩ | ⟨-, k, hk, -⟩
    · have hblank : ∀ d ∈ w, isBlank d = true := fun d hd => by
        rw [hw] at hd
        exact List.mem_takeWhile_imp hd
      rw [scan_blanks hblank, Position.advance_eq_feed]
      exact ih last
    · rw [hkind] at hk
      cases hk
  | @take p t k w rest raws htakes hkind _ ih =>
    obtain ⟨c, cs, htext⟩ := htakes.exists_cons
    rw [htext] at htakes
    rcases htakes.eq_munch with ⟨hnone, -⟩ | ⟨hblank, k', hk, hretype, hw⟩
    · rw [hkind] at hnone
      cases hnone
    · obtain rfl : k = k' := Option.some.inj (hkind.symm.trans hk)
      have hrest := rest_of_taken htext hw
      have htoken : (munch c cs).token p = Raw.token ⟨retype k w, w, p, p.feed w⟩ := by
        simp only [Munch.token, Raw.token, hretype, hw]
      rw [htext, scan_token hblank, hw, hrest, Position.advance_eq_feed, List.map_cons,
        List.cons_append, stopOf_cons, ih, htoken]

/-- Whatever a basic scanner does beyond what makes it one, its tokens are those of the source. -/
theorem assemble_eq_tokenize {scanner : List Char → List Raw} (h : IsBasic scanner)
    (source : String) : assemble (scanner source.toList) = tokenize source :=
  (h source.toList).tokens .start

end Lexer

end MonkeyLang
