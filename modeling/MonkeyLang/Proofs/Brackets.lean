import Mathlib.Order.Bounds.Basic
import MonkeyLang.Proofs.Lexing.Quotes
import MonkeyLang.Repl.Buffer

/-!
What the number of open brackets says of a text. Each closing bracket closes one that is open, if
there is one; so the number that is left is that of the part at the end with the most openers over
its closers. The brackets that count are those outside of strings.
-/

namespace MonkeyLang

open Token (Kind)

def Token.Kind.isBracket (k : Kind) : Bool := k.isOpener || k.isCloser

namespace Lexer

/-! ## Outside of strings -/

/-- What of a text stands outside of its strings, where `inside` says that it begins in one. A quote
begins a string if there is another one behind it, and the next one ends it. -/
def outside (inside : Bool) : List Char → List Char
  | [] => []
  | c :: cs =>
    if inside then outside (c != '"') cs
    else if c = '"' ∧ '"' ∈ cs then outside true cs
    else c :: outside false cs

def bracket? (c : Char) : Option Kind := (Kind.ofSymbol? c).filter (·.isBracket)

def brackets (ts : List Token) : List Kind := (ts.map (·.kind)).filter (·.isBracket)

variable {c : Char} {cs w inner rest : List Char}

theorem outside_cons (h : c ≠ '"') : outside false (c :: cs) = c :: outside false cs := by
  simp [outside, h]

theorem outside_append (h : '"' ∉ w) : outside false (w ++ rest) = w ++ outside false rest := by
  induction w with
  | nil => rfl
  | cons c w ih =>
    rw [List.mem_cons, not_or] at h
    rw [List.cons_append, outside_cons (Ne.symm h.1), ih h.2, List.cons_append]

/-- A string ends at the next quote. -/
theorem outside_inside (h : '"' ∉ inner) :
    outside true (inner ++ '"' :: rest) = outside false rest := by
  induction inner with
  | nil => rfl
  | cons c inner ih =>
    rw [List.mem_cons, not_or] at h
    have hne : (c != '"') = true := bne_iff_ne.mpr (Ne.symm h.1)
    rw [List.cons_append, outside, if_pos rfl, hne, ih h.2]

theorem outside_quoted (h : '"' ∉ inner) :
    outside false ('"' :: (inner ++ '"' :: rest)) = outside false rest := by
  simp [outside, outside_inside h]

theorem outside_stray (h : '"' ∉ cs) : outside false ('"' :: cs) = '"' :: outside false cs := by
  simp [outside, h]

theorem bracket?_eq_none (h : ∀ k, (c, k) ∉ Kind.symbols) : bracket? c = none := by
  have hnone : Kind.ofSymbol? c = none := by
    by_contra hsome
    obtain ⟨k, hk⟩ := Option.ne_none_iff_exists'.mp hsome
    exact h k (mem_symbols_of_ofSymbol? hk)
  rw [bracket?, hnone]
  rfl

theorem bracket?_of_isBlank (h : isBlank c = true) : bracket? c = none := by
  refine bracket?_eq_none fun k hk => ?_
  rw [(symbol_class _ hk).1] at h
  cases h

theorem bracket?_of_isWordPart (h : isWordPart c = true) : bracket? c = none := by
  refine bracket?_eq_none fun k hk => ?_
  rw [isWordPart_of_symbol hk] at h
  cases h

/-- Digits and words have no bracket in them and begin no string. -/
theorem filterMap_outside_append (rest : List Char) (h : ∀ d ∈ w, isWordPart d = true) :
    (outside false (w ++ rest)).filterMap bracket? = (outside false rest).filterMap bracket? := by
  have hquote : '"' ∉ w := fun hmem => absurd (h _ hmem) (by decide)
  have hnone : w.filterMap bracket? = [] :=
    List.filterMap_eq_nil_iff.mpr fun d hd => bracket?_of_isWordPart (h d hd)
  rw [outside_append hquote, List.filterMap_append, hnone, List.nil_append]

theorem isBracket_ofWord (word : String) : (Kind.ofWord word).isBracket = false := by
  have hkeywords : ∀ e ∈ Kind.keywords, e.2.isBracket = false := by decide
  by_contra h
  rw [Bool.not_eq_false] at h
  refine getD_lookup_ne (k := Kind.ofWord word) (fun hk => ?_) (fun e he hk => ?_) rfl
  · rw [← hk] at h
    cases h
  · rw [← hk, hkeywords e he] at h
    cases h

/-- A token has the brackets in it that its text has outside of strings: itself, if it is one. -/
theorem Munching.brackets {m : Munch} (h : Munching c cs m) :
    (outside false (c :: cs)).filterMap bracket? =
      [m.kind].filter (·.isBracket) ++ (outside false m.rest).filterMap bracket? := by
  cases h with
  | digits hdigit =>
    have htaken : ∀ d ∈ c :: cs.takeWhile isDigit, isWordPart d = true := by
      rw [← List.takeWhile_cons_of_pos hdigit]
      exact fun d hd => isWordPart_of_isDigit (List.mem_takeWhile_imp hd)
    have hbrackets := filterMap_outside_append (cs.dropWhile isDigit) htaken
    rwa [List.cons_append, List.takeWhile_append_dropWhile] at hbrackets
  | word hword =>
    have hpart := isWordPart_of_isWordStart hword
    have htaken : ∀ d ∈ c :: cs.takeWhile isWordPart, isWordPart d = true := by
      rw [← List.takeWhile_cons_of_pos hpart]
      exact fun d hd => List.mem_takeWhile_imp hd
    have hbrackets := filterMap_outside_append (cs.dropWhile isWordPart) htaken
    rw [List.cons_append, List.takeWhile_append_dropWhile] at hbrackets
    rw [hbrackets, List.filter_singleton, isBracket_ofWord]
    rfl
  | quoted hinner => rw [outside_quoted hinner]; rfl
  | stray hcs => rw [outside_stray hcs]; rfl
  | equal => rfl
  | different => rfl
  | single hdigit hword hquote _ =>
    rw [outside_cons hquote, List.filterMap_cons, bracket?]
    cases Kind.ofSymbol? c with
    | none => rfl
    | some k => cases hk : k.isBracket <;> simp [Option.filter, hk]

/-- The brackets among the tokens of a text are those that it has outside of its strings, in their
order. -/
theorem brackets_scan (pos last : Position) (text : List Char) :
    brackets (scan pos last text) = (outside false text).filterMap bracket? := by
  fun_induction scan pos last text with
  | case1 pos last => rfl
  | case2 pos last c cs hblank ih =>
    have hquote : c ≠ '"' := by
      rintro rfl
      cases hblank
    rw [ih, outside_cons hquote, List.filterMap_cons, bracket?_of_isBlank hblank]
  | case3 pos last c cs _ m stop ih =>
    rw [(munching c cs).brackets, ← ih, brackets, brackets, ← List.filter_append]
    rfl

end Lexer

namespace Repl

/-! ## The end of the text with the most openers -/

/-- How many more opening than closing brackets there are among the tokens. -/
def excess (ts : List Token) : Int :=
  (ts.countP (·.kind.isOpener) : Int) - ts.countP (·.kind.isCloser)

/-- What the ends of the row have in excess, the empty one and the whole among them. -/
def excesses (ts : List Token) : Set Int := {n | ∃ us, us <:+ ts ∧ excess us = n}

theorem excess_concat (ts : List Token) (t : Token) :
    excess (ts ++ [t]) = excess ts + excess [t] := by
  simp only [excess, List.countP_append]
  omega

theorem isCloser_of_isOpener {k : Kind} (h : k.isOpener = true) : k.isCloser = false := by
  cases k <;> first | rfl | cases h

/-- One more token changes the number by its excess, but never below zero. -/
theorem bracketStep_eq_max (depth : Nat) (t : Token) :
    (bracketStep depth t : Int) = max 0 (depth + excess [t]) := by
  unfold bracketStep excess
  cases hopen : t.kind.isOpener with
  | true =>
    simp [hopen, isCloser_of_isOpener hopen]
    omega
  | false =>
    cases hclose : t.kind.isCloser <;> simp [hopen, hclose]
    omega

/-- Each end of a row goes on with one more token; only the empty one is there anew. -/
theorem isGreatest_bracketStep {depth : Nat} {ts : List Token} (t : Token)
    (h : IsGreatest (excesses ts) depth) :
    IsGreatest (excesses (ts ++ [t])) (bracketStep depth t) := by
  obtain ⟨⟨us, hus, hdepth⟩, hbound⟩ := h
  rw [bracketStep_eq_max]
  constructor
  · rcases max_choice 0 (depth + excess [t]) with hmax | hmax
    · exact ⟨[], List.nil_suffix, by rw [hmax]; rfl⟩
    · refine ⟨us ++ [t], List.suffix_concat_iff.mpr (.inr ⟨us, rfl, hus⟩), ?_⟩
      rw [hmax, excess_concat, hdepth]
  · rintro n ⟨vs, hvs, rfl⟩
    rcases List.suffix_concat_iff.mp hvs with rfl | ⟨ws, rfl, hws⟩
    · exact le_max_left _ _
    · have hle : excess ws ≤ depth := hbound ⟨ws, hws, rfl⟩
      rw [excess_concat]
      exact le_max_of_le_right (by omega)

theorem isGreatest_foldl (ts : List Token) :
    IsGreatest (excesses ts) (ts.foldl bracketStep 0 : Nat) := by
  induction ts using List.reverseRecOn with
  | nil =>
    refine ⟨⟨[], List.nil_suffix, rfl⟩, ?_⟩
    rintro n ⟨us, hus, rfl⟩
    rw [List.suffix_nil.mp hus]
    exact le_refl _
  | append_singleton ts t ih =>
    rw [List.foldl_append]
    exact isGreatest_bracketStep t ih

/-- The number of brackets that a text leaves open is the greatest excess of openers over closers
among the ends of its tokens, the empty end included: it is positive exactly if some end has more
openers than closers. The brackets among the tokens are those of the text outside of its strings. -/
theorem bracketDepth_isGreatest (text : String) :
    IsGreatest (excesses (tokenize text)) (bracketDepth text) ∧
      (0 < bracketDepth text ↔ ∃ us, us <:+ tokenize text ∧
        us.countP (·.kind.isCloser) < us.countP (·.kind.isOpener)) ∧
      Lexer.brackets (tokenize text) =
        (Lexer.outside false text.toList).filterMap Lexer.bracket? := by
  have hgreatest : IsGreatest (excesses (tokenize text)) (bracketDepth text) :=
    isGreatest_foldl (tokenize text)
  refine ⟨hgreatest, ?_, Lexer.brackets_scan _ _ _⟩
  constructor
  · intro hpos
    obtain ⟨us, hus, hdepth⟩ := hgreatest.1
    refine ⟨us, hus, ?_⟩
    unfold excess at hdepth
    omega
  · rintro ⟨us, hus, hlt⟩
    have hle : excess us ≤ bracketDepth text := hgreatest.2 ⟨us, hus, rfl⟩
    unfold excess at hle
    omega

end Repl

end MonkeyLang
