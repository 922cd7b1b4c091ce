import Mathlib.Data.List.TakeWhile
import MonkeyLang.Proofs.Numeral
import MonkeyLang.Token.Lexer

/-!
What the lexer makes of a text.
-/

namespace MonkeyLang.Lexer

open Token (Kind)

/-- A table of kinds gives only the kinds in it, and one for what it does not have. -/
theorem getD_lookup_ne {α : Type} [BEq α] [LawfulBEq α] {table : List (α × Kind)} {key : α}
    {fallback k : Kind} (hfallback : fallback ≠ k) (htable : ∀ entry ∈ table, entry.2 ≠ k) :
    (table.lookup key).getD fallback ≠ k := by
  cases hfound : table.lookup key with
  | none => exact hfallback
  | some found =>
    obtain ⟨before, after, htable', -⟩ := List.lookup_eq_some_iff.mp hfound
    exact htable (key, found) (by rw [htable']; exact List.mem_append_right _ List.mem_cons_self)

/-- No word and no symbol is an integer. -/
theorem ofWord_ne_int (word : String) : Kind.ofWord word ≠ .int :=
  getD_lookup_ne (by decide) (by decide)

theorem ofSymbol?_ne_int (c : Char) : (Kind.ofSymbol? c).getD .illegal ≠ .int :=
  getD_lookup_ne (by decide) (by decide)

theorem ofWord_ne_eof (word : String) : Kind.ofWord word ≠ .eof :=
  getD_lookup_ne (by decide) (by decide)

theorem ofSymbol?_ne_eof (c : Char) : (Kind.ofSymbol? c).getD .illegal ≠ .eof :=
  getD_lookup_ne (by decide) (by decide)

/-- No character begins an end of the source. -/
theorem kind_munch_ne_eof (c : Char) (cs : List Char) : (munch c cs).kind ≠ .eof := by
  unfold munch
  split
  · simp
  split
  · exact ofWord_ne_eof _
  split
  · split <;> simp
  split
  · simp
  · simp
  · exact ofSymbol?_ne_eof _

/-- A row of characters that satisfy `p` ends where the text goes on with none of them. -/
theorem takeWhile_append_stop {p : Char → Bool} {cs more : List Char}
    (hcs : ∀ c ∈ cs, p c = true) (hmore : ∀ c ∈ more.head?, p c = false) :
    (cs ++ more).takeWhile p = cs ∧ (cs ++ more).dropWhile p = more := by
  rw [List.takeWhile_append_of_pos hcs, List.dropWhile_append_of_pos hcs]
  cases more with
  | nil => simp
  | cons d more => simp [hmore d rfl]

theorem scan_blank {pos last : Position} {c : Char} {cs : List Char} (h : isBlank c = true) :
    scan pos last (c :: cs) = scan (pos.step c) last cs := by
  rw [scan, if_pos h]

theorem scan_token {pos last : Position} {c : Char} {cs : List Char} (h : isBlank c = false) :
    scan pos last (c :: cs) = (munch c cs).token pos ::
      scan (pos.advance (munch c cs).taken) (pos.advance (munch c cs).taken) (munch c cs).rest := by
  rw [scan, if_neg (by simp [h])]

theorem isDigit_of_isBlank {c : Char} (h : isBlank c = true) : isDigit c = false := by
  simp only [isBlank, Bool.or_eq_true, beq_iff_eq] at h
  rcases h with (((rfl | rfl) | rfl) | rfl) | rfl <;> decide

theorem munch_of_digit {c : Char} (cs : List Char) (hc : isDigit c = true) :
    munch c cs = ⟨.int, c :: cs.takeWhile isDigit, cs.dropWhile isDigit⟩ :=
  if_pos hc

/-- An integer token is a run of digits. -/
theorem digits_of_munch {c : Char} {cs : List Char} (h : (munch c cs).kind = .int) :
    ∀ d ∈ (munch c cs).taken, isDigit d = true := by
  cases hc : isDigit c with
  | true =>
    rw [munch_of_digit cs hc]
    intro d hd
    rcases List.mem_cons.mp hd with rfl | hd
    · exact hc
    · exact List.mem_takeWhile_imp hd
  | false =>
    unfold munch at h
    rw [hc, if_neg (by decide)] at h
    split at h
    · exact absurd h (ofWord_ne_int _)
    · split at h
      · split at h <;> cases h
      · split at h
        · cases h
        · cases h
        · exact absurd h (ofSymbol?_ne_int _)

theorem digits_of_mem_scan {pos last : Position} {text : List Char} {t : Token}
    (ht : t ∈ scan pos last text) (hk : t.kind = .int) :
    ∀ d ∈ t.literal.toList, isDigit d = true := by
  fun_induction scan pos last text with
  | case1 pos last =>
    rw [List.mem_singleton.mp ht] at hk
    cases hk
  | case2 pos last c cs _ ih => exact ih ht
  | case3 pos last c cs _ m stop ih =>
    rcases List.mem_cons.mp ht with rfl | ht
    · have hint : m.kind = .int := hk
      have hliteral : (m.token pos).literal.toList = m.taken := by
        simp [Munch.token, hint]
      rw [hliteral]
      exact digits_of_munch hint
    · exact ih ht

end MonkeyLang.Lexer
