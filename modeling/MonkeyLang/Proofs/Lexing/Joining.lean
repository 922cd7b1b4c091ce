import MonkeyLang.Proofs.Lexing.Spelling

/-!
Sources on lines of their own. A line feed ends every token but a string that is still open; so the
tokens of a source without an illegal one are not changed by what stands in the lines below it.
-/

namespace MonkeyLang.Lexer

open Token (Kind)

theorem scan_ne_nil (pos last : Position) (text : List Char) : scan pos last text ≠ [] := by
  fun_induction scan pos last text with
  | case1 => exact List.cons_ne_nil _ _
  | case2 _ _ _ _ _ ih => exact ih
  | case3 => exact List.cons_ne_nil _ _

/-- A row that does not go on with the next character is not changed by anything behind it. -/
theorem takeWhile_append_cons {p : Char → Bool} {c : Char} (hc : p c = false)
    (cs more : List Char) :
    (cs ++ c :: more).takeWhile p = cs.takeWhile p ∧
      (cs ++ c :: more).dropWhile p = cs.dropWhile p ++ c :: more := by
  induction cs with
  | nil => simp [hc]
  | cons d cs ih =>
    cases hd : p d <;> simp [hd, ih]

/-- A line feed does not change the first token of a text, unless that is illegal. -/
theorem munch_append {c : Char} {cs : List Char} (h : (munch c cs).kind ≠ .illegal)
    (more : List Char) :
    munch c (cs ++ '\n' :: more) =
      ⟨(munch c cs).kind, (munch c cs).taken, (munch c cs).rest ++ '\n' :: more⟩ := by
  have hmunching := munching c cs
  generalize munch c cs = m at h hmunching ⊢
  cases hmunching with
  | digits hdigit =>
    obtain ⟨htake, hdrop⟩ := takeWhile_append_cons (p := isDigit) (c := '\n') rfl cs more
    rw [munch_of_digit _ hdigit, htake, hdrop]
  | word hword =>
    obtain ⟨htake, hdrop⟩ := takeWhile_append_cons (p := isWordPart) (c := '\n') rfl cs more
    rw [munch_of_wordStart _ hword, htake, hdrop]
  | quoted hinner => rw [List.append_assoc, List.cons_append, munch_of_quoted hinner]
  | stray => exact absurd rfl h
  | equal => rfl
  | different => rfl
  | single hdigit hword hquote hnext =>
    refine munch_single hdigit hword hquote ?_
    cases cs with
    | nil => simp
    | cons d cs => exact hnext

/-- The tokens of a source that stands above another are its own. -/
theorem lexemes_append {text : List Char} (more : List Char)
    (h : ∀ t ∈ lexemes text, t.kind ≠ .illegal) :
    lexemes (text ++ '\n' :: more) = (lexemes text).dropLast ++ lexemes more := by
  induction hlength : text.length using Nat.strongRecOn generalizing text with
  | ind n ih =>
    subst hlength
    cases text with
    | nil =>
      rw [lexemes_nil]
      exact lexemes_blank rfl
    | cons c cs =>
      by_cases hblank : isBlank c = true
      · rw [lexemes_blank hblank] at h
        rw [List.cons_append, lexemes_blank hblank, lexemes_blank hblank]
        exact ih cs.length (Nat.lt_succ_self _) h rfl
      · rw [Bool.not_eq_true] at hblank
        rw [lexemes_token hblank] at h
        obtain ⟨hfirst, hrest⟩ := List.forall_mem_cons.mp h
        have hshort := Nat.lt_succ_of_le (length_rest_le c cs)
        have hne : lexemes (munch c cs).rest ≠ [] := by
          rw [lexemes, ne_eq, List.map_eq_nil_iff]
          exact scan_ne_nil _ _ _
        rw [List.cons_append, lexemes_token hblank, lexemes_token hblank, munch_append hfirst,
          ih _ hshort hrest rfl, List.dropLast_cons_of_ne_nil hne]
        rfl

end MonkeyLang.Lexer
