import MonkeyLang.Proofs.Lexing.Layout
import MonkeyLang.Repl.Buffer

/-!
What is lost with the junk of a text that was typed in. Between tokens a carriage return is a blank
like any other, and inside of a string all junk is text; so a text does not always have the tokens
that it had before it was cleaned, and it is said here exactly when it has.
-/

namespace MonkeyLang.Repl

open Token (Kind)
open Lexer

/-! ## Junk in tokens -/

def kept (text : List Char) : List Char := text.filter (!isJunk ·)

theorem toList_clean (text : String) : (clean text).toList = kept text.toList :=
  String.toList_ofList

theorem kept_append (a b : List Char) : kept (a ++ b) = kept a ++ kept b := List.filter_append a b

theorem kept_eq_self_iff {text : List Char} :
    kept text = text ↔ ∀ c ∈ text, isJunk c = false := by
  simp [kept, List.filter_eq_self]

theorem mem_of_mem_kept {c : Char} {text : List Char} (h : c ∈ kept text) : c ∈ text :=
  (List.mem_filter.mp h).1

/-- The only junk that is blank is the carriage return. -/
theorem isJunk_iff_of_isBlank {c : Char} (h : isBlank c = true) : isJunk c = true ↔ c = '\r' := by
  simp only [isBlank, Bool.or_eq_true, beq_iff_eq] at h
  rcases h with (((rfl | rfl) | rfl) | rfl) | rfl <;> decide

/-- Nothing is kept of blanks exactly if they are carriage returns alone. -/
theorem kept_eq_nil_iff {gap : List Char} (h : ∀ c ∈ gap, isBlank c = true) :
    kept gap = [] ↔ ∀ c ∈ gap, c = '\r' := by
  rw [kept, List.filter_eq_nil_iff]
  refine forall₂_congr fun c hc => ?_
  rw [← isJunk_iff_of_isBlank (h c hc)]
  simp

theorem isJunk_of_isWordPart {c : Char} (h : isWordPart c = true) : isJunk c = false := by
  by_contra hjunk
  rw [Bool.not_eq_false] at hjunk
  simp only [isJunk, Bool.or_eq_true, beq_iff_eq] at hjunk
  rcases hjunk with ((((rfl | rfl) | rfl) | rfl) | rfl) | rfl <;> cases h

/-- Among the tokens that are not illegal, only strings have junk in them. -/
theorem isJunk_of_fits {k : Kind} {w : List Char} (h : Fits k w) (hstring : k ≠ .string)
    (hlegal : k ≠ .illegal) : ∀ c ∈ w, isJunk c = false := by
  have hword : ∀ {v : List Char}, IsWord v → ∀ c ∈ v, isJunk c = false := by
    rintro _ ⟨d, ds, rfl, hd, hds⟩
    refine List.forall_mem_cons.mpr ⟨isJunk_of_isWordPart (isWordPart_of_isWordStart hd), ?_⟩
    exact fun c hc => isJunk_of_isWordPart (hds c hc)
  cases h with
  | digits hw => exact fun c hc => isJunk_of_isWordPart (isWordPart_of_isDigit (hw.2 c hc))
  | name hw => exact hword hw
  | quoted => exact absurd rfl hstring
  | keyword hmem => exact hword (keyword_class _ hmem).1
  | operator hmem =>
    have hspellings : ∀ e ∈ spellings, kept e.1 = e.1 := by decide
    exact kept_eq_self_iff.mp (hspellings _ hmem)
  | illegal => exact absurd rfl hlegal

/-- The text of a token begins with a character that is kept. -/
theorem exists_head_of_fits {t : Token} (h : Fits t.kind t.literal.toList)
    (hlegal : t.kind ≠ .illegal) : ∃ c cs, t.sourceText = c :: cs ∧ isJunk c = false := by
  by_cases hstring : t.kind = .string
  · exact ⟨'"', t.literal.toList ++ ['"'], by rw [Token.sourceText, if_pos hstring]; rfl, rfl⟩
  · obtain ⟨c, cs, htext, -⟩ := h.munched
    rw [written, if_neg hstring] at htext
    refine ⟨c, cs, by rw [Token.sourceText, if_neg hstring, htext], ?_⟩
    exact isJunk_of_fits h hstring hlegal c (by simp [htext])

/-- A text that begins with what is kept of a token is read as the token exactly if there was no
junk in it and it does not go on with what stands behind it. -/
theorem lexemes_kept_token_iff {t : Token} (h : Fits t.kind t.literal.toList)
    (hlegal : t.kind ≠ .illegal) {more : List Char} {ts : List Token} :
    lexemes (kept t.sourceText ++ more) = t.unplaced :: ts ↔
      (t.kind = .string → ∀ c ∈ t.literal.toList, isJunk c = false) ∧
        (∀ d ∈ more.head?, absorbs t.kind d = false) ∧ lexemes more = ts := by
  by_cases hstring : t.kind = .string
  · -- what is kept is a string again, with what is kept of the literal
    have htext : kept t.sourceText = (Token.loose .string (clean t.literal)).sourceText := by
      simp [Token.sourceText, Token.loose, hstring, toList_clean, kept, isJunk]
    have hfits : Fits .string (clean t.literal).toList := by
      rw [hstring] at h
      rw [toList_clean]
      exact .quoted fun hmem => quote_notMem_of_fits h (mem_of_mem_kept hmem)
    have hstop : ∀ d ∈ more.head?, absorbs .string d = false := fun _ _ => rfl
    have hlexemes : lexemes (kept t.sourceText ++ more) =
        Token.loose .string (clean t.literal) :: lexemes more := by
      rw [htext]
      exact (lexemes_fits_iff hfits).mpr ⟨hstop, rfl⟩
    have hsame : Token.loose .string (clean t.literal) = t.unplaced ↔
        ∀ c ∈ t.literal.toList, isJunk c = false := by
      rw [← kept_eq_self_iff, ← toList_clean, String.toList_inj]
      simp [Token.loose, Token.unplaced, hstring]
    rw [hlexemes, List.cons.injEq, hsame, hstring]
    simp [absorbs]
  · have htext : kept t.sourceText = t.sourceText := by
      rw [Token.sourceText, if_neg hstring, kept_eq_self_iff]
      exact isJunk_of_fits h hstring hlegal
    rw [htext, lexemes_fits_iff h]
    simp [hstring]

/-! ## Junk in sources -/

/-- Nothing but carriage returns keeps the second token from being a part of the first. -/
def Fused (p q : Piece) : Prop :=
  q.gap ≠ [] ∧ (∀ c ∈ q.gap, c = '\r') ∧
    ∃ c ∈ q.token.sourceText.head?, absorbs p.token.kind c = true

section Pieces

variable {p q : Piece} {ps : List Piece} {trailing : List Char}

/-- A token goes on with what is kept of the text behind it only if the next one is fused to it. -/
theorem head_kept_iff (hgap : ∀ c ∈ q.gap, isBlank c = true)
    (hfits : Fits q.token.kind q.token.literal.toList) (hlegal : q.token.kind ≠ .illegal)
    (hbefore : ∀ d ∈ (textOf (q :: ps) ++ trailing).head?, absorbs p.token.kind d = false) :
    (∀ d ∈ (kept (textOf (q :: ps) ++ trailing)).head?, absorbs p.token.kind d = false) ↔
      ¬Fused p q := by
  obtain ⟨c, cs, htext, hc⟩ := exists_head_of_fits hfits hlegal
  rw [textOf_cons_append, htext] at hbefore
  rw [textOf_cons_append, kept_append, htext]
  by_cases hnone : kept q.gap = []
  · have hreturns := (kept_eq_nil_iff hgap).mp hnone
    have hhead : (kept q.gap ++ kept (c :: cs ++ (textOf ps ++ trailing))).head? = some c := by
      rw [hnone, List.nil_append]
      simp [kept, hc]
    rw [hhead, Fused, htext]
    by_cases hempty : q.gap = []
    · have := hbefore c (by simp [hempty])
      simp [hempty, this]
    · simpa [hempty] using Or.inl hreturns
  · -- a blank that is kept stops every token
    obtain ⟨d, ds, hkept⟩ := List.exists_cons_of_ne_nil hnone
    have hblank : isBlank d = true := hgap d (mem_of_mem_kept (by simp [hkept]))
    rw [hkept, List.cons_append, List.head?_cons]
    constructor
    · exact fun _ hfused => hnone ((kept_eq_nil_iff hgap).mpr hfused.2.1)
    · intro _ e he
      rw [← Option.some_inj.mp he]
      exact absorbs_of_isBlank _ hblank

/-- The tokens of pieces are read from what is kept of their text exactly if no string has junk in
it and no neighbours are fused. -/
theorem lexemes_kept_iff {pieces : List Piece}
    (hfits : ∀ p ∈ pieces, Fits p.token.kind p.token.literal.toList)
    (hlegal : ∀ p ∈ pieces, p.token.kind ≠ .illegal)
    (hgaps : ∀ p ∈ pieces, ∀ c ∈ p.gap, isBlank c = true)
    (htrailing : ∀ c ∈ trailing, isBlank c = true)
    (hbefore : lexemes (textOf pieces ++ trailing) =
      pieces.map (·.token.unplaced) ++ [Token.loose .eof ""]) :
    lexemes (kept (textOf pieces ++ trailing)) =
        pieces.map (·.token.unplaced) ++ [Token.loose .eof ""] ↔
      (∀ p ∈ pieces, p.token.kind = .string → ∀ c ∈ p.token.literal.toList, isJunk c = false) ∧
        pieces.IsChain fun p q => ¬Fused p q := by
  have hblanks : ∀ gap : List Char, (∀ c ∈ gap, isBlank c = true) →
      ∀ c ∈ kept gap, isBlank c = true := fun _ h c hc => h c (mem_of_mem_kept hc)
  -- what is read begins with the first token only if the kept text behind that is none of it
  induction pieces with
  | nil =>
    have := lexemes_blanks (hblanks _ htrailing) []
    rw [List.append_nil, lexemes_nil] at this
    simpa [textOf] using this
  | cons p ps ih =>
    obtain ⟨hfit, hfits⟩ := List.forall_mem_cons.mp hfits
    obtain ⟨hlegal₁, hlegal⟩ := List.forall_mem_cons.mp hlegal
    obtain ⟨hgap, hgaps⟩ := List.forall_mem_cons.mp hgaps
    rw [textOf_cons_append, lexemes_blanks hgap, List.map_cons, List.cons_append,
      lexemes_fits_iff hfit] at hbefore
    obtain ⟨hstop, hbefore⟩ := hbefore
    have hrest : _ ↔ _ := ih hfits hlegal hgaps hbefore
    rw [textOf_cons_append, kept_append, kept_append, lexemes_blanks (hblanks _ hgap),
      List.map_cons, List.cons_append, lexemes_kept_token_iff hfit hlegal₁, hrest,
      List.forall_mem_cons]
    cases ps with
    | nil =>
      have hhead : ∀ d ∈ (kept (textOf [] ++ trailing)).head?, absorbs p.token.kind d = false :=
        fun d hd => absorbs_of_isBlank _ (htrailing d (mem_of_mem_kept (List.mem_of_mem_head? hd)))
      simpa using fun _ => hhead
    | cons q ps =>
      have hhead := head_kept_iff (hgaps q List.mem_cons_self) (hfits q List.mem_cons_self)
        (hlegal q List.mem_cons_self) hstop
      rw [hhead, List.isChain_cons_cons]
      tauto

end Pieces

/-- A text without illegal tokens has the tokens that it had, by their kinds and literals, after it
was cleaned exactly if no string in it has junk in it and no two tokens are fused by the carriage
returns between them. So it is whatever makes a scanner a basic one. -/
theorem tokenize_clean_iff {scanner : List Char → List Raw} (h : IsBasic scanner) {text : String}
    (hlegal : ∀ t ∈ tokenize text, t.kind ≠ .illegal) :
    (tokenize text = assemble (scanner text.toList) ∧
      tokenize (clean text) = assemble (scanner (clean text).toList)) ∧
    ∃ pieces trailing, Laid pieces ∧ text.toList = textOf pieces ++ trailing ∧
      (∀ c ∈ trailing, isBlank c = true) ∧
      tokenize text = pieces.map (·.token) ++ [Token.eof (.behind (textOf pieces))] ∧
      ((tokenize (clean text)).map (·.unplaced) = (tokenize text).map (·.unplaced) ↔
        (∀ p ∈ pieces, p.token.kind = .string → ∀ c ∈ p.token.literal.toList, isJunk c = false) ∧
          pieces.IsChain fun p q => ¬Fused p q) := by
  refine ⟨⟨(assemble_eq_tokenize h text).symm, (assemble_eq_tokenize h _).symm⟩, ?_⟩
  obtain ⟨pieces, trailing, hlaid, htext, htrailing, htokens⟩ := exists_pieces text
  refine ⟨pieces, trailing, hlaid, htext, htrailing, htokens, ?_⟩
  have hmem := token_mem htokens
  have hfits : ∀ p ∈ pieces, Fits p.token.kind p.token.literal.toList := fun p hp =>
    fits_of_mem_scan (hmem p hp) (hlaid.tokens p hp).2 (hlegal _ (hmem p hp))
  have hbefore : (tokenize text).map (·.unplaced) =
      pieces.map (·.token.unplaced) ++ [Token.loose .eof ""] := by
    simp [htokens, Function.comp_def, Token.unplaced, Token.eof, Token.loose]
  have hafter : (tokenize (clean text)).map (·.unplaced) =
      lexemes (kept (textOf pieces ++ trailing)) := by
    rw [← htext, ← toList_clean]
    rfl
  rw [hafter, hbefore]
  refine lexemes_kept_iff hfits (fun p hp => hlegal _ (hmem p hp)) hlaid.gaps htrailing ?_
  rw [← htext, ← hbefore]
  rfl

/-- A string with a fixed space in it is another string without it. -/
theorem tokenize_clean_iff_fixedSpace : IsBasic (rawsFrom .start) ∧
    (∀ t ∈ tokenize "len(\"a\u00a0b\")", t.kind ≠ .illegal) ∧
    (tokenize (clean "len(\"a\u00a0b\")")).map (·.unplaced) ≠
      (tokenize "len(\"a\u00a0b\")").map (·.unplaced) ∧
    (tokenize "len(\"a\u00a0b\")" = assemble (rawsFrom .start "len(\"a\u00a0b\")".toList) ∧
      tokenize (clean "len(\"a\u00a0b\")") =
        assemble (rawsFrom .start (clean "len(\"a\u00a0b\")").toList)) ∧
    ∃ pieces trailing, Laid pieces ∧ "len(\"a\u00a0b\")".toList = textOf pieces ++ trailing ∧
      (∀ c ∈ trailing, isBlank c = true) ∧
      tokenize "len(\"a\u00a0b\")" =
        pieces.map (·.token) ++ [Token.eof (.behind (textOf pieces))] ∧
      ((tokenize (clean "len(\"a\u00a0b\")")).map (·.unplaced) =
          (tokenize "len(\"a\u00a0b\")").map (·.unplaced) ↔
        (∀ p ∈ pieces, p.token.kind = .string → ∀ c ∈ p.token.literal.toList, isJunk c = false) ∧
          pieces.IsChain fun p q => ¬Fused p q) := by
  have hlegal : ∀ t ∈ tokenize "len(\"a\u00a0b\")", t.kind ≠ .illegal := by decide +kernel
  exact ⟨isBasic_rawsFrom, hlegal, by decide +kernel, tokenize_clean_iff isBasic_rawsFrom hlegal⟩

example : (tokenize (clean "let\r\n1\r2\r\n")).map (·.literal) = ["let", "12", ""] := by
  decide +kernel

end MonkeyLang.Repl
