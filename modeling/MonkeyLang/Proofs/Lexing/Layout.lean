import MonkeyLang.Proofs.Lexing.Munch

/-!
Tokens written out as text. What stands right behind a token becomes part of it only if that begins
with one of a few characters, and a blank is never among them. So the tokens of a list come back
from every text that has them in their order with blanks between, whatever these blanks are.
-/

namespace MonkeyLang

open Token (Kind)

namespace Lexer

/-! ## Literals -/

/-- A token of the kind may have the literal: digits, one or more; a word, which is no keyword if it
is a name; a text without quotes; the spelling of the keyword or the operator; and for what is
illegal one character, neither a blank nor a quote, with which no other token begins. -/
inductive Fits : Kind → List Char → Prop
  | digits {w : List Char} : Pattern.digits.Covers w → Fits .int w
  | name {w : List Char} : IsWord w → String.ofList w ∉ Kind.keywords.map (·.1) → Fits .ident w
  | quoted {w : List Char} : '"' ∉ w → Fits .string w
  | keyword {k : Kind} {word : String} : (word, k) ∈ Kind.keywords → Fits k word.toList
  | operator {k : Kind} {w : List Char} : (w, k) ∈ spellings → Fits k w
  | illegal {c : Char} : isBlank c = false → c ≠ '"' → (∀ k w, ¬Spelled k (c :: w)) →
      Fits .illegal [c]

theorem ne_string_of_spellings : ∀ e ∈ spellings, e.2 ≠ .string := by decide

theorem quote_notMem_of_fits {w : List Char} (h : Fits .string w) : '"' ∉ w := by
  cases h with
  | quoted hw => exact hw
  | keyword hmem => exact absurd rfl (keyword_class _ hmem).2.2
  | operator hmem => exact absurd rfl (ne_string_of_spellings _ hmem)

/-- The text of a token of the kind with the literal. -/
def written (k : Kind) (w : List Char) : List Char := if k = .string then '"' :: w ++ ['"'] else w

theorem sourceText_eq_written (t : Token) : t.sourceText = written t.kind t.literal.toList := rfl

/-- A token of the kind goes on with the character if that stands right behind it. -/
def absorbs (k : Kind) (c : Char) : Bool :=
  match k with
  | .int => isDigit c
  | .ident | .kwFn | .kwLet | .kwTrue | .kwFalse | .kwIf | .kwElse | .kwReturn => isWordPart c
  | .assign | .bang => c == '='
  | _ => false

/-- No token goes on with a blank. -/
theorem absorbs_of_isBlank {c : Char} (k : Kind) (h : isBlank c = true) : absorbs k c = false := by
  have hequals : (c == '=') = false := by
    rw [beq_eq_false_iff_ne]
    rintro rfl
    cases h
  cases k <;> simp [absorbs, isDigit_of_isBlank h, isWordPart_of_isBlank h, hequals]

/-! ## The token of a literal -/

section Fits

variable {k : Kind} {w more : List Char} {c d : Char}

/-- `c :: cs` is how a token of the kind is written: where nothing stands behind it that it goes on
with, it is taken as it stands, and everywhere else the token that is taken is another. -/
structure Munched (k : Kind) (c : Char) (cs : List Char) : Prop where
  nonblank : isBlank c = false
  exact : ∀ more, (∀ d ∈ more.head?, absorbs k d = false) →
    munch c (cs ++ more) = ⟨k, c :: cs, more⟩
  longer : ∀ d more, absorbs k d = true → (munch c (cs ++ d :: more)).taken ≠ c :: cs

/-- A row of characters of one sort with one more of them is longer than without. -/
theorem takeWhile_ne {p : Char → Bool} {cs : List Char} (hcs : ∀ c ∈ cs, p c = true)
    (hd : p d = true) (more : List Char) : (cs ++ d :: more).takeWhile p ≠ cs := by
  rw [List.takeWhile_append_of_pos hcs, List.takeWhile_cons_of_pos hd]
  simp

theorem munched_digits (h : Pattern.digits.Covers (c :: w)) : Munched .int c w := by
  obtain ⟨hc, hw⟩ := List.forall_mem_cons.mp h.2
  refine ⟨isBlank_of_isWordPart (isWordPart_of_isDigit hc), fun more hmore => ?_,
    fun d more hd => ?_⟩
  · obtain ⟨htake, hdrop⟩ := takeWhile_append_stop hw hmore
    rw [munch_of_digit _ hc, htake, hdrop]
  · rw [munch_of_digit _ hc]
    exact fun heq => takeWhile_ne hw hd more (List.cons.inj heq).2

theorem munched_word (hword : IsWord (c :: w)) (hkind : Kind.ofWord (String.ofList (c :: w)) = k)
    (habsorbs : ∀ d, absorbs k d = isWordPart d) : Munched k c w := by
  obtain ⟨c', w', heq, hc, hw⟩ := hword
  obtain ⟨rfl, rfl⟩ := List.cons.inj heq
  refine ⟨isBlank_of_isWordPart (isWordPart_of_isWordStart hc), fun more hmore => ?_,
    fun d more hd => ?_⟩
  · simp only [habsorbs] at hmore
    obtain ⟨htake, hdrop⟩ := takeWhile_append_stop hw hmore
    rw [munch_of_wordStart _ hc, htake, hdrop, hkind]
  · rw [habsorbs] at hd
    rw [munch_of_wordStart _ hc]
    exact fun heq => takeWhile_ne hw hd more (List.cons.inj heq).2

theorem munched_keyword {word : String} (h : (word, k) ∈ Kind.keywords)
    (hw : word.toList = c :: w) : Munched k c w := by
  have habsorbs : ∀ e ∈ Kind.keywords, ∀ d, absorbs e.2 d = isWordPart d := by
    simp [Kind.keywords, absorbs]
  obtain ⟨hword, hkind, -⟩ := keyword_class _ h
  rw [hw] at hword
  refine munched_word hword ?_ (habsorbs _ h)
  rwa [← hw, String.ofList_toList]

theorem munched_quoted (hw : '"' ∉ w) : Munched .string '"' (w ++ ['"']) := by
  refine ⟨rfl, fun more _ => ?_, nofun⟩
  rw [List.append_assoc, List.singleton_append, munch_of_quoted hw]
  rfl

theorem munched_operator (h : (c :: w, k) ∈ spellings) : Munched k c w := by
  rcases mem_spellings.mp h with hdouble | ⟨c', hsymbol, heq⟩
  · rcases mem_doubles.mp hdouble with heq | heq <;> cases heq <;>
      exact ⟨rfl, fun _ _ => rfl, nofun⟩
  · obtain ⟨rfl, rfl⟩ := List.cons.inj heq
    -- of the symbols only `=` and `!` go on, and only with `=`
    have hequals : ∀ e ∈ Kind.symbols, e.1 = '=' ∨ e.1 = '!' → absorbs e.2 '=' = true := by decide
    have habsorbs : ∀ e ∈ Kind.symbols, ∀ d, absorbs e.2 d = true →
        (e.1 = '=' ∨ e.1 = '!') ∧ d = '=' := by
      simp [Kind.symbols, absorbs]
    refine ⟨(symbol_class _ hsymbol).1, fun more hmore => ?_, fun d more hd => ?_⟩
    · refine munch_symbol hsymbol fun hc hhead => ?_
      have := hmore '=' hhead
      rw [hequals _ hsymbol hc] at this
      cases this
    · obtain ⟨rfl | rfl, rfl⟩ := habsorbs _ hsymbol d hd <;> nofun

theorem munched_illegal (hblank : isBlank c = false) (hquote : c ≠ '"')
    (hno : ∀ k w, ¬Spelled k (c :: w)) : Munched .illegal c [] := by
  have hdigit : isDigit c = false := by
    by_contra h
    rw [Bool.not_eq_false] at h
    exact hno .int [] (.digits ⟨List.cons_ne_nil _ _, by simpa using h⟩)
  have hword : isWordStart c = false := by
    by_contra h
    rw [Bool.not_eq_false] at h
    exact hno .ident [] (.word ⟨c, [], rfl, h, nofun⟩)
  have hsymbol : ∀ k, (c, k) ∉ Kind.symbols := fun k h =>
    hno k [] (.operator (mem_spellings.mpr (.inr ⟨c, h, rfl⟩)))
  have hnone : Kind.ofSymbol? c = none := by
    by_contra h
    obtain ⟨k, hk⟩ := Option.ne_none_iff_exists'.mp h
    exact hsymbol k (mem_symbols_of_ofSymbol? hk)
  refine ⟨hblank, fun more _ => ?_, nofun⟩
  have hne : c = '=' ∨ c = '!' → more.head? ≠ some '=' := by
    rintro (rfl | rfl) <;> cases hnone
  rw [List.nil_append, munch_single hdigit hword hquote hne, hnone, Option.getD_none]

/-- The text of a token is munched as a token of its kind. -/
theorem Fits.munched (h : Fits k w) : ∃ c cs, written k w = c :: cs ∧ Munched k c cs := by
  cases h with
  | digits hw =>
    obtain ⟨c, cs, rfl⟩ := List.exists_cons_of_ne_nil hw.1
    exact ⟨c, cs, rfl, munched_digits hw⟩
  | name hword hno =>
    obtain ⟨c, cs, rfl⟩ := List.exists_cons_of_ne_nil (Spelled.word hword).ne_nil
    exact ⟨c, cs, rfl, munched_word hword (ofWord_eq_ident_iff.mpr hno) fun _ => rfl⟩
  | quoted hw => exact ⟨'"', _, rfl, munched_quoted hw⟩
  | @keyword _ word hmem =>
    obtain ⟨hword, -, hstring⟩ := keyword_class _ hmem
    obtain ⟨c, cs, hw⟩ := List.exists_cons_of_ne_nil (Spelled.word hword).ne_nil
    exact ⟨c, cs, by rw [written, if_neg hstring, hw], munched_keyword hmem hw⟩
  | operator hmem =>
    obtain ⟨c, cs, rfl⟩ := List.exists_cons_of_ne_nil (length_spellings _ hmem).1
    have hstring := ne_string_of_spellings _ hmem
    exact ⟨c, cs, by rw [written, if_neg hstring], munched_operator hmem⟩
  | illegal hblank hquote hno => exact ⟨_, [], rfl, munched_illegal hblank hquote hno⟩

end Fits

/-- A text that begins with that of a token is read as the token exactly if the token does not go on
with what stands behind it. -/
theorem lexemes_fits_iff {t : Token} (h : Fits t.kind t.literal.toList) {more : List Char}
    {ts : List Token} : lexemes (t.sourceText ++ more) = t.unplaced :: ts ↔
      (∀ d ∈ more.head?, absorbs t.kind d = false) ∧ lexemes more = ts := by
  obtain ⟨c, cs, htext, hmunched⟩ := h.munched
  rw [← sourceText_eq_written] at htext
  rw [htext, List.cons_append, lexemes_token hmunched.nonblank]
  have htoken : ∀ m : Munch, m.kind = t.kind → m.taken = t.sourceText →
      m.token ⟨0, 0⟩ = t.unplaced := by
    intro m hkind htaken
    by_cases hstring : t.kind = .string <;>
      simp [Munch.token, Token.unplaced, Token.sourceText, hkind, htaken, hstring]
  constructor
  · intro hlexemes
    obtain ⟨hhead, htail⟩ := List.cons.inj hlexemes
    have hmore : ∀ d ∈ more.head?, absorbs t.kind d = false := by
      -- a token that went on would have another text
      intro d hd
      by_contra habsorbs
      rw [Bool.not_eq_false] at habsorbs
      obtain ⟨more, rfl⟩ := List.head?_eq_some_iff.mp hd
      have htaken := congrArg Token.sourceText hhead
      rw [sourceText_token] at htaken
      exact hmunched.longer d more habsorbs (htaken.trans htext)
    rw [hmunched.exact more hmore] at htail
    exact ⟨hmore, htail⟩
  · rintro ⟨hmore, rfl⟩
    rw [hmunched.exact more hmore, htoken _ rfl htext.symm]

theorem fits_word {w : List Char} (h : IsWord w) : Fits (Kind.ofWord (String.ofList w)) w := by
  by_cases hmem : String.ofList w ∈ Kind.keywords.map (·.1)
  · obtain ⟨e, he, hw⟩ := List.mem_map.mp hmem
    have hkind := (keyword_class e he).2.1
    obtain rfl : e.1.toList = w := by rw [hw, String.toList_ofList]
    rw [String.ofList_toList, hkind]
    exact .keyword he
  · rw [ofWord_eq_ident_iff.mpr hmem]
    exact .name h hmem

/-- A token at the beginning of a text that is not illegal has a literal that fits its kind. -/
theorem FirstToken.fits {text w : List Char} {k : Kind} (h : FirstToken text k w)
    (hlegal : k ≠ .illegal) : Fits k (if k = .string then w.tail.dropLast else w) := by
  cases h with
  | illegal => exact absurd rfl hlegal
  | @spelled k _ hlongest =>
    cases hlongest.spelled with
    | digits hw => exact .digits hw
    | quoted hw =>
      obtain ⟨inner, rfl, hinner⟩ := hw
      rw [show retype .string _ = .string from rfl, if_pos rfl, List.cons_append, List.tail_cons,
        List.dropLast_concat]
      exact .quoted hinner
    | word hword =>
      rw [show retype .ident w = Kind.ofWord (String.ofList w) from rfl,
        if_neg (ofWord_ne_string _)]
      exact fits_word hword
    | operator hmem =>
      rw [retype_of_spellings _ hmem, if_neg (ne_string_of_spellings _ hmem)]
      exact .operator hmem

theorem fits_of_mem_scan {pos last : Position} {text : List Char} {t : Token}
    (ht : t ∈ scan pos last text) (hreal : t.kind ≠ .eof) (hlegal : t.kind ≠ .illegal) :
    Fits t.kind t.literal.toList := by
  obtain ⟨gone, c, cs, -, rfl⟩ := exists_of_mem_scan ht hreal
  have hfits := (firstToken_munch c cs).fits hlegal
  rwa [Munch.token, String.toList_ofList]

/-! ## Token lists -/

/-- Each piece has a token whose literal fits it, blanks alone stand before the tokens, and at least
one between neighbours. -/
structure Spaced (pieces : List Piece) : Prop where
  fits : ∀ piece ∈ pieces, Fits piece.token.kind piece.token.literal.toList
  gaps : ∀ piece ∈ pieces, ∀ c ∈ piece.gap, isBlank c = true
  apart : ∀ piece ∈ pieces.tail, piece.gap ≠ []

theorem lexemes_blanks {w : List Char} (hw : ∀ c ∈ w, isBlank c = true) (rest : List Char) :
    lexemes (w ++ rest) = lexemes rest := by
  rw [lexemes, scan_blanks hw]
  exact scan_unplaced _ _ _ _ _

theorem Spaced.tail {piece : Piece} {pieces : List Piece} (h : Spaced (piece :: pieces)) :
    Spaced pieces where
  fits := (List.forall_mem_cons.mp h.fits).2
  gaps := (List.forall_mem_cons.mp h.gaps).2
  apart p hp := h.apart p (List.mem_of_mem_tail hp)

/-- Behind a token that is not the last stands a blank. -/
theorem Spaced.head_isBlank {piece : Piece} {pieces : List Piece} {trailing : List Char}
    (h : Spaced (piece :: pieces)) (htrailing : ∀ c ∈ trailing, isBlank c = true) :
    ∀ d ∈ (textOf pieces ++ trailing).head?, isBlank d = true := by
  cases pieces with
  | nil => exact fun d hd => htrailing d (List.mem_of_mem_head? hd)
  | cons next pieces =>
    obtain ⟨c, cs, hgap⟩ := List.exists_cons_of_ne_nil (h.apart next List.mem_cons_self)
    intro d hd
    obtain rfl : c = d := by simpa [textOf, Piece.text, hgap] using hd
    exact h.gaps next (by simp) c (by simp [hgap])

theorem Spaced.lexemes {pieces : List Piece} (h : Spaced pieces) {trailing : List Char}
    (htrailing : ∀ c ∈ trailing, isBlank c = true) :
    lexemes (textOf pieces ++ trailing) =
      pieces.map (·.token.unplaced) ++ [Token.loose .eof ""] := by
  induction pieces with
  | nil =>
    have := lexemes_blanks htrailing []
    rwa [List.append_nil, lexemes_nil] at this
  | cons piece pieces ih =>
    rw [textOf_cons_append, lexemes_blanks (h.gaps piece List.mem_cons_self), List.map_cons,
      List.cons_append, lexemes_fits_iff (h.fits piece List.mem_cons_self)]
    exact ⟨fun d hd => absorbs_of_isBlank _ (h.head_isBlank htrailing d hd), ih h.tail⟩

/-- Tokens that are written with blanks between them, and with any blanks before the first and
behind the last, are read back in their order, each with its kind and its literal, and with an end
behind them. So it is whatever makes a scanner a basic one. -/
theorem tokenize_spaced {scanner : List Char → List Raw} (h : IsBasic scanner)
    {pieces : List Piece} (hpieces : Spaced pieces) {trailing : List Char}
    (htrailing : ∀ c ∈ trailing, isBlank c = true) {source : String}
    (hsource : source.toList = textOf pieces ++ trailing) :
    tokenize source = assemble (scanner source.toList) ∧
      (tokenize source).map (·.unplaced) =
        pieces.map (·.token.unplaced) ++ [Token.loose .eof ""] := by
  refine ⟨(assemble_eq_tokenize h source).symm, ?_⟩
  have hlexemes := hpieces.lexemes htrailing
  rwa [← hsource] at hlexemes

/-- Two operators that are one without the carriage return, a string with tokens in it, a keyword
and a stray character. -/
def assorted : List Piece :=
  [⟨[], .loose .bang "!"⟩, ⟨['\r'], .loose .eq "=="⟩, ⟨['\n', ' '], .loose .string "let = \n5"⟩,
    ⟨['\t'], .loose .kwLet "let"⟩, ⟨['\x0c'], .loose .illegal "@"⟩, ⟨[' '], .loose .int "007"⟩]

theorem spaced_assorted : Spaced assorted where
  fits := by
    have hat : ∀ e ∈ spellings, e.1.head? ≠ some '@' := by decide
    have hillegal : ∀ k w, ¬Spelled k ('@' :: w) := fun k w hw =>
      hat _ (hw.of_other rfl rfl (by decide)) rfl
    simp only [assorted, List.forall_mem_cons]
    exact ⟨.operator (by decide), .operator (by decide), .quoted (by decide),
      .keyword (show ("let", .kwLet) ∈ Kind.keywords by decide), .illegal rfl (by decide) hillegal,
      .digits ⟨by decide, List.all_eq_true.mp rfl⟩, nofun⟩
  gaps := by simp [assorted, isBlank]
  apart := by decide

theorem tokenize_spaced_assorted : IsBasic (rawsFrom .start) ∧ Spaced assorted ∧
    (∀ c ∈ ['\r', '\n'], isBlank c = true) ∧
    "!\r==\n \"let = \n5\"\tlet\x0c@ 007\r\n".toList = textOf assorted ++ ['\r', '\n'] ∧
    tokenize "!\r==\n \"let = \n5\"\tlet\x0c@ 007\r\n" =
        assemble (rawsFrom .start "!\r==\n \"let = \n5\"\tlet\x0c@ 007\r\n".toList) ∧
      (tokenize "!\r==\n \"let = \n5\"\tlet\x0c@ 007\r\n").map (·.unplaced) =
        assorted.map (·.token.unplaced) ++ [Token.loose .eof ""] := by
  have hblank : ∀ c ∈ ['\r', '\n'], isBlank c = true := by simp [isBlank]
  have htext : "!\r==\n \"let = \n5\"\tlet\x0c@ 007\r\n".toList =
      textOf assorted ++ ['\r', '\n'] := by
    decide +kernel
  exact ⟨isBasic_rawsFrom, spaced_assorted, hblank, htext,
    tokenize_spaced isBasic_rawsFrom spaced_assorted hblank htext⟩

end Lexer

end MonkeyLang
