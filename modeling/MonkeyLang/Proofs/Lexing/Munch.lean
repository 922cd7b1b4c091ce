import MonkeyLang.Proofs.Lexing.Decomposition

/-!
What a token is, told by the text alone. At the place of each token the longest beginning of what
follows is taken that is spelled like a token at all; a word that is a keyword is one; and where
nothing is spelled so, one character is taken that is illegal.
-/

namespace MonkeyLang

open Token (Kind)

/-! ## Places of a text -/

theorem Position.eq_nil_of_feed {p : Position} {text : List Char} (h : p.feed text = p) :
    text = [] := by
  by_cases hfeed : '\n' ∈ text
  · rw [feed, if_pos hfeed] at h
    have hline : p.line + text.count '\n' = p.line := congrArg line h
    have hpos := List.count_pos_iff.mpr hfeed
    omega
  · rw [feed, if_neg hfeed] at h
    have hcolumn : p.column + text.length = p.column := congrArg column h
    exact List.eq_nil_of_length_eq_zero (by omega)

theorem Position.eq_nil_of_behind {text more : List Char}
    (h : behind (text ++ more) = behind text) : more = [] := by
  rw [← start_advance, advance_append, start_advance, advance_eq_feed] at h
  exact eq_nil_of_feed h

/-- No two places of a text are the same. -/
theorem Position.behind_inj {before rest before' rest' : List Char}
    (htext : before ++ rest = before' ++ rest') (h : behind before = behind before') :
    before = before' := by
  rcases List.append_eq_append_iff.mp htext with ⟨more, rfl, -⟩ | ⟨more, rfl, -⟩
  · rw [eq_nil_of_behind h.symm, List.append_nil]
  · rw [eq_nil_of_behind h, List.append_nil]

namespace Lexer

/-! ## How tokens are spelled -/

def spellings : List (List Char × Kind) :=
  doubles ++ Kind.symbols.map fun e => ([e.1], e.2)

/-- The text is one of the class: a run of digits, a quoted string, a word, which may be a keyword,
or an operator of the table. -/
inductive Spelled : Kind → List Char → Prop
  | digits {w : List Char} : Pattern.digits.Covers w → Spelled .int w
  | quoted {w : List Char} : Pattern.quoted.Covers w → Spelled .string w
  | word {w : List Char} : Pattern.word.Covers w → Spelled .ident w
  | operator {k : Kind} {w : List Char} : (w, k) ∈ spellings → Spelled k w

/-- Of all beginnings of a text that are spelled like a token, `w` is the longest, and `k` is the
one class that it belongs to. -/
structure Longest (k : Kind) (w text : List Char) : Prop where
  begins : w <+: text
  spelled : Spelled k w
  longest : ∀ v k', v <+: text → Spelled k' v → v.length ≤ w.length
  only : ∀ k', Spelled k' w → k' = k

inductive FirstToken (text : List Char) : Kind → List Char → Prop
  | spelled {k : Kind} {w : List Char} : Longest k w text → FirstToken text (retype k w) w
  | illegal {c : Char} : [c] <+: text → (∀ v k, v <+: text → ¬Spelled k v) →
      FirstToken text .illegal [c]

theorem head_spellings : ∀ e ∈ spellings, e.1.head?.map isDigit ≠ some true ∧
    e.1.head?.map isWordStart ≠ some true ∧ e.1.head? ≠ some '"' := by
  decide

theorem length_spellings : ∀ e ∈ spellings, e.1 ≠ [] ∧ e.1.length ≤ 2 := by
  decide

theorem eq_of_spellings : ∀ e ∈ spellings, ∀ e' ∈ spellings, e.1 = e'.1 → e = e' := by
  decide

theorem retype_of_spellings : ∀ e ∈ spellings, retype e.2 e.1 = e.2 := by
  decide

theorem mem_spellings {w : List Char} {k : Kind} :
    (w, k) ∈ spellings ↔ (w, k) ∈ doubles ∨ ∃ c, (c, k) ∈ Kind.symbols ∧ w = [c] := by
  simp [spellings, eq_comm]

/-- An operator that begins a text is one character, unless that makes a longer one with the
next. -/
theorem single_of_spellings {c : Char} {ds cs : List Char} {k : Kind}
    (hnext : c = '=' ∨ c = '!' → cs.head? ≠ some '=') (hbegins : c :: ds <+: c :: cs)
    (h : (c :: ds, k) ∈ spellings) : ds = [] ∧ Kind.ofSymbol? c = some k := by
  obtain ⟨-, hds⟩ := List.cons_prefix_cons.mp hbegins
  rcases mem_spellings.mp h with hdouble | ⟨d, hsymbol, heq⟩
  · obtain ⟨rest, rfl⟩ := hds
    rcases mem_doubles.mp hdouble with heq | heq <;> cases heq
    · exact absurd rfl (hnext (.inl rfl))
    · exact absurd rfl (hnext (.inr rfl))
  · obtain ⟨rfl, rfl⟩ := List.cons.inj heq
    obtain ⟨-, -, -, -, hkind, -⟩ := symbol_class _ hsymbol
    exact ⟨rfl, hkind⟩

namespace Spelled

variable {k : Kind} {c : Char} {v cs : List Char}

theorem ne_nil (h : Spelled k v) : v ≠ [] := by
  cases h with
  | digits hcovers => exact hcovers.1
  | quoted hcovers =>
    obtain ⟨inner, rfl, -⟩ := hcovers
    exact List.cons_ne_nil _ _
  | word hcovers =>
    obtain ⟨d, ds, rfl, -⟩ := hcovers
    exact List.cons_ne_nil _ _
  | operator hmem => exact (length_spellings _ hmem).1

theorem exists_cons (h : Spelled k v) (hv : v <+: c :: cs) : ∃ ds, v = c :: ds := by
  obtain ⟨d, ds, rfl⟩ := List.exists_cons_of_ne_nil h.ne_nil
  obtain ⟨rfl, -⟩ := List.cons_prefix_cons.mp hv
  exact ⟨ds, rfl⟩

/-! The first character tells the class. -/

theorem head_digits (h : Pattern.digits.Covers (c :: v)) : isDigit c = true :=
  h.2 c List.mem_cons_self

theorem head_quoted (h : Pattern.quoted.Covers (c :: v)) : c = '"' := by
  obtain ⟨inner, hcons, -⟩ := h
  exact (List.cons.inj hcons).1

theorem head_word (h : Pattern.word.Covers (c :: v)) : isWordStart c = true := by
  obtain ⟨d, ds, hcons, hstart, -⟩ := h
  rwa [(List.cons.inj hcons).1]

theorem of_digit (h : Spelled k (c :: v)) (hc : isDigit c = true) :
    k = .int ∧ Pattern.digits.Covers (c :: v) := by
  cases h with
  | digits hcovers => exact ⟨rfl, hcovers⟩
  | quoted hcovers =>
    rw [head_quoted hcovers] at hc
    cases hc
  | word hcovers =>
    rw [isDigit_of_isWordStart (head_word hcovers)] at hc
    cases hc
  | operator hmem => exact absurd (congrArg some hc) (head_spellings _ hmem).1

theorem of_wordStart (h : Spelled k (c :: v)) (hc : isWordStart c = true) :
    k = .ident ∧ Pattern.word.Covers (c :: v) := by
  cases h with
  | digits hcovers =>
    have hdigit := head_digits hcovers
    rw [isDigit_of_isWordStart hc] at hdigit
    cases hdigit
  | quoted hcovers =>
    rw [head_quoted hcovers] at hc
    cases hc
  | word hcovers => exact ⟨rfl, hcovers⟩
  | operator hmem => exact absurd (congrArg some hc) (head_spellings _ hmem).2.1

theorem of_quote (h : Spelled k ('"' :: v)) :
    k = .string ∧ Pattern.quoted.Covers ('"' :: v) := by
  cases h with
  | digits hcovers => exact absurd (head_digits hcovers) (by decide)
  | quoted hcovers => exact ⟨rfl, hcovers⟩
  | word hcovers => exact absurd (head_word hcovers) (by decide)
  | operator hmem => exact absurd rfl (head_spellings _ hmem).2.2

theorem of_other (h : Spelled k (c :: v)) (hdigit : isDigit c = false)
    (hword : isWordStart c = false) (hquote : c ≠ '"') : (c :: v, k) ∈ spellings := by
  cases h with
  | digits hcovers =>
    rw [head_digits hcovers] at hdigit
    cases hdigit
  | quoted hcovers => exact absurd (head_quoted hcovers) hquote
  | word hcovers =>
    rw [head_word hcovers] at hword
    cases hword
  | operator hmem => exact hmem

/-- A text is spelled like the tokens of one class at most. -/
theorem unique {k' : Kind} (h : Spelled k v) (h' : Spelled k' v) : k' = k := by
  obtain ⟨c, cs, rfl⟩ := List.exists_cons_of_ne_nil h.ne_nil
  by_cases hdigit : isDigit c = true
  · rw [(h.of_digit hdigit).1, (h'.of_digit hdigit).1]
  by_cases hword : isWordStart c = true
  · rw [(h.of_wordStart hword).1, (h'.of_wordStart hword).1]
  by_cases hquote : c = '"'
  · subst hquote
    rw [h.of_quote.1, h'.of_quote.1]
  · rw [Bool.not_eq_true] at hdigit hword
    have hmem := h.of_other hdigit hword hquote
    have hmem' := h'.of_other hdigit hword hquote
    exact congrArg Prod.snd (eq_of_spellings _ hmem' _ hmem rfl)

end Spelled

/-! ## The token at the beginning of a text -/

section FirstToken

variable {k : Kind} {c : Char} {w cs text : List Char}

theorem longest_of_le (hw : w <+: text) (hspelled : Spelled k w)
    (hle : ∀ v k', v <+: text → Spelled k' v → v.length ≤ w.length) : Longest k w text :=
  ⟨hw, hspelled, hle, fun _ h => hspelled.unique h⟩

/-- What a terminal matches is the longest if no text is spelled there that it does not cover. -/
theorem longest_of_matches {pattern : Pattern}
    (hmatch : Terminal.Matches ⟨some k, pattern, 0⟩ w (c :: cs)) (hspelled : Spelled k w)
    (hcovers : ∀ ds k', Spelled k' (c :: ds) → pattern.Covers (c :: ds)) :
    Longest k w (c :: cs) := by
  obtain ⟨hw, -, hlongest⟩ := hmatch
  refine longest_of_le hw hspelled fun v k' hv hk => ?_
  obtain ⟨ds, rfl⟩ := hk.exists_cons hv
  exact hlongest _ hv (hcovers ds k' hk)

theorem longest_digits (hc : isDigit c = true) :
    Longest .int ((c :: cs).takeWhile isDigit) (c :: cs) :=
  longest_of_matches ((matches_run hc fun _ => Iff.rfl).mpr rfl) (.digits (takeWhile_covered hc))
    fun _ _ hk => (hk.of_digit hc).2

theorem longest_word (hc : isWordStart c = true) :
    Longest .ident ((c :: cs).takeWhile isWordPart) (c :: cs) := by
  have hmatch : Terminal.Matches ⟨some .ident, .word, 0⟩ _ (c :: cs) := (matches_word hc).mpr rfl
  exact longest_of_matches hmatch (.word hmatch.2.1) fun _ _ hk => (hk.of_wordStart hc).2

theorem longest_quoted {inner rest : List Char} (hinner : '"' ∉ inner) :
    Longest .string ('"' :: inner ++ ['"']) ('"' :: (inner ++ '"' :: rest)) :=
  longest_of_matches (matches_quoted.mpr ⟨inner, rest, hinner, rfl, rfl⟩)
    (.quoted ⟨inner, rfl, hinner⟩) fun _ _ hk => hk.of_quote.2

theorem longest_double (h : ([c, '='], k) ∈ doubles) (hdigit : isDigit c = false)
    (hword : isWordStart c = false) (hquote : c ≠ '"') :
    Longest k [c, '='] (c :: '=' :: cs) := by
  refine longest_of_le ⟨cs, rfl⟩ (.operator (mem_spellings.mpr (.inl h))) fun v k' hv hk => ?_
  obtain ⟨ds, rfl⟩ := hk.exists_cons hv
  exact (length_spellings _ (hk.of_other hdigit hword hquote)).2

/-- A quote with no quote behind it begins no token: a string would end in another quote. -/
theorem firstToken_stray (hcs : '"' ∉ cs) : FirstToken ('"' :: cs) .illegal ['"'] := by
  refine .illegal ⟨cs, rfl⟩ fun v k hv hk => ?_
  obtain ⟨ds, rfl⟩ := hk.exists_cons hv
  obtain ⟨-, inner, hds, -⟩ := hk.of_quote
  obtain ⟨-, hbegins⟩ := List.cons_prefix_cons.mp hv
  rw [(List.cons.inj hds).2] at hbegins
  exact hcs (hbegins.subset (by simp))

/-- What begins with no digit, no letter and no quote is spelled like an operator or not at all. -/
theorem firstToken_single (hdigit : isDigit c = false) (hword : isWordStart c = false)
    (hquote : c ≠ '"') (hnext : c = '=' ∨ c = '!' → cs.head? ≠ some '=') :
    FirstToken (c :: cs) ((Kind.ofSymbol? c).getD .illegal) [c] := by
  have hsingle : ∀ v k, v <+: c :: cs → Spelled k v → v = [c] ∧ Kind.ofSymbol? c = some k := by
    intro v k hv hk
    obtain ⟨ds, rfl⟩ := hk.exists_cons hv
    obtain ⟨rfl, hsymbol⟩ := single_of_spellings hnext hv (hk.of_other hdigit hword hquote)
    exact ⟨rfl, hsymbol⟩
  cases hsymbol : Kind.ofSymbol? c with
  | none =>
    refine .illegal (by simp) fun v k hv hk => ?_
    rw [(hsingle v k hv hk).2] at hsymbol
    cases hsymbol
  | some k =>
    have hmem : ([c], k) ∈ spellings :=
      mem_spellings.mpr (.inr ⟨c, mem_symbols_of_ofSymbol? hsymbol, rfl⟩)
    have hlongest : Longest k [c] (c :: cs) := by
      refine longest_of_le (by simp) (.operator hmem) fun v k' hv hk => ?_
      rw [(hsingle v k' hv hk).1]
    have hfirst := FirstToken.spelled hlongest
    rw [retype_of_spellings _ hmem] at hfirst
    exact hfirst

theorem firstToken_munch (c : Char) (cs : List Char) :
    FirstToken (c :: cs) (munch c cs).kind (munch c cs).taken := by
  have hmunching := munching c cs
  generalize munch c cs = m at hmunching ⊢
  cases hmunching with
  | digits hdigit =>
    dsimp only
    rw [← List.takeWhile_cons_of_pos hdigit]
    exact .spelled (longest_digits hdigit)
  | word hword =>
    have hfirst : FirstToken (c :: cs) _ _ := .spelled (longest_word hword)
    rwa [List.takeWhile_cons_of_pos (isWordPart_of_isWordStart hword)] at hfirst
  | quoted hinner => exact .spelled (longest_quoted hinner)
  | stray hcs => exact firstToken_stray hcs
  -- two characters make one operator, and none has more
  | equal => exact .spelled (k := .eq) (longest_double (by decide) rfl rfl (by decide))
  | different => exact .spelled (k := .notEq) (longest_double (by decide) rfl rfl (by decide))
  | single hdigit hword hquote hnext => exact firstToken_single hdigit hword hquote hnext

end FirstToken

/-! ## The tokens of a source -/

/-- Every token of a scan is taken somewhere in its text. -/
theorem exists_of_mem_scan {pos last : Position} {text : List Char} {t : Token}
    (ht : t ∈ scan pos last text) (hreal : t.kind ≠ .eof) :
    ∃ gone c cs, text = gone ++ c :: cs ∧ t = (munch c cs).token (pos.advance gone) := by
  fun_induction scan pos last text with
  | case1 pos last =>
    rw [List.mem_singleton.mp ht] at hreal
    exact absurd rfl hreal
  | case2 pos last c cs _ ih =>
    obtain ⟨gone, d, ds, rfl, htoken⟩ := ih ht
    exact ⟨c :: gone, d, ds, rfl, htoken⟩
  | case3 pos last c cs _ m stop ih =>
    rcases List.mem_cons.mp ht with rfl | ht
    · exact ⟨[], c, cs, rfl, rfl⟩
    · obtain ⟨gone, d, ds, hrest, htoken⟩ := ih ht
      refine ⟨m.taken ++ gone, d, ds, ?_, ?_⟩
      · rw [List.append_assoc, ← hrest, taken_append_rest]
      · rw [htoken, Position.advance_append]

/-- Every token of a source stands at one place of it, and it is the longest text that is spelled
like a token there, of the kind that the spelling gives, but for keywords; or nothing is spelled
there, and it is a single illegal character. So it is whatever makes a scanner a basic one. -/
theorem tokenize_munches {scanner : List Char → List Raw} (h : IsBasic scanner) (source : String) :
    tokenize source = assemble (scanner source.toList) ∧
      ∀ t ∈ tokenize source, t.kind ≠ .eof →
        (∃ before rest, source.toList = before ++ rest ∧ t.pos = .behind before) ∧
        ∀ before rest, source.toList = before ++ rest → t.pos = .behind before →
          FirstToken rest t.kind t.sourceText := by
  refine ⟨(assemble_eq_tokenize h source).symm, fun t ht hreal => ?_⟩
  obtain ⟨gone, c, cs, htext, rfl⟩ := exists_of_mem_scan ht hreal
  rw [Position.start_advance]
  refine ⟨⟨gone, c :: cs, htext, rfl⟩, fun before rest hcut hpos => ?_⟩
  -- wherever the token is said to stand, it is where the scan took it
  have hgone : gone = before := Position.behind_inj (htext.symm.trans hcut) hpos
  subst hgone
  obtain rfl : c :: cs = rest := List.append_cancel_left (htext.symm.trans hcut)
  rw [sourceText_token]
  exact firstToken_munch c cs

/-- The source `truer 12ab` with its second token, which ends where a letter follows. -/
theorem tokenize_munches_digits : IsBasic (rawsFrom .start) ∧
    tokenize "truer 12ab" = assemble (rawsFrom .start "truer 12ab".toList) ∧
      ⟨.int, "12", ⟨1, 7⟩⟩ ∈ tokenize "truer 12ab" ∧
      "truer 12ab".toList = "truer ".toList ++ "12ab".toList ∧
      (⟨1, 7⟩ : Position) = .behind "truer ".toList ∧
      FirstToken "12ab".toList .int "12".toList := by
  have hmem : ⟨.int, "12", ⟨1, 7⟩⟩ ∈ tokenize "truer 12ab" := by decide +kernel
  obtain ⟨htokens, hmunches⟩ := tokenize_munches isBasic_rawsFrom "truer 12ab"
  exact ⟨isBasic_rawsFrom, htokens, hmem, rfl, rfl,
    (hmunches _ hmem nofun).2 "truer ".toList "12ab".toList rfl rfl⟩

end Lexer

end MonkeyLang
