import Mathlib.Data.List.Forall2
import MonkeyLang.Proofs.Lexing
import MonkeyLang.Proofs.Placement

/-!
How the first token of a text is taken, and texts that spell given tokens, whatever stands behind
them. Only a word and a numeral can be made longer by what follows, so a text spells the same tokens
before everything that goes on with no letter, digit or underscore. Longer texts are put together
from shorter ones by what they begin and end with.
-/

namespace MonkeyLang

open Token (Kind)

/-- The token of a kind and with a literal that stands nowhere. -/
def Token.loose (k : Kind) (literal : String) : Token := ⟨k, literal, ⟨0, 0⟩⟩

namespace Lexer

def lexemes (text : List Char) : List Token := (scan .start .start text).map (·.unplaced)

/-- Wherever a text stands, its tokens differ in their places at most. -/
theorem scan_unplaced (pos last pos' last' : Position) (text : List Char) :
    (scan pos last text).map (·.unplaced) = (scan pos' last' text).map (·.unplaced) := by
  fun_induction scan pos last text generalizing pos' last' with
  | case1 => simp [scan]
  | case2 pos last c cs hblank ih =>
    rw [scan_blank hblank]
    exact ih _ _
  | case3 pos last c cs hblank m stop ih =>
    rw [scan_token (by simpa using hblank), List.map_cons, List.map_cons,
      ih (pos'.advance (munch c cs).taken) (pos'.advance (munch c cs).taken)]
    rfl

theorem lexemes_nil : lexemes [] = [Token.loose .eof ""] := by
  rw [lexemes, scan]
  rfl

theorem lexemes_blank {c : Char} {cs : List Char} (h : isBlank c = true) :
    lexemes (c :: cs) = lexemes cs := by
  rw [lexemes, scan_blank h]
  exact scan_unplaced _ _ _ _ cs

theorem lexemes_token {c : Char} {cs : List Char} (h : isBlank c = false) :
    lexemes (c :: cs) = (munch c cs).token ⟨0, 0⟩ :: lexemes (munch c cs).rest := by
  rw [lexemes, scan_token h, List.map_cons]
  exact congrArg _ (scan_unplaced _ _ _ _ _)

/-! ## Single tokens -/

theorem isWordPart_of_isBlank {c : Char} (h : isBlank c = true) : isWordPart c = false := by
  simp only [isBlank, Bool.or_eq_true, beq_iff_eq] at h
  rcases h with (((rfl | rfl) | rfl) | rfl) | rfl <;> decide

theorem isBlank_of_isWordPart {c : Char} (h : isWordPart c = true) : isBlank c = false := by
  by_contra hblank
  rw [Bool.not_eq_false] at hblank
  rw [isWordPart_of_isBlank hblank] at h
  cases h

theorem isDigit_of_isWordStart {c : Char} (h : isWordStart c = true) : isDigit c = false := by
  by_contra hdigit
  rw [Bool.not_eq_false] at hdigit
  simp only [isDigit, isWordStart, Bool.and_eq_true, Bool.or_eq_true, decide_eq_true_eq,
    beq_iff_eq] at h hdigit
  obtain ⟨-, h9⟩ := hdigit
  rcases h with (⟨ha, -⟩ | ⟨hA, -⟩) | rfl
  · exact absurd (Char.le_trans ha h9) (by decide)
  · exact absurd (Char.le_trans hA h9) (by decide)
  · exact absurd h9 (by decide)

theorem isWordPart_of_isWordStart {c : Char} (h : isWordStart c = true) : isWordPart c = true := by
  rw [isWordPart, h, Bool.true_or]

theorem isWordPart_of_isDigit {c : Char} (h : isDigit c = true) : isWordPart c = true := by
  rw [isWordPart, h, Bool.or_true]

/-- A text that goes on with no letter, digit or underscore. -/
def Apart (more : List Char) : Prop := ∀ c ∈ more.head?, isWordPart c = false

theorem apart_nil : Apart [] := nofun

theorem apart_cons {c : Char} (more : List Char) (h : isWordPart c = false) :
    Apart (c :: more) := by
  intro d hd
  cases hd
  exact h

/-- A row of word characters ends where the text is apart. -/
theorem Apart.takeWhile {p : Char → Bool} (hp : ∀ c, p c = true → isWordPart c = true)
    {cs more : List Char} (hcs : ∀ c ∈ cs, p c = true) (hmore : Apart more) :
    (cs ++ more).takeWhile p = cs ∧ (cs ++ more).dropWhile p = more := by
  refine takeWhile_append_stop hcs fun c hc => ?_
  by_contra h
  rw [Bool.not_eq_false] at h
  have := hmore c hc
  rw [hp c h] at this
  cases this

/-- The text is read as the tokens wherever it stands apart from what follows. -/
def Spells (text : List Char) (tokens : List Token) : Prop :=
  ∀ more, Apart more → lexemes (text ++ more) = tokens ++ lexemes more

theorem Spells.whole {text : List Char} {tokens : List Token} (h : Spells text tokens) :
    lexemes text = tokens ++ [Token.loose .eof ""] := by
  have := h [] apart_nil
  rwa [List.append_nil, lexemes_nil] at this

theorem spells_digits {text : String} (h : Grammar.Digits text) :
    Spells text.toList [.loose .int text] := by
  intro more hmore
  obtain ⟨hne, -, hdigits⟩ := h
  obtain ⟨c, cs, htext⟩ := List.exists_cons_of_ne_nil hne
  have hd : ∀ d ∈ c :: cs, isDigit d = true := by
    intro d hd
    simpa [isDigit] using hdigits d (by rwa [htext])
  have hc := hd c List.mem_cons_self
  have hpart := isWordPart_of_isDigit hc
  obtain ⟨htake, hdrop⟩ := hmore.takeWhile (fun _ => isWordPart_of_isDigit) fun d h =>
    hd d (List.mem_cons_of_mem _ h)
  rw [htext, List.cons_append, lexemes_token (isBlank_of_isWordPart hpart),
    munch_of_digit _ hc, htake, hdrop, ← htext, Munch.token, if_neg (by simp)]
  dsimp only
  rw [String.ofList_toList]
  rfl

def IsWord (text : List Char) : Prop :=
  ∃ c cs, text = c :: cs ∧ isWordStart c = true ∧ ∀ d ∈ cs, isWordPart d = true

theorem munch_of_wordStart {c : Char} (cs : List Char) (hc : isWordStart c = true) :
    munch c cs = ⟨.ofWord (String.ofList (c :: cs.takeWhile isWordPart)),
      c :: cs.takeWhile isWordPart, cs.dropWhile isWordPart⟩ := by
  unfold munch
  rw [if_neg (by rw [isDigit_of_isWordStart hc]; decide), if_pos hc]

theorem ofWord_ne_string (word : String) : Kind.ofWord word ≠ .string :=
  getD_lookup_ne (by decide) (by decide)

/-- A word is a name exactly if it is no keyword. -/
theorem ofWord_eq_ident_iff {word : String} :
    Kind.ofWord word = .ident ↔ word ∉ Kind.keywords.map (·.1) := by
  rw [Kind.ofWord]
  constructor
  · intro hident hmem
    cases hfound : Kind.keywords.lookup word with
    | none =>
      obtain ⟨entry, hentry, rfl⟩ := List.mem_map.mp hmem
      simpa using List.lookup_eq_none_iff.mp hfound entry hentry
    | some k =>
      have hkeywords : ∀ e ∈ Kind.keywords, e.2 ≠ .ident := by decide
      obtain ⟨before, after, htable, -⟩ := List.lookup_eq_some_iff.mp hfound
      rw [hfound, Option.getD_some] at hident
      exact hkeywords (word, k) (by rw [htable]; simp) hident
  · intro hno
    have hnone : Kind.keywords.lookup word = none := by
      rw [List.lookup_eq_none_iff]
      intro entry hentry
      have hne : word ≠ entry.1 := fun heq => hno (heq ▸ List.mem_map_of_mem hentry)
      simpa using hne
    rw [hnone]
    rfl

theorem spells_word {text : String} (h : IsWord text.toList) :
    Spells text.toList [.loose (.ofWord text) text] := by
  intro more hmore
  obtain ⟨c, cs, htext, hc, hcs⟩ := h
  have hpart := isWordPart_of_isWordStart hc
  obtain ⟨htake, hdrop⟩ := hmore.takeWhile (fun _ h => h) hcs
  have hword : String.ofList (c :: cs) = text := by rw [← htext, String.ofList_toList]
  rw [htext, List.cons_append, lexemes_token (isBlank_of_isWordPart hpart),
    munch_of_wordStart _ hc, htake, hdrop, hword, Munch.token, if_neg (ofWord_ne_string text)]
  dsimp only
  rw [hword]
  rfl

instance (text : List Char) : Decidable (IsWord text) :=
  match text with
  | [] => isFalse (by simp [IsWord])
  | c :: cs =>
    decidable_of_iff (isWordStart c = true ∧ cs.all isWordPart = true) (by simp [IsWord])

/-- Every keyword is a word of its own kind. -/
theorem keyword_class : ∀ e ∈ Kind.keywords,
    IsWord e.1.toList ∧ Kind.ofWord e.1 = e.2 ∧ e.2 ≠ .string := by
  decide

theorem spells_keyword {word : String} {k : Kind} (h : (word, k) ∈ Kind.keywords) :
    Spells word.toList [.loose k word] := by
  obtain ⟨hword, hkind, -⟩ := keyword_class _ h
  have := spells_word hword
  rwa [hkind] at this

/-- What the lexer asks of a character before it takes it for a symbol. -/
theorem symbol_class : ∀ e ∈ Kind.symbols, isBlank e.1 = false ∧ isDigit e.1 = false ∧
    isWordStart e.1 = false ∧ e.1 ≠ '"' ∧ Kind.ofSymbol? e.1 = some e.2 ∧ e.2 ≠ .string := by
  decide

theorem mem_symbols_of_ofSymbol? {k : Kind} (h : Kind.ofSymbol? c = some k) :
    (c, k) ∈ Kind.symbols := by
  obtain ⟨before, after, htable, -⟩ := List.lookup_eq_some_iff.mp h
  rw [htable]
  exact List.mem_append_right _ List.mem_cons_self

theorem isWordPart_of_symbol {c : Char} {k : Kind} (h : (c, k) ∈ Kind.symbols) :
    isWordPart c = false := by
  obtain ⟨-, hdigit, hword, -⟩ := symbol_class _ h
  rw [isWordPart, hdigit, hword, Bool.or_false]

/-- What begins no longer token is one by itself, unless it makes one with what follows. -/
theorem munch_single {c : Char} (hdigit : isDigit c = false) (hword : isWordStart c = false)
    (hquote : c ≠ '"') {cs : List Char} (hcs : c = '=' ∨ c = '!' → cs.head? ≠ some '=') :
    munch c cs = ⟨(Kind.ofSymbol? c).getD .illegal, [c], cs⟩ := by
  have hne : ∀ rest, c = '=' ∨ c = '!' → cs ≠ '=' :: rest := by
    rintro rest hc rfl
    exact hcs hc rfl
  unfold munch
  rw [if_neg (by simp [hdigit]), if_neg (by simp [hword]), if_neg hquote]
  split
  · exact absurd rfl (hne _ (.inl rfl))
  · exact absurd rfl (hne _ (.inr rfl))
  · rfl

theorem munch_symbol {c : Char} {k : Kind} (h : (c, k) ∈ Kind.symbols) {cs : List Char}
    (hcs : c = '=' ∨ c = '!' → cs.head? ≠ some '=') : munch c cs = ⟨k, [c], cs⟩ := by
  obtain ⟨-, hdigit, hword, hquote, hkind, -⟩ := symbol_class _ h
  rw [munch_single hdigit hword hquote hcs, hkind, Option.getD_some]

theorem lexemes_symbol {c : Char} {k : Kind} (h : (c, k) ∈ Kind.symbols) {cs : List Char}
    (hcs : c = '=' ∨ c = '!' → cs.head? ≠ some '=') :
    lexemes (c :: cs) = .loose k (String.ofList [c]) :: lexemes cs := by
  obtain ⟨hblank, -, -, -, -, hstring⟩ := symbol_class _ h
  rw [lexemes_token hblank, munch_symbol h hcs, Munch.token, if_neg hstring]
  rfl

def operators : List (String × Kind) :=
  [("+", .plus), ("-", .minus), ("*", .asterisk), ("/", .slash), ("<", .lt), (">", .gt),
    ("==", .eq), ("!=", .notEq)]

theorem lexemes_operator {op : String} {k : Kind} (h : (op, k) ∈ operators) (cs : List Char) :
    lexemes (op.toList ++ ' ' :: cs) = .loose k op :: lexemes cs := by
  have hblank : lexemes (' ' :: cs) = lexemes cs := lexemes_blank rfl
  simp only [operators, List.mem_cons, List.not_mem_nil, or_false, Prod.mk.injEq] at h
  rw [← hblank]
  rcases h with ⟨rfl, rfl⟩ | ⟨rfl, rfl⟩ | ⟨rfl, rfl⟩ | ⟨rfl, rfl⟩ | ⟨rfl, rfl⟩ | ⟨rfl, rfl⟩ |
    ⟨rfl, rfl⟩ | ⟨rfl, rfl⟩
  iterate 6 exact lexemes_symbol (by decide) fun _ => by simp
  all_goals exact lexemes_token rfl

/-! ## The first token of a text -/

theorem ne_quote_of_notMem {w : List Char} (h : '"' ∉ w) : ∀ d ∈ w, (d != '"') = true :=
  fun d hd => by simpa using fun heq : d = '"' => h (heq ▸ hd)

/-- Up to a quote a text has none. -/
theorem quote_notMem_takeWhile (cs : List Char) : '"' ∉ cs.takeWhile (· != '"') := fun hmem => by
  simpa using List.mem_takeWhile_imp hmem

/-- What stands behind a row without quotes is a quote. -/
theorem quote_of_dropWhile {cs : List Char} {quote : Char} {rest : List Char}
    (h : cs.dropWhile (· != '"') = quote :: rest) : quote = '"' := by
  have hend := List.head?_dropWhile_not (· != '"') cs
  rw [h] at hend
  simpa using hend

/-- A closed string is one token, and a quote that is not closed is an illegal one. -/
theorem munch_quote (cs : List Char) :
    munch '"' cs = match cs.dropWhile (· != '"') with
      | [] => ⟨.illegal, ['"'], cs⟩
      | quote :: rest => ⟨.string, '"' :: cs.takeWhile (· != '"') ++ [quote], rest⟩ :=
  rfl

theorem munch_of_quoted {inner rest : List Char} (hinner : '"' ∉ inner) :
    munch '"' (inner ++ '"' :: rest) = ⟨.string, '"' :: inner ++ ['"'], rest⟩ := by
  have hpos := ne_quote_of_notMem hinner
  rw [munch_quote, List.dropWhile_append_of_pos hpos, List.takeWhile_append_of_pos hpos]
  simp

/-- The ways in which the first token is taken from a text, by the character that it begins with
and what stands behind that. -/
inductive Munching : Char → List Char → Munch → Prop
  | digits {c : Char} {cs : List Char} : isDigit c = true →
      Munching c cs ⟨.int, c :: cs.takeWhile isDigit, cs.dropWhile isDigit⟩
  | word {c : Char} {cs : List Char} : isWordStart c = true →
      Munching c cs ⟨.ofWord (String.ofList (c :: cs.takeWhile isWordPart)),
        c :: cs.takeWhile isWordPart, cs.dropWhile isWordPart⟩
  | quoted {inner rest : List Char} : '"' ∉ inner →
      Munching '"' (inner ++ '"' :: rest) ⟨.string, '"' :: inner ++ ['"'], rest⟩
  | stray {cs : List Char} : '"' ∉ cs → Munching '"' cs ⟨.illegal, ['"'], cs⟩
  | equal {cs : List Char} : Munching '=' ('=' :: cs) ⟨.eq, ['=', '='], cs⟩
  | different {cs : List Char} : Munching '!' ('=' :: cs) ⟨.notEq, ['!', '='], cs⟩
  | single {c : Char} {cs : List Char} : isDigit c = false → isWordStart c = false → c ≠ '"' →
      (c = '=' ∨ c = '!' → cs.head? ≠ some '=') →
      Munching c cs ⟨(Kind.ofSymbol? c).getD .illegal, [c], cs⟩

theorem munching_quote (cs : List Char) : Munching '"' cs (munch '"' cs) := by
  have hcut := List.takeWhile_append_dropWhile (p := (· != '"')) (l := cs)
  have hinner := quote_notMem_takeWhile cs
  rw [munch_quote]
  cases hrest : cs.dropWhile (· != '"') with
  | nil =>
    rw [hrest, List.append_nil] at hcut
    rw [hcut] at hinner
    exact .stray hinner
  | cons quote rest =>
    rw [hrest] at hcut
    obtain rfl := quote_of_dropWhile hrest
    have hquoted : Munching '"' (_ ++ '"' :: rest) _ := .quoted hinner
    rwa [hcut] at hquoted

theorem munching (c : Char) (cs : List Char) : Munching c cs (munch c cs) := by
  by_cases hdigit : isDigit c = true
  · rw [munch_of_digit cs hdigit]
    exact .digits hdigit
  by_cases hword : isWordStart c = true
  · rw [munch_of_wordStart cs hword]
    exact .word hword
  by_cases hquote : c = '"'
  · subst hquote
    exact munching_quote cs
  by_cases hdouble : (c = '=' ∨ c = '!') ∧ cs.head? = some '='
  · obtain ⟨hc, hhead⟩ := hdouble
    obtain ⟨rest, rfl⟩ := List.head?_eq_some_iff.mp hhead
    rcases hc with rfl | rfl
    · exact .equal
    · exact .different
  · rw [Bool.not_eq_true] at hdigit hword
    have hnext : c = '=' ∨ c = '!' → cs.head? ≠ some '=' := fun hc hhead => hdouble ⟨hc, hhead⟩
    rw [munch_single hdigit hword hquote hnext]
    exact .single hdigit hword hquote hnext

/-! ## Texts put together -/

section Together

variable {a b : List Char} {ts us : List Token} {c : Char} {k : Kind}

theorem Spells.blank (hb : Spells b us) : Spells (' ' :: b) us := fun more hmore =>
  (lexemes_blank rfl).trans (hb more hmore)

/-- A text behind one that it is set apart from. -/
theorem Spells.append (ha : Spells a ts) (hb : Spells (c :: b) us) (hc : isWordPart c = false) :
    Spells (a ++ c :: b) (ts ++ us) := by
  intro more hmore
  rw [List.append_assoc, List.append_assoc, List.cons_append, ha _ (apart_cons _ hc),
    ← List.cons_append, hb more hmore]

/-- A symbol that makes no longer one with anything. -/
def IsPunctuation (c : Char) (k : Kind) : Prop := (c, k) ∈ Kind.symbols ∧ c ≠ '=' ∧ c ≠ '!'

instance (c : Char) (k : Kind) : Decidable (IsPunctuation c k) :=
  inferInstanceAs (Decidable (_ ∧ _))

theorem Spells.behind (h : IsPunctuation c k) (hb : Spells b us) :
    Spells (c :: b) (.loose k (String.ofList [c]) :: us) := by
  intro more hmore
  rw [List.cons_append, lexemes_symbol h.1 fun hc => absurd hc (by simp [h.2]), hb more hmore]
  rfl

/-- An operator with a blank behind it. -/
theorem Spells.operator {op : String} (h : (op, k) ∈ operators) (hb : Spells b us) :
    Spells (op.toList ++ ' ' :: b) (.loose k op :: us) := by
  intro more hmore
  rw [List.append_assoc, List.cons_append, lexemes_operator h, hb more hmore]
  rfl

/-- An equals sign with a blank behind it. -/
theorem Spells.assign (hb : Spells b us) :
    Spells ('=' :: ' ' :: b) (.loose .assign "=" :: us) := by
  intro more hmore
  rw [List.cons_append, lexemes_symbol (k := .assign) (by decide) fun _ => by simp,
    hb.blank more hmore]
  rfl

theorem spells_nil : Spells [] [] := fun _ _ => rfl

theorem spells_punctuation (h : IsPunctuation c k) : Spells [c] [.loose k (String.ofList [c])] :=
  spells_nil.behind h

theorem Spells.before (h : IsPunctuation c k) (ha : Spells a ts) :
    Spells (a ++ [c]) (ts ++ [.loose k (String.ofList [c])]) :=
  ha.append (spells_punctuation h) (isWordPart_of_symbol h.1)

end Together

def comma : Token := .loose .comma ","

/-- Texts with a comma and a blank between them spell their tokens with commas between. -/
theorem Spells.list {texts : List String} {tss : List (List Token)}
    (h : List.Forall₂ (fun x ts => Spells x.toList ts) texts tss) :
    Spells (", ".intercalate texts).toList ([comma].intercalate tss) := by
  induction h with
  | nil => exact spells_nil
  | @cons x ts xs tss hx hxs ih =>
    cases hxs with
    | nil => simpa using hx
    | cons hy hys =>
      have hcomma : IsPunctuation ',' .comma := by decide
      have := hx.append (ih.blank.behind hcomma) rfl
      rw [String.intercalate_cons_cons, List.intercalate_cons_cons]
      simpa [comma] using this

end Lexer

end MonkeyLang
