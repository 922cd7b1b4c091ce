import MonkeyLang.Proofs.Lexing.Terminals

/-!
A source taken apart into its tokens and the blanks around them. The tokens have between them all
that is not blank, and where each of them stands is a matter of the text before it alone.
-/

namespace MonkeyLang

open Token (Kind)

/-- The place behind the first characters of a source: as many lines below the first as they have
line feeds, and as many columns behind the first as there are characters after the last of these. -/
def Position.behind (text : List Char) : Position := ⟨1 + text.count '\n', 1 + lastLineLength text⟩

example : Position.behind [] = ⟨1, 1⟩ := rfl

theorem Position.start_advance (text : List Char) :
    Position.start.advance text = .behind text := by
  rw [advance_eq_feed]
  by_cases h : '\n' ∈ text
  · simp [feed, behind, start, h]
  · simp [feed, behind, start, h, lastLineLength_of_notMem h, List.count_eq_zero_of_not_mem h]

namespace Lexer

/-! ## The text of a token -/

theorem ofSymbol?_ne_string (c : Char) : (Kind.ofSymbol? c).getD .illegal ≠ .string :=
  getD_lookup_ne (by decide) (by decide)

/-- What is taken for a string stands in quotes. -/
theorem quoted_of_munch {c : Char} {cs : List Char} (h : (munch c cs).kind = .string) :
    ∃ inner, (munch c cs).taken = '"' :: inner ++ ['"'] := by
  have hmunching := munching c cs
  generalize munch c cs = m at h hmunching ⊢
  cases hmunching with
  | quoted => exact ⟨_, rfl⟩
  | word => exact absurd h (ofWord_ne_string _)
  | single => exact absurd h (ofSymbol?_ne_string c)
  | _ => cases h

/-- A token has the text that was taken for it, with the quotes if it is a string. -/
theorem sourceText_token (c : Char) (cs : List Char) (pos : Position) :
    ((munch c cs).token pos).sourceText = (munch c cs).taken := by
  by_cases hstring : (munch c cs).kind = .string
  · obtain ⟨inner, htaken⟩ := quoted_of_munch hstring
    simp [Token.sourceText, Munch.token, hstring, htaken]
  · simp [Token.sourceText, Munch.token, hstring]

/-! ## Pieces of a source -/

/-- A token with the text between it and the token before. -/
structure Piece where
  gap : List Char
  token : Token
  deriving DecidableEq

def Piece.text (piece : Piece) : List Char := piece.gap ++ piece.token.sourceText

def textOf (pieces : List Piece) : List Char := pieces.flatMap (·.text)

/-- The pieces at the beginning of a source: they have a token each, with nothing but blanks before
it, and it knows its place. -/
structure Laid (pieces : List Piece) : Prop where
  gaps : ∀ piece ∈ pieces, ∀ c ∈ piece.gap, isBlank c = true
  tokens : ∀ piece ∈ pieces, piece.token.sourceText ≠ [] ∧ piece.token.kind ≠ .eof
  places : ∀ before piece after, pieces = before ++ piece :: after →
    piece.token.pos = .behind (textOf before ++ piece.gap)

theorem textOf_cons_append (piece : Piece) (pieces : List Piece) (more : List Char) :
    textOf (piece :: pieces) ++ more =
      piece.gap ++ (piece.token.sourceText ++ (textOf pieces ++ more)) := by
  simp [textOf, Piece.text]

theorem textOf_concat (pieces : List Piece) (piece : Piece) :
    textOf (pieces ++ [piece]) = textOf pieces ++ piece.text := by
  simp [textOf]

theorem laid_nil : Laid [] where
  gaps := nofun
  tokens := nofun
  places := by simp

theorem Laid.concat {pieces : List Piece} {piece : Piece} (h : Laid pieces)
    (hgap : ∀ c ∈ piece.gap, isBlank c = true)
    (htoken : piece.token.sourceText ≠ [] ∧ piece.token.kind ≠ .eof)
    (hpos : piece.token.pos = .behind (textOf pieces ++ piece.gap)) :
    Laid (pieces ++ [piece]) where
  gaps := List.forall_mem_append.mpr ⟨h.gaps, List.forall_mem_singleton.mpr hgap⟩
  tokens := List.forall_mem_append.mpr ⟨h.tokens, List.forall_mem_singleton.mpr htoken⟩
  places := by
    intro before piece' after heq
    cases after using List.reverseRecOn with
    | nil =>
      obtain ⟨rfl, hlast⟩ := List.append_inj' heq rfl
      obtain rfl := List.singleton_inj.mp hlast
      exact hpos
    | append_singleton after last =>
      rw [← List.cons_append, ← List.append_assoc] at heq
      exact h.places before piece' after (List.append_inj' heq rfl).1

/-- A scan that has the pieces before it and a gap since the last of them goes on to more pieces. -/
theorem scan_pieces (pos last : Position) (text : List Char) (pieces : List Piece)
    (gap : List Char) (hlaid : Laid pieces) (hgap : ∀ c ∈ gap, isBlank c = true)
    (hpos : pos = .behind (textOf pieces ++ gap)) (hlast : last = .behind (textOf pieces)) :
    ∃ pieces' trailing, Laid pieces' ∧ textOf pieces ++ gap ++ text = textOf pieces' ++ trailing ∧
      (∀ c ∈ trailing, isBlank c = true) ∧
      pieces.map (·.token) ++ scan pos last text =
        pieces'.map (·.token) ++ [Token.eof (.behind (textOf pieces'))] := by
  fun_induction scan pos last text generalizing pieces gap with
  | case1 pos last =>
    refine ⟨pieces, gap, hlaid, List.append_nil _, hgap, ?_⟩
    rw [hlast]
  | case2 pos last c cs hblank ih =>
    -- the blank goes to the gap
    have hgap' : ∀ d ∈ gap ++ [c], isBlank d = true :=
      List.forall_mem_append.mpr ⟨hgap, List.forall_mem_singleton.mpr hblank⟩
    have hpos' : pos.step c = .behind (textOf pieces ++ (gap ++ [c])) := by
      rw [hpos, ← List.append_assoc, ← Position.start_advance, ← Position.start_advance,
        Position.start.advance_append _ [c]]
      rfl
    have := ih pieces _ hlaid hgap' hpos' hlast
    rwa [← List.append_assoc, List.append_assoc _ [c], List.singleton_append] at this
  | case3 pos last c cs hblank m stop ih =>
    -- the token makes a piece with the gap
    have htext : (m.token pos).sourceText = m.taken := sourceText_token c cs pos
    have hpiece : Piece.text ⟨gap, m.token pos⟩ = gap ++ m.taken := by rw [Piece.text, htext]
    have hlaid' : Laid (pieces ++ [⟨gap, m.token pos⟩]) :=
      hlaid.concat hgap ⟨by rw [htext]; exact taken_ne_nil c cs, kind_munch_ne_eof c cs⟩ hpos
    have hstop : stop = .behind (textOf (pieces ++ [⟨gap, m.token pos⟩])) := by
      rw [textOf_concat, hpiece, ← List.append_assoc, ← Position.start_advance,
        Position.advance_append, Position.start_advance, ← hpos]
    obtain ⟨pieces', trailing, hlaid'', hcovers, hblanks, htokens⟩ :=
      ih _ [] hlaid' (List.forall_mem_nil _) (by rwa [List.append_nil]) hstop
    refine ⟨pieces', trailing, hlaid'', ?_, hblanks, ?_⟩
    · rw [← hcovers, textOf_concat, hpiece, List.append_nil, ← List.append_assoc,
        List.append_assoc _ m.taken, taken_append_rest]
    · rw [← htokens, List.map_append, List.append_assoc]
      rfl

theorem token_mem {source : String} {pieces : List Piece} {stop : Position}
    (h : tokenize source = pieces.map (·.token) ++ [Token.eof stop]) :
    ∀ piece ∈ pieces, piece.token ∈ tokenize source := by
  intro piece hpiece
  rw [h]
  exact List.mem_append_left _ (List.mem_map_of_mem hpiece)

/-- Every source has its pieces. -/
theorem exists_pieces (source : String) : ∃ pieces trailing, Laid pieces ∧
    source.toList = textOf pieces ++ trailing ∧ (∀ c ∈ trailing, isBlank c = true) ∧
    tokenize source = pieces.map (·.token) ++ [Token.eof (.behind (textOf pieces))] :=
  scan_pieces .start .start source.toList [] [] laid_nil nofun rfl rfl

/-- Every source is made of the texts of its tokens, in their order and with blanks alone before,
between and after them; each token stands where the text before it ends, and the end of the list
just after the last of the others. So it is whatever makes a scanner a basic one, which takes the
terminals of the grammar by their rank. -/
theorem tokenize_pieces {scanner : List Char → List Raw} (h : IsBasic scanner) (source : String) :
    tokenize source = assemble (scanner source.toList) ∧
      ∃ pieces trailing, Laid pieces ∧ source.toList = textOf pieces ++ trailing ∧
        (∀ c ∈ trailing, isBlank c = true) ∧
        tokenize source = pieces.map (·.token) ++ [Token.eof (.behind (textOf pieces))] :=
  ⟨(assemble_eq_tokenize h source).symm, exists_pieces source⟩

/-- A source of two lines, of which the first ends within a string. -/
theorem tokenize_pieces_rawsFrom : IsBasic (rawsFrom .start) ∧
    tokenize " x\t\"a\nb\" ?\r\n" = assemble (rawsFrom .start " x\t\"a\nb\" ?\r\n".toList) ∧
      ∃ pieces trailing, Laid pieces ∧
        " x\t\"a\nb\" ?\r\n".toList = textOf pieces ++ trailing ∧
        (∀ c ∈ trailing, isBlank c = true) ∧
        tokenize " x\t\"a\nb\" ?\r\n" =
          pieces.map (·.token) ++ [Token.eof (.behind (textOf pieces))] :=
  ⟨isBasic_rawsFrom, tokenize_pieces isBasic_rawsFrom _⟩

example : (tokenize " x\t\"a\nb\" ?\r\n").map (·.pos) = [⟨1, 2⟩, ⟨1, 4⟩, ⟨2, 4⟩, ⟨2, 5⟩] := by
  cbv

end Lexer

end MonkeyLang
