import MonkeyLang.Highlight
import MonkeyLang.Proofs.Lexing.Munch

/-!
What the colours of a line leave of it. The fragments are the line again, however their tokens were
found in it; and on a line without line feeds the fragments that are not white space alone are its
tokens.
-/

namespace MonkeyLang

open Token (Kind)

def Fragment.isVisible (f : Fragment) : Bool := f.text.any (!Lexer.isBlank ·)

namespace Highlight

open Lexer

/-! ## Fragments of any tokens -/

section Fragments

variable (known : List String) (line : List Char)

theorem take_append_drop_add (i n : Nat) :
    (line.drop i).take n ++ line.drop (i + n) = line.drop i := by
  rw [← List.drop_drop, List.take_append_drop]

/-- The fragments from a place on are what stands there of the line. -/
theorem flatMap_fragmentsFrom (cursor : Nat) (ts : List Token) :
    (fragmentsFrom known line cursor ts).flatMap (·.text) = line.drop cursor := by
  fun_induction fragmentsFrom known line cursor ts with
  | case1 cursor h => simp
  | case2 cursor h => simpa using h
  | case3 cursor t ts start stop h ih => exact ih
  | case4 cursor t ts start stop h gap ih =>
    have hcursor : cursor ≤ start := by omega
    have hgap : gap.flatMap (·.text) ++ line.drop start = line.drop cursor := by
      by_cases hlt : cursor < start
      · have := take_append_drop_add line cursor (start - cursor)
        rw [Nat.add_sub_cancel' hcursor] at this
        simpa [gap, hlt] using this
      · simp [gap, Nat.le_antisymm hcursor (Nat.le_of_not_lt hlt)]
    rw [List.flatMap_append, List.flatMap_cons, ih, take_append_drop_add, hgap]

/-- No fragment is empty if no token stands behind the end of the line. -/
theorem text_ne_nil_of_mem (cursor : Nat) (ts : List Token)
    (hts : ∀ t ∈ ts, t.width ≠ 0 → t.pos.column - 1 < line.length) :
    ∀ f ∈ fragmentsFrom known line cursor ts, f.text ≠ [] := by
  fun_induction fragmentsFrom known line cursor ts with
  | case1 cursor h => simpa using h
  | case2 cursor h => simp
  | case3 cursor t ts start stop h ih => exact ih fun u hu => hts u (List.mem_cons_of_mem _ hu)
  | case4 cursor t ts start stop h gap ih =>
    have hwidth : t.width ≠ 0 := by omega
    have hstart : start < line.length := hts t List.mem_cons_self hwidth
    intro f hf
    rcases List.mem_append.mp hf with hf | hf
    · by_cases hlt : cursor < start
      · rw [show gap = _ from if_pos hlt, List.mem_singleton] at hf
        rw [hf, ne_eq, ← List.length_eq_zero_iff, List.length_take, List.length_drop]
        omega
      · rw [show gap = _ from if_neg hlt] at hf
        cases hf
    · rcases List.mem_cons.mp hf with rfl | hf
      · rw [ne_eq, ← List.length_eq_zero_iff, List.length_take, List.length_drop]
        omega
      · exact ih (fun u hu => hts u (List.mem_cons_of_mem _ hu)) f hf

end Fragments

/-! ## Fragments of a source -/

theorem lastLineLength_le (text : List Char) : lastLineLength text ≤ text.length := by
  have := (List.takeWhile_sublist (p := (· != '\n')) (l := text.reverse)).length_le
  rwa [List.length_reverse] at this

/-- Whatever line a token stands in, its column is a place of the text. -/
theorem column_lt_of_mem {text : String} {t : Token} (ht : t ∈ tokenize text)
    (hreal : t.kind ≠ .eof) : t.pos.column - 1 < text.toList.length := by
  obtain ⟨gone, c, cs, htext, rfl⟩ := exists_of_mem_scan ht hreal
  have hpos : ((munch c cs).token (Position.start.advance gone)).pos = .behind gone :=
    Position.start_advance gone
  have hgone := lastLineLength_le gone
  rw [hpos, htext, List.length_append, List.length_cons]
  simp only [Position.behind]
  omega

/-- The end of a source takes up no place. -/
theorem kind_ne_eof_of_width {text : String} {t : Token} (ht : t ∈ tokenize text)
    (hwidth : t.width ≠ 0) : t.kind ≠ .eof := by
  obtain ⟨pieces, trailing, hlaid, -, -, htokens⟩ := exists_pieces text
  rw [htokens] at ht
  rcases List.mem_append.mp ht with ht | ht
  · obtain ⟨piece, hpiece, rfl⟩ := List.mem_map.mp ht
    exact (hlaid.tokens piece hpiece).2
  · rw [List.mem_singleton.mp ht] at hwidth
    exact absurd rfl hwidth

def ofGap (gap : List Char) : List Fragment := if gap = [] then [] else [⟨.plain, gap⟩]

/-- The fragments of a token and of the text before it. -/
def ofPiece (known : List String) (piece : Piece) : List Fragment :=
  ofGap piece.gap ++ [⟨piece.token.style known, piece.token.sourceText⟩]

theorem slice_append (a b c : List Char) : ((a ++ (b ++ c)).drop a.length).take b.length = b := by
  rw [List.drop_left, List.take_left]

/-- On a line of its own, the pieces of a source give its fragments in their order. -/
theorem fragmentsFrom_pieces (known : List String) {text trailing : List Char} (stop : Position)
    (before rest : List Piece) (hlaid : Laid (before ++ rest))
    (htext : text = textOf (before ++ rest) ++ trailing) (hline : '\n' ∉ text) :
    fragmentsFrom known text (textOf before).length (rest.map (·.token) ++ [Token.eof stop]) =
      rest.flatMap (ofPiece known) ++ ofGap trailing := by
  induction rest generalizing before with
  | nil =>
    have hdrop : text.drop (textOf before).length = trailing := by
      rw [htext, List.append_nil, List.drop_left]
    have hlength : (textOf before).length < text.length ↔ trailing ≠ [] := by
      rw [htext, List.append_nil, List.length_append, ← List.length_pos_iff]
      omega
    have heof : (Token.eof stop).width = 0 := rfl
    by_cases htrailing : trailing = [] <;>
      simp [fragmentsFrom, ofGap, heof, hdrop, hlength, htrailing]
  | cons piece rest ih =>
    obtain ⟨gap, t⟩ := piece
    have hparts : text = textOf before ++ (gap ++ (t.sourceText ++ (textOf rest ++ trailing))) := by
      simp [htext, textOf, Piece.text]
    -- without line feeds the column is the length of all that stands before
    have hstart : t.pos.column - 1 = (textOf before ++ gap).length := by
      have hplace := hlaid.places before ⟨gap, t⟩ rest rfl
      have hnone : '\n' ∉ textOf before ++ gap := fun hmem => hline <| by
        rw [hparts, ← List.append_assoc]
        exact List.mem_append_left _ hmem
      rw [hplace, Position.behind, lastLineLength_of_notMem hnone]
      exact Nat.add_sub_cancel_left _ _
    have hwidth : t.width = t.sourceText.length := t.length_sourceText.symm
    have hpos : 0 < t.sourceText.length :=
      List.length_pos_iff.mpr (hlaid.tokens ⟨gap, t⟩ (by simp)).1
    have hgap : (if (textOf before).length < (textOf before ++ gap).length then
        [(⟨.plain, (text.drop (textOf before).length).take
          ((textOf before ++ gap).length - (textOf before).length)⟩ : Fragment)] else []) =
        ofGap gap := by
      rw [List.length_append, Nat.add_sub_cancel_left, hparts, slice_append, ofGap]
      by_cases hempty : gap = []
      · simp [hempty]
      · rw [if_neg hempty, if_pos (Nat.lt_add_of_pos_right (List.length_pos_iff.mpr hempty))]
    have htoken : (text.drop (textOf before ++ gap).length).take t.sourceText.length =
        t.sourceText := by
      rw [hparts, ← List.append_assoc, slice_append]
    have hcursor : (textOf before ++ gap).length + t.sourceText.length =
        (textOf (before ++ [⟨gap, t⟩])).length := by
      simp [textOf, Piece.text, Nat.add_assoc]
    have hrest := ih (before ++ [⟨gap, t⟩]) (by simpa using hlaid) (by simpa using htext)
    rw [List.map_cons, List.cons_append, fragmentsFrom]
    dsimp only
    rw [hstart, hwidth, if_neg (by rw [List.length_append]; omega), hgap, htoken, hcursor, hrest,
      List.flatMap_cons, ofPiece]
    simp

theorem exists_taken (c : Char) (cs : List Char) : ∃ ds, (munch c cs).taken = c :: ds := by
  obtain ⟨d, ds, htaken⟩ := List.exists_cons_of_ne_nil (taken_ne_nil c cs)
  have hcut := taken_append_rest c cs
  rw [htaken, List.cons_append] at hcut
  exact ⟨ds, by rw [htaken, (List.cons.inj hcut).1]⟩

/-- No token is made of blanks alone. -/
theorem exists_nonblank_of_mem_scan {pos last : Position} {text : List Char} {t : Token}
    (ht : t ∈ scan pos last text) (hreal : t.kind ≠ .eof) :
    ∃ c ∈ t.sourceText, isBlank c = false := by
  fun_induction scan pos last text with
  | case1 pos last =>
    rw [List.mem_singleton.mp ht] at hreal
    exact absurd rfl hreal
  | case2 pos last c cs _ ih => exact ih ht
  | case3 pos last c cs hblank m stop ih =>
    rcases List.mem_cons.mp ht with rfl | ht
    · obtain ⟨ds, htaken⟩ := exists_taken c cs
      refine ⟨c, ?_, by simpa using hblank⟩
      rw [sourceText_token, htaken]
      exact List.mem_cons_self
    · exact ih ht

theorem filter_ofGap {gap : List Char} (h : ∀ c ∈ gap, isBlank c = true) :
    (ofGap gap).filter (·.isVisible) = [] := by
  by_cases hgap : gap = []
  · simp [ofGap, hgap]
  · simpa [ofGap, hgap, Fragment.isVisible] using h

theorem filter_ofPiece (known : List String) {piece : Piece}
    (hgap : ∀ c ∈ piece.gap, isBlank c = true)
    (htoken : ∃ c ∈ piece.token.sourceText, isBlank c = false) :
    (ofPiece known piece).filter (·.isVisible) =
      [⟨piece.token.style known, piece.token.sourceText⟩] := by
  have hvisible :
      (⟨piece.token.style known, piece.token.sourceText⟩ : Fragment).isVisible = true := by
    obtain ⟨c, hc, hblank⟩ := htoken
    exact List.any_eq_true.mpr ⟨c, hc, by rw [hblank]; rfl⟩
  rw [ofPiece, List.filter_append, filter_ofGap hgap, List.nil_append, List.filter_singleton,
    hvisible]
  rfl

/-- The fragments of a line are those of its tokens, unless there are none, as the line is empty. -/
theorem line_cases (known : List String) (text : String) :
    line known text = fragmentsFrom known text.toList 0 (tokenize text) ∨
      text = "" ∧ fragmentsFrom known text.toList 0 (tokenize text) = [] ∧
        line known text = [⟨.plain, []⟩] := by
  have hjoin := flatMap_fragmentsFrom known text.toList 0 (tokenize text)
  unfold line
  cases hfragments : fragmentsFrom known text.toList 0 (tokenize text) with
  | nil =>
    rw [hfragments] at hjoin
    exact .inr ⟨String.toList_inj.mp hjoin.symm, rfl, rfl⟩
  | cons f fs => exact .inl rfl

/-- An empty fragment for an empty line is not visible. -/
theorem filter_line (known : List String) (text : String) :
    (line known text).filter (·.isVisible) =
      (fragmentsFrom known text.toList 0 (tokenize text)).filter (·.isVisible) := by
  rcases line_cases known text with hline | ⟨-, hnone, hline⟩
  · rw [hline]
  · rw [hline, hnone]
    rfl

/-- The fragments of a line that are more than white space are its tokens. -/
theorem visible_line (known : List String) {text : String} (hline : '\n' ∉ text.toList) :
    (line known text).filter (·.isVisible) = ((tokenize text).filter (·.kind ≠ .eof)).map
      fun t => ⟨t.style known, t.sourceText⟩ := by
  obtain ⟨pieces, trailing, hlaid, htext, htrailing, htokens⟩ := exists_pieces text
  have htoken : ∀ p ∈ pieces, ∃ c ∈ p.token.sourceText, isBlank c = false := by
    intro p hp
    have hmem : p.token ∈ scan .start .start text.toList := token_mem htokens p hp
    exact exists_nonblank_of_mem_scan hmem (hlaid.tokens p hp).2
  have hfragments :=
    fragmentsFrom_pieces known (.behind (textOf pieces)) [] pieces hlaid htext hline
  have hreal : (pieces.map (·.token)).filter (·.kind ≠ .eof) = pieces.map (·.token) := by
    rw [List.filter_eq_self]
    intro t ht
    obtain ⟨p, hp, rfl⟩ := List.mem_map.mp ht
    simpa using (hlaid.tokens p hp).2
  rw [filter_line, htokens]
  calc (fragmentsFrom known text.toList 0 _).filter (·.isVisible)
      = pieces.flatMap (fun p => (ofPiece known p).filter (·.isVisible)) := by
        rw [show 0 = (textOf []).length from rfl, hfragments, List.filter_append,
          filter_ofGap htrailing, List.append_nil, List.filter_flatMap]
    _ = pieces.flatMap (fun p => [⟨p.token.style known, p.token.sourceText⟩]) :=
        List.flatMap_congr fun p hp => filter_ofPiece known (hlaid.gaps p hp) (htoken p hp)
    _ = pieces.map (fun p => ⟨p.token.style known, p.token.sourceText⟩) :=
        List.map_eq_flatMap.symm
    _ = _ := by
        rw [List.filter_append, hreal]
        simp

/-- The fragments of a line, whatever names are known, make it up again, and none of them is empty
unless the line is. Where it has no line feed, the fragments that are more than white space are its
tokens in their order, each with its text as the line has it and in its style. So it is whatever
makes a scanner a basic one. -/
theorem line_partitions {scanner : List Char → List Raw} (h : IsBasic scanner)
    (known : List String) (text : String) :
    tokenize text = assemble (scanner text.toList) ∧
      (line known text).flatMap (·.text) = text.toList ∧
      (∀ f ∈ line known text, f.text = [] → text = "") ∧
      ('\n' ∉ text.toList →
        (line known text).filter (·.isVisible) = ((tokenize text).filter (·.kind ≠ .eof)).map
          fun t => ⟨t.style known, t.sourceText⟩) := by
  have hbound : ∀ t ∈ tokenize text, t.width ≠ 0 → t.pos.column - 1 < text.toList.length :=
    fun t ht hwidth => column_lt_of_mem ht (kind_ne_eof_of_width ht hwidth)
  refine ⟨(assemble_eq_tokenize h text).symm, ?_, ?_, visible_line known⟩
  · rcases line_cases known text with hline | ⟨rfl, -, hline⟩
    · rw [hline]
      exact flatMap_fragmentsFrom known text.toList 0 (tokenize text)
    · rw [hline]
      rfl
  · rcases line_cases known text with hline | ⟨hempty, -⟩
    · rw [hline]
      exact fun f hf hnil =>
        absurd hnil (text_ne_nil_of_mem known text.toList 0 (tokenize text) hbound f hf)
    · exact fun _ _ _ => hempty

/-- A line with white space, a string and a name that is known. -/
theorem line_partitions_known : IsBasic (rawsFrom .start) ∧
    tokenize " len(\"a b\")\t@" = assemble (rawsFrom .start " len(\"a b\")\t@".toList) ∧
      (line ["len"] " len(\"a b\")\t@").flatMap (·.text) = " len(\"a b\")\t@".toList ∧
      (∀ f ∈ line ["len"] " len(\"a b\")\t@", f.text = [] → " len(\"a b\")\t@" = "") ∧
      '\n' ∉ " len(\"a b\")\t@".toList ∧
      (line ["len"] " len(\"a b\")\t@").filter (·.isVisible) =
        ((tokenize " len(\"a b\")\t@").filter (·.kind ≠ .eof)).map
          fun t => ⟨t.style ["len"], t.sourceText⟩ := by
  obtain ⟨htokens, hjoin, hempty, hvisible⟩ :=
    line_partitions isBasic_rawsFrom ["len"] " len(\"a b\")\t@"
  have hline : '\n' ∉ " len(\"a b\")\t@".toList := by decide
  exact ⟨isBasic_rawsFrom, htokens, hjoin, hempty, hline, hvisible hline⟩

end Highlight

end MonkeyLang
