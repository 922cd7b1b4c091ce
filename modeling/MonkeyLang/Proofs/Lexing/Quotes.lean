import MonkeyLang.Proofs.Lexing.Decomposition

/-!
The quotes of a source. They pair up from left to right: what stands between the two of a pair is
the literal of a string, and one that is left over at the end is an illegal character. No other
token has a quote in it.
-/

namespace MonkeyLang

open Token (Kind)

namespace Lexer

/-! ## The quotes of a token -/

/-- A token takes no quote, the two around a text without quotes, or one behind which there is no
other. -/
inductive Quoting : Munch → Prop
  | unquoted {m : Munch} : m.kind ≠ .string → '"' ∉ m.taken → Quoting m
  | pair {inner rest : List Char} : '"' ∉ inner → Quoting ⟨.string, '"' :: inner ++ ['"'], rest⟩
  | stray {rest : List Char} : '"' ∉ rest → Quoting ⟨.illegal, ['"'], rest⟩

theorem quoting_munch (c : Char) (cs : List Char) : Quoting (munch c cs) := by
  have hmunching := munching c cs
  generalize munch c cs = m at hmunching ⊢
  cases hmunching with
  | digits hdigit =>
    refine .unquoted nofun fun hmem => ?_
    rw [← List.takeWhile_cons_of_pos hdigit] at hmem
    exact absurd (List.mem_takeWhile_imp hmem) (by decide)
  | word hword =>
    refine .unquoted (ofWord_ne_string _) fun hmem => ?_
    rw [← List.takeWhile_cons_of_pos (isWordPart_of_isWordStart hword)] at hmem
    exact absurd (List.mem_takeWhile_imp hmem) (by decide)
  | quoted hinner => exact .pair hinner
  | stray hcs => exact .stray hcs
  | equal => exact .unquoted nofun (show '"' ∉ ['=', '='] by decide)
  | different => exact .unquoted nofun (show '"' ∉ ['!', '='] by decide)
  | single _ _ hquote =>
    exact .unquoted (ofSymbol?_ne_string c) (by simpa using Ne.symm hquote)

/-! ## The quotes of a text -/

def strings (ts : List Token) : List Token := ts.filter (·.kind = .string)

/-- The quotes among tokens that are no part of a string. -/
def strays (ts : List Token) : List Token :=
  ts.filter fun t => t.kind = .illegal ∧ t.literal = "\""

/-- The tokens pair up the quotes of a text that begins at `pos`: the text between the two of each
pair is that of a string, and the last of an odd number of quotes is left over. -/
structure Pairs (pos : Position) (text : List Char) (ts : List Token) : Prop where
  strings_length : (strings ts).length = text.count '"' / 2
  string : ∀ k < text.count '"' / 2, ∃ before inner after,
    text = before ++ '"' :: inner ++ '"' :: after ∧ before.count '"' = 2 * k ∧ '"' ∉ inner ∧
      (strings ts)[k]? = some ⟨.string, String.ofList inner, pos.advance before⟩
  strays_length : (strays ts).length = text.count '"' % 2
  stray : text.count '"' % 2 = 1 → ∃ before after,
    text = before ++ '"' :: after ∧ '"' ∉ after ∧
      strays ts = [⟨.illegal, "\"", pos.advance before⟩]

namespace Pairs

variable {pos : Position} {w text inner : List Char} {ts : List Token} {t : Token}

theorem nil (pos last : Position) : Pairs pos [] [Token.eof last] where
  strings_length := rfl
  string := nofun
  strays_length := rfl
  stray := nofun

/-- What stands before the text has no quote. -/
theorem behind (hw : '"' ∉ w) (h : Pairs (pos.advance w) text ts) : Pairs pos (w ++ text) ts := by
  have hcount : (w ++ text).count '"' = text.count '"' := by
    rw [List.count_append, List.count_eq_zero_of_not_mem hw, Nat.zero_add]
  refine ⟨by rw [hcount, h.strings_length], fun k hk => ?_, by rw [hcount, h.strays_length],
    fun hodd => ?_⟩
  · rw [hcount] at hk
    obtain ⟨before, inner, after, rfl, hbefore, hinner, hstring⟩ := h.string k hk
    refine ⟨w ++ before, inner, after, by simp, ?_, hinner, ?_⟩
    · rw [List.count_append, List.count_eq_zero_of_not_mem hw, Nat.zero_add, hbefore]
    · rw [Position.advance_append, hstring]
  · rw [hcount] at hodd
    obtain ⟨before, after, rfl, hafter, hstray⟩ := h.stray hodd
    exact ⟨w ++ before, after, by simp, hafter, by rw [Position.advance_append, hstray]⟩

theorem cons (hstring : t.kind ≠ .string) (hstray : t.literal ≠ "\"") (h : Pairs pos text ts) :
    Pairs pos text (t :: ts) := by
  have hstrings : strings (t :: ts) = strings ts := by simp [strings, hstring]
  have hstrays : strays (t :: ts) = strays ts := by simp [strays, hstray]
  exact ⟨by rw [hstrings, h.strings_length], by rw [hstrings]; exact h.string,
    by rw [hstrays, h.strays_length], by rw [hstrays]; exact h.stray⟩

/-- A string takes the first two quotes. -/
theorem pair (hinner : '"' ∉ inner) (h : Pairs (pos.advance ('"' :: inner ++ ['"'])) text ts) :
    Pairs pos ('"' :: inner ++ ['"'] ++ text) (⟨.string, String.ofList inner, pos⟩ :: ts) := by
  have hnone := List.count_eq_zero_of_not_mem hinner
  have hcount : ('"' :: inner ++ ['"'] ++ text).count '"' = text.count '"' + 2 := by
    simp [hnone]
  have hstrings : strings (⟨.string, String.ofList inner, pos⟩ :: ts) =
      ⟨.string, String.ofList inner, pos⟩ :: strings ts := by simp [strings]
  have hstrays : strays (⟨.string, String.ofList inner, pos⟩ :: ts) = strays ts := by simp [strays]
  refine ⟨?_, fun k hk => ?_, ?_, fun hodd => ?_⟩
  · rw [hstrings, hcount, List.length_cons, h.strings_length]
    omega
  · rw [hstrings]
    cases k with
    | zero => exact ⟨[], inner, text, by simp, rfl, hinner, rfl⟩
    | succ k =>
      -- a pair behind it has two more quotes before it
      obtain ⟨before, inner', after, rfl, hbefore, hinner', hstring⟩ := h.string k (by omega)
      refine ⟨'"' :: inner ++ ['"'] ++ before, inner', after, by simp, ?_, hinner', ?_⟩
      · simp [hnone, hbefore]
        omega
      · rw [List.getElem?_cons_succ, Position.advance_append, hstring]
  · rw [hstrays, hcount, h.strays_length]
    omega
  · obtain ⟨before, after, rfl, hafter, hstray⟩ := h.stray (by omega)
    refine ⟨'"' :: inner ++ ['"'] ++ before, after, by simp, hafter, ?_⟩
    rw [hstrays, Position.advance_append, hstray]

/-- A quote is left over if there is no other behind it. -/
theorem leftOver (htext : '"' ∉ text) (h : Pairs (pos.step '"') text ts) :
    Pairs pos ('"' :: text) (⟨.illegal, "\"", pos⟩ :: ts) := by
  have hnone := List.count_eq_zero_of_not_mem htext
  have hcount : ('"' :: text).count '"' = 1 := by simp [hnone]
  have hstrings : strings (⟨.illegal, "\"", pos⟩ :: ts) = strings ts := by simp [strings]
  have hstrays : strays (⟨.illegal, "\"", pos⟩ :: ts) = [⟨.illegal, "\"", pos⟩] := by
    have hlength := h.strays_length
    rw [hnone] at hlength
    have := List.eq_nil_of_length_eq_zero hlength
    simpa [strays] using this
  refine ⟨?_, fun k hk => ?_, by rw [hstrays, hcount]; rfl, fun _ => ?_⟩
  · rw [hstrings, hcount, h.strings_length, hnone]
  · rw [hcount] at hk
    cases hk
  · exact ⟨[], text, rfl, htext, hstrays⟩

end Pairs

theorem Quoting.pairs {m : Munch} (h : Quoting m) {pos : Position} {ts : List Token}
    (hts : Pairs (pos.advance m.taken) m.rest ts) :
    Pairs pos (m.taken ++ m.rest) (m.token pos :: ts) := by
  cases h with
  | @unquoted m hstring hquote =>
    refine (hts.behind hquote).cons hstring fun hliteral => ?_
    have htaken : m.taken = ['"'] := by
      simpa [Munch.token, hstring] using congrArg String.toList hliteral
    rw [htaken] at hquote
    exact hquote List.mem_cons_self
  | @pair inner rest hinner =>
    have htoken : Munch.token ⟨.string, '"' :: inner ++ ['"'], rest⟩ pos =
        ⟨.string, String.ofList inner, pos⟩ := by simp [Munch.token]
    rw [htoken]
    exact .pair hinner hts
  | stray hrest => exact .leftOver hrest hts

theorem pairs_scan (pos last : Position) (text : List Char) :
    Pairs pos text (scan pos last text) := by
  fun_induction scan pos last text with
  | case1 pos last => exact .nil pos last
  | case2 pos last c cs hblank ih =>
    have hc : '"' ∉ [c] := by
      rw [List.mem_singleton]
      rintro rfl
      cases hblank
    exact ih.behind hc
  | case3 pos last c cs _ m stop ih =>
    have hpairs := (quoting_munch c cs).pairs ih
    rwa [taken_append_rest] at hpairs

/-- A source has half as many strings as quotes, rounded down: the `k`-th of them has as its literal
the text between a quote with `2 * k` quotes before it and the next quote. A quote is illegal if and
only if their number is odd; it is then the last quote and the only one. So it is whatever makes a
scanner a basic one. -/
theorem tokenize_quotes {scanner : List Char → List Raw} (h : IsBasic scanner) (source : String) :
    tokenize source = assemble (scanner source.toList) ∧
      (strings (tokenize source)).length = source.toList.count '"' / 2 ∧
      (∀ k < source.toList.count '"' / 2, ∃ before inner after,
        source.toList = before ++ '"' :: inner ++ '"' :: after ∧
          before.count '"' = 2 * k ∧ '"' ∉ inner ∧
          (strings (tokenize source))[k]? = some ⟨.string, String.ofList inner, .behind before⟩) ∧
      ((∃ t ∈ tokenize source, t.kind = .illegal ∧ t.literal = "\"") ↔
        source.toList.count '"' % 2 = 1) ∧
      (source.toList.count '"' % 2 = 1 → ∃ before after,
        source.toList = before ++ '"' :: after ∧ '"' ∉ after ∧
          strays (tokenize source) = [⟨.illegal, "\"", .behind before⟩]) := by
  have hpairs := pairs_scan .start .start source.toList
  have hstrays : (∃ t ∈ tokenize source, t.kind = .illegal ∧ t.literal = "\"") ↔
      0 < (strays (tokenize source)).length := by
    rw [List.length_pos_iff_exists_mem]
    simp [strays]
  refine ⟨(assemble_eq_tokenize h source).symm, hpairs.strings_length, fun k hk => ?_, ?_, ?_⟩
  · simp only [← Position.start_advance]
    exact hpairs.string k hk
  · have hlength : (strays (tokenize source)).length = _ := hpairs.strays_length
    rw [hstrays, hlength]
    omega
  · simp only [← Position.start_advance]
    exact hpairs.stray

/-- A source with five quotes, of which the third and the fourth have nothing between them. -/
theorem tokenize_quotes_five : IsBasic (rawsFrom .start) ∧
    tokenize "a\"b\n==\"c\"\"@\"d" = assemble (rawsFrom .start "a\"b\n==\"c\"\"@\"d".toList) ∧
      (strings (tokenize "a\"b\n==\"c\"\"@\"d")).length = 2 ∧
      (∃ before inner after,
        "a\"b\n==\"c\"\"@\"d".toList = before ++ '"' :: inner ++ '"' :: after ∧
          before.count '"' = 2 * 1 ∧ '"' ∉ inner ∧
          (strings (tokenize "a\"b\n==\"c\"\"@\"d"))[1]? =
            some ⟨.string, String.ofList inner, .behind before⟩) ∧
      (∃ t ∈ tokenize "a\"b\n==\"c\"\"@\"d", t.kind = .illegal ∧ t.literal = "\"") ∧
      ∃ before after, "a\"b\n==\"c\"\"@\"d".toList = before ++ '"' :: after ∧ '"' ∉ after ∧
        strays (tokenize "a\"b\n==\"c\"\"@\"d") = [⟨.illegal, "\"", .behind before⟩] := by
  obtain ⟨htokens, hlength, hstring, hillegal, hstray⟩ :=
    tokenize_quotes isBasic_rawsFrom "a\"b\n==\"c\"\"@\"d"
  have hcount : "a\"b\n==\"c\"\"@\"d".toList.count '"' = 5 := by decide
  rw [hcount] at hlength hstring hillegal hstray
  exact ⟨isBasic_rawsFrom, htokens, hlength, hstring 1 (by decide), hillegal.mpr rfl, hstray rfl⟩

end Lexer

end MonkeyLang
