import MonkeyLang.Proofs.Grammar.Source
import MonkeyLang.Repl

/-!
What a session does with a program that is typed into it. The tokens of a derivation leave no
bracket open, and no statement begins with a slash; so a program that is read without a report is
submitted by Enter and is not taken for a command.
-/

namespace MonkeyLang

open Token (Kind)

namespace Grammar

/-! ## Brackets -/

/-- As many brackets are open behind the tokens as before them. -/
def Balanced (ts : List Token) : Prop := ∀ depth, ts.foldl Repl.bracketStep depth = depth

section Balanced

variable {ts us : List Token} {t : Token} {k o c : Kind}

theorem balanced_nil : Balanced [] := fun _ => rfl

theorem Balanced.append (hts : Balanced ts) (hus : Balanced us) : Balanced (ts ++ us) := by
  intro depth
  rw [List.foldl_append, hts, hus]

theorem Balanced.cons (ht : t.kind = k) (hk : k.isOpener = false ∧ k.isCloser = false)
    (hts : Balanced ts) : Balanced (t :: ts) := by
  intro depth
  have hstep : Repl.bracketStep depth t = depth := by
    rw [Repl.bracketStep, ht, hk.1, hk.2]
    rfl
  rw [List.foldl_cons, hstep, hts]

theorem balanced_singleton (ht : t.kind = k) (hk : k.isOpener = false ∧ k.isCloser = false) :
    Balanced [t] :=
  balanced_nil.cons ht hk

/-- A pair of brackets around balanced tokens, with others behind it. -/
theorem Balanced.enclosed (l : Lexeme o) (r : Lexeme c) (ho : o.isOpener = true)
    (hc : c.isOpener = false ∧ c.isCloser = true) (hts : Balanced ts) (hus : Balanced us) :
    Balanced (l.1 :: (ts ++ r.1 :: us)) := by
  intro depth
  have hopen : Repl.bracketStep depth l.1 = depth + 1 := by
    rw [Repl.bracketStep, l.2, if_pos ho]
  have hclose : Repl.bracketStep (depth + 1) r.1 = depth := by
    rw [Repl.bracketStep, r.2, hc.1, hc.2]
    rfl
  rw [List.foldl_cons, hopen, List.foldl_append, hts, List.foldl_cons, hclose, hus]

end Balanced

theorem balanced_ending (semicolon : Option (Lexeme .semicolon)) : Balanced (ending semicolon) := by
  cases semicolon with
  | none => exact balanced_nil
  | some t => exact balanced_singleton t.2 (by decide)

theorem Names.balanced : ∀ names : Names, Balanced names.tokens
  | .empty => balanced_nil
  | .list first more => by
    refine Balanced.cons first.2 (by decide) ?_
    induction more with
    | nil => exact balanced_nil
    | cons p more ih =>
      exact .cons p.1.2 (by decide) (.cons p.2.2 (by decide) ih)

theorem SignLexeme.neutral (op : SignLexeme) :
    op.1.kind.isOpener = false ∧ op.1.kind.isCloser = false := by
  rcases op.2 with h | h <;> rw [h] <;> decide

theorem OperatorLexeme.neutral (op : OperatorLexeme) :
    op.1.kind.isOpener = false ∧ op.1.kind.isCloser = false := by
  have hlevels : ∀ k : Kind, 1 ≤ operatorLevel k → operatorLevel k ≤ 4 →
      k.isOpener = false ∧ k.isCloser = false := by
    intro k hlow hhigh
    cases k <;> simp [operatorLevel] at hlow hhigh <;> decide
  exact hlevels _ op.2.1 op.2.2

mutual

theorem Expr.balanced : ∀ d : Expr, Balanced d.tokens
  | .identifier t => balanced_singleton t.2 (by decide)
  | .integer t => balanced_singleton t.2.1 (by decide)
  | .string t => balanced_singleton t.2 (by decide)
  | .truth t => balanced_singleton t.2 (by decide)
  | .falsehood t => balanced_singleton t.2 (by decide)
  | .group l inner r => .enclosed l r rfl ⟨rfl, rfl⟩ inner.balanced balanced_nil
  | .array l items r => .enclosed l r rfl ⟨rfl, rfl⟩ items.balanced balanced_nil
  | .hash l entries r => .enclosed l r rfl ⟨rfl, rfl⟩ entries.balanced balanced_nil
  | .function word l names r body =>
    .cons word.2 (by decide) (.enclosed l r rfl ⟨rfl, rfl⟩ names.balanced body.balanced)
  | .ifThen word l condition r consequence =>
    .cons word.2 (by decide) (.enclosed l r rfl ⟨rfl, rfl⟩ condition.balanced consequence.balanced)
  | .ifElse word l condition r consequence word' alternative =>
    .cons word.2 (by decide) (.enclosed l r rfl ⟨rfl, rfl⟩ condition.balanced
      (consequence.balanced.append (.cons word'.2 (by decide) alternative.balanced)))
  | .call callee l items r =>
    callee.balanced.append (.enclosed l r rfl ⟨rfl, rfl⟩ items.balanced balanced_nil)
  | .index left l i r =>
    left.balanced.append (.enclosed l r rfl ⟨rfl, rfl⟩ i.balanced balanced_nil)
  | .unary op right => .cons rfl op.neutral right.balanced
  | .binary left op right => left.balanced.append (.cons rfl op.neutral right.balanced)

theorem Items.balanced : ∀ items : Items, Balanced items.tokens
  | .empty => balanced_nil
  | .list first more => first.balanced.append more.balanced

theorem MoreItems.balanced : ∀ more : MoreItems, Balanced more.tokens
  | .done => balanced_nil
  | .next comma item more => .cons comma.2 (by decide) (item.balanced.append more.balanced)

theorem Entries.balanced : ∀ entries : Entries, Balanced entries.tokens
  | .empty => balanced_nil
  | .list key colon value more =>
    key.balanced.append (.cons colon.2 (by decide) (value.balanced.append more.balanced))

theorem MoreEntries.balanced : ∀ more : MoreEntries, Balanced more.tokens
  | .done => balanced_nil
  | .comma comma => balanced_singleton comma.2 (by decide)
  | .next comma key colon value more =>
    .cons comma.2 (by decide) (key.balanced.append
      (.cons colon.2 (by decide) (value.balanced.append more.balanced)))

theorem Block.balanced : ∀ b : Block, Balanced b.tokens
  | .mk l body r => .enclosed l r rfl ⟨rfl, rfl⟩ body.balanced balanced_nil

theorem Statements.balanced : ∀ ss : Statements, Balanced ss.tokens
  | .done => balanced_nil
  | .next first more => first.balanced.append more.balanced

theorem Statement.balanced : ∀ s : Statement, Balanced s.tokens
  | .binding word name equals value semicolon =>
    .cons word.2 (by decide) (.cons name.2 (by decide) (.cons equals.2 (by decide)
      (value.balanced.append (balanced_ending semicolon))))
  | .returning word value semicolon =>
    .cons word.2 (by decide) (value.balanced.append (balanced_ending semicolon))
  | .expression value semicolon => value.balanced.append (balanced_ending semicolon)

end

/-- No source that is read without a report begins with a slash or with what is illegal. -/
theorem Statements.head_kind {ss : Statements} {stop t : Token} {ts : List Token}
    (hstop : stop.kind = .eof) (h : ss.tokens ++ [stop] = t :: ts) :
    t.kind ≠ .slash ∧ t.kind ≠ .illegal := by
  cases ss with
  | done =>
    obtain ⟨rfl, -⟩ := List.cons.inj h
    rw [hstop]
    decide
  | next first more =>
    obtain ⟨u, us, hu, hbegins⟩ := first.exists_head
    rw [Statements.tokens, hu] at h
    obtain ⟨rfl, -⟩ := List.cons.inj h
    constructor <;> intro hk <;> rw [hk] at hbegins <;> cases hbegins

end Grammar

/-! ## Commands -/

namespace Text

/-- A beginning of a text without white space before it has none either. -/
theorem dropWhile_of_prefix {p : Char → Bool} {text w : List Char} (h : w <+: text.dropWhile p) :
    w.dropWhile p = w := by
  cases w with
  | nil => rfl
  | cons c w =>
    obtain ⟨rest, hrest⟩ := h
    have hc := List.head?_dropWhile_not p text
    rw [← hrest] at hc
    rw [List.dropWhile_cons_of_neg (by simpa using hc)]

theorem trim_begins (text : List Char) : trim text <+: text.dropWhile isBlank := by
  rw [trim, trimWhere, ← List.reverse_suffix, List.reverse_reverse]
  exact List.dropWhile_suffix _

/-- The first word of a trimmed text begins where the white space before it ends. -/
theorem exists_of_splitWord_trim {text : List Char} {c : Char}
    (h : (splitWord (trim text)).1.head? = some c) :
    ∃ before rest, text = before ++ c :: rest ∧ ∀ d ∈ before, isBlank d = true := by
  have hprefix : (splitWord (trim text)).1 <+: text.dropWhile isBlank := by
    rw [splitWord, dropWhile_of_prefix (trim_begins text)]
    exact (List.takeWhile_prefix _).trans (trim_begins text)
  obtain ⟨word, hword⟩ := List.head?_eq_some_iff.mp h
  rw [hword] at hprefix
  obtain ⟨rest, hrest⟩ := hprefix
  refine ⟨text.takeWhile isBlank, word ++ rest, ?_, fun d hd => List.mem_takeWhile_imp hd⟩
  rw [← List.cons_append, hrest, List.takeWhile_append_dropWhile]

end Text

namespace Lexer

theorem isWordPart_of_white {c : Char} (h : Text.isBlank c = true) : isWordPart c = false := by
  have hunderscore : c ≠ '_' := by
    rintro rfl
    cases h
  by_contra hpart
  rw [Bool.not_eq_false] at hpart
  simp only [isWordPart, isWordStart, isDigit, Text.isBlank, Bool.or_eq_true, Bool.and_eq_true,
    decide_eq_true_eq, beq_iff_eq, hunderscore, or_false, Char.le_def, UInt32.le_iff_toNat_le,
    Char.reduceVal, UInt32.reduceToNat, Char.toNat_val] at h hpart
  omega

/-- White space begins no token. -/
theorem munch_of_white {c : Char} (cs : List Char) (hc : Text.isBlank c = true) :
    (munch c cs).kind = .illegal := by
  have hpart := isWordPart_of_white hc
  rw [isWordPart, Bool.or_eq_false_iff] at hpart
  have hclass : ('"' :: Kind.symbols.map (·.1)).all (!Text.isBlank ·) = true := by decide
  have hnone : ∀ d ∈ '"' :: Kind.symbols.map (·.1), c ≠ d := by
    rintro d hd rfl
    have hblank := List.all_eq_true.mp hclass c hd
    rw [hc] at hblank
    cases hblank
  have hsymbol : Kind.ofSymbol? c = none := by
    by_contra hsome
    obtain ⟨k, hk⟩ := Option.ne_none_iff_exists'.mp hsome
    exact hnone c (List.mem_cons_of_mem _
      (List.mem_map_of_mem (mem_symbols_of_ofSymbol? hk))) rfl
  have hne : c ≠ '=' ∧ c ≠ '!' := ⟨hnone _ (by decide), hnone _ (by decide)⟩
  rw [munch_single hpart.2 hpart.1 (hnone _ (by decide)) fun h => absurd h (by simp [hne]), hsymbol]
  rfl

/-- A text that begins with a slash, up to white space, is read from a slash on or from what is
illegal. -/
theorem lexemes_slash (before rest : List Char) (h : ∀ c ∈ before, Text.isBlank c = true) :
    ∃ t ts, lexemes (before ++ '/' :: rest) = t :: ts ∧ (t.kind = .slash ∨ t.kind = .illegal) := by
  induction before with
  | nil => exact ⟨_, _, lexemes_symbol (k := .slash) (by decide) fun h => by simp at h, .inl rfl⟩
  | cons c before ih =>
    obtain ⟨hc, hbefore⟩ := List.forall_mem_cons.mp h
    rw [List.cons_append]
    cases hblank : isBlank c with
    | true =>
      rw [lexemes_blank hblank]
      exact ih hbefore
    | false => exact ⟨_, _, lexemes_token hblank, .inr (munch_of_white _ hc)⟩

end Lexer

namespace Repl

theorem bracketDepth_eq (text : String) :
    bracketDepth text = (Lexer.lexemes text.toList).foldl bracketStep 0 := by
  rw [Lexer.lexemes, List.foldl_map]
  rfl

/-- A program that is read without a report leaves no bracket open. -/
theorem bracketDepth_of_isClean {text : String} (h : (Program.ofSource text).isClean = true) :
    bracketDepth text = 0 := by
  obtain ⟨ss, stop, -, hstop, hlexemes⟩ := Grammar.exists_statements h
  rw [bracketDepth_eq, hlexemes]
  exact ss.balanced.append (Grammar.balanced_singleton hstop (by decide)) 0

/-- A program that is read without a report is no command. -/
theorem split?_of_isClean {text : String} (h : (Program.ofSource text).isClean = true) :
    Command.split? text = none := by
  refine if_neg fun hslash => ?_
  obtain ⟨before, rest, htext, hbefore⟩ := Text.exists_of_splitWord_trim (beq_iff_eq.mp hslash)
  obtain ⟨t, ts, hread, hkind⟩ := Lexer.lexemes_slash before rest hbefore
  obtain ⟨ss, stop, -, hstop, hlexemes⟩ := Grammar.exists_statements h
  rw [← htext, hlexemes] at hread
  obtain ⟨hslash, hillegal⟩ := Grammar.Statements.head_kind hstop hread
  exact hkind.elim hslash hillegal

/-- A program that is read without a report leaves no bracket open, so that Enter submits it
wherever the cursor is; and it gives no command, so that it is run when it is submitted. -/
theorem submits_of_isClean {text : String} (h : (Program.ofSource text).isClean = true) :
    bracketDepth text = 0 ∧
      (∀ b : Buffer, b.text = text → press .enter b = (b, some .submit)) ∧
      (∀ r : Repl, r.dispatch? text = none) ∧
      ∀ (r : Repl) (line : String), clean line = text → (Text.trim text.toList).isEmpty = false →
        r.submit (some line) = r.runLine text := by
  have hdepth := bracketDepth_of_isClean h
  have hdispatch : ∀ r : Repl, r.dispatch? text = none := fun r => by
    rw [dispatch?, split?_of_isClean h]
    rfl
  refine ⟨hdepth, ?_, hdispatch, ?_⟩
  · rintro b rfl
    rw [press, hdepth, if_neg (by simp)]
  · rintro r line rfl htrim
    rw [submit, htrim, hdispatch, Option.getD_none]
    rfl

def program : String := "let f = fn(x) \x7b [x, \x7b\"(\": 1\x7d][0] \x7d;\nf(8 / 2)"

theorem submits_program : (Program.ofSource program).isClean = true ∧
    bracketDepth program = 0 ∧
      (∀ b : Buffer, b.text = program → press .enter b = (b, some .submit)) ∧
      (∀ r : Repl, r.dispatch? program = none) ∧
      ∀ (r : Repl) (line : String), clean line = program →
        (Text.trim program.toList).isEmpty = false → r.submit (some line) = r.runLine program := by
  have hclean : (Program.ofSource program).isClean = true := by decide +kernel
  exact ⟨hclean, submits_of_isClean hclean⟩

end Repl

end MonkeyLang
