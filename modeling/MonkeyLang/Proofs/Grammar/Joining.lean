import MonkeyLang.Proofs.Grammar.Source
import MonkeyLang.Proofs.Lexing.Joining

/-!
Sources one below the other. If a clean source ends in a semicolon, nothing in its last line can
reach into what is written below it, however broken that is: the statements of the two are those of
the first, and then those of the second, and what is reported is what is reported of the second.
-/

namespace MonkeyLang

namespace Grammar

open Token (Kind)

/-! ## What stands behind statements -/

/-- An expression does not end in a semicolon. -/
theorem Expr.exists_last : ∀ d : Expr, ∃ t, d.tokens.getLast? = some t ∧ t.kind ≠ .semicolon
  | .identifier t | .string t | .truth t | .falsehood t =>
    ⟨t.1, rfl, by rw [t.2]; decide⟩
  | .integer t => ⟨t.1, rfl, by rw [t.2.1]; decide⟩
  | .group _ _ r | .array _ _ r | .hash _ _ r | .call _ _ _ r | .index _ _ _ r =>
    ⟨r.1, by simp [Expr.tokens, List.getLast?_cons], by rw [r.2]; decide⟩
  | .function _ _ _ _ (.mk _ _ r) | .ifThen _ _ _ _ (.mk _ _ r)
  | .ifElse _ _ _ _ _ _ (.mk _ _ r) =>
    ⟨r.1, by simp [Expr.tokens, Block.tokens, List.getLast?_cons], by rw [r.2]; decide⟩
  | .unary op right => by
    obtain ⟨t, ht, hk⟩ := right.exists_last
    exact ⟨t, by simp [Expr.tokens, List.getLast?_cons, ht], hk⟩
  | .binary left op right => by
    obtain ⟨t, ht, hk⟩ := right.exists_last
    exact ⟨t, by simp [Expr.tokens, List.getLast?_cons, ht], hk⟩

/-- A statement that ends in a semicolon is terminated by it. -/
theorem Statement.isTerminated_of_last {s : Statement} {t : Token}
    (h : s.tokens.getLast? = some t) (ht : t.kind = .semicolon) : s.isTerminated = true := by
  have hbare : ∀ (value : Expr) (front : List Token),
      (front ++ value.tokens).getLast? ≠ some t := by
    intro value front hlast
    obtain ⟨u, hu, hk⟩ := value.exists_last
    rw [List.getLast?_append, hu] at hlast
    cases hlast
    exact hk ht
  cases s with
  | binding word name equals value semicolon =>
    cases semicolon with
    | none =>
      refine absurd ?_ (hbare value [word.1, name.1, equals.1])
      simpa [Statement.tokens, ending] using h
    | some semicolon => rfl
  | returning word value semicolon =>
    cases semicolon with
    | none =>
      refine absurd ?_ (hbare value [word.1])
      simpa [Statement.tokens, ending] using h
    | some semicolon => rfl
  | expression value semicolon =>
    cases semicolon with
    | none =>
      refine absurd ?_ (hbare value [])
      simpa [Statement.tokens, ending] using h
    | some semicolon => rfl

theorem Statements.tokens_next_ne_nil (first : Statement) (more : Statements) :
    (Statements.next first more).tokens ≠ [] :=
  List.append_ne_nil_of_left_ne_nil first.tokens_ne_nil _

/-- Statements that end in a semicolon are read as they are, whatever stands behind them, and that
is read as if it stood alone. -/
theorem Statements.read_before (depth : Nat) : ∀ {ss : Statements}, ss.Valid →
    (∀ t, ss.tokens.getLast? = some t → t.kind = .semicolon) → ∀ {c e : Cursor},
      c.Spans ss.tokens e →
        (Phrase.statements depth c).result =
          (ss.trees ++ (Phrase.statements depth e.advance).value,
            (Phrase.statements depth e.advance).reports,
            (Phrase.statements depth e.advance).stop)
  | .done, _, _, c, e, h => absurd rfl h.ne_nil
  | .next first .done, ⟨hfirst, _, _⟩, hlast, c, e, h => by
    rw [tokens, tokens, List.append_nil] at h hlast
    -- the semicolon ends the last statement before anything that could go on with it
    have hend := List.getLast?_eq_some_getLast first.tokens_ne_nil
    have hterminated := Statement.isTerminated_of_last hend (hlast _ hend)
    have hp := Statement.read depth hfirst (fun hun => absurd hterminated (by simp [hun])) h
    exact statements_of_statement (Statement.opens h depth) hp
  | .next first (.next second more), ⟨hfirst, hlevel, hmore⟩, hlast, c, e, h => by
    have hne := tokens_next_ne_nil second more
    obtain ⟨k, hk, hrest⟩ := Cursor.Spans.split first.tokens_ne_nil hne h
    obtain ⟨helse, hsemi, hlead⟩ := next_of_head hrest
    have hp := Statement.read depth hfirst
      (fun hun => ⟨⟨Nat.le_of_eq (hlead.trans (hlevel hun)), helse⟩, hsemi⟩) hk
    have hq := read_before depth hmore (fun u hu => hlast u (by
      rw [tokens, List.getLast?_append, hu, Option.some_or])) hrest
    rw [statements_of_statement (Statement.opens hk depth) hp, Phrase.value_of_result hq,
      Phrase.reports_of_result hq, Phrase.stop_of_result hq]
    rfl

/-- A token list that begins with statements up to a semicolon. -/
theorem Statements.read_append {ss : Statements} (hv : ss.Valid)
    (hlast : ∀ t, ss.tokens.getLast? = some t → t.kind = .semicolon) {more : List Token}
    (hmore : more ≠ []) :
    (Program.ofTokens (ss.tokens ++ more)).statements =
        ss.trees ++ (Program.ofTokens more).statements ∧
      (Program.ofTokens (ss.tokens ++ more)).diagnostics =
        (Program.ofTokens more).diagnostics := by
  cases ss with
  | done => exact ⟨rfl, rfl⟩
  | next first ss =>
    have hne := tokens_next_ne_nil first ss
    obtain ⟨e, hs, hrest⟩ := Cursor.exists_spans hne
      (Cursor.ofTokens_eq (List.append_ne_nil_of_left_ne_nil hne more))
    have hread := read_before 0 hv hlast hs
    have hbehind : e.advance = Cursor.ofTokens more := by
      obtain ⟨t, ts, rfl⟩ := List.exists_cons_of_ne_nil hmore
      rw [Cursor.advance, Cursor.peek, hrest]
      rfl
    rw [hbehind] at hread
    exact ⟨Phrase.value_of_result hread, Phrase.reports_of_result hread⟩

end Grammar

/-- The last token before the end is a semicolon. -/
def EndsInSemicolon (source : String) : Prop :=
  (tokenize source).dropLast.getLast?.map (·.kind) = some .semicolon

instance (source : String) : Decidable (EndsInSemicolon source) :=
  inferInstanceAs (Decidable (_ = _))

theorem EndsInSemicolon.last {source : String} (h : EndsInSemicolon source) {ts : List Token}
    {stop : Token} (htokens : Lexer.lexemes source.toList = ts ++ [stop]) :
    ∀ t, ts.getLast? = some t → t.kind = .semicolon := by
  intro t ht
  have hlexemes : (Lexer.lexemes source.toList).dropLast.getLast?.map (·.kind) =
      some .semicolon := by
    rw [Lexer.lexemes, ← List.map_dropLast, List.getLast?_map, Option.map_map]
    exact h
  rw [htokens, List.dropLast_concat, ht] at hlexemes
  exact Option.some.inj hlexemes

namespace Program

/-- The tokens of a source without their places. -/
theorem ofTokens_lexemes (source : String) :
    (ofTokens (Lexer.lexemes source.toList)).statements =
        (ofSource source).statements.map (·.unplaced) ∧
      (ofTokens (Lexer.lexemes source.toList)).diagnostics =
        (ofSource source).diagnostics.map (·.unplaced) :=
  ofTokens_unplaced (tokenize source)

/-- A clean source that ends in a semicolon, and any source on the lines below it: what is read of
the two is what is read of each, but for the places. -/
theorem ofSource_append {source : String} (hclean : (ofSource source).isClean = true)
    (hend : EndsInSemicolon source) (more : String) :
    (ofSource (source ++ "\n" ++ more)).statements.map (·.unplaced) =
        (ofSource source).statements.map (·.unplaced) ++
          (ofSource more).statements.map (·.unplaced) ∧
      (ofSource (source ++ "\n" ++ more)).diagnostics.map (·.unplaced) =
        (ofSource more).diagnostics.map (·.unplaced) := by
  obtain ⟨ss, stop, hv, hstop, htokens⟩ := Grammar.exists_statements hclean
  have hlegal : ∀ t ∈ Lexer.lexemes source.toList, t.kind ≠ .illegal := by
    intro t ht
    rw [htokens] at ht
    rcases List.mem_append.1 ht with ht | ht
    · exact (ss.covered t ht).legal
    · rw [List.mem_singleton.1 ht, hstop]
      decide
  have hjoined : Lexer.lexemes (source ++ "\n" ++ more).toList =
      ss.tokens ++ Lexer.lexemes more.toList := by
    have htext : (source ++ "\n" ++ more).toList = source.toList ++ '\n' :: more.toList := by
      simp
    rw [htext, Lexer.lexemes_append _ hlegal, htokens, List.dropLast_concat]
  have hmore : Lexer.lexemes more.toList ≠ [] := by
    rw [Lexer.lexemes, ne_eq, List.map_eq_nil_iff]
    exact Lexer.scan_ne_nil _ _ _
  obtain ⟨htrees, hreports⟩ := Grammar.Statements.read_append hv (hend.last htokens) hmore
  rw [← hjoined, (ofTokens_lexemes _).1, (ofTokens_lexemes _).1] at htrees
  rw [← hjoined, (ofTokens_lexemes _).2, (ofTokens_lexemes _).2] at hreports
  exact ⟨by rw [htrees, (Grammar.Statements.read_source hv hstop htokens).2], hreports⟩

/-- Below a clean source that ends in a semicolon, any source is read as alone: its statements come
behind those of the first, and what is reported of it is all that is reported. -/
theorem ofSource_below {source : String} (hclean : (ofSource source).isClean = true)
    (hend : EndsInSemicolon source) (more : String) :
    (ofSource (source ++ "\n" ++ more)).statements.map (·.bare) =
        (ofSource source).statements.map (·.bare) ++ (ofSource more).statements.map (·.bare) ∧
      (ofSource (source ++ "\n" ++ more)).errors = (ofSource more).errors := by
  obtain ⟨htrees, hreports⟩ := ofSource_append hclean hend more
  have hbare (ns : List Node) : ns.map (·.bare) = (ns.map (·.unplaced)).map (·.bare) := by
    simp only [List.map_map, Function.comp_def, Node.bare_unplaced]
  have hmessages (ds : List Diagnostic) :
      ds.map (·.message) = (ds.map (·.unplaced)).map (·.message) := by
    rw [List.map_map]
    rfl
  constructor
  · rw [hbare, htrees, List.map_append, ← hbare, ← hbare]
  · rw [errors, hmessages, hreports, ← hmessages]
    rfl

/-- An operator and an open string below a binding. -/
theorem ofSource_below_openString :
    (ofSource "let x = 1;").isClean = true ∧ EndsInSemicolon "let x = 1;" ∧
      (ofSource "* \"a").isClean = false ∧
      (ofSource ("let x = 1;" ++ "\n" ++ "* \"a")).statements.map (·.bare) =
        (ofSource "let x = 1;").statements.map (·.bare) ++
          (ofSource "* \"a").statements.map (·.bare) ∧
      (ofSource ("let x = 1;" ++ "\n" ++ "* \"a")).errors = (ofSource "* \"a").errors := by
  have hclean : (ofSource "let x = 1;").isClean = true := by decide +kernel
  have hend : EndsInSemicolon "let x = 1;" := by decide +kernel
  exact ⟨hclean, hend, by decide +kernel, ofSource_below hclean hend "* \"a"⟩

/-- Clean sources on lines of their own, all but the last with a semicolon at the end. -/
theorem ofSource_intercalate {earlier : List String} {last : String}
    (hclean : ∀ source ∈ earlier ++ [last], (ofSource source).isClean = true)
    (hend : ∀ source ∈ earlier, EndsInSemicolon source) :
    (ofSource ("\n".intercalate (earlier ++ [last]))).isClean = true ∧
      (ofSource ("\n".intercalate (earlier ++ [last]))).statements.map (·.unplaced) =
        (earlier ++ [last]).flatMap fun source =>
          (ofSource source).statements.map (·.unplaced) := by
  induction earlier with
  | nil =>
    have hone : "\n".intercalate ([] ++ [last]) = last := by simp
    rw [hone]
    exact ⟨hclean last (by simp), by simp⟩
  | cons source earlier ih =>
    obtain ⟨hfirst, hothers⟩ := List.forall_mem_cons.1 hclean
    obtain ⟨hsemicolon, hends⟩ := List.forall_mem_cons.1 hend
    obtain ⟨hjoined, hstatements⟩ := ih hothers hends
    have htext : "\n".intercalate (source :: earlier ++ [last]) =
        source ++ "\n" ++ "\n".intercalate (earlier ++ [last]) := by
      cases earlier <;> simp [String.intercalate_cons_cons]
    obtain ⟨htrees, hreports⟩ := ofSource_append hfirst hsemicolon
      ("\n".intercalate (earlier ++ [last]))
    rw [htext]
    refine ⟨?_, ?_⟩
    · have hempty := congrArg List.isEmpty hreports
      rw [List.isEmpty_map, List.isEmpty_map] at hempty
      exact hempty.trans hjoined
    · rw [htrees, hstatements, List.cons_append, List.flatMap_cons]

end Program

end MonkeyLang
