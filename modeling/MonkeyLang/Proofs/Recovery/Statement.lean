import MonkeyLang.Proofs.Recovery.Separator

/-!
What a broken statement does to the statements behind it. A list that begins afresh behind a
semicolon is read as if it stood alone, whatever stands before the semicolon. One that begins with
a token that can also be an operator may be taken to go on a phrase that lacks its last operand; if
`[]` is not, nothing is.
-/

namespace MonkeyLang

open Token (Kind)
open Grammar (Lexeme)

namespace Separator

variable {body after after' : List Token} {semi : Lexeme .semicolon}

/-- A list before a semicolon is read alike up to there, whatever follows. -/
theorem splits_ofTokens (hbody : Plain body) (hcomparable : Comparable semi after after') :
    Splits semi after after' 0
      (Phrase.statements 0 (Cursor.ofTokens (body ++ semi.1 :: after))).result
      (Phrase.statements 0 (Cursor.ofTokens (body ++ semi.1 :: after'))).result := by
  refine (uniform_inductive hcomparable).all_statements 0 _ ?_
  cases body with
  | nil => exact .inr ⟨rfl, rfl⟩
  | cons t ts => exact .inl ⟨t, ts, hbody, rfl, rfl⟩

/-! ## Lists that begin afresh -/

/-- The token can begin a program, and is no operator; or it is the end. -/
def startsAfresh (k : Kind) : Bool :=
  k matches .kwLet | .kwReturn | .ident | .int | .string | .kwTrue | .kwFalse | .bang | .kwIf |
    .kwFn | .lbrace | .eof

theorem still_of_startsAfresh {c : Cursor} (h : startsAfresh c.peek.kind = true) : Still c := by
  refine ⟨fun hk => ?_, fun k hinner hk => ?_⟩
  · rw [hk] at h
    cases h
  · rw [hk] at h
    rcases hinner with rfl | rfl | rfl <;> cases h

theorem idle_of_startsAfresh {c : Cursor} (h : startsAfresh c.peek.kind = true) : Idle c := by
  unfold Idle
  revert h
  cases c.peek.kind <;> simp [startsAfresh, Kind.precedence]

theorem comparable_of_startsAfresh (semi : Lexeme .semicolon) {after after' : List Token}
    (h : startsAfresh (mark semi after).peek.kind = true)
    (h' : startsAfresh (mark semi after').peek.kind = true) : Comparable semi after after' where
  still := still_of_startsAfresh h
  still' := still_of_startsAfresh h'
  idle := .inl ⟨idle_of_startsAfresh h, idle_of_startsAfresh h'⟩

/-- Nothing is read behind the end. -/
theorem statements_eof {c : Cursor} (depth : Nat) (h : c.cur.kind = .eof) :
    (Phrase.statements depth c).result = ([], [], c) := by
  rw [Phrase.result_statements, if_pos (.inl h)]

/-- Recovery at a semicolon is additive. Of a list that begins afresh behind a semicolon, before
which no brace stands, the statements are read behind those of what is before it, there are as many
diagnostics as of both, and those of the list itself come last; and this however both are broken. -/
theorem ofTokens_additive (hbody : Plain body) (semi : Lexeme .semicolon) {first : Token}
    (hfirst : startsAfresh first.kind = true) (rest : List Token) {last : List Token}
    (hlast : ∀ t ∈ last, t.kind = .eof) :
    let whole := Program.ofTokens (body ++ semi.1 :: first :: rest)
    let before := Program.ofTokens (body ++ semi.1 :: last)
    let behind := Program.ofTokens (first :: rest)
    whole.statements = before.statements ++ behind.statements ∧
      whole.diagnostics.length = before.diagnostics.length + behind.diagnostics.length ∧
      behind.diagnostics <:+ whole.diagnostics := by
  have hend : (mark semi last).peek.kind = .eof := by
    cases last with
    | nil => rfl
    | cons t ts => exact hlast t List.mem_cons_self
  have hcomparable : Comparable semi (first :: rest) last :=
    comparable_of_startsAfresh semi hfirst (by rw [hend]; rfl)
  rcases splits_ofTokens hbody hcomparable with
    ⟨ns, rs, rs', hreports, hwhole, hbefore⟩ | ⟨hprobe, -⟩
  · have hnothing := statements_eof (c := (mark semi last).advance) 0 hend
    dsimp only at hwhole hbefore
    rw [Phrase.value_of_result hnothing, Phrase.reports_of_result hnothing, List.append_nil,
      List.append_nil] at hbefore
    intro whole before behind
    have hstatements : whole.statements = ns ++ behind.statements := Phrase.value_of_result hwhole
    have hdiagnostics : whole.diagnostics = rs ++ behind.diagnostics :=
      Phrase.reports_of_result hwhole
    have hstatements' : before.statements = ns := Phrase.value_of_result hbefore
    have hdiagnostics' : before.diagnostics = rs' := Phrase.reports_of_result hbefore
    rw [hstatements, hdiagnostics, hstatements', hdiagnostics', List.length_append,
      hreports.length_eq]
    exact ⟨rfl, rfl, List.suffix_append rs _⟩
  · rw [hprobe] at hend
    cases hend

def unclosed : List Token :=
  [⟨.kwLet, "let", ⟨1, 1⟩⟩, ⟨.ident, "x", ⟨1, 5⟩⟩, ⟨.assign, "=", ⟨1, 7⟩⟩, ⟨.lparen, "(", ⟨1, 9⟩⟩]

theorem ofTokens_additive_unclosed :
    let semi : Lexeme .semicolon := ⟨⟨.semicolon, ";", ⟨1, 10⟩⟩, rfl⟩
    let first : Token := ⟨.ident, "y", ⟨1, 12⟩⟩
    let rest : List Token := [⟨.asterisk, "*", ⟨1, 14⟩⟩, .eof ⟨1, 15⟩]
    let whole := Program.ofTokens (unclosed ++ semi.1 :: first :: rest)
    let before := Program.ofTokens (unclosed ++ [semi.1])
    let behind := Program.ofTokens (first :: rest)
    Plain unclosed ∧ startsAfresh first.kind = true ∧
      whole.statements = before.statements ++ behind.statements ∧
      whole.diagnostics.length = before.diagnostics.length + behind.diagnostics.length ∧
      behind.diagnostics <:+ whole.diagnostics := by
  intro semi first rest
  have hbody : Plain unclosed := by decide
  have hfirst : startsAfresh first.kind = true := rfl
  exact ⟨hbody, hfirst, ofTokens_additive hbody semi hfirst rest (fun _ ht => absurd ht List.not_mem_nil)⟩

/-! ## Clean lists -/

/-- A list that is read without a report begins with a statement, if with anything. -/
theorem begins_of_isClean {t : Token} {ts : List Token}
    (h : (Program.ofTokens (t :: ts)).isClean = true) :
    t.kind = .eof ∨ t.kind = .kwLet ∨ t.kind = .kwReturn ∨ Phrase.beginsOperand t.kind = true := by
  by_contra hnot
  simp only [not_or, Bool.not_eq_true] at hnot
  obtain ⟨heof, hlet, hreturn, hoperand⟩ := hnot
  let c : Cursor := ⟨t, ts⟩
  have hreports : (Phrase.statements 0 c).reports = [] := List.isEmpty_iff.mp h
  have hlist := Phrase.result_statements 0 c
  rw [if_neg (by rintro (h | ⟨-, h⟩); exacts [heof h, absurd h (Nat.lt_irrefl 0)])] at hlist
  have hstatement := @Phrase.result_statement_expression 0 c hlet hreturn
  have hexpression := Phrase.result_expression 0 .lowest c
  have hfirst := @Phrase.result_operand_none 0 c hoperand
  rw [Phrase.reports_of_result hlist, Phrase.reports_of_result hstatement,
    Phrase.reports_of_result hexpression, Phrase.reports_of_result hfirst] at hreports
  cases hreports

/-- A broken statement leaves alone what follows it. -/
def Kept (body : List Token) (semi : Lexeme .semicolon) (after : List Token) : Prop :=
  (Program.ofTokens after).statements <:+ (Program.ofTokens (body ++ semi.1 :: after)).statements

/-- What begins a clean list is nothing that a phrase before it could be waiting for; and unless it
is one of three, it is no operator. -/
theorem still_of_isClean {t : Token} {ts : List Token}
    (h : (Program.ofTokens (t :: ts)).isClean = true) :
    Still (mark semi (t :: ts)) ∧
      (t.kind ≠ .minus → t.kind ≠ .lparen → t.kind ≠ .lbracket → Idle (mark semi (t :: ts))) := by
  have hpeek : (mark semi (t :: ts)).peek = t := rfl
  have hkinds := begins_of_isClean h
  unfold Still Idle Inner
  rw [hpeek]
  generalize t.kind = k at hkinds ⊢
  cases k <;> simp_all [Phrase.beginsOperand, Kind.precedence]

/-- Two runs that go on behind the semicolon in the same way leave what follows alone. -/
theorem kept_of_splits {r' : List Node × List Diagnostic × Cursor}
    (h : Splits semi after after' 0
      (Phrase.statements 0 (Cursor.ofTokens (body ++ semi.1 :: after))).result r')
    (hafter : after ≠ []) (hgoes : after' = probe → ∀ ns n, r'.1 = ns ++ [n] → ¬NoArrayStatement n) :
    Kept body semi after := by
  rcases h with ⟨ns, rs, rs', -, hwhole, -⟩ | ⟨hprobe, ns, n, hlast, hn⟩
  · cases after with
    | nil => exact absurd rfl hafter
    | cons t ts =>
      refine ⟨ns, ?_⟩
      exact (Phrase.value_of_result hwhole).symm
  · exact absurd hn (hgoes hprobe ns n hlast)

/-- The program `[]` is one statement, which is just an array. -/
theorem statements_probe :
    ∃ t t' elements, (Program.ofTokens probe).statements = [.exprStmt t (.array t' elements)] := by
  refine ⟨⟨.lbracket, "[", ⟨0, 0⟩⟩, ⟨.lbracket, "[", ⟨0, 0⟩⟩, [], ?_⟩
  with_unfolding_all rfl

theorem still_probe : Still (mark semi probe) := by
  refine ⟨nofun, fun k hk => ?_⟩
  rcases hk with rfl | rfl | rfl <;> exact nofun

/-- A broken statement never absorbs a clean list that follows it, unless the list begins with `-`,
`(` or `[`; and it absorbs none at all exactly if it does not absorb `[]`. -/
theorem kept_unless_continued (hbody : Plain body) (semi : Lexeme .semicolon) :
    (∀ after, (Program.ofTokens after).isClean = true →
      (∀ t ∈ after.head?, t.kind ≠ .minus ∧ t.kind ≠ .lparen ∧ t.kind ≠ .lbracket) →
      Kept body semi after) ∧
    ((∀ after, (Program.ofTokens after).isClean = true → Kept body semi after) ↔
      Kept body semi probe) := by
  have hempty : Kept body semi [] := by
    rw [Kept, show (Program.ofTokens []).statements = [] from
      Phrase.value_of_result (statements_eof 0 rfl)]
    exact List.nil_suffix
  refine ⟨fun after hclean hfirst => ?_, fun h => h probe (by decide +kernel), ?_⟩
  · cases after with
    | nil => exact hempty
    | cons t ts =>
      obtain ⟨hstill, hidle⟩ := @still_of_isClean semi t ts hclean
      obtain ⟨hminus, hparen, hbracket⟩ := hfirst t rfl
      have hcomparable : Comparable semi (t :: ts) [] :=
        ⟨hstill, still_of_startsAfresh rfl, .inl ⟨hidle hminus hparen hbracket,
          idle_of_startsAfresh rfl⟩⟩
      exact kept_of_splits (splits_ofTokens hbody hcomparable) (List.cons_ne_nil t ts) nofun
  · intro hkept after hclean
    cases after with
    | nil => exact hempty
    | cons t ts =>
      have hcomparable : Comparable semi (t :: ts) probe :=
        ⟨(still_of_isClean hclean).1, still_probe, .inr rfl⟩
      refine kept_of_splits (splits_ofTokens hbody hcomparable) (List.cons_ne_nil t ts) ?_
      intro _ ns n hlast hn
      -- The statement that the second run ends in would be the array behind the semicolon.
      obtain ⟨t, t', elements, hprobe⟩ := statements_probe
      obtain ⟨before, hsuffix⟩ := hkept
      rw [hprobe, show (Program.ofTokens (body ++ semi.1 :: probe)).statements = ns ++ [n] from
        hlast] at hsuffix
      have hsame : n = .exprStmt t (.array t' elements) :=
        (List.singleton_inj.mp (List.append_inj_right' hsuffix rfl)).symm
      exact hn _ _ _ hsame

def sign : List Token := [⟨.minus, "-", ⟨1, 1⟩⟩]

theorem kept_unless_continued_sign :
    let semi : Lexeme .semicolon := ⟨⟨.semicolon, ";", ⟨1, 2⟩⟩, rfl⟩
    Plain sign ∧ ¬∀ after, (Program.ofTokens after).isClean = true → Kept sign semi after := by
  intro semi
  have hbody : Plain sign := by decide
  refine ⟨hbody, fun hall => ?_⟩
  obtain ⟨before, hkept⟩ := (kept_unless_continued hbody semi).2.mp hall
  -- The array would be a statement of two nodes; what is read instead is one without its content.
  have hprobe : (Program.ofTokens probe).statements.map (·.walk.length) = [2] := by decide +kernel
  have hwhole : (Program.ofTokens (sign ++ semi.1 :: probe)).statements.map (·.walk.length) = [1] := by
    decide +kernel
  have hsizes := congrArg (List.map (·.walk.length)) hkept
  rw [List.map_append, hprobe, hwhole] at hsizes
  simpa using congrArg List.getLast? hsizes

end Separator

end MonkeyLang
