import MonkeyLang.Proofs.Recovery

/-!
A function literal with a broken body, and the statements behind it. They are read as if they stood
alone, unless the closing brace of the body was met for an operand.
-/

namespace MonkeyLang

open Token (Kind)
open Grammar (Lexeme)

/-! ## Telling reports by their texts -/

def missingBrace : String := "expected next token to be \x7d, got EOF instead"

def braceForOperand : String := "no prefix parse function for \x7d found"

theorem display_ne_nil (k : Kind) : k.display.toList ≠ [] := by
  cases k <;> decide

theorem eq_rbrace_of_display {k : Kind} (h : k.display.toList.head? = some '\x7d') :
    k = .rbrace := by
  cases k <;> first | rfl | exact absurd h (by decide)

theorem eq_rbrace_of_text {k : Kind} {behind text : List Char}
    (h : k.display.toList ++ behind = '\x7d' :: text) : k = .rbrace := by
  obtain ⟨c, cs, hk⟩ := List.exists_cons_of_ne_nil (display_ne_nil k)
  rw [hk, List.cons_append] at h
  refine eq_rbrace_of_display ?_
  rw [hk, (List.cons.inj h).1]
  rfl

theorem toList_missingBrace : missingBrace.toList =
    "expected next token to be ".toList ++ '\x7d' :: ", got EOF instead".toList := by
  decide

theorem toList_braceForOperand : braceForOperand.toList =
    "no prefix parse function for ".toList ++ '\x7d' :: " found".toList := by
  decide

/-- Only the report of a missing brace has its text. -/
theorem cause_of_missingBrace {d : Diagnostic} (h : d.message = missingBrace) :
    ∃ found, d.cause = .unexpected .rbrace found := by
  have htext := congrArg String.toList h
  rw [toList_missingBrace, Diagnostic.message] at htext
  split at htext
  · rename_i wanted found hcause
    simp only [String.toList_append, List.append_assoc] at htext
    rw [eq_rbrace_of_text (List.append_cancel_left htext)] at hcause
    exact ⟨found, hcause⟩
  · have hhead := congrArg List.head? htext
    simp at hhead
  · have hhead := congrArg List.head? htext
    simp at hhead

theorem message_eq_missingBrace {d : Diagnostic} (h : d.cause = .unexpected .rbrace .eof) :
    d.message = missingBrace := by
  rw [Diagnostic.message, h]
  rfl

theorem message_eq_braceForOperand {d : Diagnostic} :
    d.message = braceForOperand ↔ d.cause = .noOperand .rbrace := by
  constructor
  · intro h
    have htext := congrArg String.toList h
    rw [toList_braceForOperand, Diagnostic.message] at htext
    split at htext
    · have hhead := congrArg List.head? htext
      simp at hhead
    · rename_i found hcause
      simp only [String.toList_append, List.append_assoc] at htext
      rw [hcause, eq_rbrace_of_text (List.append_cancel_left htext)]
    · have hhead := congrArg List.head? htext
      simp at hhead
  · intro h
    rw [Diagnostic.message, h]
    rfl

namespace Recovery

open Phrase (parameters)

/-! ## A function literal around a body -/

/-- The tokens of a function literal without parameters and of the semicolon behind it, apart from
its body. -/
structure Shell where
  word : Lexeme .kwFn
  l : Lexeme .lparen
  r : Lexeme .rparen
  opening : Lexeme .lbrace
  close : Lexeme .rbrace
  semi : Lexeme .semicolon

def Shell.around (w : Shell) (body after : List Token) : List Token :=
  w.word.1 :: w.l.1 :: w.r.1 :: w.opening.1 :: (body ++ w.close.1 :: w.semi.1 :: after)

def Shell.body (w : Shell) (body after : List Token) : Cursor :=
  Cursor.ofTokens (body ++ w.close.1 :: w.semi.1 :: after)

variable {w : Shell} {body after after' : List Token}

theorem Shell.reaches_body (hflat : Flat body) :
    Reaches w.close w.semi after (w.body body after) := by
  cases body with
  | nil => exact .inr rfl
  | cons t ts => exact .inl ⟨ts, hflat, rfl⟩

theorem Shell.closes_or_escapes (hflat : Flat body) (hafter : after ≠ []) :
    Closes w.close w.semi after 1 (Phrase.statements 1 (w.body body after)).result ∨
      Escapes after 1 (Phrase.statements 1 (w.body body after)).result :=
  (settling w.close w.semi after).all_statements 1 _ (by decide) hafter (reaches_body hflat)

/-- Whether the block closes, and what was read of it then, does not depend on what follows. -/
theorem Shell.closes_of_closes
    (h : Closes w.close w.semi after 1 (Phrase.statements 1 (w.body body after)).result) :
    (Phrase.statements 1 (w.body body after')).reports =
      (Phrase.statements 1 (w.body body after)).reports := by
  have halike : Cursor.Alike after after' (w.body body after) (w.body body after') := by
    cases body with
    | nil => exact ⟨rfl, [w.semi.1], rfl, rfl⟩
    | cons t ts =>
      exact ⟨rfl, ts ++ [w.close.1, w.semi.1], by simp [Shell.body, Cursor.ofTokens],
        by simp [Shell.body, Cursor.ofTokens]⟩
  have hstop : (Phrase.statements 1 (w.body body after)).stop = _ := h.2
  have hleft : after.length < (Phrase.statements 1 (w.body body after)).stop.left := by
    rw [hstop, brace, Cursor.left, List.length_cons]
    exact Nat.lt_succ_self _
  exact (((Phrase.local_inductive after after').all_statements 1 _ halike).parts hleft).2.1

theorem Shell.operand_around (w : Shell) (body after : List Token) :
    (Phrase.operand 0 (Cursor.ofTokens (w.around body after))).result =
      let p := Phrase.statements 1 (w.body body after)
      (.function w.word.1 [] (.block w.opening.1 p.value),
        p.reports ++ (if p.stop.cur.kind = .eof then
          [p.stop.report 1 (.unexpected .rbrace .eof)] else []), p.stop) := by
  have hparameters : (parameters 0 (Cursor.ofTokens (w.around body after)).advance).result =
      (some [], [], (Cursor.ofTokens (w.around body after)).advance.advance) := by
    rw [Phrase.result_parameters, if_pos]
    exact w.r.2
  have hbody : (Cursor.ofTokens (w.around body after)).advance.advance.advance.advance =
      w.body body after := by
    cases body <;> rfl
  rw [Phrase.result_operand_function w.word.2, if_neg]
  · dsimp only
    rw [Phrase.value_of_result hparameters]
    dsimp only
    rw [Phrase.stop_of_result hparameters, Phrase.reports_of_result hparameters, if_neg]
    · have hblock := Phrase.result_block 0
        (Cursor.ofTokens (w.around body after)).advance.advance.advance
      rw [hbody] at hblock
      rw [Phrase.value_of_result hblock, Phrase.reports_of_result hblock,
        Phrase.stop_of_result hblock]
      rfl
    · rw [Decidable.not_not]
      exact w.opening.2
  · rw [Decidable.not_not]
    exact w.l.2

theorem Shell.cur_around (w : Shell) (body after : List Token) :
    (Cursor.ofTokens (w.around body after)).cur.kind = .kwFn :=
  w.word.2

/-- Every report of the function literal is one of the program. -/
theorem Shell.mem_reports {d : Diagnostic}
    (h : d ∈ (Phrase.operand 0 (Cursor.ofTokens (w.around body after))).reports) :
    d ∈ (Phrase.statements 0 (Cursor.ofTokens (w.around body after))).reports := by
  have hk := w.cur_around body after
  have hstatements := Phrase.result_statements 0 (Cursor.ofTokens (w.around body after))
  rw [if_neg (by simp [hk])] at hstatements
  have hstatement := @Phrase.result_statement_expression 0
    (Cursor.ofTokens (w.around body after)) (by simp [hk]) (by simp [hk])
  have hexpression := Phrase.result_expression 0 .lowest (Cursor.ofTokens (w.around body after))
  rw [Phrase.reports_of_result hstatements, Phrase.reports_of_result hstatement,
    Phrase.reports_of_result hexpression]
  exact List.mem_append_left _ (List.mem_append_left _ h)

/-- If the block closes, what comes behind the literal is read as if it stood alone. -/
theorem Shell.statements_around (hafter : after ≠ [])
    (h : Closes w.close w.semi after 1 (Phrase.statements 1 (w.body body after)).result) :
    (Phrase.statements 0 (Cursor.ofTokens (w.around body after))).result =
      let p := Phrase.statements 1 (w.body body after)
      let q := Phrase.statements 0 (Cursor.ofTokens after)
      (.exprStmt w.word.1 (.function w.word.1 [] (.block w.opening.1 p.value)) :: q.value,
        p.reports ++ q.reports, q.stop) := by
  obtain ⟨hcalm, hstop⟩ := h
  have hcalm : ∀ d ∈ (Phrase.statements 1 (w.body body after)).reports, Calm 1 d := hcalm
  have hstop : (Phrase.statements 1 (w.body body after)).stop = brace w.close w.semi after := hstop
  have hk := w.cur_around body after
  have hoperand := w.operand_around body after
  dsimp only at hoperand
  rw [hstop, if_neg (by rw [show (brace w.close w.semi after).cur.kind = _ from w.close.2]; decide),
    List.append_nil] at hoperand
  have hexpression : (Phrase.expression 0 .lowest
      (Cursor.ofTokens (w.around body after))).result =
      (.function w.word.1 [] (.block w.opening.1 (Phrase.statements 1 (w.body body after)).value),
        (Phrase.statements 1 (w.body body after)).reports, brace w.close w.semi after) := by
    rw [Phrase.result_expression]
    dsimp only
    rw [Phrase.value_of_result hoperand, Phrase.reports_of_result hoperand,
      Phrase.stop_of_result hoperand]
    have hend := @operators_brace w.close w.semi after 0 .lowest (.function w.word.1 []
      (.block w.opening.1 (Phrase.statements 1 (w.body body after)).value))
    rw [Phrase.value_of_result hend, Phrase.reports_of_result hend, Phrase.stop_of_result hend,
      List.append_nil]
  have hskip : (brace w.close w.semi after).skip .semicolon = ⟨w.semi.1, after⟩ := by
    rw [Cursor.skip, if_pos peek_brace]
    rfl
  have hstatement := @Phrase.result_statement_expression 0
    (Cursor.ofTokens (w.around body after)) (by simp [hk]) (by simp [hk])
  dsimp only at hstatement
  rw [Phrase.value_of_result hexpression, Phrase.reports_of_result hexpression,
    Phrase.stop_of_result hexpression, hskip] at hstatement
  -- The reports of the block arose at depth 1, so that nothing is given up at depth 0.
  have hrecover : (⟨w.semi.1, after⟩ : Cursor).recover 0
      (Phrase.statements 1 (w.body body after)).reports = ⟨w.semi.1, after⟩ := by
    rw [Cursor.recover, if_neg]
    intro hlast
    obtain ⟨d, hd, hdepth⟩ := Option.map_eq_some_iff.1 hlast
    have hone := (hcalm d (List.mem_of_getLast? hd)).1
    omega
  have hnext : (⟨w.semi.1, after⟩ : Cursor).advance = Cursor.ofTokens after := by
    cases after with
    | nil => exact absurd rfl hafter
    | cons t ts => rfl
  rw [Phrase.result_statements, if_neg (by simp [hk])]
  dsimp only
  rw [Phrase.value_of_result hstatement, Phrase.reports_of_result hstatement,
    Phrase.stop_of_result hstatement, hrecover, hnext]
  rfl

/-! ## What follows is kept -/

/-- The list begins with `let`, and its last token is its only end. -/
def Following (after : List Token) : Prop :=
  ∃ word middle last, after = word :: (middle ++ [last]) ∧ word.kind = .kwLet ∧
    last.kind = .eof ∧ ∀ t ∈ middle, t.kind ≠ .eof

theorem Following.ne_nil (h : Following after) : after ≠ [] := by
  obtain ⟨word, middle, last, rfl, -⟩ := h
  simp

/-- The statements behind the literal are read as they would be alone, and no report of a missing
brace is added to theirs. -/
def Kept (w : Shell) (body after : List Token) : Prop :=
  (Program.ofTokens after).statements <:+ (Program.ofTokens (w.around body after)).statements ∧
    (Program.ofTokens (w.around body after)).errors.count missingBrace ≤
      (Program.ofTokens after).errors.count missingBrace

theorem count_missingBrace {depth : Nat} {reports : List Diagnostic}
    (h : ∀ d ∈ reports, Calm depth d) : (reports.map (·.message)).count missingBrace = 0 := by
  rw [List.count_eq_zero]
  intro hmem
  obtain ⟨d, hd, htext⟩ := List.mem_map.1 hmem
  obtain ⟨found, hcause⟩ := cause_of_missingBrace htext
  exact (h d hd).2.2 found hcause

theorem Shell.kept_of_closes (hafter : after ≠ [])
    (h : Closes w.close w.semi after 1 (Phrase.statements 1 (w.body body after)).result) :
    Kept w body after := by
  have hread := Shell.statements_around hafter h
  have hvalue := Phrase.value_of_result hread
  have hreports := Phrase.reports_of_result hread
  constructor
  · rw [Program.ofTokens, Program.ofTokens]
    dsimp only
    rw [hvalue]
    exact List.suffix_cons _ _
  · rw [Program.errors, Program.errors, Program.ofTokens, Program.ofTokens]
    dsimp only
    have hcalm : ∀ d ∈ (Phrase.statements 1 (w.body body after)).reports, Calm 1 d := h.1
    apply Nat.le_of_eq
    rw [hreports, List.map_append, List.count_append, count_missingBrace hcalm, Nat.zero_add]

/-- The shortest broken statement: `let` before the end. -/
theorem statements_let_eof {depth : Nat} {word last : Token} (hword : word.kind = .kwLet)
    (hlast : last.kind = .eof) :
    (Phrase.statements depth ⟨word, [last]⟩).result =
      ([], [⟨.unexpected .ident .eof, word.pos, depth⟩], ⟨last, []⟩) := by
  have hstatement : (Phrase.statement depth ⟨word, [last]⟩).result =
      (none, [⟨.unexpected .ident .eof, word.pos, depth⟩], ⟨word, [last]⟩) := by
    rw [Phrase.result_statement_let hword, if_pos]
    · rw [Cursor.unexpected, Cursor.report, show (Cursor.peek ⟨word, [last]⟩).kind = _ from hlast]
    · rw [show (Cursor.peek ⟨word, [last]⟩).kind = _ from hlast]
      decide
  have hrecover : (⟨word, [last]⟩ : Cursor).recover depth
      [⟨.unexpected .ident .eof, word.pos, depth⟩] = ⟨word, [last]⟩ := by
    rw [Cursor.recover, List.getLast?_singleton, Option.map_some, if_pos rfl, Cursor.synchronize,
      if_pos]
    exact .inr (.inr (.inr hlast))
  have hend : (Phrase.statements depth (⟨word, [last]⟩ : Cursor).advance).result =
      ([], [], ⟨last, []⟩) := by
    rw [Phrase.result_statements, if_pos]
    · rfl
    · exact .inl hlast
  rw [Phrase.result_statements, if_neg (by simp [hword])]
  dsimp only
  rw [Phrase.value_of_result hstatement, Phrase.reports_of_result hstatement,
    Phrase.stop_of_result hstatement, hrecover, Phrase.value_of_result hend,
    Phrase.reports_of_result hend, Phrase.stop_of_result hend]
  rfl

/-- A block that escapes runs into the end of a broken `let`. -/
theorem Shell.not_kept_of_escapes {word last : Token} (hword : word.kind = .kwLet)
    (hlast : last.kind = .eof)
    (h : Escapes [word, last] 1 (Phrase.statements 1 (w.body body [word, last])).result) :
    ¬Kept w body [word, last] := by
  obtain ⟨before, -, -, hstop⟩ := h
  have hstop : (Phrase.statements 1 (w.body body [word, last])).stop =
    (Phrase.statements 1 (Cursor.ofTokens [word, last])).stop := hstop
  rw [show Cursor.ofTokens [word, last] = ⟨word, [last]⟩ from rfl,
    Phrase.stop_of_result (statements_let_eof hword hlast)] at hstop
  have hoperand := Phrase.reports_of_result (w.operand_around body [word, last])
  rw [hstop, if_pos hlast] at hoperand
  have hmem : missingBrace ∈ (Program.ofTokens (w.around body [word, last])).errors := by
    refine List.mem_map.2 ⟨⟨.unexpected .rbrace .eof, last.pos, 1⟩, Shell.mem_reports ?_,
      message_eq_missingBrace rfl⟩
    rw [hoperand]
    exact List.mem_append_right _ (List.mem_singleton_self _)
  have halone : (Program.ofTokens [word, last]).errors.count missingBrace = 0 := by
    rw [Program.errors, Program.ofTokens]
    dsimp only
    rw [show Cursor.ofTokens [word, last] = ⟨word, [last]⟩ from rfl,
      Phrase.reports_of_result (statements_let_eof hword hlast), List.count_eq_zero]
    intro hmem
    obtain ⟨d, hd, htext⟩ := List.mem_map.1 hmem
    obtain ⟨found, hcause⟩ := cause_of_missingBrace htext
    rw [List.mem_singleton.1 hd] at hcause
    exact absurd (Diagnostic.Cause.unexpected.inj hcause).1 (by decide)
  rintro ⟨-, hcount⟩
  rw [halone, Nat.le_zero, List.count_eq_zero] at hcount
  exact hcount hmem

/-- A report that the brace was met for an operand tells whether the block of the literal closes,
whatever follows it. -/
theorem Shell.closes_iff (hflat : Flat body) (last : Lexeme .eof) (hafter : after ≠ []) :
    Closes w.close w.semi after 1 (Phrase.statements 1 (w.body body after)).result ↔
      braceForOperand ∉ (Program.ofTokens (w.around body [last.1])).errors := by
  have hend : (Phrase.statements 0 (Cursor.ofTokens [last.1])).result =
      ([], [], Cursor.ofTokens [last.1]) := by
    rw [Phrase.result_statements, if_pos]
    exact .inl last.2
  constructor
  · intro h hmem
    -- What was read of the block does not depend on what follows it.
    have hreports := @Shell.closes_of_closes w body after [last.1] h
    have hlast : Closes w.close w.semi [last.1] 1
        (Phrase.statements 1 (w.body body [last.1])).result := by
      rcases Shell.closes_or_escapes (w := w) hflat (List.cons_ne_nil last.1 []) with hc |
        ⟨before, ⟨d, hd, hcause⟩, heq, -⟩
      · exact hc
      · refine absurd hcause (h.1 d ?_).2.1
        rw [show (Phrase.statements 1 (w.body body after)).result.2.1 = _ from hreports.symm,
          show (Phrase.statements 1 (w.body body [last.1])).reports = _ from heq]
        exact List.mem_append_left _ hd
    obtain ⟨d, hd, htext⟩ := List.mem_map.1 hmem
    have hread := Phrase.reports_of_result
      (Shell.statements_around (List.cons_ne_nil last.1 []) hlast)
    rw [Phrase.reports_of_result hend, List.append_nil] at hread
    have hd : d ∈ (Phrase.statements 0 (Cursor.ofTokens (w.around body [last.1]))).reports := hd
    rw [hread] at hd
    exact (hlast.1 d hd).2.1 (message_eq_braceForOperand.1 htext)
  · intro hnot
    rcases Shell.closes_or_escapes (w := w) hflat hafter with hc | ⟨before, ⟨d, hd, hcause⟩, heq, -⟩
    · exact hc
    refine absurd ?_ hnot
    have hmem : ∃ d ∈ (Phrase.statements 1 (w.body body [last.1])).reports,
        d.cause = .noOperand .rbrace := by
      rcases Shell.closes_or_escapes (w := w) hflat (List.cons_ne_nil last.1 []) with hc |
        ⟨before', ⟨d', hd', hcause'⟩, heq', -⟩
      · refine ⟨d, ?_, hcause⟩
        rw [← @Shell.closes_of_closes w body [last.1] after hc,
          show (Phrase.statements 1 (w.body body after)).reports = _ from heq]
        exact List.mem_append_left _ hd
      · refine ⟨d', ?_, hcause'⟩
        rw [show (Phrase.statements 1 (w.body body [last.1])).reports = _ from heq']
        exact List.mem_append_left _ hd'
    obtain ⟨d', hd', hcause'⟩ := hmem
    refine List.mem_map.2 ⟨d', Shell.mem_reports ?_, message_eq_braceForOperand.2 hcause'⟩
    rw [Phrase.reports_of_result (w.operand_around body [last.1])]
    exact List.mem_append_left _ hd'

/-- A broken body leaves alone what follows the function literal, whatever that is, exactly if its
closing brace was not met for an operand. -/
theorem kept_iff (w : Shell) (body : List Token) (hflat : Flat body) (last : Lexeme .eof) :
    (∀ after, Following after → Kept w body after) ↔
      braceForOperand ∉ (Program.ofTokens (w.around body [last.1])).errors := by
  constructor
  · intro hkept
    have hfollowing : Following [⟨.kwLet, "let", default⟩, last.1] :=
      ⟨_, [], last.1, rfl, rfl, last.2, fun _ ht => absurd ht List.not_mem_nil⟩
    rcases Shell.closes_or_escapes (w := w) hflat hfollowing.ne_nil with hc | he
    · exact (Shell.closes_iff hflat last hfollowing.ne_nil).1 hc
    · exact absurd (hkept _ hfollowing) (Shell.not_kept_of_escapes rfl last.2 he)
  · intro hnot after hfollowing
    exact Shell.kept_of_closes hfollowing.ne_nil
      ((Shell.closes_iff hflat last hfollowing.ne_nil).2 hnot)

/-- The literal in `fn() { let x = };`. -/
def literal : Shell where
  word := ⟨⟨.kwFn, "fn", ⟨1, 1⟩⟩, rfl⟩
  l := ⟨⟨.lparen, "(", ⟨1, 3⟩⟩, rfl⟩
  r := ⟨⟨.rparen, ")", ⟨1, 4⟩⟩, rfl⟩
  opening := ⟨⟨.lbrace, "\x7b", ⟨1, 6⟩⟩, rfl⟩
  close := ⟨⟨.rbrace, "\x7d", ⟨1, 16⟩⟩, rfl⟩
  semi := ⟨⟨.semicolon, ";", ⟨1, 17⟩⟩, rfl⟩

def unfinished : List Token :=
  [⟨.kwLet, "let", ⟨1, 8⟩⟩, ⟨.ident, "x", ⟨1, 12⟩⟩, ⟨.assign, "=", ⟨1, 14⟩⟩]

theorem braceForOperand_unfinished (last : Lexeme .eof) :
    braceForOperand ∈ (Program.ofTokens (literal.around unfinished [last.1])).errors := by
  let c := literal.body unfinished [last.1]
  have hvalue : ∃ d ∈ (Phrase.expression 1 .lowest c.advance.advance.advance).reports,
      d.cause = .noOperand .rbrace := by
    have hexpression := Phrase.result_expression 1 .lowest c.advance.advance.advance
    have hoperand := @Phrase.result_operand_none 1 c.advance.advance.advance rfl
    rw [Phrase.reports_of_result hexpression, Phrase.reports_of_result hoperand]
    exact ⟨_, List.mem_append_left _ (List.mem_singleton_self _), rfl⟩
  have hstatement := @Phrase.result_statement_let 1 c rfl
  rw [if_neg fun h => h rfl, if_neg fun h => h rfl] at hstatement
  have hstatements := Phrase.result_statements 1 c
  rw [if_neg (by rintro (h | ⟨h, -⟩) <;> exact Kind.noConfusion h)] at hstatements
  obtain ⟨d, hd, hcause⟩ := hvalue
  refine List.mem_map.2 ⟨d, Shell.mem_reports ?_, message_eq_braceForOperand.2 hcause⟩
  rw [Phrase.reports_of_result (literal.operand_around unfinished [last.1])]
  refine List.mem_append_left _ ?_
  rw [show (Phrase.statements 1 (literal.body unfinished [last.1])).reports = _ from
    Phrase.reports_of_result hstatements]
  refine List.mem_append_left _ ?_
  rw [Phrase.reports_of_result hstatement]
  exact hd

theorem kept_iff_unfinished : Flat unfinished ∧
    ¬∀ after, Following after → Kept literal unfinished after := by
  have hflat : Flat unfinished := by
    intro t ht
    simp only [unfinished, List.mem_cons, List.not_mem_nil, or_false] at ht
    rcases ht with rfl | rfl | rfl <;> decide
  refine ⟨hflat, fun hkept => ?_⟩
  exact (kept_iff literal unfinished hflat ⟨Token.eof ⟨1, 18⟩, rfl⟩).1 hkept
    (braceForOperand_unfinished _)

end Recovery

end MonkeyLang
