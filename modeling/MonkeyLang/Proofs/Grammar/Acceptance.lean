import MonkeyLang.Proofs.Grammar.Soundness
import MonkeyLang.Proofs.Grammar.Unambiguous

/-!
The reader accepts its grammar: a token list is read without a report exactly if it has a
derivation, the derivation is then the only one, and the program read is its tree.
-/

namespace MonkeyLang

open Token (Kind)

mutual

/-- No child of the tree is absent, but for the alternative of a conditional. -/
def Node.Complete : Node → Prop
  | .absent => False
  | .identifier _ | .integer _ _ | .string _ _ | .boolean _ _ => True
  | .array _ elements => Node.CompleteEach elements
  | .hash _ pairs => Node.CompletePairs pairs
  | .unary _ _ right => right.Complete
  | .binary _ left _ right => left.Complete ∧ right.Complete
  | .index _ left i => left.Complete ∧ i.Complete
  | .ifElse _ condition consequence alternative =>
    condition.Complete ∧ consequence.Complete ∧
      (alternative.isAbsent = true ∨ alternative.Complete)
  | .function _ _ body => body.Complete
  | .call _ callee arguments => callee.Complete ∧ Node.CompleteEach arguments
  | .letStmt _ name value => name.isSome = true ∧ value.Complete
  | .returnStmt _ value => value.Complete
  | .exprStmt _ expression => expression.Complete
  | .block _ statements | .program _ statements => Node.CompleteEach statements

def Node.CompleteEach : List Node → Prop
  | [] => True
  | n :: ns => n.Complete ∧ Node.CompleteEach ns

def Node.CompletePairs : List (Node × Node) → Prop
  | [] => True
  | (key, value) :: pairs => key.Complete ∧ value.Complete ∧ Node.CompletePairs pairs

end

namespace Grammar

/-! ## The tree of a derivation is complete -/

mutual

theorem Expr.complete_tree : ∀ d : Expr, d.tree.Complete
  | .identifier _ | .integer _ | .string _ | .truth _ | .falsehood _ => trivial
  | .group _ inner _ => inner.complete_tree
  | .array _ items _ => items.complete_trees
  | .hash _ entries _ => entries.complete_trees
  | .function _ _ _ _ body => body.complete_tree
  | .ifThen _ _ condition _ consequence =>
    ⟨condition.complete_tree, consequence.complete_tree, .inl rfl⟩
  | .ifElse _ _ condition _ consequence _ alternative =>
    ⟨condition.complete_tree, consequence.complete_tree, .inr alternative.complete_tree⟩
  | .call callee _ items _ => ⟨callee.complete_tree, items.complete_trees⟩
  | .index left _ i _ => ⟨left.complete_tree, i.complete_tree⟩
  | .unary _ right => right.complete_tree
  | .binary left _ right => ⟨left.complete_tree, right.complete_tree⟩

theorem Items.complete_trees : ∀ items : Items, Node.CompleteEach items.trees
  | .empty => trivial
  | .list first more => ⟨first.complete_tree, more.complete_trees⟩

theorem MoreItems.complete_trees : ∀ items : MoreItems, Node.CompleteEach items.trees
  | .done => trivial
  | .next _ item more => ⟨item.complete_tree, more.complete_trees⟩

theorem Entries.complete_trees : ∀ entries : Entries, Node.CompletePairs entries.trees
  | .empty => trivial
  | .list key _ value more => ⟨key.complete_tree, value.complete_tree, more.complete_trees⟩

theorem MoreEntries.complete_trees : ∀ more : MoreEntries, Node.CompletePairs more.trees
  | .done | .comma _ => trivial
  | .next _ key _ value more => ⟨key.complete_tree, value.complete_tree, more.complete_trees⟩

theorem Block.complete_tree : ∀ b : Block, b.tree.Complete
  | .mk _ body _ => body.complete_trees

theorem Statements.complete_trees : ∀ ss : Statements, Node.CompleteEach ss.trees
  | .done => trivial
  | .next first more => ⟨first.complete_tree, more.complete_trees⟩

theorem Statement.complete_tree : ∀ s : Statement, s.tree.Complete
  | .binding _ _ _ value _ => ⟨rfl, value.complete_tree⟩
  | .returning _ value _ => value.complete_tree
  | .expression value _ => value.complete_tree

end

/-! ## What no derivation covers -/

/-- A token that a derivation can cover: not the end, no illegal one, and no integer greater than
the greatest word. -/
structure Coverable (t : Token) : Prop where
  real : t.kind ≠ .eof
  legal : t.kind ≠ .illegal
  fits : t.kind = .int → decimal t.literal ≤ 0x7fffffffffffffff

theorem coverable_of_kind {t : Token} {k : Kind} (ht : t.kind = k)
    (hk : k ≠ .eof ∧ k ≠ .illegal ∧ k ≠ .int) : Coverable t := by
  subst ht
  exact ⟨hk.1, hk.2.1, fun hint => absurd hint hk.2.2⟩

theorem coverable_lexeme {k : Kind} (hk : k ≠ .eof ∧ k ≠ .illegal ∧ k ≠ .int) (t : Lexeme k) :
    Coverable t.1 :=
  coverable_of_kind t.2 hk

theorem coverable_sign (op : SignLexeme) : Coverable op.1 := by
  rcases op.2 with h | h <;> exact coverable_of_kind h (by decide)

theorem coverable_operator (op : OperatorLexeme) : Coverable op.1 := by
  have hlevels : ∀ k : Kind, 1 ≤ operatorLevel k → k ≠ .eof ∧ k ≠ .illegal ∧ k ≠ .int := by
    intro k hk
    cases k <;> simp [operatorLevel] at hk ⊢
  exact coverable_of_kind rfl (hlevels _ op.2.1)

def Covered (ts : List Token) : Prop := ∀ t ∈ ts, Coverable t

theorem covered_nil : Covered [] := fun _ h => absurd h List.not_mem_nil

theorem covered_cons {t : Token} {ts : List Token} (h : Coverable t) (hts : Covered ts) :
    Covered (t :: ts) := by
  intro u hu
  rcases List.mem_cons.1 hu with rfl | hu
  · exact h
  · exact hts u hu

theorem covered_append {ts us : List Token} (hts : Covered ts) (hus : Covered us) :
    Covered (ts ++ us) := by
  intro u hu
  rcases List.mem_append.1 hu with hu | hu
  · exact hts u hu
  · exact hus u hu

theorem covered_lexeme {k : Kind} (hk : k ≠ .eof ∧ k ≠ .illegal ∧ k ≠ .int) (t : Lexeme k) :
    Covered [t.1] :=
  covered_cons (coverable_lexeme hk t) covered_nil

theorem Names.covered : ∀ names : Names, Covered names.tokens
  | .empty => covered_nil
  | .list first more => by
    refine covered_cons (coverable_lexeme (by decide) first) ?_
    intro t ht
    obtain ⟨⟨comma, name⟩, -, ht⟩ := List.mem_flatMap.1 ht
    rcases List.mem_cons.1 ht with rfl | ht
    · exact coverable_lexeme (by decide) comma
    · rw [List.mem_singleton.1 ht]
      exact coverable_lexeme (by decide) name

theorem covered_ending (semicolon : Option (Lexeme .semicolon)) : Covered (ending semicolon) := by
  cases semicolon with
  | none => exact covered_nil
  | some t => exact covered_lexeme (by decide) t

mutual

theorem Expr.covered : ∀ d : Expr, Covered d.tokens
  | .identifier t => covered_lexeme (by decide) t
  | .integer t =>
    covered_cons ⟨by rw [t.2.1]; decide, by rw [t.2.1]; decide, fun _ => t.2.2.2⟩ covered_nil
  | .string t => covered_lexeme (by decide) t
  | .truth t => covered_lexeme (by decide) t
  | .falsehood t => covered_lexeme (by decide) t
  | .group l inner r =>
    covered_cons (coverable_lexeme (by decide) l)
      (covered_append inner.covered (covered_lexeme (by decide) r))
  | .array l items r =>
    covered_cons (coverable_lexeme (by decide) l)
      (covered_append items.covered (covered_lexeme (by decide) r))
  | .hash l entries r =>
    covered_cons (coverable_lexeme (by decide) l)
      (covered_append entries.covered (covered_lexeme (by decide) r))
  | .function word l names r body =>
    covered_cons (coverable_lexeme (by decide) word) (covered_cons (coverable_lexeme (by decide) l)
      (covered_append names.covered (covered_cons (coverable_lexeme (by decide) r) body.covered)))
  | .ifThen word l condition r consequence =>
    covered_cons (coverable_lexeme (by decide) word) (covered_cons (coverable_lexeme (by decide) l)
      (covered_append condition.covered
        (covered_cons (coverable_lexeme (by decide) r) consequence.covered)))
  | .ifElse word l condition r consequence word' alternative =>
    covered_cons (coverable_lexeme (by decide) word) (covered_cons (coverable_lexeme (by decide) l)
      (covered_append condition.covered (covered_cons (coverable_lexeme (by decide) r)
        (covered_append consequence.covered
          (covered_cons (coverable_lexeme (by decide) word') alternative.covered)))))
  | .call callee l items r =>
    covered_append callee.covered (covered_cons (coverable_lexeme (by decide) l)
      (covered_append items.covered (covered_lexeme (by decide) r)))
  | .index left l i r =>
    covered_append left.covered (covered_cons (coverable_lexeme (by decide) l)
      (covered_append i.covered (covered_lexeme (by decide) r)))
  | .unary op right =>
    covered_cons (coverable_sign op) right.covered
  | .binary left op right =>
    covered_append left.covered (covered_cons (coverable_operator op) right.covered)

theorem Items.covered : ∀ items : Items, Covered items.tokens
  | .empty => covered_nil
  | .list first more => covered_append first.covered more.covered

theorem MoreItems.covered : ∀ items : MoreItems, Covered items.tokens
  | .done => covered_nil
  | .next comma item more =>
    covered_cons (coverable_lexeme (by decide) comma) (covered_append item.covered more.covered)

theorem Entries.covered : ∀ entries : Entries, Covered entries.tokens
  | .empty => covered_nil
  | .list key colon value more =>
    covered_append key.covered
      (covered_cons (coverable_lexeme (by decide) colon)
        (covered_append value.covered more.covered))

theorem MoreEntries.covered : ∀ more : MoreEntries, Covered more.tokens
  | .done => covered_nil
  | .comma comma => covered_lexeme (by decide) comma
  | .next comma key colon value more =>
    covered_cons (coverable_lexeme (by decide) comma) (covered_append key.covered
      (covered_cons (coverable_lexeme (by decide) colon)
        (covered_append value.covered more.covered)))

theorem Block.covered : ∀ b : Block, Covered b.tokens
  | .mk l body r =>
    covered_cons (coverable_lexeme (by decide) l)
      (covered_append body.covered (covered_lexeme (by decide) r))

theorem Statements.covered : ∀ ss : Statements, Covered ss.tokens
  | .done => covered_nil
  | .next first more => covered_append first.covered more.covered

theorem Statement.covered : ∀ s : Statement, Covered s.tokens
  | .binding word name equals value semicolon =>
    covered_cons (coverable_lexeme (by decide) word)
      (covered_cons (coverable_lexeme (by decide) name)
        (covered_cons (coverable_lexeme (by decide) equals)
          (covered_append value.covered (covered_ending semicolon))))
  | .returning word value semicolon =>
    covered_cons (coverable_lexeme (by decide) word)
      (covered_append value.covered (covered_ending semicolon))
  | .expression value semicolon => covered_append value.covered (covered_ending semicolon)

end

def Endless (ts : List Token) : Prop := ∀ t ∈ ts, t.kind ≠ .eof

theorem Covered.endless {ts : List Token} (h : Covered ts) : Endless ts := fun t ht => (h t ht).real

/-! ## Derivations of a whole token list -/

/-- The end is the last token of the list and stands nowhere else, and every integer is a run of
digits. -/
structure Readable (tokens : List Token) : Prop where
  ends : ∃ body last, tokens = body ++ [last] ∧ last.kind = .eof ∧ Endless body
  digits : ∀ t ∈ tokens, t.kind = .int → Digits t.literal

/-- The end is the last token of the list and stands nowhere else, and every integer that is a
numeral is a run of digits. -/
structure Legible (tokens : List Token) : Prop where
  ends : ∃ body last, tokens = body ++ [last] ∧ last.kind = .eof ∧ Endless body
  digits : ∀ t ∈ tokens, t.kind = .int → Numeral.read? t.literal.toList ≠ none → Digits t.literal

theorem Readable.legible {tokens : List Token} (h : Readable tokens) : Legible tokens :=
  ⟨h.ends, fun t ht hk _ => h.digits t ht hk⟩

theorem Legible.plain {tokens : List Token} (h : Legible tokens) :
    (Cursor.ofTokens tokens).Plain := by
  obtain ⟨body, last, rfl, -, -⟩ := h.ends
  intro t ht
  refine h.digits t ?_
  cases body <;> exact ht

/-- What stands before the first end is the whole list but its last token. -/
theorem Legible.eq_append {tokens ts us : List Token} {u : Token} (h : Legible tokens)
    (hcut : tokens = ts ++ u :: us) (hu : u.kind = .eof) : us = [] := by
  obtain ⟨body, last, rfl, -, hbody⟩ := h.ends
  rcases List.append_eq_append_iff.1 hcut with ⟨mid, hts, hlast⟩ | ⟨mid, hmid, hlast⟩
  · cases mid with
    | nil => exact (List.cons.inj hlast).2.symm
    | cons t mid => simp at hlast
  · cases mid with
    | nil => exact (List.cons.inj hlast).2
    | cons t mid =>
      obtain ⟨rfl, -⟩ := List.cons.inj hlast
      exact absurd hu (hbody u (by simp [hmid]))

/-- Statements up to an end cover the whole list. -/
theorem Legible.covers {tokens ts : List Token} {e : Cursor} (h : Legible tokens)
    (hts : Endless ts) (he : e.cur.kind = .eof)
    (hs : (Cursor.ofTokens tokens).Spans (ts ++ [e.cur]) e) : ts ++ [e.cur] = tokens := by
  have hne : tokens ≠ [] := by
    obtain ⟨body, last, rfl, -, -⟩ := h.ends
    simp
  have hstart := Cursor.ofTokens_eq hne
  by_cases hn : ts = []
  · subst hn
    obtain ⟨hcur, rfl⟩ := Cursor.spans_singleton.1 hs
    have hrest := @Legible.eq_append _ [] _ _ h hstart.symm he
    rw [← hstart, hrest]
    rfl
  · obtain ⟨m, hm, hpeek, rfl⟩ := split_closing hn hs
    have hcut : tokens = ts ++ m.rest := by rw [← hstart, hm.eq_append hts]
    rw [Cursor.cur_advance] at he hpeek ⊢
    cases hrest : m.rest with
    | nil =>
      obtain ⟨body, last, rfl, hlast, -⟩ := h.ends
      rw [hrest, List.append_nil] at hcut
      exact absurd hlast (hts last (by rw [← hcut]; simp))
    | cons u us =>
      have hu : m.peek = u := by rw [Cursor.peek, hrest]; rfl
      rw [hrest] at hcut
      rw [hu] at he ⊢
      rw [hcut, h.eq_append hcut he]

/-- A token list has at most one derivation. -/
theorem Derivation.eq {tokens : List Token} (d d' : Derivation tokens) : d = d' := by
  obtain ⟨body, last, hv, hcovers⟩ := d
  obtain ⟨body', last', hv', hcovers'⟩ := d'
  obtain ⟨rfl, hlast, -⟩ := Statements.eq_of_tokens hv hv' (.inl last.2) (.inl last'.2)
    (hcovers.trans hcovers'.symm)
  obtain rfl := Subtype.ext hlast
  rfl

/-- A derivation is read without a report, and what is read is its tree. -/
theorem Derivation.read {tokens : List Token} (d : Derivation tokens) :
    (Program.ofTokens tokens).isClean = true ∧ (Program.ofTokens tokens).node = d.tree := by
  have hne : tokens ≠ [] := by
    rw [← d.covers]
    simp
  obtain ⟨e, hs, -⟩ := Cursor.exists_spans (r := []) hne
    (by rw [Cursor.ofTokens_eq hne, List.append_nil])
  have hp := Statements.read 0 d.valid (.inl d.last.2) (by rw [d.covers]; exact hs)
  have hcur : (Cursor.ofTokens tokens).cur = tokens.headD default := by
    cases tokens with
    | nil => exact absurd rfl hne
    | cons t ts => rfl
  constructor
  · rw [Program.isClean, Program.ofTokens]
    dsimp only
    rw [Phrase.reports_of_result hp]
    rfl
  · rw [Program.node, Program.ofTokens, Derivation.tree, ← hcur]
    dsimp only
    rw [Phrase.value_of_result hp]

/-- What is read without a report has a derivation. -/
theorem Legible.derivation {tokens : List Token} (h : Legible tokens)
    (hclean : (Program.ofTokens tokens).isClean = true) : Nonempty (Derivation tokens) := by
  have hreports : (Phrase.statements 0 (Cursor.ofTokens tokens)).reports = [] := by
    simpa [Program.isClean, Program.ofTokens] using hclean
  obtain ⟨ss, hv, hclosed, hs, -⟩ := derivable.all_statements 0 _ h.plain hreports
  have heof : (Phrase.statements 0 (Cursor.ofTokens tokens)).stop.cur.kind = .eof := by
    rcases hclosed with heof | ⟨-, h0⟩
    · exact heof
    · exact absurd h0 (by decide)
  exact ⟨⟨ss, ⟨_, heof⟩, hv, h.covers ss.covered.endless heof hs⟩⟩

theorem derivation_of_isClean {tokens : List Token} (h : Readable tokens)
    (hclean : (Program.ofTokens tokens).isClean = true) : Nonempty (Derivation tokens) :=
  h.legible.derivation hclean

/-- The reader accepts exactly the grammar and builds the one tree that the grammar gives. -/
theorem isClean_iff_derivation (tokens : List Token) (h : Readable tokens) :
    ((Program.ofTokens tokens).isClean = true ↔ Nonempty (Derivation tokens)) ∧
      ∀ d : Derivation tokens, (∀ d' : Derivation tokens, d' = d) ∧
        (Program.ofTokens tokens).node = d.tree ∧ (Program.ofTokens tokens).node.Complete := by
  refine ⟨⟨derivation_of_isClean h, fun ⟨d⟩ => d.read.1⟩, fun d => ⟨fun d' => d'.eq d, d.read.2, ?_⟩⟩
  rw [d.read.2]
  exact d.body.complete_trees

def difference : List Token :=
  [⟨.int, "1", ⟨1, 1⟩⟩, ⟨.minus, "-", ⟨1, 3⟩⟩, ⟨.int, "2", ⟨1, 5⟩⟩, ⟨.semicolon, ";", ⟨1, 6⟩⟩,
    ⟨.eof, "", ⟨1, 7⟩⟩]

theorem readable_difference : Readable difference := by
  refine ⟨⟨difference.take 4, ⟨.eof, "", ⟨1, 7⟩⟩, rfl, rfl, by simp [Endless, difference]⟩, ?_⟩
  intro t ht hk
  simp only [difference, List.mem_cons, List.not_mem_nil, or_false] at ht
  rcases ht with rfl | rfl | rfl | rfl | rfl
  · exact ⟨by simp, by simp, by simp⟩
  · exact Kind.noConfusion hk
  · exact ⟨by simp, by simp, by simp⟩
  · exact Kind.noConfusion hk
  · exact Kind.noConfusion hk

theorem isClean_iff_derivation_difference : Readable difference ∧
    ((Program.ofTokens difference).isClean = true ↔ Nonempty (Derivation difference)) ∧
      ∀ d : Derivation difference, (∀ d' : Derivation difference, d' = d) ∧
        (Program.ofTokens difference).node = d.tree ∧
          (Program.ofTokens difference).node.Complete :=
  ⟨readable_difference, isClean_iff_derivation difference readable_difference⟩

end Grammar

end MonkeyLang
