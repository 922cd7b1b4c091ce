import MonkeyLang.Proofs.Node
import MonkeyLang.Proofs.Reading.Tree

/-!
Trees in which a `return` leaves statements only. A conditional is an expression, and one in which a
`return` stands could be an operand. In a structured tree it is a statement of its own.
-/

namespace MonkeyLang.Node

def isConditional : Node → Bool
  | ifElse _ _ _ _ => true
  | _ => false

def isExprStmt : Node → Bool
  | exprStmt _ _ => true
  | _ => false

/-- The operands of the node are expressions, and a conditional that returns is no child of it,
unless it is the whole of an expression statement. -/
structure Orderly (n : Node) : Prop where
  operands : ∀ e ∈ n.operands, e.isExpression = true
  conditionals : ∀ e ∈ n.children, e.isConditional = true → e.returns = true → n.isExprStmt = true

instance (n : Node) : Decidable n.Orderly :=
  decidable_of_iff ((∀ e ∈ n.operands, e.isExpression = true) ∧
    ∀ e ∈ n.children, e.isConditional = true → e.returns = true → n.isExprStmt = true)
    ⟨fun h => ⟨h.1, h.2⟩, fun h => ⟨h.1, h.2⟩⟩

def Structured (n : Node) : Prop := n.Each Orderly

instance (n : Node) : Decidable n.Structured := inferInstanceAs (Decidable (∀ m ∈ n.walk, _))

def Quiet (n : Node) : Prop := ∀ e ∈ n.operands, e.returns = false

theorem isAbsent_of_returns {n : Node} (h : n.returns = true) : n.isAbsent = false := by
  cases n with
  | absent => cases h
  | _ => rfl

/-- An expression that returns and is no conditional has an operand that returns. -/
theorem exists_operand_of_returns {n : Node} (hn : n.isExpression = true)
    (hc : n.isConditional = false) (h : n.returns = true) :
    ∃ e ∈ n.operands, e.returns = true := by
  cases n with
  | array t elements => simpa [returns, returnsEach_eq_any, operands] using h
  | hash t pairs =>
    rw [returns, returnsPairs_eq_any] at h
    obtain ⟨pair, hpair, h⟩ := List.any_eq_true.mp h
    obtain ⟨hkey, hvalue⟩ := mem_operands_hash (t := t) hpair
    rcases Bool.or_eq_true_iff.mp h with h | h
    · exact ⟨pair.1, hkey, h⟩
    · exact ⟨pair.2, hvalue, h⟩
  | unary t op right => exact ⟨right, List.mem_singleton_self _, h⟩
  | binary t left op right => simpa [returns, operands] using h
  | index t left i => simpa [returns, operands] using h
  | call t callee arguments => simpa [returns, returnsEach_eq_any, operands] using h
  | ifElse _ _ _ _ => cases hc
  | letStmt _ _ _ | returnStmt _ _ | exprStmt _ _ | block _ _ | program _ _ => cases hn
  | _ => cases h

theorem isExprStmt_of_operand {n e : Node} (he : e ∈ n.operands) : n.isExprStmt = false := by
  cases n with
  | exprStmt _ _ => cases he
  | _ => rfl

theorem Structured.quiet {n : Node} (h : n.Structured) : n.Quiet := by
  induction n using child_induction with
  | h n ih =>
    intro e he
    by_contra hreturns
    rw [Bool.not_eq_false] at hreturns
    have hchild := mem_children_of_operand he (isAbsent_of_returns hreturns)
    have hn : n.Orderly := h.here (by
      cases n with
      | absent => cases he
      | _ => rfl)
    cases hc : e.isConditional with
    | true =>
      have hstmt := hn.conditionals e hchild hc hreturns
      rw [isExprStmt_of_operand he] at hstmt
      cases hstmt
    | false =>
      obtain ⟨e', he', hreturns'⟩ := exists_operand_of_returns (hn.operands e he) hc hreturns
      rw [ih e hchild (h.child hchild) e' he'] at hreturns'
      cases hreturns'

/-- No operand in a structured tree returns. -/
theorem Structured.each_quiet {n : Node} (h : n.Structured) : n.Each Quiet :=
  fun m hm => Structured.quiet (h.of_mem m hm)

/-- What is read from tokens is structured if each conditional in it that returns is the whole of an
expression statement: its operands are expressions anyway. -/
theorem structured_ofTokens {tokens : List Token}
    (h : (Program.ofTokens tokens).node.Each fun n =>
      ∀ e ∈ n.children, e.isConditional = true → e.returns = true → n.isExprStmt = true) :
    (Program.ofTokens tokens).node.Structured := by
  have hoperands : (Program.ofTokens tokens).node.Each fun n =>
      ∀ e ∈ n.operands, e.isExpression = true :=
    Phrase.each_of_tokens (C := fun _ => True)
      ⟨fun _ _ => trivial, fun _ _ _ _ _ _ => nofun, fun _ _ hn => hn⟩ trivial
  exact fun n hn => ⟨hoperands n hn, h n hn⟩

end MonkeyLang.Node
