import Mathlib.Algebra.Group.Int.Defs
import MonkeyLang.Proofs.Arithmetic.Text
import MonkeyLang.Proofs.Evaluation
import MonkeyLang.Proofs.Grammar.Acceptance
import MonkeyLang.Proofs.Word
import MonkeyLang.Session

/-!
What arithmetic programs answer: the value of the machine, or that they divide by zero.
-/

namespace MonkeyLang

namespace Arith

/-! ## Reading -/

/-- A text that writes a tree is read without a report, as a program of the one expression. -/
theorem Writes.read {a : Arith} {text : String} (h : Writes 3 a text.toList) :
    (Program.ofSource text).isClean = true ∧
      ∃ (t t' : Token) (e : Node), (Program.ofSource text).node = .program t [.exprStmt t' e] ∧
        Denotes e a := by
  obtain ⟨d, pos, last, hv, -, hd, hscan⟩ := h.scan .start .start [] nofun
  rw [List.append_nil, Lexer.scan] at hscan
  let derivation : Grammar.Derivation (tokenize text) :=
    { body := .next (.expression d none) .done
      last := ⟨.eof last, rfl⟩
      valid := ⟨hv, fun _ => rfl, trivial⟩
      covers := by
        rw [tokenize, hscan]
        simp [Grammar.Statements.tokens, Grammar.Statement.tokens, Grammar.ending] }
  obtain ⟨hclean, htree⟩ := derivation.read
  exact ⟨hclean, _, _, d.tree, htree, hd⟩

end Arith

/-! ## Evaluation -/

namespace Arith

/-- The result of a tree that is evaluated in a store: its value, or an error if it divides by
zero. Nothing else is changed. -/
structure Ends (a : Arith) (s : Store) (r : EStateM.Result TooDeep Store Value) : Prop where
  fails : a.DividesByZero → r = .ok (.error s.nextId .divisionByZero) s.takeId.2
  value : ¬a.DividesByZero → r = .ok (.integer a.word.toInt) s

theorem ends_literal {n : Nat} (h : n ≤ 2 ^ 63 - 1) (s : Store) :
    (literal n).Ends s (.ok (.integer n) s) where
  fails hzero := absurd hzero (dividesByZero_literal n)
  value _ := by
    have hrange : Word.InRange n := by
      simp only [Word.InRange, Word.least, Word.greatest]
      omega
    have hword : (literal n).word.toInt = n :=
      (BitVec.toInt_ofNat n).trans (Word.wrap_eq_self hrange)
    rw [hword]

theorem Ends.negate {a : Arith} {x : Eval Value} {s : Store} (h : a.Ends s (x s)) :
    (negate a).Ends s
      (Eval.unlessError x (fun v => Eval.ofExcept (v.unary "-")) s) where
  fails hzero := by
    rw [dividesByZero_negate] at hzero
    rw [Eval.unlessError_stop (h.fails hzero) rfl]
  value hzero := by
    rw [dividesByZero_negate] at hzero
    rw [Eval.unlessError_next (h.value hzero) rfl]
    exact congrArg (fun n => EStateM.Result.ok (Value.integer n) s) (wrap_neg a.word)

theorem Ends.binary {op : Op} {a b : Arith} {x y : Eval Value} {s : Store} (ha : a.Ends s (x s))
    (hb : b.Ends s (y s)) : (binary op a b).Ends s
      (Eval.unlessError x (fun l => Eval.unlessError y fun r =>
        Eval.ofExcept (l.binary op.char.toString r)) s) where
  fails hzero := by
    by_cases hza : a.DividesByZero
    · rw [Eval.unlessError_stop (ha.fails hza) rfl]
    · rw [Eval.unlessError_next (ha.value hza) rfl]
      by_cases hzb : b.DividesByZero
      · rw [Eval.unlessError_stop (hb.fails hzb) rfl]
      · rw [Eval.unlessError_next (hb.value hzb) rfl]
        have hop : op = .divide ∧ b.word = 0 := by
          rcases (dividesByZero_binary op a b).mp hzero with h | h | h
          · exact absurd h hza
          · exact absurd h hzb
          · exact h
        show Eval.ofExcept (Value.binaryInteger _ _ _) s = _
        rw [binaryInteger_eq, if_pos hop]
        rfl
  value hzero := by
    rw [dividesByZero_binary, not_or, not_or] at hzero
    obtain ⟨hza, hzb, hop⟩ := hzero
    rw [Eval.unlessError_next (ha.value hza) rfl, Eval.unlessError_next (hb.value hzb) rfl]
    show Eval.ofExcept (Value.binaryInteger _ _ _) s = _
    rw [binaryInteger_eq, if_neg hop]
    rfl

/-- A tree that may be nested deep enough comes to its value. -/
theorem Denotes.ends {e : Node} {a : Arith} (h : Denotes e a) {limit : Nat}
    (hlimit : a.depth ≤ limit) (env : FrameId) (s : Store) : a.Ends s (eval limit env e s) := by
  induction h generalizing limit with
  | literal hle =>
    obtain ⟨limit, rfl⟩ := Nat.exists_eq_add_of_le' (show 1 ≤ limit from hlimit)
    exact ends_literal hle s
  | @negate t e a _ ih =>
    obtain ⟨limit, rfl⟩ := Nat.exists_eq_add_of_le'
      (show 1 ≤ limit from Nat.le_trans (Nat.le_add_left 1 a.depth) hlimit)
    exact (ih (Nat.le_of_succ_le_succ hlimit)).negate
  | @binary t l r op a b _ _ iha ihb =>
    obtain ⟨limit, rfl⟩ := Nat.exists_eq_add_of_le'
      (show 1 ≤ limit from Nat.le_trans (Nat.le_add_left 1 _) hlimit)
    have hmax := Nat.le_of_succ_le_succ hlimit
    exact (iha (Nat.le_trans (Nat.le_max_left _ _) hmax)).binary
      (ihb (Nat.le_trans (Nat.le_max_right _ _) hmax))

/-- What a program says of a tree: that it divides by zero, or its value. -/
structure Answers (a : Arith) (v : Value) : Prop where
  fails : (∃ id failure, v = .error id failure ∧ failure.message = "division by zero") ↔
    a.DividesByZero
  value : ¬a.DividesByZero → v = .integer a.word.toInt

theorem Ends.answers {a : Arith} {s : Store} {r : EStateM.Result TooDeep Store Value}
    (h : a.Ends s r) : ∃ v s', r = .ok v s' ∧ v.isReturned = false ∧ a.Answers v := by
  by_cases hzero : a.DividesByZero
  · refine ⟨_, _, h.fails hzero, rfl, ⟨fun _ => hzero, fun _ => ⟨_, _, rfl, rfl⟩⟩, ?_⟩
    exact fun hvalue => absurd hzero hvalue
  · refine ⟨_, _, h.value hzero, rfl, ⟨?_, fun h => absurd h hzero⟩, fun _ => rfl⟩
    rintro ⟨id, failure, heq, -⟩
    cases heq

end Arith

open Arith in
/-- Integer expressions mean 64-bit machine arithmetic. A text that writes an arithmetic tree is
clean, and the program answers that it divides by zero exactly if some division in the tree has a
divisor of value zero, and else the value of the tree; without divisions this is the exact value,
wrapped once. It takes two more levels of nesting than the tree has. -/
theorem run_arithmetic (a : Arith) (text : String) (h : Writes 3 a text.toList) :
    (Program.ofSource text).isClean = true ∧
      (∀ (limit : Nat) (env : FrameId) (s : Store), a.depth + 2 ≤ limit →
        ∃ v s', eval limit env (Program.ofSource text).node s = .ok v s' ∧ a.Answers v) ∧
      (∀ s : Session, a.depth + 2 ≤ Session.nestingLimit →
        ∃ v, (s.run text).1 = .value v ∧ a.Answers v) ∧
      (¬a.Divides → a.word.toInt = Word.wrap a.exact) := by
  obtain ⟨hclean, t, t', e, htree, hdenotes⟩ := h.read
  have heval : ∀ (limit : Nat) (env : FrameId) (s : Store), a.depth + 2 ≤ limit →
      ∃ v s', eval limit env (Program.ofSource text).node s = .ok v s' ∧ a.Answers v := by
    intro limit env s hlimit
    obtain ⟨limit, rfl⟩ := Nat.exists_eq_add_of_le' (Nat.le_trans (Nat.le_add_left 2 _) hlimit)
    obtain ⟨v, s', heq, hret, hanswers⟩ :=
      (hdenotes.ends (Nat.le_of_add_le_add_right hlimit) env s).answers
    refine ⟨v, s', ?_, hanswers⟩
    have hstatement : eval (limit + 1) env (.exprStmt t' e) s = .ok v s' := heq
    rw [htree]
    show EStateM.map Value.unwrap (Eval.sequence (eval (limit + 1) env) .null _) s = _
    simp only [EStateM.map, Eval.sequence_singleton hstatement, Value.unwrap_of_isReturned hret]
  refine ⟨hclean, heval, fun s hlimit => ?_, toInt_word_eq_wrap⟩
  obtain ⟨v, s', heq, hanswers⟩ := heval Session.nestingLimit s.env s.store hlimit
  exact ⟨v, congrArg Prod.fst (Session.runWithin_of_eval hclean heq), hanswers⟩

/-- The tree of `-9223372036854775807 - (2)`. -/
def underflow : Arith := .binary .minus (.negate (.literal 9223372036854775807)) (.literal 2)

theorem writes_underflow : Arith.Writes 3 underflow "-9223372036854775807 - (2)".toList := by
  have hgreatest : Arith.Writes 6 (.literal 9223372036854775807) "9223372036854775807".toList :=
    .literal ⟨by simp, by simp, by simp⟩ (by decide) (by decide)
  have htwo : Arith.Writes 6 (.literal 2) ['2'] :=
    .literal ⟨by simp, by simp, by simp⟩ (by decide) (by decide)
  have hleft : Arith.Writes 3 (.negate (.literal 9223372036854775807))
      "-9223372036854775807 ".toList :=
    .blankBehind (c := ' ') rfl (.tighter (by decide) (.negate (.tighter (by decide) hgreatest)))
  have hright : Arith.Writes 4 (.literal 2) " (2)".toList :=
    .blankBefore rfl (.tighter (by decide) (.group (.tighter (by decide) htwo)))
  exact @Arith.Writes.binary .minus _ _ _ _ hleft hright

/-- The difference is below the least word and wraps around to the greatest. -/
theorem run_arithmetic_underflow :
    Arith.Writes 3 underflow "-9223372036854775807 - (2)".toList ∧
      underflow.word.toInt = 2 ^ 63 - 1 ∧
      (Program.ofSource "-9223372036854775807 - (2)").isClean = true ∧
      (∀ (limit : Nat) (env : FrameId) (s : Store), underflow.depth + 2 ≤ limit →
        ∃ v s', eval limit env (Program.ofSource "-9223372036854775807 - (2)").node s = .ok v s' ∧
          underflow.Answers v) ∧
      (∀ s : Session, underflow.depth + 2 ≤ Session.nestingLimit →
        ∃ v, (s.run "-9223372036854775807 - (2)").1 = .value v ∧ underflow.Answers v) ∧
      (¬underflow.Divides → underflow.word.toInt = Word.wrap underflow.exact) :=
  ⟨writes_underflow, by decide, run_arithmetic underflow _ writes_underflow⟩

end MonkeyLang
