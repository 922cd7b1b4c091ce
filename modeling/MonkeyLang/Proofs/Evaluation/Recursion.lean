import MonkeyLang.Proofs.Evaluation.Nesting
import MonkeyLang.Proofs.Evaluation.Scoping

/-!
Recursion. A tree is evaluated by evaluating its children, and the only evaluations that lead out of
a tree are those of the bodies of functions. So where there is no function, neither in the tree nor
in what can be reached from its environment, evaluations are not nested deeper than the tree is
high, and every evaluation comes to an end.
-/

namespace MonkeyLang

namespace Node

mutual

/-- The height of a tree: the number of nodes on the longest way down from its root, where an absent
child counts as a leaf. -/
def height : Node → Nat
  | absent | identifier _ | integer _ _ | string _ _ | boolean _ _ => 1
  | array _ elements => heightEach elements + 1
  | hash _ pairs => heightPairs pairs + 1
  | unary _ _ right => right.height + 1
  | binary _ left _ right => max left.height right.height + 1
  | index _ left i => max left.height i.height + 1
  | ifElse _ condition consequence alternative =>
    max condition.height (max consequence.height alternative.height) + 1
  | function _ _ body => body.height + 1
  | call _ callee arguments => max callee.height (heightEach arguments) + 1
  | letStmt _ _ value => value.height + 1
  | returnStmt _ value => value.height + 1
  | exprStmt _ expression => expression.height + 1
  | block _ statements | program _ statements => heightEach statements + 1

def heightEach : List Node → Nat
  | [] => 0
  | n :: ns => max n.height (heightEach ns)

def heightPairs : List (Node × Node) → Nat
  | [] => 0
  | (key, value) :: pairs => max (max key.height value.height) (heightPairs pairs)

end

theorem height_pos (n : Node) : 0 < n.height := by
  cases n <;> simp [height]

theorem height_le_heightEach {ns : List Node} {e : Node} (he : e ∈ ns) :
    e.height ≤ heightEach ns := by
  induction ns with
  | nil => cases he
  | cons n ns ih =>
    rw [heightEach]
    rcases List.mem_cons.mp he with rfl | he
    · omega
    · have := ih he
      omega

theorem height_le_heightPairs {pairs : List (Node × Node)} {pair : Node × Node}
    (h : pair ∈ pairs) :
    pair.1.height ≤ heightPairs pairs ∧ pair.2.height ≤ heightPairs pairs := by
  induction pairs with
  | nil => cases h
  | cons p pairs ih =>
    rw [heightPairs]
    rcases List.mem_cons.mp h with rfl | h
    · omega
    · have := ih h
      omega

/-- A node is higher than what is evaluated of its children. -/
theorem height_lt_of_operand {n e : Node} (he : e ∈ n.operands) : e.height < n.height := by
  cases n with
  | array _ elements => exact Nat.lt_succ_of_le (height_le_heightEach he)
  | hash _ pairs =>
    obtain ⟨pair, hpair, he⟩ := List.mem_flatMap.mp he
    have := height_le_heightPairs hpair
    rw [height]
    rcases List.mem_pair.mp he with rfl | rfl <;> omega
  | call _ callee arguments =>
    rw [height]
    rcases List.mem_cons.mp he with rfl | he
    · omega
    · have := height_le_heightEach he
      omega
  | unary _ _ _ | letStmt _ _ _ | returnStmt _ _ | ifElse _ _ _ _ =>
    obtain rfl := List.mem_singleton.mp he
    rw [height]
    omega
  | binary _ _ _ _ | index _ _ _ =>
    rw [height]
    rcases List.mem_pair.mp he with rfl | rfl <;> omega
  | _ => cases he

theorem height_lt_of_tail {n e : Node} (he : e ∈ n.tails) : e.height < n.height := by
  cases n with
  | block _ statements | program _ statements => exact Nat.lt_succ_of_le (height_le_heightEach he)
  | exprStmt _ expression =>
    obtain rfl := List.mem_singleton.mp he
    rw [height]
    omega
  | ifElse _ _ consequence alternative =>
    rw [height]
    rcases List.mem_pair.mp he with rfl | rfl <;> omega
  | _ => cases he

/-- What all nodes of a tree have, the nodes have that stand anywhere in it. -/
theorem Below.each {P : Node → Prop} {n m : Node} {above : List Node} (h : n.Below above m)
    (hn : n.Each P) : m.Each P := by
  induction h with
  | root => exact hn
  | part _ he ih => exact he.elim ih.operand ih.tail
  | body _ ih => exact ih.body

end Node

namespace Run

variable {r q : Run} {n : Node} {depth : Nat}

/-- Where the tree has no function literals, no function is ever handled. -/
theorem Lexical.not_handles (h : r.Lexical n depth) (hn : n.Each (·.isFunction = false))
    (hq : q.Within r) (id : Nat) (ps : List Identifier) (b : Node) (i : FrameId) :
    ¬q.Handles (.function id ps b i) := by
  intro hhandles
  obtain ⟨above, hmade⟩ := h.made q hq id ps b i hhandles
  obtain ⟨⟨token, hbelow⟩, -⟩ := h.functions id ps b i above hmade
  cases (hbelow.each hn).here rfl

/-- Where no function is handled, the evaluation of a tree nests at most as deep as the tree is
high, and a call asks for nothing. -/
theorem nesting_le_of_not_handles (hr : r.Recorded)
    (hnone : ∀ q : Run, q.Within r → ∀ id ps b i, ¬q.Handles (.function id ps b i))
    (hq : q.Within r) :
    (∀ env m, q.task = .node env m → q.nesting ≤ m.height) ∧
      ∀ f args, q.task = .call f args → q.nesting ≤ 1 := by
  induction q using part_induction with
  | h q ih =>
    have hparts : ∀ p ∈ q.parts, ∃ vs s, q.task.Demands vs s p := fun p hp => by
      obtain ⟨-, vs, s, -, hdemands⟩ := (hr.within hq).demands Store.rises_printed hp
      exact ⟨vs, s, hdemands⟩
    constructor
    · intro env m htask
      obtain ⟨k, hk⟩ : ∃ k, m.height = k + 1 := ⟨m.height - 1, by have := m.height_pos; omega⟩
      rw [hk, nesting_le_iff]
      intro p hp
      obtain ⟨hnode, hcall⟩ := ih p hp ((Within.part hp .self).trans hq)
      obtain ⟨vs, s, hdemands⟩ := hparts p hp
      cases hdemands with
      | part ht he hpt _ =>
        cases htask.symm.trans ht
        have hlt := he.elim Node.height_lt_of_operand Node.height_lt_of_tail
        have := hnode _ _ hpt
        omega
      | @call _ token callee arguments _ _ ht _ _ hpt _ =>
        -- a call is nested as deep as a leaf, and the callee is a child
        cases htask.symm.trans ht
        have hlt := Node.height_lt_of_operand (n := .call token callee arguments) List.mem_cons_self
        have := callee.height_pos
        have := hcall _ _ hpt
        omega
      | body ht _ _ => cases htask.symm.trans ht
    · intro f args htask
      rw [nesting_le_iff]
      intro p hp
      obtain ⟨vs, s, hdemands⟩ := hparts p hp
      cases hdemands with
      | part ht _ _ _ | call ht _ _ _ _ => cases htask.symm.trans ht
      | @body id ps b i args ht _ _ =>
        have hgiven : Value.function id ps b i ∈ q.task.given := by
          rw [ht]
          exact List.mem_cons_self
        exact absurd (.inl ⟨_, hgiven, .self⟩) (hnone q hq id ps b i)

end Run

/-- Only functions recurse. A tree without function literals, in an environment from which no
function can be reached, with just the primitives known everywhere, is evaluated without any
function arising, with no more evaluations nested than the tree is high; so where that many may be
nested, the evaluation completes. -/
theorem eval_without_functions (limit : Nat) (env : FrameId) (n : Node) (s : Store)
    (hfunctions : s.functions = Store.empty.functions) (henv : env < s.nextFrame)
    (hfree : ∀ id ps b i, ¬s.Holds env (.function id ps b i))
    (hn : ∀ m ∈ n.walk, m.isFunction = false) :
    ((Task.node env n).record limit s).outcome = eval limit env n s ∧
      (∀ q : Run, q.Within ((Task.node env n).record limit s) →
        ∀ id ps b i, ¬q.Handles (.function id ps b i)) ∧
      ((Task.node env n).record limit s).nesting ≤ n.height ∧
      (n.height ≤ limit → ∃ v s', eval limit env n s = .ok v s') := by
  have hr := Run.recorded_record limit (.node env n) s
  have houtcome := Task.record_outcome limit (.node env n) s
  have hroot :=
    Run.begins_of_holds (r := (Task.node env n).record limit s) rfl hfunctions henv hfree
  have hnone := fun q hq => (hr.lexical hroot rfl).not_handles hn (q := q) hq
  have hnesting := (Run.nesting_le_of_not_handles hr hnone .self).1 env n rfl
  refine ⟨houtcome, hnone, hnesting, fun hlimit => ?_⟩
  rcases hout : eval limit env n s with ⟨v, s'⟩ | ⟨e, s'⟩
  · exact ⟨v, s', rfl⟩
  · have hcut := (Task.cut_iff_lt_nesting limit (.node env n) s).mp ⟨e, s', houtcome.trans hout⟩
    omega

/-- The tree of `let a = [1, puts, ]; a[1](len("x"), let = 2)`, which has an absent element and a
statement without a name as an argument. -/
def listedPrimitive : Node :=
  .program .unset [.letStmt .unset (some ⟨.unset, "a"⟩)
      (.array .unset [.integer .unset 1, .identifier ⟨.unset, "puts"⟩, .absent]),
    .exprStmt .unset (.call .unset
      (.index .unset (.identifier ⟨.unset, "a"⟩) (.integer .unset 1))
      [.call .unset (.identifier ⟨.unset, "len"⟩) [.string .unset "x"],
        .letStmt .unset none (.integer .unset 2)])]

/-- The tree is five nodes high, and that many evaluations are nested. -/
theorem eval_without_functions_listedPrimitive :
    (∀ m ∈ listedPrimitive.walk, m.isFunction = false) ∧ listedPrimitive.height = 5 ∧
      ((Task.node 0 listedPrimitive).record 5 Store.empty.addGlobal).nesting ≤ 5 ∧
      (∃ v s', eval 5 0 listedPrimitive Store.empty.addGlobal = .ok v s') ∧
      ((eval 5 0 listedPrimitive).leaves Store.empty.addGlobal).printed = ["1", "null"] := by
  have hn : ∀ m ∈ listedPrimitive.walk, m.isFunction = false := by decide
  obtain ⟨-, -, hnesting, hcompletes⟩ := eval_without_functions 5 0 listedPrimitive
    Store.empty.addGlobal rfl (by decide) (fun _ _ _ _ => Store.not_holds_fresh 0 _) hn
  exact ⟨hn, by decide, hnesting, hcompletes (by decide), by decide +kernel⟩

end MonkeyLang
