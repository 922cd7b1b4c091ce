import Mathlib.Data.List.Basic
import MonkeyLang.Node

/-!
The places of a tree. A child is an operand if its value is used by the node, and a tail if its
value becomes that of the node; the body of a function is neither, as it is evaluated elsewhere.
-/

namespace MonkeyLang.Node

/-- The children whose values a node uses. -/
def operands : Node → List Node
  | array _ elements => elements
  | hash _ pairs => pairs.flatMap fun (key, value) => [key, value]
  | unary _ _ right => [right]
  | binary _ left _ right => [left, right]
  | index _ left i => [left, i]
  | ifElse _ condition _ _ => [condition]
  | call _ callee arguments => callee :: arguments
  | letStmt _ _ value | returnStmt _ value => [value]
  | _ => []

theorem mem_operands_hash {t : Token} {pairs : List (Node × Node)} {pair : Node × Node}
    (h : pair ∈ pairs) :
    pair.1 ∈ (hash t pairs).operands ∧ pair.2 ∈ (hash t pairs).operands :=
  ⟨List.mem_flatMap.mpr ⟨pair, h, List.mem_cons_self⟩,
    List.mem_flatMap.mpr ⟨pair, h, List.mem_cons_of_mem _ (List.mem_singleton_self _)⟩⟩

/-- The children whose value becomes that of a node. -/
def tails : Node → List Node
  | ifElse _ _ consequence alternative => [consequence, alternative]
  | exprStmt _ expression => [expression]
  | block _ statements | program _ statements => statements
  | _ => []

/-- A node that can stand in the place of an expression, an absent one included. -/
def isExpression : Node → Bool
  | letStmt _ _ _ | returnStmt _ _ | exprStmt _ _ | block _ _ | program _ _ => false
  | _ => true

mutual

/-- A `return` stands in the tree whose value would go beyond it: it is not in a function or program
of its own. -/
def returns : Node → Bool
  | returnStmt _ _ => true
  | absent | identifier _ | integer _ _ | string _ _ | boolean _ _ | function _ _ _ | program _ _ =>
    false
  | array _ elements => returnsEach elements
  | hash _ pairs => returnsPairs pairs
  | unary _ _ right => right.returns
  | binary _ left _ right => left.returns || right.returns
  | index _ left i => left.returns || i.returns
  | ifElse _ condition consequence alternative =>
    condition.returns || consequence.returns || alternative.returns
  | call _ callee arguments => callee.returns || returnsEach arguments
  | letStmt _ _ value => value.returns
  | exprStmt _ expression => expression.returns
  | block _ statements => returnsEach statements

def returnsEach : List Node → Bool
  | [] => false
  | n :: ns => n.returns || returnsEach ns

def returnsPairs : List (Node × Node) → Bool
  | [] => false
  | (key, value) :: pairs => key.returns || value.returns || returnsPairs pairs

end

theorem returnsEach_eq_any (ns : List Node) : returnsEach ns = ns.any returns := by
  induction ns with
  | nil => rfl
  | cons n ns ih => rw [returnsEach, ih, List.any_cons]

theorem returnsPairs_eq_any (pairs : List (Node × Node)) :
    returnsPairs pairs = pairs.any fun p => p.1.returns || p.2.returns := by
  induction pairs with
  | nil => rfl
  | cons p pairs ih => rw [returnsPairs, ih, List.any_cons]

/-- What returns from a tail returns from the node, unless that is a program. -/
theorem returns_of_tail {n e : Node} (he : e ∈ n.tails) (h : e.returns = true)
    (hn : ∀ t ss, n ≠ .program t ss) : n.returns = true := by
  cases n with
  | program t ss => exact absurd rfl (hn t ss)
  | block t ss =>
    rw [returns, returnsEach_eq_any]
    exact List.any_eq_true.mpr ⟨e, he, h⟩
  | exprStmt t expression =>
    obtain rfl := List.mem_singleton.mp he
    exact h
  | ifElse t condition consequence alternative =>
    rcases List.mem_pair.mp he with rfl | rfl <;> simp [returns, h]
  | _ => cases he

/-! ## All nodes of a tree -/

theorem walkEach_eq_flatMap (ns : List Node) : walkEach ns = ns.flatMap walk := by
  induction ns with
  | nil => rfl
  | cons n ns ih => rw [walkEach, ih, List.flatMap_cons]

theorem walkPairs_eq_flatMap (pairs : List (Node × Node)) :
    walkPairs pairs = pairs.flatMap fun p => walk p.1 ++ walk p.2 := by
  induction pairs with
  | nil => rfl
  | cons p pairs ih => rw [walkPairs, ih, List.flatMap_cons]

theorem flatMap_walk_filter (ns : List Node) :
    (ns.filter (!·.isAbsent)).flatMap walk = ns.flatMap walk := by
  induction ns with
  | nil => rfl
  | cons n ns ih =>
    cases n with
    | absent => exact ih
    | _ => exact congrArg (walk _ ++ ·) ih

theorem flatMap_walk_identifiers (ids : List Identifier) :
    (ids.map identifier).flatMap walk = ids.map identifier := by
  induction ids with
  | nil => rfl
  | cons id ids ih => rw [List.map_cons, List.flatMap_cons, ih, walk, List.singleton_append]

/-- The walk begins at the node and goes on with those of the children. -/
theorem walk_eq_cons {n : Node} (h : n.isAbsent = false) :
    n.walk = n :: n.children.flatMap walk := by
  unfold children
  rw [flatMap_walk_filter]
  cases n with
  | absent => cases h
  | hash t pairs => simp [walk, walkPairs_eq_flatMap, List.flatMap_assoc]
  | letStmt t name value => cases name <;> simp [walk]
  | _ => simp [walk, walkEach_eq_flatMap, flatMap_walk_identifiers]

theorem mem_children_of_operand {n e : Node} (he : e ∈ n.operands) (h : e.isAbsent = false) :
    e ∈ n.children := by
  cases n <;> simp_all [operands, children]

theorem mem_children_of_tail {n e : Node} (he : e ∈ n.tails) (h : e.isAbsent = false) :
    e ∈ n.children := by
  cases n <;> simp_all [tails, children]

/-- A child is an operand, a tail, the body of a function or the name of something. -/
theorem mem_children {n e : Node} (he : e ∈ n.children) : e ∈ n.operands ∨ e ∈ n.tails ∨
    (∃ t ps, n = .function t ps e) ∨ ∃ id, e = .identifier id := by
  replace he := (List.mem_filter.mp he).1
  cases n with
  | function t ps b =>
    rcases List.mem_append.mp he with he | he
    · obtain ⟨id, -, rfl⟩ := List.mem_map.mp he
      exact .inr (.inr (.inr ⟨id, rfl⟩))
    · rw [List.mem_singleton.mp he]
      exact .inr (.inr (.inl ⟨t, ps, rfl⟩))
  | letStmt t name value =>
    rcases List.mem_append.mp he with he | he
    · obtain ⟨id, -, rfl⟩ := Option.map_eq_some_iff.mp (Option.mem_toList.mp he)
      exact .inr (.inr (.inr ⟨id, rfl⟩))
    · exact .inl he
  | ifElse t condition consequence alternative =>
    rcases List.mem_cons.mp he with rfl | he
    · exact .inl (List.mem_singleton_self e)
    · exact .inr (.inl he)
  | exprStmt t _ | block t _ | program t _ => exact .inr (.inl he)
  | _ => exact .inl he

theorem length_walk_of_child {n e : Node} (he : e ∈ n.children) :
    e.walk.length < n.walk.length := by
  have hn : n.isAbsent = false := by
    cases n with
    | absent => cases he
    | _ => rfl
  rw [walk_eq_cons hn, List.length_cons]
  exact Nat.lt_succ_of_le
    (List.sublist_flatten_of_mem (List.mem_map_of_mem he)).length_le

/-- Induction from the children of a node to the node. -/
theorem child_induction {P : Node → Prop} (h : ∀ n : Node, (∀ e ∈ n.children, P e) → P n)
    (n : Node) : P n := by
  induction hk : n.walk.length using Nat.strongRecOn generalizing n with
  | ind k ih =>
    subst hk
    exact h n fun e he => ih e.walk.length (length_walk_of_child he) e rfl

def Each (N : Node → Prop) (n : Node) : Prop := ∀ m ∈ n.walk, N m

namespace Each

variable {N : Node → Prop} {n e : Node}

theorem absent : Each N .absent := nofun

theorem here (h : n.Each N) (hn : n.isAbsent = false) : N n :=
  h n (by rw [walk_eq_cons hn]; exact List.mem_cons_self)

theorem child (h : n.Each N) (he : e ∈ n.children) : e.Each N := by
  intro m hm
  have hn : n.isAbsent = false := by
    cases n with
    | absent => cases he
    | _ => rfl
  refine h m ?_
  rw [walk_eq_cons hn]
  exact List.mem_cons_of_mem _ (List.mem_flatMap.mpr ⟨e, he, hm⟩)

theorem of_isAbsent (h : n.isAbsent = true) : n.Each N := by
  cases n with
  | absent => exact absent
  | _ => cases h

theorem of_children (h : N n) (hc : ∀ e ∈ n.children, e.Each N) : n.Each N := by
  cases hn : n.isAbsent with
  | true => exact of_isAbsent hn
  | false =>
    intro m hm
    rw [walk_eq_cons hn] at hm
    rcases List.mem_cons.mp hm with rfl | hm
    · exact h
    · obtain ⟨e, he, hm⟩ := List.mem_flatMap.mp hm
      exact hc e he m hm

/-- What all nodes have, all nodes of a subtree have. -/
theorem of_mem (h : n.Each N) : ∀ m ∈ n.walk, m.Each N := by
  induction n using child_induction with
  | h n ih =>
    intro m hm
    cases hn : n.isAbsent with
    | true =>
      cases n with
      | absent => cases hm
      | _ => cases hn
    | false =>
      rw [walk_eq_cons hn] at hm
      rcases List.mem_cons.mp hm with rfl | hm
      · exact h
      · obtain ⟨e, he, hm⟩ := List.mem_flatMap.mp hm
        exact ih e he (h.child he) m hm

theorem operand (h : n.Each N) (he : e ∈ n.operands) : e.Each N := by
  cases ha : e.isAbsent with
  | true => exact of_isAbsent ha
  | false => exact h.child (mem_children_of_operand he ha)

theorem tail (h : n.Each N) (he : e ∈ n.tails) : e.Each N := by
  cases ha : e.isAbsent with
  | true => exact of_isAbsent ha
  | false => exact h.child (mem_children_of_tail he ha)

theorem body {t : Token} {ps : List Identifier} {b : Node} (h : (Node.function t ps b).Each N) :
    b.Each N := by
  cases ha : b.isAbsent with
  | true => exact of_isAbsent ha
  | false => exact h.child (by simp [children, ha])

end Each

end MonkeyLang.Node
