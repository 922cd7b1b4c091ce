import MonkeyLang.Node

/-!
Trees compared without their tokens. `sameTree_iff` says that the comparison is equality of the
trees that are left when every token is forgotten.
-/

namespace MonkeyLang

def Identifier.bare (id : Identifier) : Identifier := ⟨.unset, id.name⟩

namespace Node

mutual

/-- A tree with every token forgotten. -/
def bare : Node → Node
  | absent => absent
  | identifier id => identifier id.bare
  | integer _ value => integer .unset value
  | string _ value => string .unset value
  | boolean _ value => boolean .unset value
  | array _ elements => array .unset (bareEach elements)
  | hash _ pairs => hash .unset (barePairs pairs)
  | unary _ op right => unary .unset op (bare right)
  | binary _ left op right => binary .unset (bare left) op (bare right)
  | index _ left i => index .unset (bare left) (bare i)
  | ifElse _ condition consequence alternative =>
    ifElse .unset (bare condition) (bare consequence) (bare alternative)
  | function _ parameters body => function .unset (parameters.map (·.bare)) (bare body)
  | call _ callee arguments => call .unset (bare callee) (bareEach arguments)
  | letStmt _ name value => letStmt .unset (name.map (·.bare)) (bare value)
  | returnStmt _ value => returnStmt .unset (bare value)
  | exprStmt _ expression => exprStmt .unset (bare expression)
  | block _ statements => block .unset (bareEach statements)
  | program _ statements => program .unset (bareEach statements)

def bareEach : List Node → List Node
  | [] => []
  | n :: ns => bare n :: bareEach ns

def barePairs : List (Node × Node) → List (Node × Node)
  | [] => []
  | (key, value) :: pairs => (bare key, bare value) :: barePairs pairs

end

theorem bareEach_eq_map (ns : List Node) : bareEach ns = ns.map bare := by
  induction ns with
  | nil => simp [bareEach]
  | cons n ns ih => simp [bareEach, ih]

mutual

/-- The trees agree in everything but their tokens. -/
def sameTree : Node → Node → Bool
  | absent, absent => true
  | identifier a, identifier b => a.name == b.name
  | integer _ v, integer _ w => v == w
  | string _ v, string _ w => v == w
  | boolean _ v, boolean _ w => v == w
  | array _ xs, array _ ys => sameEach xs ys
  | hash _ xs, hash _ ys => samePairs xs ys
  | unary _ op r, unary _ op' r' => op == op' && sameTree r r'
  | binary _ l op r, binary _ l' op' r' => sameTree l l' && op == op' && sameTree r r'
  | index _ l i, index _ l' i' => sameTree l l' && sameTree i i'
  | ifElse _ c t e, ifElse _ c' t' e' => sameTree c c' && sameTree t t' && sameTree e e'
  | function _ ps b, function _ ps' b' => ps.map (·.name) == ps'.map (·.name) && sameTree b b'
  | call _ f xs, call _ f' ys => sameTree f f' && sameEach xs ys
  | letStmt _ x v, letStmt _ x' v' => x.map (·.name) == x'.map (·.name) && sameTree v v'
  | returnStmt _ v, returnStmt _ v' => sameTree v v'
  | exprStmt _ v, exprStmt _ v' => sameTree v v'
  | block _ xs, block _ ys => sameEach xs ys
  | program _ xs, program _ ys => sameEach xs ys
  | _, _ => false

def sameEach : List Node → List Node → Bool
  | [], [] => true
  | x :: xs, y :: ys => sameTree x y && sameEach xs ys
  | _, _ => false

def samePairs : List (Node × Node) → List (Node × Node) → Bool
  | [], [] => true
  | (k, v) :: xs, (k', v') :: ys => sameTree k k' && sameTree v v' && samePairs xs ys
  | _, _ => false

end

private theorem map_bare_eq_iff (ps qs : List Identifier) :
    ps.map (·.bare) = qs.map (·.bare) ↔ ps.map (·.name) = qs.map (·.name) := by
  induction ps generalizing qs with
  | nil => cases qs <;> simp
  | cons p ps ih => cases qs <;> simp_all [Identifier.bare]

mutual

/-- The comparison is equality of the trees with their tokens forgotten. -/
theorem sameTree_iff : ∀ a b : Node, sameTree a b = true ↔ bare a = bare b
  | absent, b => by cases b <;> simp [sameTree, bare]
  | identifier a, b => by cases b <;> simp [sameTree, bare, Identifier.bare]
  | integer _ _, b => by cases b <;> simp [sameTree, bare]
  | string _ _, b => by cases b <;> simp [sameTree, bare]
  | boolean _ _, b => by cases b <;> simp [sameTree, bare]
  | array _ xs, b => by cases b <;> simp [sameTree, bare, sameEach_iff xs]
  | hash _ xs, b => by cases b <;> simp [sameTree, bare, samePairs_iff xs]
  | unary _ _ r, b => by cases b <;> simp [sameTree, bare, sameTree_iff r]
  | binary _ l _ r, b => by
    cases b <;> simp [sameTree, bare, sameTree_iff l, sameTree_iff r, and_assoc]
  | index _ l i, b => by cases b <;> simp [sameTree, bare, sameTree_iff l, sameTree_iff i]
  | ifElse _ c t e, b => by
    cases b <;> simp [sameTree, bare, sameTree_iff c, sameTree_iff t, sameTree_iff e, and_assoc]
  | function _ ps body, b => by
    cases b <;> simp [sameTree, bare, sameTree_iff body, map_bare_eq_iff]
  | call _ f xs, b => by cases b <;> simp [sameTree, bare, sameTree_iff f, sameEach_iff xs]
  | letStmt _ x v, b => by
    cases b with
    | letStmt _ y w => cases x <;> cases y <;> simp [sameTree, bare, sameTree_iff v, Identifier.bare]
    | _ => simp [sameTree, bare]
  | returnStmt _ v, b => by cases b <;> simp [sameTree, bare, sameTree_iff v]
  | exprStmt _ v, b => by cases b <;> simp [sameTree, bare, sameTree_iff v]
  | block _ xs, b => by cases b <;> simp [sameTree, bare, sameEach_iff xs]
  | program _ xs, b => by cases b <;> simp [sameTree, bare, sameEach_iff xs]

private theorem sameEach_iff :
    ∀ xs ys : List Node, sameEach xs ys = true ↔ bareEach xs = bareEach ys
  | [], ys => by cases ys <;> simp [sameEach, bareEach]
  | x :: xs, ys => by cases ys <;> simp [sameEach, bareEach, sameTree_iff x, sameEach_iff xs]

private theorem samePairs_iff :
    ∀ xs ys : List (Node × Node), samePairs xs ys = true ↔ barePairs xs = barePairs ys
  | [], ys => by cases ys <;> simp [samePairs, barePairs]
  | (k, v) :: xs, ys => by
    cases ys <;>
      simp [samePairs, barePairs, sameTree_iff k, sameTree_iff v, samePairs_iff xs]

end

end Node

end MonkeyLang
