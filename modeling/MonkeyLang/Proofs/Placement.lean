import MonkeyLang.Program

/-!
Trees without the places of their tokens. Kinds and literals of the tokens stay, so that a tree has
the same source form without its places as with them; and whoever compares two trees without their
tokens need not care for places either.
-/

namespace MonkeyLang

def Token.unplaced (t : Token) : Token := ⟨t.kind, t.literal, ⟨0, 0⟩⟩

namespace Token

@[simp] theorem kind_unplaced (t : Token) : t.unplaced.kind = t.kind := rfl

@[simp] theorem literal_unplaced (t : Token) : t.unplaced.literal = t.literal := rfl

@[simp] theorem unplaced_eof (pos : Position) : (eof pos).unplaced = eof ⟨0, 0⟩ := rfl

end Token

def Identifier.unplaced (id : Identifier) : Identifier := ⟨id.token.unplaced, id.name⟩

@[simp] theorem Identifier.name_unplaced (id : Identifier) : id.unplaced.name = id.name := rfl

namespace Node

mutual

/-- A tree without the places of its tokens. -/
def unplaced : Node → Node
  | absent => absent
  | identifier id => identifier id.unplaced
  | integer t value => integer t.unplaced value
  | string t value => string t.unplaced value
  | boolean t value => boolean t.unplaced value
  | array t elements => array t.unplaced (unplacedEach elements)
  | hash t pairs => hash t.unplaced (unplacedPairs pairs)
  | unary t op right => unary t.unplaced op (unplaced right)
  | binary t left op right => binary t.unplaced (unplaced left) op (unplaced right)
  | index t left i => index t.unplaced (unplaced left) (unplaced i)
  | ifElse t condition consequence alternative =>
    ifElse t.unplaced (unplaced condition) (unplaced consequence) (unplaced alternative)
  | function t parameters body =>
    function t.unplaced (parameters.map (·.unplaced)) (unplaced body)
  | call t callee arguments => call t.unplaced (unplaced callee) (unplacedEach arguments)
  | letStmt t name value => letStmt t.unplaced (name.map (·.unplaced)) (unplaced value)
  | returnStmt t value => returnStmt t.unplaced (unplaced value)
  | exprStmt t expression => exprStmt t.unplaced (unplaced expression)
  | block t statements => block t.unplaced (unplacedEach statements)
  | program t statements => program t.unplaced (unplacedEach statements)

def unplacedEach : List Node → List Node
  | [] => []
  | n :: ns => unplaced n :: unplacedEach ns

def unplacedPairs : List (Node × Node) → List (Node × Node)
  | [] => []
  | (key, value) :: pairs => (unplaced key, unplaced value) :: unplacedPairs pairs

end

theorem unplacedEach_eq_map (ns : List Node) : unplacedEach ns = ns.map unplaced := by
  induction ns with
  | nil => rfl
  | cons n ns ih => rw [unplacedEach, ih, List.map_cons]

theorem unplacedPairs_eq_map (pairs : List (Node × Node)) :
    unplacedPairs pairs = pairs.map fun p => (p.1.unplaced, p.2.unplaced) := by
  induction pairs with
  | nil => rfl
  | cons p pairs ih => rw [unplacedPairs, ih, List.map_cons]

@[simp] theorem isAbsent_unplaced (n : Node) : n.unplaced.isAbsent = n.isAbsent := by
  cases n <;> simp [unplaced, isAbsent]

mutual

/-- The source form does not depend on places. -/
theorem render_unplaced : ∀ n : Node, n.unplaced.render = n.render
  | absent => rfl
  | identifier _ | integer _ _ | string _ _ | boolean _ _ => by simp [unplaced, render]
  | array _ elements => by simp [unplaced, render, renderEach_unplaced elements]
  | hash _ pairs => by simp [unplaced, render, renderPairs_unplaced pairs]
  | unary _ _ right => by simp [unplaced, render, render_unplaced right]
  | binary _ left _ right => by simp [unplaced, render, render_unplaced left, render_unplaced right]
  | index _ left i => by simp [unplaced, render, render_unplaced left, render_unplaced i]
  | ifElse _ condition consequence alternative => by
    have hcondition := render_unplaced condition
    have hconsequence := render_unplaced consequence
    have halternative := render_unplaced alternative
    cases alternative <;> simp_all [unplaced, render]
  | function _ parameters body => by
    have hnames : (parameters.map (·.unplaced)).map (·.name) = parameters.map (·.name) := by
      simp [Function.comp_def]
    rw [unplaced, render, render, render_unplaced body, hnames]
    rfl
  | call _ callee arguments => by
    simp [unplaced, render, render_unplaced callee, renderEach_unplaced arguments]
  | letStmt _ name value => by cases name <;> simp [unplaced, render, render_unplaced value]
  | returnStmt _ value => by simp [unplaced, render, render_unplaced value]
  | exprStmt _ expression => by simp [unplaced, render, render_unplaced expression]
  | block _ statements => by simp [unplaced, render, renderEach_unplaced statements]
  | program _ statements => by simp [unplaced, render, renderEach_unplaced statements]

theorem renderEach_unplaced : ∀ ns : List Node, renderEach (unplacedEach ns) = renderEach ns
  | [] => rfl
  | n :: ns => by simp [unplacedEach, renderEach, render_unplaced n, renderEach_unplaced ns]

private theorem renderPairs_unplaced :
    ∀ pairs : List (Node × Node), renderPairs (unplacedPairs pairs) = renderPairs pairs
  | [] => rfl
  | (key, value) :: pairs => by
    simp [unplacedPairs, renderPairs, render_unplaced key, render_unplaced value,
      renderPairs_unplaced pairs]

end

private theorem bare_unplaced_identifiers (ids : List Identifier) :
    (ids.map (·.unplaced)).map (·.bare) = ids.map (·.bare) := by
  simp [Identifier.bare, Function.comp_def]

mutual

/-- Without its tokens, a tree has no places either. -/
theorem bare_unplaced : ∀ n : Node, n.unplaced.bare = n.bare
  | absent => rfl
  | identifier _ | integer _ _ | string _ _ | boolean _ _ => by
    simp [unplaced, bare, Identifier.bare]
  | array _ elements => by simp [unplaced, bare, bareEach_unplaced elements]
  | hash _ pairs => by simp [unplaced, bare, barePairs_unplaced pairs]
  | unary _ _ right => by simp [unplaced, bare, bare_unplaced right]
  | binary _ left _ right => by simp [unplaced, bare, bare_unplaced left, bare_unplaced right]
  | index _ left i => by simp [unplaced, bare, bare_unplaced left, bare_unplaced i]
  | ifElse _ condition consequence alternative => by
    simp [unplaced, bare, bare_unplaced condition, bare_unplaced consequence,
      bare_unplaced alternative]
  | function _ parameters body => by
    rw [unplaced, bare, bare, bare_unplaced body, bare_unplaced_identifiers]
  | call _ callee arguments => by
    simp [unplaced, bare, bare_unplaced callee, bareEach_unplaced arguments]
  | letStmt _ name value => by
    cases name <;> simp [unplaced, bare, Identifier.bare, bare_unplaced value]
  | returnStmt _ value => by simp [unplaced, bare, bare_unplaced value]
  | exprStmt _ expression => by simp [unplaced, bare, bare_unplaced expression]
  | block _ statements => by simp [unplaced, bare, bareEach_unplaced statements]
  | program _ statements => by simp [unplaced, bare, bareEach_unplaced statements]

theorem bareEach_unplaced : ∀ ns : List Node, bareEach (unplacedEach ns) = bareEach ns
  | [] => rfl
  | n :: ns => by simp [unplacedEach, bareEach, bare_unplaced n, bareEach_unplaced ns]

private theorem barePairs_unplaced :
    ∀ pairs : List (Node × Node), barePairs (unplacedPairs pairs) = barePairs pairs
  | [] => rfl
  | (key, value) :: pairs => by
    simp [unplacedPairs, barePairs, bare_unplaced key, bare_unplaced value,
      barePairs_unplaced pairs]

end

end Node

end MonkeyLang
