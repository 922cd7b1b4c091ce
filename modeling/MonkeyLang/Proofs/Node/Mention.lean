import MonkeyLang.Proofs.Node
import MonkeyLang.Proofs.Placement

/-!
The names that a tree mentions: those that it looks up, binds or has as parameters. They are the
same wherever the tree stands.
-/

namespace MonkeyLang

namespace Node

theorem children_unplaced (n : Node) : n.unplaced.children = n.children.map unplaced := by
  have hfilter (ns : List Node) : (ns.map unplaced).filter (!·.isAbsent) =
      (ns.filter (!·.isAbsent)).map unplaced := by
    rw [List.filter_map]
    congr 2
    funext n
    simp
  cases n with
  | hash t pairs =>
    simp only [unplaced, children, unplacedPairs_eq_map, ← hfilter]
    congr 1
    simp [List.flatMap_map, List.map_flatMap]
  | letStmt t name value => cases name <;> simp [unplaced, children, ← hfilter]
  | function t ps b => simp [unplaced, children, ← hfilter, Function.comp_def]
  | _ => simp [unplaced, children, unplacedEach_eq_map, ← hfilter]

theorem walk_unplaced (n : Node) : n.unplaced.walk = n.walk.map unplaced := by
  induction n using child_induction with
  | h n ih =>
    cases hn : n.isAbsent with
    | true =>
      cases n with
      | absent => rfl
      | _ => cases hn
    | false =>
      rw [walk_eq_cons hn, walk_eq_cons (by rwa [isAbsent_unplaced]), children_unplaced,
        List.map_cons, List.flatMap_map, List.map_flatMap]
      congr 1
      exact List.flatMap_congr ih

/-- No identifier in the tree has the name: none is looked up, bound or a parameter. -/
def Avoids (name : String) (n : Node) : Prop :=
  n.Each fun m => ∀ id, m = .identifier id → id.name ≠ name

theorem avoids_iff {name : String} {n : Node} : n.Avoids name ↔
    (n.walk.all fun | .identifier id => id.name != name | _ => true) = true := by
  rw [List.all_eq_true]
  refine forall₂_congr fun m _ => ?_
  cases m <;> simp

instance (name : String) (n : Node) : Decidable (n.Avoids name) :=
  decidable_of_iff _ avoids_iff.symm

namespace Avoids

variable {name : String}

theorem identifier {id : Identifier} (h : (Node.identifier id).Avoids name) : id.name ≠ name :=
  h.here rfl id rfl

theorem of_child {n : Node} {id : Identifier} (h : n.Avoids name)
    (hid : .identifier id ∈ n.children) : id.name ≠ name :=
  identifier (h.child hid)

theorem binding {t : Token} {id : Identifier} {value : Node}
    (h : (Node.letStmt t (some id) value).Avoids name) : id.name ≠ name :=
  h.of_child (by simp [children, isAbsent])

theorem parameters {t : Token} {ps : List Identifier} {body : Node}
    (h : (Node.function t ps body).Avoids name) : ∀ p ∈ ps, p.name ≠ name :=
  fun p hp => h.of_child (by simp [children, isAbsent, hp])

theorem of_unplaced {n m : Node} (h : n.Avoids name) (hm : m.unplaced = n.unplaced) :
    m.Avoids name := by
  rintro k hk id rfl
  have hmem : Node.unplaced (.identifier id) ∈ n.walk.map unplaced := by
    rw [← walk_unplaced, ← hm, walk_unplaced]
    exact List.mem_map_of_mem hk
  obtain ⟨k, hk, heq⟩ := List.mem_map.mp hmem
  cases k with
  | identifier id' =>
    have hname := congrArg Identifier.name (Node.identifier.inj heq)
    exact fun hid => h _ hk id' rfl (hname.trans hid)
  | _ => simp [unplaced] at heq

end Avoids

end Node

end MonkeyLang
