import Mathlib.Data.List.Basic
import MonkeyLang.Eval
import MonkeyLang.Proofs.Store

/-!
What values hold, and what is made of them. Operators and primitives give truth values, words and
strings, or what is in their operands already; only `rest` and `push` make something that holds
values.
-/

namespace MonkeyLang

namespace Value

/-- `v` holds `x` directly: as an element, as the value of an entry, or as the result that a
function of the host gives. -/
inductive Stores : Value → Value → Prop
  | element {id : Nat} {vs : List Value} {x : Value} : x ∈ vs → Stores (.array id vs) x
  | entry {id : Nat} {es : List (Key × Value)} {e : Key × Value} : e ∈ es → Stores (.hash id es) e.2
  | result {id : Nat} {name : String} {x : Value} : Stores (.registered id name x) x

/-- A value that occurs in another at any depth, also as what a return marker holds. The frame
of a function is not in the function. -/
inductive Part (u : Value) : Value → Prop
  | self : Part u u
  | stored {v x : Value} : v.Stores x → Part u x → Part u v
  | marked {id : Nat} {x : Value} : Part u x → Part u (.returned id x)

theorem Part.trans {u v w : Value} (h : u.Part v) (h' : v.Part w) : u.Part w := by
  induction h' with
  | self => exact h
  | stored hx _ ih => exact .stored hx ih
  | marked _ ih => exact .marked ih

/-! ## Operators -/

theorem unary_cases {op : String} {v w : Value} (h : v.unary op = .ok w) :
    (∃ b, w = .boolean b) ∨ ∃ n, w = .integer (Word.wrap n) := by
  unfold unary at h
  split at h
  · cases h
    exact .inl ⟨_, rfl⟩
  · cases h
    exact .inr ⟨_, rfl⟩
  · cases h

theorem binaryInteger_cases {op : String} {m n : Int} {w : Value}
    (h : binaryInteger op m n = .ok w) :
    (∃ b, w = .boolean b) ∨ ∃ k, w = .integer (Word.wrap k) := by
  unfold binaryInteger at h
  split at h
  case h_4 =>
    split at h
    · cases h
    · cases h
      exact .inr ⟨_, rfl⟩
  all_goals cases h
  all_goals first | exact .inl ⟨_, rfl⟩ | exact .inr ⟨_, rfl⟩

theorem binary_cases {op : String} {l r w : Value} (h : l.binary op r = .ok w) :
    ((∃ b, w = .boolean b) ∨ ∃ n, w = .integer (Word.wrap n)) ∨ ∃ s, w = .string s := by
  unfold binary at h
  split at h
  · exact .inl (binaryInteger_cases h)
  · split at h
    · cases h
      exact .inr ⟨_, rfl⟩
    · cases h
  · split at h
    · cases h
      exact .inl (.inl ⟨_, rfl⟩)
    · split at h
      · cases h
        exact .inl (.inl ⟨_, rfl⟩)
      · split at h
        · cases h
        · cases h

/-- What an index finds is in the array or hash. -/
theorem index_cases {l i w : Value} (h : l.index i = .ok w) : w = .null ∨ l.Stores w := by
  unfold index at h
  split at h
  · next id vs n =>
    cases h
    unfold elementAt
    split
    · exact .inl rfl
    · rw [List.getD_eq_getElem?_getD]
      cases hx : vs[n.toNat]? with
      | none => exact .inl rfl
      | some x => exact .inr (.element (List.mem_of_getElem? hx))
  · split at h
    · next id es _ key _ =>
      cases h
      cases hslot : slotValue? key es with
      | none => exact .inl rfl
      | some x =>
        obtain ⟨e, he, rfl⟩ := Option.map_eq_some_iff.mp hslot
        exact .inr (.entry (withKey?_mem he))
    · cases h
  · cases h

end Value

/-! ## Primitives -/

namespace Primitive

open Eval

/-- How many arguments a primitive takes, but for `puts`, which takes any. -/
def arity : Primitive → Nat
  | push => 2
  | _ => 1

/-- The number of arguments is what a primitive looks at first. -/
theorem call_of_length {p : Primitive} {args : List Value} (hp : p ≠ .puts)
    (h : args.length ≠ p.arity) : p.call args = fail (.arity args.length p.arity) := by
  unfold call
  split
  all_goals simp_all [arity]

/-- The failures of a primitive. The number of the arguments comes before their types. -/
inductive Refuses : Primitive → List Value → Failure → Prop
  | arity {p : Primitive} {args : List Value} : p ≠ .puts → args.length ≠ p.arity →
      Refuses p args (.arity args.length p.arity)
  | length {v : Value} : v.tag ≠ .string → v.tag ≠ .array → Refuses .len [v] (.noLength v.tag)
  | array {p : Primitive} {v : Value} {args : List Value} : p ≠ .puts → p ≠ .len →
      (v :: args).length = p.arity → v.tag ≠ .array → Refuses p (v :: args) (.notAnArray p v.tag)

inductive Gives (args : List Value) (s : Store) :
    Primitive → EStateM.Result TooDeep Store Value → Prop
  | printed {lines : List String} : Gives args s .puts (.ok .null (s.print lines))
  | stringLength {x : String} : args = [.string x] → Gives args s .len (.ok (.integer x.length) s)
  | arrayLength {id : Nat} {xs : List Value} :
      args = [.array id xs] → Gives args s .len (.ok (.integer xs.length) s)
  | found {p : Primitive} {v : Value} :
      p ≠ .len → v = .null ∨ (∃ a ∈ args, a.Stores v) → Gives args s p (.ok v s)
  | made {p : Primitive} {xs : List Value} :
      (∀ x ∈ xs, (∃ a ∈ args, a.Stores x) ∨ p = .push ∧ x ∈ args) →
      Gives args s p (.ok (.array s.nextId xs) s.takeId.2)
  | failed {p : Primitive} {f : Failure} :
      p.Refuses args f → Gives args s p (.ok (.error s.nextId f) s.takeId.2)

theorem gives_call (p : Primitive) (args : List Value) (s : Store) :
    p.Gives args s (p.call args s) := by
  by_cases hputs : p = .puts
  · subst hputs
    exact .printed
  by_cases hlength : args.length = p.arity
  · cases p with
    | puts => exact absurd rfl hputs
    | push =>
      obtain ⟨v, w, rfl⟩ := List.length_eq_two.mp hlength
      cases v with
      | array id xs =>
        refine .made fun x hx => ?_
        rcases List.mem_append.mp hx with hx | hx
        · exact .inl ⟨_, List.mem_cons_self, .element hx⟩
        · obtain rfl := List.mem_singleton.mp hx
          exact .inr ⟨rfl, List.mem_cons_of_mem _ List.mem_cons_self⟩
      | _ => exact .failed (.array nofun nofun rfl nofun)
    | len =>
      obtain ⟨v, rfl⟩ := List.length_eq_one_iff.mp hlength
      cases v with
      | string _ => exact .stringLength rfl
      | array _ _ => exact .arrayLength rfl
      | _ => exact .failed (.length nofun nofun)
    | first =>
      obtain ⟨v, rfl⟩ := List.length_eq_one_iff.mp hlength
      cases v with
      | array id xs =>
        refine .found nofun ?_
        cases xs with
        | nil => exact .inl rfl
        | cons x xs => exact .inr ⟨_, List.mem_singleton_self _, .element List.mem_cons_self⟩
      | _ => exact .failed (.array nofun nofun rfl nofun)
    | last =>
      obtain ⟨v, rfl⟩ := List.length_eq_one_iff.mp hlength
      cases v with
      | array id xs =>
        refine .found nofun ?_
        cases xs with
        | nil => exact .inl rfl
        | cons x xs =>
          rw [List.getLastD_cons]
          exact .inr ⟨_, List.mem_singleton_self _, .element List.getLastD_mem_cons⟩
      | _ => exact .failed (.array nofun nofun rfl nofun)
    | rest =>
      obtain ⟨v, rfl⟩ := List.length_eq_one_iff.mp hlength
      cases v with
      | array id xs =>
        cases xs with
        | nil => exact .found nofun (.inl rfl)
        | cons x xs =>
          refine .made fun y hy => .inl ⟨_, List.mem_singleton_self _, ?_⟩
          exact .element (List.mem_cons_of_mem x hy)
      | _ => exact .failed (.array nofun nofun rfl nofun)
  · rw [call_of_length hputs hlength]
    exact .failed (.arity hputs hlength)

end Primitive

end MonkeyLang
