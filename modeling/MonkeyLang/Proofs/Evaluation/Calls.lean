import MonkeyLang.Eval
import MonkeyLang.Proofs.Store.Extension

/-!
Calls by position. A function takes any number of arguments: those beyond its parameters are
dropped, and a parameter without an argument is null. Where parameters share a name, the last of
them decides, also when it is one without an argument.
-/

namespace MonkeyLang

namespace Bindings

def positions (ps : List Identifier) (x : String) : Set Nat :=
  {i | (ps.map (·.name))[i]? = some x}

/-- These are the bindings of a call. Each name among the parameters is bound once, to the argument
at the last position where the name stands, and to null if there is no argument at that position. -/
structure ByPosition (ps : List Identifier) (args : List Value) (bs : Bindings) : Prop where
  names : bs.map Prod.fst = (ps.map (·.name)).eraseDups
  distinct : (bs.map Prod.fst).Nodup
  value : ∀ x v, bs.value? x = some v ↔
    ∃ i, IsGreatest (positions ps x) i ∧ args.getD i .null = v

variable {ps : List Identifier} {args : List Value}

theorem value?_ofArguments {x : String} {v : Value} :
    (ofArguments ps args []).value? x = some v ↔
      ∃ i, IsGreatest (positions ps x) i ∧ args.getD i .null = v := by
  rw [ofArguments_eq_tabulate, value?_tabulate, lastWith_iff_getElem?, map_fst_zip_fitted]
  refine exists_congr fun i => and_congr_right fun ⟨hi, _⟩ => ?_
  -- A fitted argument stands at each position of a parameter.
  have hlt : i < ps.length := by
    obtain ⟨hlt, -⟩ := List.getElem?_eq_some_iff.mp hi
    rwa [List.length_map] at hlt
  rw [List.getElem?_zip_eq_some, getElem?_fitted args hlt]
  exact ⟨fun h => Option.some.inj h.2, fun h => ⟨hi, congrArg some h⟩⟩

theorem byPosition_ofArguments (ps : List Identifier) (args : List Value) :
    ByPosition ps args (ofArguments ps args []) where
  names := by rw [ofArguments_eq_tabulate, map_key_tabulate, map_fst_zip_fitted]
  distinct := by
    rw [ofArguments_eq_tabulate]
    exact nodup_map_key_tabulate Prod.fst _
  value _ _ := value?_ofArguments

/-- A name that two parameters share is null if the second has no argument. -/
example (a b : Token) (v w : Value) :
    ofArguments [⟨a, "a"⟩, ⟨b, "b"⟩, ⟨a, "a"⟩] [v, w] [] = [("a", .null), ("b", w)] := rfl

theorem ofArguments_fitted (ps : List Identifier) (args : List Value) :
    ofArguments ps (fitted ps.length args) [] = ofArguments ps args [] := by
  rw [ofArguments_eq_tabulate, ofArguments_eq_tabulate, fitted_of_length (length_fitted _ _)]

end Bindings

open Bindings

/-- The store in which the body of a function runs that was made in the frame `home` and is called
with these arguments: there is one more frame, just inside `home`, and all else is as it was. -/
structure Store.Enters (s : Store) (home : FrameId) (ps : List Identifier) (args : List Value)
    (s' : Store) : Prop where
  keeps : s.Extends s'
  nextId : s'.nextId = s.nextId
  nextFrame : s'.nextFrame = s.nextFrame + 1
  enclosing : (s'.frame s.nextFrame).enclosing = s.scope home
  bindings : ByPosition ps args (s'.frame s.nextFrame).bindings

theorem Store.enters_addInner (s : Store) (home : FrameId) (ps : List Identifier)
    (args : List Value) : s.Enters home ps args (s.addInner home (ofArguments ps args [])) := by
  have hframe := s.frame_addInner home s.nextFrame (ofArguments ps args [])
  rw [if_pos rfl] at hframe
  constructor
  case keeps => exact .addInner s home _
  case nextId => rfl
  case nextFrame => exact s.nextFrame_addInner home _
  case enclosing => rw [hframe]
  case bindings =>
    rw [hframe]
    exact byPosition_ofArguments ps args

theorem apply_fitted (limit id : Nat) (ps : List Identifier) (body : Node) (home : FrameId)
    (args : List Value) :
    apply limit (.function id ps body home) (fitted ps.length args) =
      apply limit (.function id ps body home) args := by
  cases limit with
  | zero => rfl
  | succ limit => simp only [apply, ofArguments_fitted]

/-- Calls are permissive by position. The body of the function runs in a new frame just inside the
one that the function was made in. That frame binds the names of the parameters and no others, each
to the argument at the last position of the name, or to null if there is none. So a call has the
outcome and leaves the store that it does with the arguments cut off, or filled up with null, to
the number of the parameters. -/
theorem apply_by_position (limit id : Nat) (ps : List Identifier) (body : Node) (home : FrameId)
    (args : List Value) (s : Store) :
    (∃ s', s.Enters home ps args s' ∧
      apply (limit + 1) (.function id ps body home) args s =
        (Value.unwrap <$> eval limit s.nextFrame body) s') ∧
      apply limit (.function id ps body home) args s =
        apply limit (.function id ps body home) (fitted ps.length args) s :=
  ⟨⟨_, s.enters_addInner home ps args, rfl⟩, by rw [apply_fitted]⟩

end MonkeyLang
