import MonkeyLang.Proofs.Evaluation

/-!
Computations that ask for an evaluation and go on with its value. They end at once if it is cut off
or yields an error, and what they ask for afterwards stands behind it in the record.
-/

namespace MonkeyLang

open Traced

namespace Traced

section unlessError

variable {m : Traced Value} {next : Value → Traced Value} {s s' : Store} {runs : List Run}
  {v : Value} {e : TooDeep}

theorem unlessError_cut (hm : m s = (runs, .error e s')) :
    unlessError m next s = (runs, .error e s') :=
  bind_cut _ hm

theorem unlessError_stop (hm : m s = (runs, .ok v s')) (hv : v.isError = true) :
    unlessError m next s = (runs, .ok v s') := by
  rw [unlessError, bind_next _ hm, if_pos hv]
  exact congrArg (·, _) (List.append_nil runs)

theorem unlessError_next (hm : m s = (runs, .ok v s')) (hv : v.isError = false) :
    unlessError m next s = (runs ++ (next v s').1, (next v s').2) := by
  rw [unlessError, bind_next _ hm, if_neg (by simp [hv])]

theorem unlessError_pure (m : Traced Value) : unlessError m pure = m := by
  funext s
  rcases hm : m s with ⟨runs, v | e⟩
  · cases hv : v.isError with
    | true => exact unlessError_stop hm hv
    | false =>
      rw [unlessError_next hm hv]
      exact congrArg (·, _) (List.append_nil runs)
  · exact unlessError_cut hm

/-- A part that is written down as `r` cuts the whole off, or it is the whole, as its value is an
error, or the whole goes on with its value. -/
theorem unlessError_cases {r : Run} (hm : m s = ([r], r.outcome)) :
    (∃ e s', r.outcome = .error e s' ∧ unlessError m next s = ([r], .error e s')) ∨
      (∃ v s', r.outcome = .ok v s' ∧ v.isError = true ∧
        unlessError m next s = ([r], .ok v s')) ∨
      ∃ v s', r.outcome = .ok v s' ∧ v.isError = false ∧
        unlessError m next s = (r :: (next v s').1, (next v s').2) := by
  rcases hout : r.outcome with ⟨v, s'⟩ | ⟨e, s'⟩
  · rw [hout] at hm
    cases hv : v.isError with
    | true => exact .inr (.inl ⟨v, s', rfl, hv, unlessError_stop hm hv⟩)
    | false => exact .inr (.inr ⟨v, s', rfl, hv, unlessError_next hm hv⟩)
  · rw [hout] at hm
    exact .inl ⟨e, s', rfl, unlessError_cut hm⟩

theorem mem_unlessError {r : Run} (hm : m s = ([r], r.outcome)) : r ∈ (unlessError m next s).1 := by
  rcases unlessError_cases hm with ⟨_, _, -, heq⟩ | ⟨_, _, -, -, heq⟩ | ⟨_, _, -, -, heq⟩
  all_goals
    rw [heq]
    exact List.mem_cons_self

/-- A computation that asks for nothing adds nothing to what was asked for before. -/
theorem unlessError_lift_fst (m : Traced Value) (x : Value → Eval Value) (s : Store) :
    (unlessError m (fun v => lift (x v)) s).1 = (m s).1 := by
  rcases hm : m s with ⟨runs, ⟨v, s'⟩ | ⟨e, s'⟩⟩
  · cases hv : v.isError with
    | true => rw [unlessError_stop hm hv]
    | false =>
      rw [unlessError_next hm hv]
      exact List.append_nil runs
  · rw [unlessError_cut hm]

end unlessError

/-- A sequence stops at an error as any evaluation does, and besides at a return marker. -/
theorem sequence_cons (ev : Node → Traced Value) (last : Value) (n : Node) (ns : List Node) :
    sequence ev last (n :: ns) =
      unlessError (ev n) fun v => if v.isReturned then pure v else sequence ev v ns := by
  show (ev n >>= fun v => if v.isError || v.isReturned then pure v else sequence ev v ns) =
    (ev n >>= fun v => if v.isError then pure v else _)
  congr 1
  funext v
  cases v.isError <;> simp

theorem map_unlessError (m : Traced Value) (next : Value → Traced Value) :
    Value.unwrap <$> unlessError m next = unlessError m fun v => Value.unwrap <$> next v := by
  funext s
  rcases hm : m s with ⟨runs, v | e⟩
  · cases hv : v.isError with
    | true =>
      rw [unlessError_stop hm hv, map_next _ (unlessError_stop hm hv), Value.unwrap_of_isError hv]
    | false =>
      rw [unlessError_next hm hv]
      rcases hnext : next v _ with ⟨more, w | e⟩
      · rw [map_next _ ((unlessError_next hm hv).trans (by rw [hnext])), map_next _ hnext]
      · rw [map_cut _ ((unlessError_next hm hv).trans (by rw [hnext])), map_cut _ hnext]
  · rw [unlessError_cut hm, map_cut _ (unlessError_cut hm)]

end Traced

end MonkeyLang
