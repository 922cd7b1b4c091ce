import Mathlib.Data.List.Basic
import MonkeyLang.Proofs.Value
import MonkeyLang.Proofs.View

/-!
Evaluation under other numbers. In a store that shows another one under a view, the same source is
evaluated to what is seen of the value, and the store that is left shows the other one again: which
numbers the next identities and frames get is then no part of what an evaluation means.
-/

namespace MonkeyLang

open Eval

namespace View

/-- Under the view, the first store is to be found in the second; and all that was printed there is
what was printed here last, behind `before`. -/
structure Follows (view : View) (before : List String) (s u : Store) : Prop
    extends view.Shows s u where
  printed : s.printed = before ++ u.printed

variable {α β γ δ : Type} {view : View} {before : List String} {s u : Store}

/-- All that was printed before is left out of the store that shows the other one. -/
theorem Shows.follows (h : view.Shows s u) :
    view.Follows s.printed s { u with printed := [] } :=
  ⟨⟨h.frame, h.functions, h.nextFrame, h.nextId⟩, (List.append_nil _).symm⟩

/-- The two computations ended alike: with values, where `f` gives the second from the first, or
cut off. -/
inductive Mirrors (view : View) (before : List String) (f : α → β) :
    EStateM.Result TooDeep Store α → EStateM.Result TooDeep Store β → Prop
  | value {a : α} {s u : Store} : view.Follows before s u →
      Mirrors view before f (.ok a s) (.ok (f a) u)
  | cut {s u : Store} : view.Follows before s u → Mirrors view before f (.error {} s) (.error {} u)

/-- If a run that completed and another run are both seen as one and the same run, then the other
one completed too, with what is seen as the same value. -/
theorem Mirrors.exists_value {v : Value} {s' : Store} {view' : View} {before' : List String}
    {result ideal : EStateM.Result TooDeep Store Value}
    (hone : view.Mirrors before (·.seen view) (.ok v s') ideal)
    (hother : view'.Mirrors before' (·.seen view') result ideal) :
    ∃ v' t', result = .ok v' t' ∧ v'.seen view' = v.seen view ∧
      ∃ u, view.Follows before s' u ∧ view'.Follows before' t' u := by
  obtain ⟨u, rfl, hu⟩ : ∃ u, ideal = .ok (v.seen view) u ∧ view.Follows before s' u := by
    cases hone with
    | value hu => exact ⟨_, rfl, hu⟩
  cases result with
  | error e t' => cases hother
  | ok v' t' =>
    generalize v.seen view = w at hother
    cases hother with
    | value hu' => exact ⟨v', t', rfl, rfl, u, hu, hu'⟩

/-- Wherever the one store is to be found in the other, the computations end alike. -/
def Simulates (view : View) (f : α → β) (x : Eval α) (x' : Eval β) : Prop :=
  ∀ before s u, view.Follows before s u → view.Mirrors before f (x s) (x' u)

namespace Simulates

section rules

variable {f : α → β} {g : γ → δ}

theorem pure (a : α) : view.Simulates f (pure a) (pure (f a)) := fun _ _ _ h => .value h

theorem throw : view.Simulates f (throw {}) (throw {}) := fun _ _ _ h => .cut h

theorem bind {x : Eval α} {x' : Eval β} {next : α → Eval γ} {next' : β → Eval δ}
    (hx : view.Simulates f x x') (hnext : ∀ a, view.Simulates g (next a) (next' (f a))) :
    view.Simulates g (x >>= next) (x' >>= next') := by
  intro before s u h
  have hresult := hx before s u h
  show view.Mirrors before g (EStateM.bind x next s) (EStateM.bind x' next' u)
  unfold EStateM.bind
  revert hresult
  generalize x s = a, x' u = b
  intro hresult
  cases hresult with
  | value h => exact hnext _ _ _ _ h
  | cut h => exact .cut h

theorem map {x : Eval α} {x' : Eval β} {k : α → γ} {k' : β → δ} (hx : view.Simulates f x x')
    (hk : ∀ a, k' (f a) = g (k a)) : view.Simulates g (k <$> x) (k' <$> x') := by
  rw [map_eq_pure_bind, map_eq_pure_bind]
  refine hx.bind fun a => ?_
  rw [hk]
  exact .pure _

theorem modify {k k' : Store → Store} (hk : ∀ before s u, view.Follows before s u →
    view.Follows before (k s) (k' u)) :
    view.Simulates (fun _ => ⟨⟩ : PUnit → PUnit) (modify k) (modify k') :=
  fun _ _ _ h => .value (hk _ _ _ h)

theorem get {next : Store → Eval α} {next' : Store → Eval β}
    (hnext : ∀ before s u, view.Follows before s u → view.Mirrors before f (next s s) (next' u u)) :
    view.Simulates f (get >>= next) (get >>= next') :=
  hnext

theorem freshId : view.Simulates view.id freshId freshId := by
  intro before s u h
  have hid : view.id s.nextId = u.nextId := h.nextId 0
  have hnext : view.Follows before s.takeId.2 u.takeId.2 := ⟨h.takeId, h.printed⟩
  show view.Mirrors before view.id (.ok s.nextId s.takeId.2) (.ok u.nextId u.takeId.2)
  rw [← hid]
  exact .value hnext

end rules

/-! ## Values -/

section values

variable {x x' : Eval Value} {next next' : Value → Eval Value} {f : Value → Value}

theorem fail (failure : Failure) : view.Simulates (·.seen view) (fail failure) (fail failure) :=
  freshId.bind fun id => .pure (Value.error id failure)

theorem ofExcept {r r' : Except Failure Value} (h : r' = r.map (·.seen view)) :
    view.Simulates (·.seen view) (ofExcept r) (ofExcept r') := by
  subst h
  cases r with
  | ok v => exact .pure v
  | error failure => exact .fail failure

theorem unlessError (hx : view.Simulates (·.seen view) x x')
    (hnext : ∀ v, view.Simulates (·.seen view) (next v) (next' (v.seen view))) :
    view.Simulates (·.seen view) (unlessError x next) (unlessError x' next') := by
  refine hx.bind fun v => ?_
  rw [Value.isError_seen]
  split
  · exact .pure v
  · exact hnext v

theorem unwrap (hx : view.Simulates (·.seen view) x x') :
    view.Simulates (·.seen view) (Value.unwrap <$> x) (Value.unwrap <$> x') :=
  hx.map fun v => v.unwrap_seen view

/-- An array with what was computed, under an identity of its own. -/
theorem array (vs : List Value) :
    view.Simulates (Value.seen view) (do return Value.array (← Eval.freshId) vs)
      (do return Value.array (← Eval.freshId) (vs.map (·.seen view))) := by
  refine freshId.bind fun id => ?_
  rw [← Value.seen_array]
  exact .pure (Value.array id vs)

end values

/-! ## Lists -/

section lists

variable {ev ev' : Node → Eval Value}
  (hev : ∀ n, view.Simulates (·.seen view) (ev n) (ev' n.unplaced))

include hev

theorem each (ns : List Node) {next next' : List Value → Eval Value}
    (hnext : ∀ vs, view.Simulates (·.seen view) (next vs) (next' (vs.map (·.seen view)))) :
    view.Simulates (·.seen view) (each ev ns next) (each ev' (ns.map (·.unplaced)) next') := by
  induction ns generalizing next next' with
  | nil => exact hnext []
  | cons n ns ih => exact (hev n).unlessError fun v => ih fun vs => hnext (v :: vs)

theorem eachEntry (pairs : List (Node × Node)) (entries : List (Value.Key × Value))
    {next next' : List (Value.Key × Value) → Eval Value}
    (hnext : ∀ es, view.Simulates (·.seen view) (next es)
      (next' (es.map fun e => (e.1, e.2.seen view)))) :
    view.Simulates (·.seen view) (eachEntry ev next pairs entries)
      (eachEntry ev' next' (pairs.map fun p => (p.1.unplaced, p.2.unplaced))
        (entries.map fun e => (e.1, e.2.seen view))) := by
  induction pairs generalizing entries with
  | nil => exact hnext entries
  | cons pair pairs ih =>
    refine (hev pair.1).unlessError fun key => ?_
    rw [Value.key?_seen, Value.tag_seen]
    cases key.key? with
    | none => exact .fail _
    | some key =>
      refine (hev pair.2).unlessError fun value => ?_
      rw [Value.putEntry_seen]
      exact ih _

theorem sequence (last : Value) (ns : List Node) :
    view.Simulates (·.seen view) (sequence ev last ns)
      (sequence ev' (last.seen view) (ns.map (·.unplaced))) := by
  induction ns generalizing last with
  | nil => exact .pure last
  | cons n ns ih =>
    refine (hev n).bind fun v => ?_
    rw [Value.isError_seen, Value.isReturned_seen]
    split
    · exact .pure v
    · exact ih v

end lists

/-! ## Primitives -/

/-- Printing the texts of values. -/
theorem print (vs : List Value) :
    view.Simulates (fun _ => ⟨⟩ : PUnit → PUnit)
      (MonadState.modifyGet fun s => (⟨⟩, s.print (vs.map (·.inspect))))
      (MonadState.modifyGet fun s => (⟨⟩, s.print ((vs.map (·.seen view)).map (·.inspect)))) := by
  have htexts : (vs.map (·.seen view)).map (·.inspect) = vs.map (·.inspect) := by
    simp [Value.inspect_seen]
  rw [htexts]
  refine .modify fun before s u h => ⟨h.print _, ?_⟩
  rw [Store.print, Store.print, h.printed, List.append_assoc]

theorem call_len (v : Value) :
    view.Simulates (·.seen view) (Primitive.len.call [v]) (Primitive.len.call [v.seen view]) := by
  cases v with
  | string s => exact .pure (Value.integer s.length)
  | array id xs =>
    rw [Value.seen_array]
    show view.Simulates _ (Pure.pure (Value.integer xs.length)) (Pure.pure (Value.integer _))
    rw [List.length_map]
    exact .pure (Value.integer xs.length)
  | _ => exact .fail _

theorem call_first (v : Value) :
    view.Simulates (·.seen view) (Primitive.first.call [v])
      (Primitive.first.call [v.seen view]) := by
  cases v with
  | array id xs =>
    cases xs with
    | nil => exact .pure Value.null
    | cons x xs => exact .pure x
  | _ => exact .fail _

theorem call_last (v : Value) :
    view.Simulates (·.seen view) (Primitive.last.call [v])
      (Primitive.last.call [v.seen view]) := by
  cases v with
  | array id xs =>
    have hlast : (xs.map (·.seen view)).getLastD .null = (xs.getLastD .null).seen view := by
      rw [List.getLastD_eq_getLast?, List.getLastD_eq_getLast?, List.getLast?_map]
      cases xs.getLast? <;> rfl
    rw [Value.seen_array]
    show view.Simulates _ (Pure.pure (xs.getLastD .null))
      (Pure.pure ((xs.map (·.seen view)).getLastD .null))
    rw [hlast]
    exact .pure _
  | _ => exact .fail _

theorem call_rest (v : Value) :
    view.Simulates (·.seen view) (Primitive.rest.call [v])
      (Primitive.rest.call [v.seen view]) := by
  cases v with
  | array id xs =>
    rw [Value.seen_array]
    cases xs with
    | nil => exact .pure Value.null
    | cons x xs => exact .array xs
  | _ => exact .fail _

theorem call_push (v w : Value) :
    view.Simulates (·.seen view) (Primitive.push.call [v, w])
      (Primitive.push.call [v.seen view, w.seen view]) := by
  cases v with
  | array id xs =>
    have hpush := @array view (xs ++ [w])
    rw [List.map_append, List.map_singleton] at hpush
    rw [Value.seen_array]
    exact hpush
  | _ => exact .fail _

theorem call (p : Primitive) (args : List Value) :
    view.Simulates (·.seen view) (p.call args) (p.call (args.map (·.seen view))) := by
  by_cases hputs : p = .puts
  · subst hputs
    exact (print args).bind fun _ => .pure Value.null
  by_cases hlength : args.length = p.arity
  · cases p with
    | puts => exact absurd rfl hputs
    | push =>
      obtain ⟨v, w, rfl⟩ := List.length_eq_two.mp hlength
      exact call_push v w
    | _ =>
      obtain ⟨v, rfl⟩ := List.length_eq_one_iff.mp hlength
      first
        | exact call_len v
        | exact call_first v
        | exact call_last v
        | exact call_rest v
  · rw [Primitive.call_of_length hputs hlength,
      Primitive.call_of_length hputs (by rwa [List.length_map]), List.length_map]
    exact .fail _

end Simulates

/-! ## Trees and calls -/

section step

variable {limit : Nat}
  (heval : ∀ env n, view.Simulates (·.seen view) (eval limit env n)
    (eval limit (view.frame env) n.unplaced))
  (hcall : ∀ f args, view.Simulates (·.seen view) (apply limit f args)
    (apply limit (f.seen view) (args.map (·.seen view))))

include heval

include hcall in
/-- A tree is evaluated alike in both stores if its parts are, and the calls that it asks for. -/
theorem simulates_node (env : FrameId) (n : Node) :
    view.Simulates (·.seen view) (eval (limit + 1) env n)
      (eval (limit + 1) (view.frame env) n.unplaced) := by
  cases n with
  | absent | integer _ _ | string _ _ | boolean _ _ => exact .pure _
  | program _ statements =>
    rw [Node.unplaced, Node.unplacedEach_eq_map]
    exact (Simulates.sequence (heval env) .null statements).unwrap
  | block _ statements =>
    rw [Node.unplaced, Node.unplacedEach_eq_map]
    exact Simulates.sequence (heval env) .null statements
  | exprStmt _ expression => exact heval env expression
  | returnStmt _ value =>
    exact (heval env value).unlessError fun v =>
      Simulates.freshId.bind fun id => .pure (Value.returned id v)
  | letStmt _ name value =>
    refine (heval env value).unlessError fun v => ?_
    cases name with
    | none => exact .pure Value.null
    | some id =>
      exact (Simulates.modify fun _ _ _ h => ⟨h.bind env id.name v, h.printed⟩).bind
        fun _ => .pure Value.null
  | array _ elements =>
    rw [Node.unplaced, Node.unplacedEach_eq_map]
    exact .each (heval env) elements fun vs => .array vs
  | hash _ pairs =>
    rw [Node.unplaced, Node.unplacedPairs_eq_map]
    refine .eachEntry (heval env) pairs [] fun es => Simulates.freshId.bind fun id => ?_
    rw [← Value.seen_hash]
    exact .pure (Value.hash id es)
  | function _ parameters body =>
    exact Simulates.freshId.bind fun id => .pure (Value.function id parameters body env)
  | unary _ op right =>
    exact (heval env right).unlessError fun v => .ofExcept (v.unary_seen view op)
  | binary _ left op right =>
    exact (heval env left).unlessError fun l => (heval env right).unlessError fun r =>
      .ofExcept (Value.binary_seen view op l r)
  | index _ left i =>
    exact (heval env left).unlessError fun l => (heval env i).unlessError fun n =>
      .ofExcept (Value.index_seen view l n)
  | ifElse _ condition consequence alternative =>
    refine (heval env condition).unlessError fun c => ?_
    rw [Value.isTruthy_seen, Node.isAbsent_unplaced]
    split
    · exact heval env consequence
    · split
      · exact .pure Value.null
      · exact heval env alternative
  | identifier id =>
    refine .get fun before s u h => ?_
    rw [Identifier.name_unplaced, h.meaning?]
    cases s.meaning? env id.name with
    | none => exact Simulates.fail _ before s u h
    | some v => exact .value h
  | call _ callee arguments =>
    rw [Node.unplaced, Node.unplacedEach_eq_map]
    exact (heval env callee).unlessError fun f => .each (heval env) arguments fun vs => hcall f vs

/-- A call is alike in both stores if the body of a function is. -/
theorem simulates_call (f : Value) (args : List Value) :
    view.Simulates (·.seen view) (apply (limit + 1) f args)
      (apply (limit + 1) (f.seen view) (args.map (·.seen view))) := by
  cases f with
  | function _ parameters body frame =>
    intro before s u h
    have hnext : view.frame s.nextFrame = u.nextFrame := h.nextFrame 0
    have hinner := h.addInner frame (Bindings.ofArguments parameters args [])
    have hbody := (heval s.nextFrame body).unwrap before _ _ ⟨hinner, h.printed⟩
    rw [← Bindings.ofArguments_seen, hnext] at hbody
    exact hbody
  | builtin p => exact .call p args
  | registered _ _ result => exact .pure result
  | _ => exact .fail _

end step

/-- Trees and calls are evaluated alike in a store and in one that shows it, at whatever depth the
evaluation is cut off. -/
theorem simulates_eval (view : View) (limit : Nat) :
    (∀ env n, view.Simulates (·.seen view) (eval limit env n)
        (eval limit (view.frame env) n.unplaced)) ∧
      ∀ f args, view.Simulates (·.seen view) (apply limit f args)
        (apply limit (f.seen view) (args.map (·.seen view))) := by
  induction limit with
  | zero => exact ⟨fun _ _ => .throw, fun _ _ => .throw⟩
  | succ limit ih => exact ⟨simulates_node ih.1 ih.2, simulates_call ih.1⟩

end View

end MonkeyLang
