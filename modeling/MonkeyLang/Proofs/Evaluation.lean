import MonkeyLang.Eval

/-!
The record of an evaluation. An evaluation asks for the evaluations of its parts and for calls, in
some order and each in the store that the one before has left. The record keeps all of them, with
what was asked and what came out. It is made by a copy of the evaluator that writes down what it
does, and which gives the same answers.
-/

namespace MonkeyLang

theorem Value.unwrap_of_isReturned {v : Value} (h : v.isReturned = false) : v.unwrap = v := by
  cases v with
  | returned _ _ => cases h
  | _ => rfl

theorem Value.unwrap_of_isError {v : Value} (h : v.isError = true) : v.unwrap = v := by
  cases v with
  | error _ _ => rfl
  | _ => cases h

theorem Value.isError_of_key? {v : Value} {k : Value.Key} (h : v.key? = some k) :
    v.isError = false := by
  cases v with
  | error _ _ => cases h
  | _ => rfl

namespace Eval

variable {x : Eval Value} {next : Value → Eval Value} {s s' : Store} {v : Value}

theorem unlessError_next (hx : x s = .ok v s') (hv : v.isError = false) :
    unlessError x next s = next v s' := by
  show EStateM.bind x _ s = _
  simp only [EStateM.bind, hx, hv]
  rfl

theorem unlessError_stop (hx : x s = .ok v s') (hv : v.isError = true) :
    unlessError x next s = .ok v s' := by
  show EStateM.bind x _ s = _
  simp only [EStateM.bind, hx, hv]
  rfl

theorem sequence_singleton {ev : Node → Eval Value} {n : Node} {last : Value}
    (hn : ev n s = .ok v s') : sequence ev last [n] s = .ok v s' := by
  show EStateM.bind (ev n) _ s = _
  simp only [EStateM.bind, hn]
  split <;> rfl

end Eval

/-- What can be evaluated: a tree in a frame, or the call of a value. -/
inductive Task
  | node (env : FrameId) (n : Node)
  | call (f : Value) (args : List Value)
  deriving Inhabited

def Task.eval (limit : Nat) : Task → Eval Value
  | node env n => MonkeyLang.eval limit env n
  | call f args => apply limit f args

/-- The record of an evaluation: its task, the store in which it began, the records of what it
asked for itself in order, and what came out. -/
structure Run where
  task : Task
  start : Store
  parts : List Run
  outcome : EStateM.Result TooDeep Store Value

namespace Run

def Yields (r : Run) (v : Value) : Prop := ∃ s, r.outcome = .ok v s

/-- The store that the evaluation left behind, also when it was cut off. -/
def stop (r : Run) : Store :=
  match r.outcome with
  | .ok _ s | .error _ s => s

theorem stop_of_value {r : Run} {v : Value} {s : Store} (h : r.outcome = .ok v s) :
    r.stop = s := by
  rw [stop, h]

theorem stop_of_cut {r : Run} {e : TooDeep} {s : Store} (h : r.outcome = .error e s) :
    r.stop = s := by
  rw [stop, h]

theorem stop_congr {p r : Run} (h : r.outcome = p.outcome) : r.stop = p.stop := by
  rw [stop, stop, h]

/-- A record that is within another, at any depth. -/
inductive Within (q : Run) : Run → Prop
  | self : Within q q
  | part {p r : Run} : p ∈ r.parts → Within q p → Within q r

theorem Within.trans {p q r : Run} (h : p.Within q) (h' : q.Within r) : p.Within r := by
  induction h' with
  | self => exact h
  | part hmem _ ih => exact .part hmem ih

/-- `q` stands in `r`, and `later` are the records that begin after `q` has ended: at each level
those on its right. -/
inductive Precedes (q : Run) : List Run → Run → Prop
  | self : Precedes q [] q
  | part {p r : Run} {before after later : List Run} : r.parts = before ++ p :: after →
      Precedes q later p → Precedes q (later ++ after) r

end Run

/-- A computation on the store that also writes down the evaluations that it asks for. -/
def Traced (α : Type) := Store → List Run × EStateM.Result TooDeep Store α

namespace Traced

variable {α β : Type}

instance : Monad Traced where
  pure a := fun s => ([], .ok a s)
  bind m f := fun s =>
    match m s with
    | (runs, .ok a s') => (runs ++ (f a s').1, (f a s').2)
    | (runs, .error e s') => (runs, .error e s')

section bind

variable {m : Traced α} {s s' : Store} {runs : List Run} {a : α} {e : TooDeep}

theorem bind_next (f : α → Traced β) (h : m s = (runs, .ok a s')) :
    (m >>= f) s = (runs ++ (f a s').1, (f a s').2) := by
  simp [bind, h]

theorem bind_cut (f : α → Traced β) (h : m s = (runs, .error e s')) :
    (m >>= f) s = (runs, .error e s') := by
  simp [bind, h]

theorem map_next (g : α → β) (h : m s = (runs, .ok a s')) :
    (g <$> m) s = (runs, .ok (g a) s') := by
  show (m >>= fun a => pure (g a)) s = _
  rw [bind_next _ h]
  exact congrArg (·, _) (List.append_nil runs)

theorem map_cut (g : α → β) (h : m s = (runs, .error e s')) :
    (g <$> m) s = (runs, .error e s') :=
  bind_cut (fun a => pure (g a)) h

theorem map_fst (g : α → β) (m : Traced α) (s : Store) : ((g <$> m) s).1 = (m s).1 := by
  rcases hm : m s with ⟨runs, ⟨a, s'⟩ | ⟨e, s'⟩⟩
  · rw [map_next g hm]
  · rw [map_cut g hm]

end bind

def lift (x : Eval α) : Traced α := fun s => ([], x s)

def recorded (t : Task) (m : Traced Value) : Traced Value :=
  fun s => ([⟨t, s, (m s).1, (m s).2⟩], (m s).2)

def unlessError (part : Traced Value) (next : Value → Traced Value) : Traced Value := do
  let v ← part
  if v.isError then return v else next v

def each (ev : Node → Traced Value) : List Node → (List Value → Traced Value) → Traced Value
  | [], next => next []
  | n :: ns, next => unlessError (ev n) fun v => each ev ns fun vs => next (v :: vs)

def eachEntry (ev : Node → Traced Value) (next : List (Value.Key × Value) → Traced Value) :
    List (Node × Node) → List (Value.Key × Value) → Traced Value
  | [], entries => next entries
  | (k, v) :: pairs, entries =>
    unlessError (ev k) fun key =>
      match key.key? with
      | none => lift (Eval.fail (.notAKey key.tag))
      | some key =>
        unlessError (ev v) fun value => eachEntry ev next pairs (Value.putEntry key value entries)

def sequence (ev : Node → Traced Value) (last : Value) : List Node → Traced Value
  | [] => return last
  | n :: ns => do
    let v ← ev n
    if v.isError || v.isReturned then return v else sequence ev v ns

/-! ## Nothing but the record is added -/

def erase (m : Traced α) : Eval α := fun s => (m s).2

theorem erase_recorded (t : Task) (m : Traced Value) : (recorded t m).erase = m.erase := rfl

theorem erase_bind (m : Traced α) (f : α → Traced β) :
    (m >>= f).erase = m.erase >>= fun a => (f a).erase := by
  funext s
  show ((m >>= f) s).2 = EStateM.bind m.erase (fun a => (f a).erase) s
  simp only [bind, EStateM.bind, erase]
  rcases m s with ⟨runs, a | e⟩ <;> rfl

theorem erase_map (g : α → β) (m : Traced α) : (g <$> m).erase = g <$> m.erase := by
  show (m >>= fun a => pure (g a)).erase = _
  rw [erase_bind, map_eq_pure_bind]
  rfl

theorem erase_unlessError (part : Traced Value) (next : Value → Traced Value) :
    (unlessError part next).erase = Eval.unlessError part.erase fun v => (next v).erase := by
  rw [unlessError, Eval.unlessError, erase_bind]
  congr 1
  funext v
  split <;> rfl

theorem erase_each {ev : Node → Traced Value} {ev' : Node → Eval Value}
    (hev : ∀ n, (ev n).erase = ev' n) (ns : List Node) (next : List Value → Traced Value) :
    (each ev ns next).erase = Eval.each ev' ns fun vs => (next vs).erase := by
  induction ns generalizing next with
  | nil => rfl
  | cons n ns ih =>
    rw [each, Eval.each, erase_unlessError, hev]
    congr 1
    funext v
    exact ih _

theorem erase_eachEntry {ev : Node → Traced Value} {ev' : Node → Eval Value}
    (hev : ∀ n, (ev n).erase = ev' n) (next : List (Value.Key × Value) → Traced Value)
    (pairs : List (Node × Node)) (entries : List (Value.Key × Value)) :
    (eachEntry ev next pairs entries).erase =
      Eval.eachEntry ev' (fun es => (next es).erase) pairs entries := by
  induction pairs generalizing entries with
  | nil => rfl
  | cons pair pairs ih =>
    obtain ⟨k, v⟩ := pair
    rw [eachEntry, Eval.eachEntry, erase_unlessError, hev]
    congr 1
    funext key
    cases key.key? with
    | none => rfl
    | some key =>
      show (unlessError (ev v) _).erase = _
      rw [erase_unlessError, hev]
      congr 1
      funext value
      exact ih _

theorem erase_sequence {ev : Node → Traced Value} {ev' : Node → Eval Value}
    (hev : ∀ n, (ev n).erase = ev' n) (last : Value) (ns : List Node) :
    (sequence ev last ns).erase = Eval.sequence ev' last ns := by
  induction ns generalizing last with
  | nil => rfl
  | cons n ns ih =>
    rw [sequence, Eval.sequence, erase_bind, hev]
    congr 1
    funext v
    split
    · rfl
    · exact ih v

end Traced

open Traced

/-- Evaluates a task, where `visit` evaluates the tasks that it asks for. -/
def step (visit : Task → Traced Value) : Task → Traced Value
  | .node env node =>
    let ev (n : Node) : Traced Value := visit (.node env n)
    match node with
    | .absent => return .null
    | .program _ statements => Value.unwrap <$> sequence ev .null statements
    | .block _ statements => sequence ev .null statements
    | .exprStmt _ expression => ev expression
    | .returnStmt _ value =>
      unlessError (ev value) fun v => lift do return .returned (← Eval.freshId) v
    | .letStmt _ name value =>
      unlessError (ev value) fun v => lift do
        if let some id := name then modify (·.bind env id.name v)
        return .null
    | .integer _ n => return .integer n
    | .string _ s => return .string s
    | .boolean _ b => return .boolean b
    | .array _ elements =>
      each ev elements fun vs => lift do return .array (← Eval.freshId) vs
    | .hash _ pairs =>
      eachEntry ev (fun entries => lift do return .hash (← Eval.freshId) entries) pairs []
    | .function _ parameters body => lift do return .function (← Eval.freshId) parameters body env
    | .unary _ op right => unlessError (ev right) fun v => lift (Eval.ofExcept (v.unary op))
    | .binary _ left op right =>
      unlessError (ev left) fun l =>
        unlessError (ev right) fun r => lift (Eval.ofExcept (l.binary op r))
    | .index _ left i =>
      unlessError (ev left) fun l =>
        unlessError (ev i) fun n => lift (Eval.ofExcept (l.index n))
    | .ifElse _ condition consequence alternative =>
      unlessError (ev condition) fun c =>
        if c.isTruthy then ev consequence
        else if alternative.isAbsent then return .null
        else ev alternative
    | .identifier id => lift do
      match (← get).meaning? env id.name with
      | some v => return v
      | none => Eval.fail (.unbound id.name)
    | .call _ callee arguments =>
      unlessError (ev callee) fun f => each ev arguments fun vs => visit (.call f vs)
  | .call f args =>
    match f with
    | .function _ parameters body frame => do
      let env ← lift (return (← get).nextFrame)
      lift (modify (·.addInner frame (Bindings.ofArguments parameters args [])))
      Value.unwrap <$> visit (.node env body)
    | .builtin p => lift (p.call args)
    | .registered _ _ result => return result
    | v => lift (Eval.fail (.notAFunction v.tag))

/-- Evaluates a task and writes down all evaluations that it asks for. -/
def perform : Nat → Task → Traced Value
  | 0, _ => lift (throw {})
  | limit + 1, t => step (fun t => recorded t (perform limit t)) t

def Task.record (limit : Nat) (t : Task) (s : Store) : Run :=
  ⟨t, s, (perform limit t s).1, (perform limit t s).2⟩

def Task.visit (limit : Nat) (t : Task) : Traced Value := recorded t (perform limit t)

theorem Task.visit_apply (limit : Nat) (t : Task) (s : Store) :
    t.visit limit s = ([t.record limit s], (t.record limit s).outcome) :=
  rfl

theorem Task.record_succ (limit : Nat) (t : Task) (s : Store) :
    t.record (limit + 1) s = ⟨t, s, (step (visit limit) t s).1, (step (visit limit) t s).2⟩ :=
  rfl

theorem erase_step {limit : Nat} {visit : Task → Traced Value}
    (hvisit : ∀ t, (visit t).erase = t.eval limit) (t : Task) :
    (step visit t).erase = t.eval (limit + 1) := by
  have hev : ∀ env n, (visit (.node env n)).erase = eval limit env n := fun env n => hvisit _
  cases t with
  | node env n =>
    cases n with
    | absent | integer _ _ | string _ _ | boolean _ _ | function _ _ _ | identifier _ => rfl
    | program _ statements =>
      show (Value.unwrap <$> sequence _ _ _).erase = Value.unwrap <$> Eval.sequence _ _ _
      rw [erase_map, erase_sequence (hev env)]
    | block _ statements => exact erase_sequence (hev env) _ _
    | exprStmt _ expression => exact hev env _
    | returnStmt _ value =>
      show (unlessError _ _).erase = Eval.unlessError _ _
      rw [erase_unlessError, hev]
      rfl
    | letStmt _ name value =>
      show (unlessError _ _).erase = Eval.unlessError _ _
      rw [erase_unlessError, hev]
      rfl
    | array _ elements =>
      show (each _ _ _).erase = Eval.each _ _ _
      rw [erase_each (hev env)]
      rfl
    | hash _ pairs =>
      show (eachEntry _ _ _ _).erase = Eval.eachEntry _ _ _ _
      rw [erase_eachEntry (hev env)]
      rfl
    | unary _ op right =>
      show (unlessError _ _).erase = Eval.unlessError _ _
      rw [erase_unlessError, hev]
      rfl
    | binary _ left op right =>
      show (unlessError _ _).erase = Eval.unlessError _ _
      rw [erase_unlessError, hev]
      congr 1
      funext l
      rw [erase_unlessError, hev]
      rfl
    | index _ left i =>
      show (unlessError _ _).erase = Eval.unlessError _ _
      rw [erase_unlessError, hev]
      congr 1
      funext l
      rw [erase_unlessError, hev]
      rfl
    | ifElse _ condition consequence alternative =>
      show (unlessError _ _).erase = Eval.unlessError _ _
      rw [erase_unlessError, hev]
      congr 1
      funext c
      split
      · exact hev env _
      · split
        · rfl
        · exact hev env _
    | call _ callee arguments =>
      show (unlessError _ _).erase = Eval.unlessError _ _
      rw [erase_unlessError, hev]
      congr 1
      funext f
      rw [erase_each (hev env)]
      congr 1
      funext vs
      exact hvisit _
  | call f args =>
    cases f with
    | function _ parameters body frame =>
      funext s
      show ((Value.unwrap <$> visit (.node s.nextFrame body)).erase
        (s.addInner frame (Bindings.ofArguments parameters args []))) = _
      rw [erase_map, hev]
      rfl
    | _ => rfl

/-- The copy that keeps a record gives the same answers and leaves the same stores behind. -/
theorem erase_perform (limit : Nat) (t : Task) : (perform limit t).erase = t.eval limit := by
  induction limit generalizing t with
  | zero => cases t <;> rfl
  | succ limit ih => exact erase_step (fun t => (erase_recorded t _).trans (ih t)) t

theorem Task.record_outcome (limit : Nat) (t : Task) (s : Store) :
    (t.record limit s).outcome = t.eval limit s :=
  congrFun (erase_perform limit t) s

section step

variable {visit : Task → Traced Value} {s : Store}

theorem step_function (id : Nat) (ps : List Identifier) (body : Node) (frame : FrameId)
    (args : List Value) : step visit (.call (.function id ps body frame) args) s =
      (Value.unwrap <$> visit (.node s.nextFrame body))
        (s.addInner frame (Bindings.ofArguments ps args [])) :=
  rfl

theorem step_bound {env : FrameId} {id : Identifier} {v : Value}
    (h : s.meaning? env id.name = some v) :
    step visit (.node env (.identifier id)) s = ([], .ok v s) := by
  show ([], EStateM.bind (fun s => .ok s s) _ s) = _
  simp only [EStateM.bind, h]
  rfl

theorem step_unbound {env : FrameId} {id : Identifier} (h : s.meaning? env id.name = none) :
    step visit (.node env (.identifier id)) s = ([], Eval.fail (.unbound id.name) s) := by
  show ([], EStateM.bind (fun s => .ok s s) _ s) = _
  simp only [EStateM.bind, h]

end step

end MonkeyLang
