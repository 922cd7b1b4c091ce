import MonkeyLang.Proofs.Control.Reference
import MonkeyLang.Proofs.Control.Structured
import MonkeyLang.Proofs.Evaluation.Discipline
import MonkeyLang.Proofs.Evaluation.Marker

/-!
The evaluator implements structured control flow. Where no operand returns, return markers go from
statement to statement only, and each evaluation ends as the same execution does: with a marker
where that exits with a value, and with an error where that fails.
-/

namespace MonkeyLang

namespace Reference

/-! ## Agreement of results -/

/-- The evaluator and the reference came to the same result, in the same store. A marker is allowed
only where something returns, and is never in another marker. -/
inductive Agrees (returns : Bool) :
    EStateM.Result TooDeep Store Value → EStateM.Result Exit Store Value → Prop
  | normal {v : Value} {s : Store} : v.isError = false → v.isReturned = false →
      Agrees returns (.ok v s) (.ok v s)
  | returned {id : Nat} {v : Value} {s : Store} : returns = true → v.isError = false →
      v.isReturned = false → Agrees returns (.ok (.returned id v) s) (.error (.returned v) s)
  | failed {id : Nat} {failure : Failure} {s : Store} :
      Agrees returns (.ok (.error id failure) s) (.error (.failed id failure) s)
  | tooDeep {s : Store} : Agrees returns (.error {} s) (.error .tooDeep s)

/-- No part of a value is an error or a marker, and functions have bodies without operands that
return. -/
def quiet : Discipline where
  part v := v.isError = false ∧ v.isReturned = false ∧
    ∀ id ps b i, v = .function id ps b i → b.Each Node.Quiet
  node := Node.Quiet

theorem lawful_quiet : quiet.Lawful where
  null := ⟨rfl, rfl, nofun⟩
  boolean _ := ⟨rfl, rfl, nofun⟩
  string _ := ⟨rfl, rfl, nofun⟩
  arithmetic _ := ⟨rfl, rfl, nofun⟩
  array _ _ := ⟨rfl, rfl, nofun⟩
  hash _ _ _ := ⟨rfl, rfl, nofun⟩
  literal _ _ _ := ⟨rfl, rfl, nofun⟩
  closure t id ps b i h := by
    refine ⟨rfl, rfl, fun _ _ _ _ heq => ?_⟩
    cases heq
    exact h.body
  body id ps b i h := h.2.2 id ps b i rfl
  marker := .inr fun _ h => h

theorem measures_quiet (q : Run) : quiet.Measures q :=
  fun _ _ _ _ => ⟨rfl, rfl, nofun⟩

variable {r : Bool}

theorem Agrees.mono {r' : Bool} {a : EStateM.Result TooDeep Store Value}
    {b : EStateM.Result Exit Store Value} (h : Agrees r a b) (hr : r = true → r' = true) :
    Agrees r' a b := by
  cases h with
  | normal herr hret => exact .normal herr hret
  | returned h herr hret => exact .returned (hr h) herr hret
  | failed => exact .failed
  | tooDeep => exact .tooDeep

/-- In all fair stores the evaluator and the reference come to the same result. -/
def Follows (r : Bool) (x : Eval Value) (x' : Exec Value) : Prop :=
  ∀ s, quiet.Fair s → Agrees r (x s) (x' s)

/-- They do, and what comes out keeps the discipline. -/
structure Simulates (r : Bool) (x : Eval Value) (x' : Exec Value) : Prop where
  follows : Follows r x x'
  keeps : ∀ s v s', quiet.Fair s → x s = .ok v s' → quiet.Fair s' ∧ quiet.Result r v

theorem Simulates.mono {r' : Bool} {x : Eval Value} {x' : Exec Value} (h : Simulates r x x')
    (hr : r = true → r' = true) : Simulates r' x x' where
  follows s hs := (h.follows s hs).mono hr
  keeps s v s' hs hv := ⟨(h.keeps s v s' hs hv).1, (h.keeps s v s' hs hv).2.mono hr⟩

section combinators

variable {x : Eval Value} {x' : Exec Value} {next : Value → Eval Value} {next' : Value → Exec Value}

theorem follows_pure {v : Value} (herr : v.isError = false) (hret : v.isReturned = false) :
    Follows r (pure v) (pure v) :=
  fun _ _ => .normal herr hret

theorem follows_fail (failure : Failure) : Follows r (Eval.fail failure) (fail failure) :=
  fun _ _ => .failed

/-- The reference goes on with the value of a part where the evaluator does. -/
theorem Follows.unlessError (h : Simulates false x x')
    (hnext : ∀ v, v.All quiet.part → Follows r (next v) (next' v)) :
    Follows r (Eval.unlessError x next) (x' >>= next') := by
  intro s hs
  have hagrees := h.follows s hs
  have hkeeps := h.keeps s
  show Agrees r (EStateM.bind x _ s) (EStateM.bind x' next' s)
  unfold EStateM.bind
  revert hagrees hkeeps
  generalize x s = a, x' s = b
  intro hagrees hkeeps
  cases hagrees with
  | @normal v s' herr hret =>
    obtain ⟨hs', hv⟩ := hkeeps v s' hs rfl
    dsimp only
    rw [herr]
    exact hnext v (hv.all herr) s' hs'
  | returned h => cases h
  | failed => exact .failed
  | tooDeep => exact .tooDeep

theorem follows_get {next : Store → Eval Value} {next' : Store → Exec Value}
    (hnext : ∀ s, quiet.Fair s → Agrees r (next s s) (next' s s)) :
    Follows r (get >>= next) (get >>= next') :=
  hnext

theorem follows_ofExcept {e : Except Failure Value}
    (he : ∀ v, e = .ok v → v.All quiet.part) : Follows r (Eval.ofExcept e) (ofExcept e) := by
  cases e with
  | ok v => exact follows_pure (he v rfl).self.1 (he v rfl).self.2.1
  | error failure => exact follows_fail failure

theorem follows_lift (hx : ∀ s v s', quiet.Fair s → x s = .ok v s' → v.isReturned = false) :
    Follows r x (lift x) := by
  intro s hs
  unfold lift
  cases h : x s with
  | error e s' => exact .tooDeep
  | ok v s' =>
    cases v with
    | error id failure => exact .failed
    | returned id v => exact Bool.noConfusion (hx s _ s' hs h)
    | _ => exact .normal rfl rfl

/-- What a call or a program takes off a marker is what arrives there in the reference. -/
theorem Follows.catchReturn (h : Follows true x x') :
    Follows r (Value.unwrap <$> x) (catchReturn x') := by
  intro s hs
  have hagrees := h s hs
  show Agrees r (EStateM.map Value.unwrap x s) _
  unfold EStateM.map Reference.catchReturn
  revert hagrees
  generalize x s = a, x' s = b
  intro hagrees
  cases hagrees with
  | @normal v s' herr hret =>
    dsimp only
    rw [Value.unwrap_of_isReturned hret]
    exact .normal herr hret
  | returned _ herr hret => exact .normal herr hret
  | failed => exact .failed
  | tooDeep => exact .tooDeep

end combinators

section lists

variable {ev : Node → Eval Value} {ev' : Node → Exec Value}

/-- Statements are executed up to the first that fails or returns. -/
theorem follows_sequence {ns : List Node} {last : Value}
    (hev : ∀ n ∈ ns, Simulates r (ev n) (ev' n)) (herr : last.isError = false)
    (hret : last.isReturned = false) :
    Follows r (Eval.sequence ev last ns) (ns.foldlM (fun _ n => ev' n) last) := by
  induction ns generalizing last with
  | nil => exact follows_pure herr hret
  | cons n ns ih =>
    intro s hs
    have hn := hev n List.mem_cons_self
    have hagrees := hn.follows s hs
    have hkeeps := hn.keeps s
    rw [List.foldlM_cons]
    show Agrees r (EStateM.bind (ev n) _ s) (EStateM.bind (ev' n) _ s)
    unfold EStateM.bind
    revert hagrees hkeeps
    generalize ev n s = a, ev' n s = b
    intro hagrees hkeeps
    cases hagrees with
    | @normal v s' herr hret =>
      dsimp only
      rw [herr, hret]
      exact ih (fun m hm => hev m (List.mem_cons_of_mem _ hm)) herr hret s' (hkeeps v s' hs rfl).1
    | returned h herr hret => exact .returned h herr hret
    | failed => exact .failed
    | tooDeep => exact .tooDeep

theorem follows_each {ns : List Node} {next : List Value → Eval Value}
    {next' : List Value → Exec Value} (hev : ∀ n ∈ ns, Simulates false (ev n) (ev' n))
    (hnext : ∀ vs, (∀ v ∈ vs, v.All quiet.part) → Follows r (next vs) (next' vs)) :
    Follows r (Eval.each ev ns next) (ns.mapM ev' >>= next') := by
  induction ns generalizing next next' with
  | nil => exact hnext [] nofun
  | cons n ns ih =>
    have hassoc : (n :: ns).mapM ev' >>= next' =
        ev' n >>= fun v => ns.mapM ev' >>= fun vs => next' (v :: vs) := by
      simp only [List.mapM_cons, bind_assoc, pure_bind]
    rw [hassoc]
    refine .unlessError (hev n List.mem_cons_self) fun v hv => ?_
    refine ih (fun m hm => hev m (List.mem_cons_of_mem _ hm)) fun vs hvs => ?_
    exact hnext (v :: vs) (List.forall_mem_cons.mpr ⟨hv, hvs⟩)

theorem follows_eachEntry {pairs : List (Node × Node)} {entries : List (Value.Key × Value)}
    {next : List (Value.Key × Value) → Eval Value} {next' : List (Value.Key × Value) → Exec Value}
    (hev : ∀ pair ∈ pairs, Simulates false (ev pair.1) (ev' pair.1) ∧
      Simulates false (ev pair.2) (ev' pair.2))
    (hnext : ∀ es, Follows r (next es) (next' es)) :
    Follows r (Eval.eachEntry ev next pairs entries) (pairs.foldlM
      (fun entries pair => execEntry ev' entries pair.1 pair.2) entries >>= next') := by
  induction pairs generalizing entries with
  | nil => exact hnext entries
  | cons pair pairs ih =>
    obtain ⟨hkey, hvalue⟩ := hev pair List.mem_cons_self
    rw [List.foldlM_cons, bind_assoc, execEntry, bind_assoc]
    refine .unlessError hkey fun key _ => ?_
    cases key.key? with
    | none => exact fun s hs => .failed
    | some slot =>
      dsimp only
      rw [bind_assoc]
      refine .unlessError hvalue fun value _ => ?_
      exact ih fun pair hpair => hev pair (List.mem_cons_of_mem _ hpair)

end lists

/-! ## Agreement of evaluations -/

/-- What does not return yields no marker. -/
theorem isReturned_of_result {v : Value} (h : quiet.Result false v) : v.isReturned = false := by
  cases h with
  | failed herr =>
    cases v with
    | error _ _ => rfl
    | _ => cases herr
  | plain h => exact h.self.2.1
  | marked h _ => cases h

def execTask (limit : Nat) : Task → Exec Value
  | .node env n => exec limit env n
  | .call f args => invoke limit f args

/-- What an evaluation yields keeps the discipline. -/
theorem keeps_eval {limit : Nat} {t : Task} (ht : quiet.Asks t) {s s' : Store} {v : Value}
    (hs : quiet.Fair s) (hv : t.eval limit s = .ok v s') :
    quiet.Fair s' ∧ quiet.Result (Discipline.returns t) v := by
  have hfits := Discipline.fits_record lawful_quiet hs ht
    (fun q _ => measures_quiet q) (t.record limit s) .self
  have hout : (t.record limit s).outcome = .ok v s' := (Task.record_outcome limit t s).trans hv
  exact ⟨Run.stop_of_value hout ▸ hfits.stop, hfits.value v ⟨s', hout⟩⟩

section step

variable {limit : Nat}
  (ih : ∀ t, quiet.Asks t → Simulates (Discipline.returns t) (t.eval limit) (execTask limit t))

include ih

/-- The execution of a tree follows its evaluation if those of its children do. -/
theorem follows_node {env : FrameId} {n : Node} (hn : n.Each Node.Quiet) :
    Follows n.returns (eval (limit + 1) env n) (exec (limit + 1) env n) := by
  have hoperand : ∀ e ∈ n.operands, Simulates false (eval limit env e) (exec limit env e) := by
    intro e he
    have hquiet : n.Quiet := hn.here (by
      cases n with
      | absent => cases he
      | _ => rfl)
    exact (ih (.node env e) (hn.operand he)).mono fun h => by
      rw [show Discipline.returns (.node env e) = false from hquiet e he] at h
      cases h
  have htail : ∀ e ∈ n.tails, Simulates e.returns (eval limit env e) (exec limit env e) :=
    fun e he => ih (.node env e) (hn.tail he)
  cases n with
  | absent => exact follows_pure rfl rfl
  | program t ss =>
    exact .catchReturn (follows_sequence (fun n hn => (htail n hn).mono fun _ => rfl) rfl rfl)
  | block t ss =>
    refine follows_sequence (fun n hn => (htail n hn).mono fun h => ?_) rfl rfl
    exact Node.returns_of_tail (n := .block t ss) hn h nofun
  | exprStmt t e => exact (htail e (List.mem_singleton_self e)).follows
  | returnStmt t e =>
    refine .unlessError (hoperand e (List.mem_singleton_self e)) fun v hv s hs => ?_
    exact .returned rfl hv.self.1 hv.self.2.1
  | letStmt t name e =>
    refine .unlessError (hoperand e (List.mem_singleton_self e)) fun v hv s hs => ?_
    cases name <;> exact .normal rfl rfl
  | integer _ _ | string _ _ | boolean _ _ | function _ _ _ => exact fun s hs => .normal rfl rfl
  | array t es => exact follows_each hoperand fun vs hvs s hs => .normal rfl rfl
  | hash t pairs =>
    refine follows_eachEntry (fun pair hpair => ?_) fun es s hs => .normal rfl rfl
    obtain ⟨hkey, hvalue⟩ := Node.mem_operands_hash (t := t) hpair
    exact ⟨hoperand pair.1 hkey, hoperand pair.2 hvalue⟩
  | unary t op right =>
    refine .unlessError (hoperand right (List.mem_singleton_self right)) fun v hv => ?_
    exact follows_ofExcept fun w => lawful_quiet.all_unary
  | binary t left op right =>
    refine .unlessError (hoperand left List.mem_cons_self) fun l hl => ?_
    refine .unlessError (hoperand right (List.mem_cons_of_mem _ (List.mem_singleton_self _)))
      fun v hv => ?_
    exact follows_ofExcept fun w => lawful_quiet.all_binary
  | index t left i =>
    refine .unlessError (hoperand left List.mem_cons_self) fun l hl => ?_
    refine .unlessError (hoperand i (List.mem_cons_of_mem _ (List.mem_singleton_self _)))
      fun v hv => ?_
    exact follows_ofExcept fun w => lawful_quiet.all_index hl
  | ifElse t condition consequence alternative =>
    have hbranch : ∀ e ∈ [consequence, alternative],
        Follows (Node.ifElse t condition consequence alternative).returns (eval limit env e)
          (exec limit env e) := by
      intro e he
      refine ((htail e he).mono fun h => ?_).follows
      exact Node.returns_of_tail (n := .ifElse t condition consequence alternative) he h nofun
    refine .unlessError (hoperand condition (List.mem_singleton_self condition)) fun v hv => ?_
    split
    · exact hbranch consequence List.mem_cons_self
    · split
      · exact follows_pure rfl rfl
      · exact hbranch alternative (List.mem_cons_of_mem _ (List.mem_singleton_self _))
  | identifier id =>
    refine follows_get fun s hs => ?_
    cases hv : s.meaning? env id.name with
    | none => exact .failed
    | some v => exact .normal (hs.meaning hv).self.1 (hs.meaning hv).self.2.1
  | call t callee arguments =>
    refine .unlessError (hoperand callee List.mem_cons_self) fun f hf => ?_
    refine follows_each (fun n hn => hoperand n (List.mem_cons_of_mem _ hn)) fun vs hvs => ?_
    exact ((ih (.call f vs) ⟨hf, hvs⟩).mono nofun).follows

theorem follows_call {f : Value} {args : List Value} (hf : f.All quiet.part)
    (hargs : ∀ a ∈ args, a.All quiet.part) :
    Follows false (apply (limit + 1) f args) (invoke (limit + 1) f args) := by
  cases f with
  | function id ps b frame =>
    intro s hs
    have hbody := ih (.node s.nextFrame b) (lawful_quiet.body _ _ _ _ hf.self)
    exact Follows.catchReturn (hbody.mono fun _ => rfl).follows _
      (hs.addInner frame (lawful_quiet.all_ofArguments ps hargs))
  | builtin p =>
    refine follows_lift fun s v s' hs hv => ?_
    have hasks : quiet.Asks (.call (.builtin p) args) := ⟨hf, hargs⟩
    have hcall : (Task.call (.builtin p) args).eval (limit + 1) s = .ok v s' := hv
    exact isReturned_of_result (keeps_eval hasks hs hcall).2
  | registered _ _ result =>
    have hresult := (hf.of_stores .result).self
    exact follows_pure hresult.1 hresult.2.1
  | _ => exact fun s hs => .failed

end step

/-- All executions follow their evaluations. -/
theorem simulates (limit : Nat) {t : Task} (ht : quiet.Asks t) :
    Simulates (Discipline.returns t) (t.eval limit) (execTask limit t) := by
  refine ⟨?_, fun s v s' hs hv => keeps_eval ht hs hv⟩
  induction limit generalizing t with
  | zero => cases t <;> exact fun s hs => .tooDeep
  | succ limit ih =>
    have hall : ∀ t, quiet.Asks t →
        Simulates (Discipline.returns t) (t.eval limit) (execTask limit t) :=
      fun t ht => ⟨ih ht, fun s v s' hs hv => keeps_eval ht hs hv⟩
    cases t with
    | node env n => exact follows_node hall ht
    | call f args => exact follows_call hall ht.1 ht.2

def seen : EStateM.Result Exit Store Value → EStateM.Result TooDeep Store Value
  | .ok v s => .ok v s
  | .error (.returned v) s => .ok v s
  | .error (.failed id failure) s => .ok (.error id failure) s
  | .error .tooDeep s => .error {} s

theorem Agrees.eq_seen {a : EStateM.Result TooDeep Store Value}
    {b : EStateM.Result Exit Store Value} (h : Agrees false a b) :
    a = seen b ∧ ∀ v s, b ≠ .error (.returned v) s := by
  cases h with
  | normal _ _ => exact ⟨rfl, nofun⟩
  | returned h _ _ => cases h
  | failed => exact ⟨rfl, nofun⟩
  | tooDeep => exact ⟨rfl, nofun⟩

end Reference

open Reference

/-- At no time in the run is a return marker passed to a call. -/
def Run.PassesNoMarker (run : Run) : Prop :=
  ∀ (q : Run) (f : Value) (args : List Value), q.Within run → q.task = .call f args →
    ∀ a ∈ f :: args, ∀ u : Value, u.Part a → u.isReturned = false

theorem transient_of_fits {run : Run} (h : ∀ q : Run, q.Within run → quiet.Fits q) :
    run.Transient fun _ => True where
  frames q hq i _ u hu := by
    rcases hu with ⟨j, -, b, hb, hu⟩ | ⟨j, -, b, hb, hu⟩
    · exact ((h q hq).start.bindings j b hb u hu).2.1
    · exact ((h q hq).stop.bindings j b hb u hu).2.1
  values q hq v hv u x hu hx := by
    cases (h q hq).value v hv with
    | failed herr =>
      cases v with
      | error id f =>
        cases hu with
        | self => cases hx
        | stored hy _ => cases hy
      | _ => cases herr
    | plain hv => exact (hv x (.trans (.stored hx .self) hu)).2.1
    | marked _ hw =>
      cases hu with
      | self => cases hx
      | stored hy _ => cases hy
      | marked hu => exact (hw x (.trans (.stored hx .self) hu)).2.1
  answers q hq hanswers v hv := by
    have hresult := (h q hq).value v hv
    cases htask : q.task with
    | call f args =>
      rw [htask] at hresult
      exact isReturned_of_result hresult
    | node env n =>
      rw [htask] at hresult hanswers
      cases n with
      | program t ss => exact isReturned_of_result hresult
      | _ => cases hanswers

/-- Return is a non-local exit from the innermost call. In a fresh environment a structured program
comes to the result of the reference and leaves the same store behind, with the same frames and the
same output; and no return marker is bound, stored, passed to a call or given back by a call or by
the program. -/
theorem eval_eq_exec (limit : Nat) (p : Program) (h : p.node.Structured) :
    let fresh := Store.empty.addGlobal
    let run := (Task.node 0 p.node).record limit fresh
    run.outcome = eval limit 0 p.node fresh ∧
      eval limit 0 p.node fresh = seen (exec limit 0 p.node fresh) ∧
      (∀ v s, exec limit 0 p.node fresh ≠ .error (.returned v) s) ∧
      run.Transient (fun _ => True) ∧ run.PassesNoMarker := by
  intro fresh run
  have hfair : quiet.Fair fresh := Discipline.fair_fresh fun p => ⟨rfl, rfl, nofun⟩
  have hasks : quiet.Asks (.node 0 p.node) := h.each_quiet
  have hfits : ∀ q : Run, q.Within run → quiet.Fits q :=
    Discipline.fits_record lawful_quiet hfair hasks fun q _ => measures_quiet q
  obtain ⟨heq, hexits⟩ := ((simulates limit hasks).follows fresh hfair).eq_seen
  refine ⟨Task.record_outcome _ _ _, heq, hexits, transient_of_fits hfits, ?_⟩
  intro q f args hq htask a ha u hu
  have hcall := (hfits q hq).task
  rw [htask] at hcall
  rcases List.mem_cons.mp ha with rfl | ha
  · exact (hcall.1 u hu).2.1
  · exact (hcall.2 a ha u hu).2.1

/-- The tree of `fn(x) { if (x) { if (x) { return 10 } return 1 } 2 }(true)`. -/
def innerReturn : Program where
  token := .unset
  statements :=
    let x : Identifier := ⟨.unset, "x"⟩
    let when (ss : List Node) : Node :=
      .exprStmt .unset (.ifElse .unset (.identifier x) (.block .unset ss) .absent)
    let body : Node := .block .unset
      [when [when [.returnStmt .unset (.integer .unset 10)],
          .returnStmt .unset (.integer .unset 1)],
        .exprStmt .unset (.integer .unset 2)]
    [.exprStmt .unset (.call .unset (.function .unset [x] body) [.boolean .unset true])]
  diagnostics := []

/-- The inner `return` leaves both conditionals and the function, and nothing else. -/
theorem eval_eq_exec_innerReturn :
    let fresh := Store.empty.addGlobal
    let run := (Task.node 0 innerReturn.node).record 13 fresh
    innerReturn.node.Structured ∧ run.Yields (.integer 10) ∧
      run.outcome = eval 13 0 innerReturn.node fresh ∧
      eval 13 0 innerReturn.node fresh = seen (exec 13 0 innerReturn.node fresh) ∧
      (∀ v s, exec 13 0 innerReturn.node fresh ≠ .error (.returned v) s) ∧
      run.Transient (fun _ => True) ∧ run.PassesNoMarker := by
  have hstructured : innerReturn.node.Structured := by decide
  exact ⟨hstructured, ⟨_, rfl⟩, eval_eq_exec 13 innerReturn hstructured⟩

end MonkeyLang
