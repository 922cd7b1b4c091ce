import MonkeyLang.Proofs.Evaluation.Asking
import MonkeyLang.Proofs.Node
import MonkeyLang.Proofs.Value

/-!
The plan of an evaluation: what an evaluation does, said once for all constructs of the language. It
asks for evaluations one after the other, each of a part of its tree or of what it calls, and goes
on with each value that is no error; at the end it does one thing to the store. What it asks for
next depends on the values that it got and on the store only, and not on how far the evaluations
that it asks for may be nested. Nothing is asked for after an error, at any level.
-/

namespace MonkeyLang

open Traced

/-! ## What an evaluation ends with -/

namespace Task

def given : Task → List Value
  | node _ _ => []
  | call f args => f :: args

/-- A call, or the evaluation of a program: what it answers is to be seen outside. -/
def Answers : Task → Prop
  | call _ _ | node _ (.program _ _) => True
  | _ => False

/-- The values that an evaluation gives of itself, which hold no others and have no identity. -/
inductive Plain (t : Task) : Value → Prop
  | null : Plain t .null
  | boolean (b : Bool) : Plain t (.boolean b)
  | string (s : String) : Plain t (.string s)
  | literal {env : FrameId} {token : Token} {n : Int} : t = .node env (.integer token n) →
      Plain t (.integer n)
  | arithmetic (n : Int) : Plain t (.integer (Word.wrap n))
  | length {args : List Value} {n : Int} : t = .call (.builtin .len) args → Plain t (.integer n)

/-- The values that an evaluation finds in one that it was given, or in one of `vs`. -/
inductive Finds (t : Task) (vs : List Value) (x : Value) : Prop
  | given {v : Value} : v ∈ t.given → v.Stores x → Finds t vs x
  | indexed {env : FrameId} {token : Token} {m n : Node} {v : Value} :
      t = .node env (.index token m n) → v ∈ vs → v.Stores x → Finds t vs x

/-- The values that an evaluation makes under a new identity of those that it was given, or of
`vs`: collections and return markers. -/
inductive Builds (t : Task) (vs : List Value) (id : Nat) : Value → Prop
  | array {env : FrameId} {token : Token} {ns : List Node} {xs : List Value} :
      t = .node env (.array token ns) → (∀ x ∈ xs, x ∈ vs) → Builds t vs id (.array id xs)
  | hash {env : FrameId} {token : Token} {pairs : List (Node × Node)}
      {es : List (Value.Key × Value)} : t = .node env (.hash token pairs) →
      (∀ e ∈ es, e.2 ∈ vs ∧ ∃ k ∈ vs, k.key? = some e.1) → Builds t vs id (.hash id es)
  | primitive {p : Primitive} {args xs : List Value} : t = .call (.builtin p) args →
      (∀ x ∈ xs, (∃ a ∈ args, a.Stores x) ∨ p = .push ∧ x ∈ args) → Builds t vs id (.array id xs)
  | marker {env : FrameId} {token : Token} {n : Node} {v : Value} :
      t = .node env (.returnStmt token n) → v ∈ vs → Builds t vs id (.returned id v)

end Task

/-- The failures of an evaluation itself, which are not those of what it asks for, once it has got
the values `vs`. -/
inductive Task.Fails (t : Task) (vs : List Value) (s : Store) : Failure → Prop
  | unary {env : FrameId} {token : Token} {op : String} {n : Node} {v : Value} {f : Failure} :
      t = .node env (.unary token op n) → v ∈ vs → v.unary op = .error f → Fails t vs s f
  | binary {env : FrameId} {token : Token} {op : String} {m n : Node} {l r : Value} {f : Failure} :
      t = .node env (.binary token m op n) → l ∈ vs → r ∈ vs → l.binary op r = .error f →
      Fails t vs s f
  | index {env : FrameId} {token : Token} {m n : Node} {l i : Value} {f : Failure} :
      t = .node env (.index token m n) → l ∈ vs → i ∈ vs → l.index i = .error f → Fails t vs s f
  | key {env : FrameId} {token : Token} {pairs : List (Node × Node)} {v : Value} :
      t = .node env (.hash token pairs) → v ∈ vs → v.key? = none → Fails t vs s (.notAKey v.tag)
  | unbound {env : FrameId} {id : Identifier} : t = .node env (.identifier id) →
      s.meaning? env id.name = none → Fails t vs s (.unbound id.name)
  | refused {p : Primitive} {args : List Value} {f : Failure} : t = .call (.builtin p) args →
      p.Refuses args f → Fails t vs s f
  | notAFunction {f : Value} {args : List Value} : t = .call f args → f.tag ≠ .function →
      f.tag ≠ .builtin → Fails t vs s (.notAFunction f.tag)

/-- What an evaluation does that has got the values `vs` and asks for no more: its value, and what
becomes of the store. -/
inductive Deed (t : Task) (vs : List Value) (s : Store) :
    EStateM.Result TooDeep Store Value → Prop
  | plain {v : Value} : t.Plain v → Deed t vs s (.ok v s)
  | passed {v : Value} : ¬t.Answers → v ∈ vs → Deed t vs s (.ok v s)
  | unwrapped {v : Value} : t.Answers → v ∈ vs → Deed t vs s (.ok v.unwrap s)
  | found {v : Value} : t.Finds vs v → Deed t vs s (.ok v s)
  | built {v : Value} : t.Builds vs s.nextId v → Deed t vs s (.ok v s.takeId.2)
  | failed {f : Failure} : t.Fails vs s f → Deed t vs s (.ok (.error s.nextId f) s.takeId.2)
  | print {lines : List String} : Deed t vs s (.ok .null (s.print lines))
  | bind {env : FrameId} {token : Token} {id : Identifier} {n : Node} {v : Value} :
      t = .node env (.letStmt token (some id) n) → v ∈ vs →
      Deed t vs s (.ok .null (s.bind env id.name v))
  | lookUp {env : FrameId} {id : Identifier} {v : Value} : t = .node env (.identifier id) →
      s.meaning? env id.name = some v → Deed t vs s (.ok v s)
  | function {env : FrameId} {token : Token} {ps : List Identifier} {b : Node} :
      t = .node env (.function token ps b) →
      Deed t vs s (.ok (.function s.nextId ps b env) s.takeId.2)

/-! ## What an evaluation asks for -/

/-- What an evaluation can ask for: a part of its tree, in the same frame, the call of a value with
others, or the body of a function, in a new frame inside the one that the function was made in. -/
inductive Task.Demands (t : Task) (vs : List Value) (s : Store) (p : Run) : Prop
  | part {env : FrameId} {n e : Node} : t = .node env n → e ∈ n.operands ∨ e ∈ n.tails →
      p.task = .node env e → p.start = s → Demands t vs s p
  | call {env : FrameId} {token : Token} {callee : Node} {arguments : List Node} {f : Value}
      {args : List Value} : t = .node env (.call token callee arguments) → f ∈ vs →
      (∀ a ∈ args, a ∈ vs) → p.task = .call f args → p.start = s → Demands t vs s p
  | body {id : Nat} {ps : List Identifier} {b : Node} {i : FrameId} {args : List Value} :
      t = .call (.function id ps b i) args → p.task = .node s.nextFrame b →
      p.start = s.addInner i (Bindings.ofArguments ps args []) → Demands t vs s p

/-- In the store `s`, after the values `vs`, the computation is a plan for the task: whatever visits
the tasks that it asks for, it is at its end, or it asks for one that the task demands and goes on
with its value by a plan, unless that is an error. -/
inductive Plan (t : Task) : List Value → Store →
    ((Task → Traced Value) → List Run × EStateM.Result TooDeep Store Value) → Prop
  | ends {vs : List Value} {s : Store} {out : EStateM.Result TooDeep Store Value} :
      Deed t vs s out → Plan t vs s fun _ => ([], out)
  | asks {vs : List Value} {s s' : Store} {t' : Task}
      {next : Value → (Task → Traced Value) → Traced Value} :
      (∀ p : Run, p.task = t' → p.start = s' → t.Demands vs s p) →
      (∀ v st, v.isError = false → Plan t (v :: vs) st fun visit => next v visit st) →
      Plan t vs s fun visit => unlessError (visit t') (fun v => next v visit) s'

def Plans (t : Task) (vs : List Value) (m : (Task → Traced Value) → Traced Value) : Prop :=
  ∀ s, Plan t vs s fun visit => m visit s

/-! ## Computations that ask for no evaluation -/

section Deed

variable {t : Task} {vs : List Value} {s : Store}

theorem Task.plain_unary {op : String} {v w : Value} (h : v.unary op = .ok w) : t.Plain w := by
  rcases Value.unary_cases h with ⟨b, rfl⟩ | ⟨n, rfl⟩
  · exact .boolean b
  · exact .arithmetic n

theorem Task.plain_binary {op : String} {l r w : Value} (h : l.binary op r = .ok w) :
    t.Plain w := by
  rcases Value.binary_cases h with (⟨b, rfl⟩ | ⟨n, rfl⟩) | ⟨x, rfl⟩
  · exact .boolean b
  · exact .arithmetic n
  · exact .string x

theorem Deed.ofExcept {r : Except Failure Value} (hok : ∀ v, r = .ok v → Deed t vs s (.ok v s))
    (herror : ∀ f, r = .error f → t.Fails vs s f) : Deed t vs s (Eval.ofExcept r s) := by
  cases r with
  | ok v => exact hok v rfl
  | error f => exact .failed (herror f rfl)

theorem Deed.call {p : Primitive} {args : List Value} (ht : t = .call (.builtin p) args) :
    Deed t vs s (p.call args s) := by
  have hgives := p.gives_call args s
  generalize p.call args s = out at hgives ⊢
  cases hgives with
  | printed => exact .print
  | stringLength _ | arrayLength _ => exact .plain (.length ht)
  | found _ hv =>
    rcases hv with rfl | ⟨a, ha, hv⟩
    · exact .plain .null
    · exact .found (.given (ht ▸ List.mem_cons_of_mem _ ha) hv)
  | made hxs => exact .built (.primitive ht hxs)
  | failed hrefuses => exact .failed (.refused ht hrefuses)

end Deed

/-! ## Computations that ask for evaluations -/

section Plans

variable {t : Task} {vs : List Value}

theorem plans_lift {x : Eval Value} (h : ∀ s, Deed t vs s (x s)) : Plans t vs fun _ => lift x :=
  fun s => .ends (h s)

theorem plans_pure {v : Value} (h : ∀ s, Deed t vs s (.ok v s)) : Plans t vs fun _ => pure v :=
  fun s => .ends (h s)

theorem plans_null : Plans t vs fun _ => pure .null := plans_pure fun _ => .plain .null

theorem plans_ask {t' : Task} {next : Value → (Task → Traced Value) → Traced Value}
    (ht : ∀ s (p : Run), p.task = t' → p.start = s → t.Demands vs s p)
    (hnext : ∀ v, v.isError = false → Plans t (v :: vs) (next v)) :
    Plans t vs fun visit => unlessError (visit t') fun v => next v visit :=
  fun s => .asks (ht s) fun v st hv => hnext v hv st

theorem plans_visit {t' : Task} (hout : ¬t.Answers)
    (ht : ∀ s (p : Run), p.task = t' → p.start = s → t.Demands vs s p) :
    Plans t vs fun visit => visit t' := by
  have h : Plans t vs fun visit => unlessError (visit t') fun v => pure v :=
    plans_ask ht fun v _ => plans_pure fun _ => .passed hout List.mem_cons_self
  simpa only [unlessError_pure] using h

variable {env : FrameId} {n : Node}

/-- The parts of a node can be asked for in its frame. -/
theorem plans_part {e : Node} (he : e ∈ n.operands ∨ e ∈ n.tails)
    {next : Value → (Task → Traced Value) → Traced Value}
    (hnext : ∀ v, v.isError = false → Plans (.node env n) (v :: vs) (next v)) :
    Plans (.node env n) vs fun visit =>
      unlessError (visit (.node env e)) fun v => next v visit :=
  plans_ask (fun _ _ => .part rfl he) hnext

theorem plans_each {ns : List Node} (hns : ∀ e ∈ ns, e ∈ n.operands)
    {next : List Value → (Task → Traced Value) → Traced Value}
    (hnext : ∀ vs' ws, (∀ v ∈ vs', v ∈ ws) → (∀ v ∈ vs, v ∈ ws) →
      Plans (.node env n) ws (next vs')) :
    Plans (.node env n) vs fun visit =>
      each (fun e => visit (.node env e)) ns fun vs' => next vs' visit := by
  induction ns generalizing vs next with
  | nil => exact hnext [] vs nofun fun v hv => hv
  | cons e ns ih =>
    obtain ⟨he, hns⟩ := List.forall_mem_cons.mp hns
    refine plans_part (.inl he) fun v _ => ih hns fun vs' ws hvs' hws => ?_
    obtain ⟨hv, hws⟩ := List.forall_mem_cons.mp hws
    exact hnext (v :: vs') ws (List.forall_mem_cons.mpr ⟨hv, hvs'⟩) hws

theorem plans_eachEntry {token : Token} {all pairs : List (Node × Node)}
    (hpairs : ∀ pair ∈ pairs, pair ∈ all) {entries : List (Value.Key × Value)}
    (hentries : ∀ e ∈ entries, e.2 ∈ vs ∧ ∃ k ∈ vs, k.key? = some e.1)
    {next : List (Value.Key × Value) → (Task → Traced Value) → Traced Value}
    (hnext : ∀ es ws, (∀ e ∈ es, e.2 ∈ ws ∧ ∃ k ∈ ws, k.key? = some e.1) →
      Plans (.node env (.hash token all)) ws (next es)) :
    Plans (.node env (.hash token all)) vs fun visit =>
      eachEntry (fun e => visit (.node env e)) (fun es => next es visit) pairs entries := by
  induction pairs generalizing vs entries with
  | nil => exact hnext entries vs hentries
  | cons pair pairs ih =>
    obtain ⟨hpair, hpairs⟩ := List.forall_mem_cons.mp hpairs
    obtain ⟨hkey, hvalue⟩ := Node.mem_operands_hash (t := token) hpair
    refine plans_part (.inl hkey) fun k _ => ?_
    cases hk : k.key? with
    | none => exact plans_lift fun s => .failed (.key rfl List.mem_cons_self hk)
    | some key =>
      refine plans_part (.inl hvalue) fun v _ => ih hpairs fun e he => ?_
      have hlater : ∀ w ∈ vs, w ∈ v :: k :: vs := fun w hw =>
        List.mem_cons_of_mem _ (List.mem_cons_of_mem _ hw)
      rcases mem_upsert he with rfl | he
      · exact ⟨List.mem_cons_self, k, List.mem_cons_of_mem _ List.mem_cons_self, hk⟩
      · obtain ⟨hval, k', hk', hslot⟩ := hentries e he
        exact ⟨hlater _ hval, k', hlater k' hk', hslot⟩

/-- Statements one after the other. A program takes a marker off at the end, a block does not. -/
theorem plans_sequence {ns : List Node} (hns : ∀ e ∈ ns, e ∈ n.tails) {last : Value}
    (hlast : last = .null ∨ last ∈ vs) :
    (¬(Task.node env n).Answers →
        Plans (.node env n) vs fun visit => sequence (fun e => visit (.node env e)) last ns) ∧
      ((Task.node env n).Answers → Plans (.node env n) vs fun visit =>
        Value.unwrap <$> sequence (fun e => visit (.node env e)) last ns) := by
  induction ns generalizing vs last with
  | nil =>
    rcases hlast with rfl | hlast
    · exact ⟨fun _ => plans_null, fun _ => plans_null⟩
    · exact ⟨fun hout => plans_pure fun _ => .passed hout hlast,
        fun hout => plans_pure fun _ => .unwrapped hout hlast⟩
  | cons e ns ih =>
    obtain ⟨he, hns⟩ := List.forall_mem_cons.mp hns
    simp only [sequence_cons, map_unlessError]
    constructor
    · refine fun hout => plans_part (.inr he) fun v _ => ?_
      cases v.isReturned with
      | true => exact plans_pure fun _ => .passed hout List.mem_cons_self
      | false => exact (ih hns (.inr List.mem_cons_self)).1 hout
    · refine fun hout => plans_part (.inr he) fun v _ => ?_
      cases v.isReturned with
      | true => exact plans_pure fun _ => .unwrapped hout List.mem_cons_self
      | false => exact (ih hns (.inr List.mem_cons_self)).2 hout

end Plans

/-! ## Evaluations -/

theorem plans_node (env : FrameId) (n : Node) :
    Plans (.node env n) [] fun visit => step visit (.node env n) := by
  cases n with
  | absent => exact plans_null
  | integer _ _ => exact plans_pure fun _ => .plain (.literal rfl)
  | string _ x => exact plans_pure fun _ => .plain (.string x)
  | boolean _ b => exact plans_pure fun _ => .plain (.boolean b)
  | program _ statements => exact (plans_sequence (fun _ h => h) (.inl rfl)).2 trivial
  | block _ statements => exact (plans_sequence (fun _ h => h) (.inl rfl)).1 id
  | exprStmt _ expression =>
    exact plans_visit id fun _ _ => .part rfl (.inr (List.mem_singleton_self _))
  | returnStmt _ value =>
    exact plans_part (.inl (List.mem_singleton_self _)) fun v _ =>
      plans_lift fun s => .built (.marker rfl List.mem_cons_self)
  | letStmt _ name value =>
    refine plans_part (.inl (List.mem_singleton_self _)) fun v _ => plans_lift fun s => ?_
    cases name with
    | none => exact .plain .null
    | some id => exact .bind rfl List.mem_cons_self
  | array _ elements =>
    exact plans_each (fun _ h => h) fun vs ws hvs _ => plans_lift fun s => .built (.array rfl hvs)
  | hash _ pairs =>
    exact plans_eachEntry (fun _ h => h) (List.forall_mem_nil _) fun es ws hes =>
      plans_lift fun s => .built (.hash rfl hes)
  | function _ parameters body => exact plans_lift fun s => .function rfl
  | unary _ op right =>
    exact plans_part (.inl (List.mem_singleton_self _)) fun v _ => plans_lift fun s =>
      .ofExcept (fun w h => .plain (Task.plain_unary h)) fun f h =>
        .unary rfl List.mem_cons_self h
  | binary _ left op right =>
    exact plans_part (.inl List.mem_cons_self) fun l _ =>
      plans_part (.inl (List.mem_cons_of_mem _ (List.mem_singleton_self _))) fun r _ =>
        plans_lift fun s => .ofExcept (fun w h => .plain (Task.plain_binary h)) fun f h =>
          .binary rfl (List.mem_cons_of_mem _ List.mem_cons_self) List.mem_cons_self h
  | index _ left i =>
    exact plans_part (.inl List.mem_cons_self) fun l _ =>
      plans_part (.inl (List.mem_cons_of_mem _ (List.mem_singleton_self _))) fun k _ =>
        plans_lift fun s => by
          refine .ofExcept (fun w h => ?_) fun f h =>
            .index rfl (List.mem_cons_of_mem _ List.mem_cons_self) List.mem_cons_self h
          rcases Value.index_cases h with rfl | hw
          · exact .plain .null
          · exact .found (.indexed rfl (List.mem_cons_of_mem _ List.mem_cons_self) hw)
  | ifElse _ condition consequence alternative =>
    refine plans_part (.inl (List.mem_singleton_self _)) fun c _ => ?_
    split
    · exact plans_visit id fun _ _ => .part rfl (.inr List.mem_cons_self)
    · split
      · exact plans_null
      · exact plans_visit id fun _ _ =>
          .part rfl (.inr (List.mem_cons_of_mem _ (List.mem_singleton_self _)))
  | identifier id =>
    intro s
    cases hv : s.meaning? env id.name with
    | none =>
      simp only [step_unbound hv]
      exact .ends (.failed (.unbound rfl hv))
    | some v =>
      simp only [step_bound hv]
      exact .ends (.lookUp rfl hv)
  | call _ callee arguments =>
    refine plans_part (.inl List.mem_cons_self) fun f _ => ?_
    have harguments : ∀ e ∈ arguments, e ∈ callee :: arguments := fun _ => List.mem_cons_of_mem _
    refine plans_each harguments fun vs ws hvs hws => ?_
    exact plans_visit id fun _ _ => .call rfl (hws f List.mem_cons_self) hvs

/-- The call of a function asks for its body. -/
theorem plan_function (id : Nat) (ps : List Identifier) (b : Node) (i : FrameId)
    (args vs : List Value) (s : Store) :
    Plan (.call (.function id ps b i) args) vs s fun visit =>
      step visit (.call (.function id ps b i) args) s := by
  have hbody : ∀ visit : Task → Traced Value,
      Value.unwrap <$> visit (.node s.nextFrame b) =
        unlessError (visit (.node s.nextFrame b)) fun v => pure v.unwrap := fun visit => by
    conv_lhs => rw [← unlessError_pure (visit _), map_unlessError]
    rfl
  simp only [step_function, hbody]
  exact .asks (fun p => .body rfl) fun v st _ => .ends (.unwrapped trivial List.mem_cons_self)

/-- Every evaluation is by a plan for its task. -/
theorem plan_step (t : Task) (s : Store) : Plan t [] s fun visit => step visit t s := by
  cases t with
  | node env n => exact plans_node env n s
  | call f args =>
    cases f with
    | function id ps b i => exact plan_function id ps b i args _ s
    | builtin p => exact .ends (.call rfl)
    | registered _ _ result => exact .ends (.found (.given List.mem_cons_self .result))
    | _ => exact .ends (.failed (.notAFunction rfl nofun nofun))

end MonkeyLang
