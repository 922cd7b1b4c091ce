import MonkeyLang.Proofs.Evaluation.Discipline
import MonkeyLang.Proofs.Evaluation.Frames
import MonkeyLang.Proofs.Node.Mention
import MonkeyLang.Proofs.Store.Forgetting

/-!
Evaluation without a name. Where neither a tree nor a function that it can come by mentions a name,
the tree is evaluated alike whether the name is bound or not, and what the two runs leave differs
in nothing but what the name is bound to.
-/

namespace MonkeyLang

/-- A function that does not mention the name, and was made in a frame that is seen. -/
def Value.Unaware (name : String) (sees : FrameId → Prop) (v : Value) : Prop :=
  ∀ id ps body i, v = .function id ps body i →
    (∀ p ∈ ps, p.name ≠ name) ∧ body.Avoids name ∧ sees i

/-- The frames that are seen bind only what does not mention the name, other than to the name
itself, and see no other frames. -/
structure Store.Oblivious (name : String) (sees : FrameId → Prop) (s : Store) : Prop where
  bindings : ∀ i, sees i → ∀ b ∈ (s.frame i).bindings, b.1 ≠ name → b.2.All (Value.Unaware name sees)
  enclosing : ∀ i, sees i → ∀ j ∈ (s.frame i).enclosing, sees j
  functions : ∀ b ∈ s.functions, b.2.All (Value.Unaware name sees)
  fresh : ∀ i, s.nextFrame ≤ i → sees i

variable {name : String} {sees : FrameId → Prop}

namespace Store.Oblivious

variable {s : Store} {i : FrameId}

theorem takeId (h : s.Oblivious name sees) : s.takeId.2.Oblivious name sees :=
  ⟨h.bindings, h.enclosing, h.functions, h.fresh⟩

theorem print (h : s.Oblivious name sees) (lines : List String) :
    (s.print lines).Oblivious name sees :=
  ⟨h.bindings, h.enclosing, h.functions, h.fresh⟩

theorem scope (h : s.Oblivious name sees) (hi : sees i) : ∀ j ∈ s.scope i, sees j := by
  intro j hj
  rcases List.mem_cons.mp hj with rfl | hj
  · exact hi
  · exact h.enclosing i hi j hj

theorem meaning (h : s.Oblivious name sees) (hi : sees i) {x : String} (hx : x ≠ name)
    {v : Value} (hv : s.meaning? i x = some v) : v.All (Value.Unaware name sees) := by
  rw [← Store.meaning?_without hx] at hv
  rcases (s.without name).exists_mem_of_meaning? i hv with ⟨j, hj, b, hb, rfl⟩ | ⟨b, hb, rfl⟩
  · rw [Store.scope, Store.frame_without] at hj
    rw [Store.frame_without] at hb
    obtain ⟨hb, hname⟩ := Bindings.mem_without.mp hb
    exact h.bindings j (h.scope hi j hj) b hb hname
  · exact h.functions b hb

theorem bind (h : s.Oblivious name sees) (i : FrameId) (x : String) {v : Value}
    (hv : v.All (Value.Unaware name sees)) : (s.bind i x v).Oblivious name sees where
  bindings j hj b hb hname := by
    rcases mem_bindings_bind hb with ⟨rfl, -⟩ | hb
    · exact hv
    · exact h.bindings j hj b hb hname
  enclosing j hj k hk := h.enclosing j hj k (by rwa [enclosing_bind] at hk)
  functions := h.functions
  fresh j hj := h.fresh j (by simpa using hj)

theorem addInner (h : s.Oblivious name sees) (hi : sees i) {bs : Bindings}
    (hbs : ∀ b ∈ bs, b.2.All (Value.Unaware name sees)) :
    (s.addInner i bs).Oblivious name sees where
  bindings j hj b hb hname := by
    rcases mem_bindings_addFrame hb with hb | hb
    · exact hbs b hb
    · exact h.bindings j hj b hb hname
  enclosing j hj k hk := by
    rcases mem_enclosing_addFrame hk with hk | hk
    · exact h.scope hi k hk
    · exact h.enclosing j hj k hk
  functions := h.functions
  fresh j hj := h.fresh j (Nat.le_of_succ_le (by rwa [s.nextFrame_addInner] at hj))

end Store.Oblivious

namespace Eval

variable {α β : Type}

/-- What a computation came to, with a store in which the name is not bound. -/
def forget (name : String) : EStateM.Result TooDeep Store α → EStateM.Result TooDeep Store α
  | .ok a s => .ok a (s.without name)
  | .error e s => .error e (s.without name)

/-- The name still plays no part in the store that was left, and the value has a property. -/
def Leaves (name : String) (sees : FrameId → Prop) (Q : α → Prop) :
    EStateM.Result TooDeep Store α → Prop
  | .ok a s => s.Oblivious name sees ∧ Q a
  | .error _ s => s.Oblivious name sees

/-- It makes no difference to the computation whether the name is bound. -/
def Ignores (name : String) (sees : FrameId → Prop) (Q : α → Prop) (x : Eval α) : Prop :=
  ∀ s : Store, s.Oblivious name sees →
    x (s.without name) = forget name (x s) ∧ Leaves name sees Q (x s)

namespace Ignores

theorem pure {Q : α → Prop} {a : α} (ha : Q a) : Ignores name sees Q (pure a : Eval α) :=
  fun _ hs => ⟨rfl, hs, ha⟩

theorem bind {Q : α → Prop} {R : β → Prop} {x : Eval α} {next : α → Eval β}
    (hx : Ignores name sees Q x) (hnext : ∀ a, Q a → Ignores name sees R (next a)) :
    Ignores name sees R (x >>= next) := by
  intro s hs
  obtain ⟨heq, hleaves⟩ := hx s hs
  show EStateM.bind x next (s.without name) = forget name (EStateM.bind x next s) ∧
    Leaves name sees R (EStateM.bind x next s)
  unfold EStateM.bind
  rw [heq]
  revert hleaves
  cases x s with
  | ok a s' =>
    rintro ⟨hs', ha⟩
    exact hnext a ha s' hs'
  | error e s' =>
    intro hs'
    exact ⟨rfl, hs'⟩

theorem map {Q : α → Prop} {R : β → Prop} {x : Eval α} {g : α → β}
    (hx : Ignores name sees Q x) (hg : ∀ a, Q a → R (g a)) :
    Ignores name sees R (g <$> x) := by
  rw [map_eq_pure_bind]
  exact hx.bind fun a ha => .pure (hg a ha)

/-- What is done with the store may hang on it, but not on whether the name is bound. -/
theorem get {Q : α → Prop} {next : Store → Eval α}
    (hsame : ∀ s : Store, next (s.without name) = next s)
    (hnext : ∀ s : Store, s.Oblivious name sees → Ignores name sees Q (next s)) :
    Ignores name sees Q (get >>= next) := by
  intro s hs
  show next (s.without name) (s.without name) = forget name (next s s) ∧
    Leaves name sees Q (next s s)
  rw [hsame]
  exact hnext s hs s hs

theorem freshId : Ignores name sees (fun _ => True) freshId :=
  fun _ hs => ⟨rfl, hs.takeId, trivial⟩

abbrev Yields (name : String) (sees : FrameId → Prop) (x : Eval Value) : Prop :=
  Ignores name sees (·.All (Value.Unaware name sees)) x

theorem fail (failure : Failure) : Yields name sees (fail failure) :=
  freshId.bind fun _ _ => .pure (Value.all_atom nofun nofun nofun)

theorem ofExcept {r : Except Failure Value}
    (hr : ∀ v, r = .ok v → v.All (Value.Unaware name sees)) : Yields name sees (ofExcept r) := by
  cases r with
  | ok v => exact .pure (hr v rfl)
  | error failure => exact fail failure

theorem unlessError {part : Eval Value} {next : Value → Eval Value} (hpart : Yields name sees part)
    (hnext : ∀ v : Value, v.All (Value.Unaware name sees) → Yields name sees (next v)) :
    Yields name sees (unlessError part next) := by
  refine hpart.bind fun v hv => ?_
  split
  · exact .pure hv
  · exact hnext v hv

section lists

variable {ev : Node → Eval Value}

theorem each {ns : List Node} {next : List Value → Eval Value}
    (hev : ∀ n ∈ ns, Yields name sees (ev n))
    (hnext : ∀ vs : List Value, (∀ v ∈ vs, v.All (Value.Unaware name sees)) →
      Yields name sees (next vs)) :
    Yields name sees (each ev ns next) := by
  induction ns generalizing next with
  | nil => exact hnext [] nofun
  | cons n ns ih =>
    rw [List.forall_mem_cons] at hev
    exact hev.1.unlessError fun v hv => ih hev.2 fun vs hvs =>
      hnext (v :: vs) (List.forall_mem_cons.mpr ⟨hv, hvs⟩)

theorem eachEntry {pairs : List (Node × Node)} {entries : List (Value.Key × Value)}
    {next : List (Value.Key × Value) → Eval Value}
    (hev : ∀ p ∈ pairs, Yields name sees (ev p.1) ∧ Yields name sees (ev p.2))
    (hentries : ∀ e ∈ entries, e.2.All (Value.Unaware name sees))
    (hnext : ∀ es : List (Value.Key × Value), (∀ e ∈ es, e.2.All (Value.Unaware name sees)) →
      Yields name sees (next es)) :
    Yields name sees (eachEntry ev next pairs entries) := by
  induction pairs generalizing entries with
  | nil => exact hnext entries hentries
  | cons pair pairs ih =>
    rw [List.forall_mem_cons] at hev
    refine hev.1.1.unlessError fun key _ => ?_
    cases key.key? with
    | none => exact fail _
    | some key =>
      refine hev.1.2.unlessError fun value hvalue => ih hev.2 fun e he => ?_
      rcases mem_upsert he with rfl | he
      · exact hvalue
      · exact hentries e he

theorem sequence {ns : List Node} {last : Value} (hev : ∀ n ∈ ns, Yields name sees (ev n))
    (hlast : last.All (Value.Unaware name sees)) : Yields name sees (sequence ev last ns) := by
  induction ns generalizing last with
  | nil => exact .pure hlast
  | cons n ns ih =>
    rw [List.forall_mem_cons] at hev
    refine hev.1.bind fun v hv => ?_
    split
    · exact .pure hv
    · exact ih hev.2 hv

end lists

/-- A primitive sees no frames, and gives what is in its arguments or new. -/
theorem call (p : Primitive) {args : List Value}
    (hargs : ∀ a ∈ args, a.All (Value.Unaware name sees)) : Yields name sees (p.call args) := by
  intro s hs
  have hforget : p.call args (s.without name) = forget name (p.call args s) := by
    unfold Primitive.call
    split <;> rfl
  refine ⟨hforget, ?_⟩
  have hheld : ∀ x, (∃ a ∈ args, a.Stores x) → x.All (Value.Unaware name sees) := by
    rintro x ⟨a, ha, hx⟩
    exact (hargs a ha).of_stores hx
  have hgives := p.gives_call args s
  generalize p.call args s = result at hgives ⊢
  cases hgives with
  | printed => exact ⟨hs.print _, Value.all_atom nofun nofun nofun⟩
  | stringLength _ | arrayLength _ => exact ⟨hs, Value.all_atom nofun nofun nofun⟩
  | found _ hv =>
    refine ⟨hs, ?_⟩
    rcases hv with rfl | hv
    · exact Value.all_atom nofun nofun nofun
    · exact hheld _ hv
  | made hxs =>
    refine ⟨hs.takeId, Value.all_array nofun fun x hx => ?_⟩
    rcases hxs x hx with hx | ⟨-, hx⟩
    · exact hheld x hx
    · exact hargs x hx
  | failed _ => exact ⟨hs.takeId, Value.all_atom nofun nofun nofun⟩

end Ignores

section step

open Ignores

variable {limit : Nat}
  (heval : ∀ env n, sees env → n.Avoids name → Yields name sees (eval limit env n))
  (hcall : ∀ (f : Value) args, f.All (Value.Unaware name sees) →
    (∀ a ∈ args, a.All (Value.Unaware name sees)) → Yields name sees (apply limit f args))

include heval

include hcall in
/-- The evaluation of a tree that does not mention the name. -/
theorem ignores_node {env : FrameId} (henv : sees env) {n : Node} (hn : n.Avoids name) :
    Yields name sees (eval (limit + 1) env n) := by
  have hnull : Value.null.All (Value.Unaware name sees) := Value.all_atom nofun nofun nofun
  have hoperand : ∀ e ∈ n.operands, Yields name sees (eval limit env e) :=
    fun e he => heval env e henv (hn.operand he)
  have htail : ∀ e ∈ n.tails, Yields name sees (eval limit env e) :=
    fun e he => heval env e henv (hn.tail he)
  cases n with
  | absent => exact .pure hnull
  | integer _ _ | string _ _ | boolean _ _ => exact .pure (Value.all_atom nofun nofun nofun)
  | program _ statements => exact (Ignores.sequence htail hnull).map fun v hv => hv.unwrap
  | block _ statements => exact Ignores.sequence htail hnull
  | exprStmt _ expression => exact htail expression (List.mem_singleton_self _)
  | returnStmt _ value =>
    refine (hoperand value (List.mem_singleton_self _)).unlessError fun v hv => ?_
    refine Ignores.freshId.bind fun id _ => .pure (Value.all_of_parts nofun nofun ?_)
    rintro _ _ ⟨⟩
    exact hv
  | letStmt _ x value =>
    refine (hoperand value (List.mem_singleton_self _)).unlessError fun v hv => ?_
    cases x with
    | none => exact .pure hnull
    | some id =>
      have hbind : Ignores name sees (fun _ => True)
          (modify (·.bind env id.name v) : Eval PUnit) :=
        fun s hs => ⟨congrArg (EStateM.Result.ok _) (Store.bind_without hn.binding).symm,
          hs.bind env id.name hv, trivial⟩
      exact hbind.bind fun _ _ => .pure hnull
  | array _ elements =>
    exact .each hoperand fun vs hvs => Ignores.freshId.bind fun id _ =>
      .pure (Value.all_array nofun hvs)
  | hash _ pairs =>
    refine .eachEntry (fun p hp => ?_) nofun fun es hes => Ignores.freshId.bind fun id _ =>
      .pure (Value.all_hash nofun hes)
    obtain ⟨hkey, hvalue⟩ := Node.mem_operands_hash (t := default) hp
    exact ⟨hoperand p.1 hkey, hoperand p.2 hvalue⟩
  | function _ parameters body =>
    refine Ignores.freshId.bind fun id _ => .pure (Value.all_atom ?_ nofun nofun)
    rintro _ _ _ _ ⟨⟩
    exact ⟨hn.parameters, hn.body, henv⟩
  | unary _ op right =>
    refine (hoperand right (List.mem_singleton_self _)).unlessError fun v _ => .ofExcept fun w hw => ?_
    rcases Value.unary_cases hw with ⟨b, rfl⟩ | ⟨n, rfl⟩ <;> exact Value.all_atom nofun nofun nofun
  | binary _ left op right =>
    refine (hoperand left (by simp [Node.operands])).unlessError fun l _ =>
      (hoperand right (by simp [Node.operands])).unlessError fun r _ => .ofExcept fun w hw => ?_
    rcases Value.binary_cases hw with (⟨b, rfl⟩ | ⟨n, rfl⟩) | ⟨s, rfl⟩ <;>
      exact Value.all_atom nofun nofun nofun
  | index _ left i =>
    refine (hoperand left (by simp [Node.operands])).unlessError fun l hl =>
      (hoperand i (by simp [Node.operands])).unlessError fun n _ => .ofExcept fun w hw => ?_
    rcases Value.index_cases hw with rfl | hw
    · exact hnull
    · exact hl.of_stores hw
  | ifElse _ condition consequence alternative =>
    refine (hoperand condition (List.mem_singleton_self _)).unlessError fun c _ => ?_
    split
    · exact htail consequence (by simp [Node.tails])
    · split
      · exact .pure hnull
      · exact htail alternative (by simp [Node.tails])
  | identifier id =>
    refine .get (fun s => by rw [Store.meaning?_without hn.identifier]) fun s hs => ?_
    cases hv : s.meaning? env id.name with
    | none => exact .fail _
    | some v => exact .pure (hs.meaning henv hn.identifier hv)
  | call _ callee arguments =>
    exact (hoperand callee List.mem_cons_self).unlessError fun f hf =>
      .each (fun a ha => hoperand a (List.mem_cons_of_mem _ ha)) fun vs hvs => hcall f vs hf hvs

/-- A call runs its body in a new frame, in which only parameters are bound. -/
theorem ignores_call {f : Value} {args : List Value} (hf : f.All (Value.Unaware name sees))
    (hargs : ∀ a ∈ args, a.All (Value.Unaware name sees)) :
    Yields name sees (apply (limit + 1) f args) := by
  cases f with
  | function id parameters body frame =>
    obtain ⟨hparameters, hbody, hframe⟩ := hf.self _ _ _ _ rfl
    intro s hs
    have hbound : ∀ b ∈ Bindings.ofArguments parameters args [],
        b.2.All (Value.Unaware name sees) :=
      Bindings.forall_mem_ofArguments hargs (Value.all_atom nofun nofun nofun)
    have h := (heval s.nextFrame body (hs.fresh _ (Nat.le_refl _)) hbody).map
      (fun v hv => hv.unwrap) _ (hs.addInner hframe hbound)
    rw [Store.addInner_without, Bindings.ofArguments_without hparameters] at h
    show (Value.unwrap <$> eval limit (s.without name).nextFrame body)
      ((s.without name).addInner frame (Bindings.ofArguments parameters args [])) = _ ∧ _
    rw [Store.nextFrame_without]
    exact h
  | builtin p => exact .call p hargs
  | registered _ _ result => exact .pure (hf.of_stores .result)
  | _ => exact .fail _

end step

/-- Trees and calls are evaluated alike with and without a name that nothing mentions, at whatever
depth the evaluation is cut off. -/
theorem ignores_eval (limit : Nat) :
    (∀ env n, sees env → n.Avoids name → Ignores.Yields name sees (eval limit env n)) ∧
      ∀ (f : Value) args, f.All (Value.Unaware name sees) →
        (∀ a ∈ args, a.All (Value.Unaware name sees)) →
        Ignores.Yields name sees (apply limit f args) := by
  induction limit with
  | zero => exact ⟨fun _ _ _ _ _ hs => ⟨rfl, hs⟩, fun _ _ _ _ _ hs => ⟨rfl, hs⟩⟩
  | succ limit ih =>
    exact ⟨fun _ _ henv hn => ignores_node ih.1 ih.2 henv hn,
      fun _ _ hf hargs => ignores_call ih.1 hf hargs⟩

end Eval

end MonkeyLang
