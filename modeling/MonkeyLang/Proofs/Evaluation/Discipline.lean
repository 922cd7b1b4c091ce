import MonkeyLang.Proofs.Evaluation.Contract
import MonkeyLang.Proofs.Node
import MonkeyLang.Proofs.Policy

/-!
Disciplines: what every part of a value and every node of a tree has to be. A discipline that the
operations on values respect is kept by all evaluations of trees that keep it, in all frames, with
everything that is made on the way. Errors are left out of this, as they are never part of
anything, and a return marker may be barred from all places but that of a result.
-/

namespace MonkeyLang

/-! ## Values all of whose parts have a property -/

namespace Value

/-- All that occurs in a value has the property, the value included. -/
def All (P : Value → Prop) (v : Value) : Prop := ∀ u : Value, u.Part v → P u

variable {P : Value → Prop} {v x : Value}

theorem All.self (h : v.All P) : P v := h v .self

theorem All.of_stores (h : v.All P) (hx : v.Stores x) : x.All P := fun u hu => h u (.stored hx hu)

theorem All.unwrap (h : v.All P) : v.unwrap.All P := by
  cases v with
  | returned id x => exact fun u hu => h u (.marked hu)
  | _ => exact h

theorem all_of_parts (h : P v) (hs : ∀ x, v.Stores x → x.All P)
    (hm : ∀ id x, v = .returned id x → x.All P) : v.All P := by
  intro u hu
  cases hu with
  | self => exact h
  | stored hx hu => exact hs _ hx u hu
  | marked hu => exact hm _ _ rfl u hu

/-- A value that holds no others. -/
theorem all_atom (h : P v) (hs : ∀ x, ¬v.Stores x) (hm : ∀ id x, v ≠ .returned id x) : v.All P :=
  all_of_parts h (fun x hx => absurd hx (hs x)) fun id x hx => absurd hx (hm id x)

theorem all_array {id : Nat} {vs : List Value} (h : P (.array id vs)) (hvs : ∀ v ∈ vs, v.All P) :
    (Value.array id vs).All P := by
  refine all_of_parts h (fun x hx => ?_) nofun
  cases hx with
  | element hmem => exact hvs x hmem

theorem all_hash {id : Nat} {es : List (Key × Value)} (h : P (.hash id es))
    (hes : ∀ e ∈ es, e.2.All P) : (Value.hash id es).All P := by
  refine all_of_parts h (fun x hx => ?_) nofun
  cases hx with
  | entry hmem => exact hes _ hmem

/-- A marker of an allowed value, if the marker itself is allowed. -/
theorem all_returned {id : Nat} (h : P (.returned id v)) (hv : v.All P) :
    (Value.returned id v).All P := by
  refine all_of_parts h nofun fun id x hx => ?_
  cases hx
  exact hv

section steps

variable {t : Task} {vs : List Value} (hgiven : ∀ w ∈ t.given, w.All P) (hvs : ∀ w ∈ vs, w.All P)

include hgiven hvs

/-- What is found in values all of whose parts have the property is such a value. -/
theorem all_of_finds (h : t.Finds vs v) : v.All P := by
  cases h with
  | given hmem hv => exact (hgiven _ hmem).of_stores hv
  | indexed _ hmem hv => exact (hvs _ hmem).of_stores hv

/-- What is made of them is one too, if it has the property itself. -/
theorem all_of_builds {id : Nat} (h : t.Builds vs id v) (hv : P v) : v.All P := by
  cases h with
  | array _ hxs => exact all_array hv fun x hx => hvs x (hxs x hx)
  | hash _ hes => exact all_hash hv fun e he => hvs e.2 (hes e he).1
  | primitive ht hxs =>
    refine all_array hv fun x hx => ?_
    have hargs := hgiven
    rw [ht] at hargs
    rcases hxs x hx with ⟨a, ha, hx⟩ | ⟨-, ha⟩
    · exact (hargs a (List.mem_cons_of_mem _ ha)).of_stores hx
    · exact hargs x (List.mem_cons_of_mem _ ha)
  | marker _ hmem => exact all_returned hv (hvs _ hmem)

end steps

theorem all_of_plain {t : Task} (h : t.Plain v) (hv : P v) : v.All P := by
  cases h <;> exact all_atom hv nofun nofun

theorem ofKey_of_key? {k : Key} (h : v.key? = some k) : ofKey k = v := by
  cases v with
  | integer _ | boolean _ | string _ =>
    cases h
    rfl
  | _ => cases h

end Value

/-! ## Disciplines -/

/-- What each part of a value has to be, and each node of a tree. -/
structure Discipline where
  part : Value → Prop
  node : Node → Prop

namespace Discipline

variable (d : Discipline)

/-- The operations on values respect the discipline. A marker must be allowed as a part, unless no
operand returns. -/
structure Lawful : Prop where
  null : d.part .null
  boolean : ∀ b, d.part (.boolean b)
  string : ∀ s, d.part (.string s)
  arithmetic : ∀ n, d.part (.integer (Word.wrap n))
  array : ∀ id vs, d.part (.array id vs)
  hash : ∀ id es, (∀ e ∈ es, d.part (.ofKey e.1)) → d.part (.hash id es)
  literal : ∀ t n, d.node (.integer t n) → d.part (.integer n)
  closure : ∀ t id ps b i, (Node.function t ps b).Each d.node → d.part (.function id ps b i)
  body : ∀ id ps b i, d.part (.function id ps b i) → b.Each d.node
  marker : (∀ id v, d.part (.returned id v)) ∨ ∀ n, d.node n → ∀ e ∈ n.operands, e.returns = false

structure Fair (s : Store) : Prop where
  bindings : ∀ i, ∀ b ∈ (s.frame i).bindings, b.2.All d.part
  functions : ∀ b ∈ s.functions, b.2.All d.part

def Asks : Task → Prop
  | .node _ n => n.Each d.node
  | .call f args => f.All d.part ∧ ∀ a ∈ args, a.All d.part

/-- What an evaluation may yield: an error, a value that keeps the discipline, or such a value in a
return marker, if it may return. -/
inductive Result (returns : Bool) : Value → Prop
  | failed {v : Value} : v.isError = true → Result returns v
  | plain {v : Value} : v.All d.part → Result returns v
  | marked {id : Nat} {v : Value} : returns = true → v.All d.part → Result returns (.returned id v)

/-- Only a tree can return; a call takes the marker off. -/
def returns : Task → Bool
  | .node _ n => n.returns
  | .call _ _ => false

/-- A run that began in a fair store and left one behind, with a result as it has to be. -/
structure Fits (q : Run) : Prop where
  start : d.Fair q.start
  task : d.Asks q.task
  stop : d.Fair q.stop
  value : ∀ v, q.Yields v → d.Result (returns q.task) v

/-- The length that a run of `len` yields is as it has to be. -/
def Measures (q : Run) : Prop :=
  ∀ args n, q.task = .call (.builtin .len) args → q.Yields (.integer n) → d.part (.integer n)

/-- A value that a task has got from one that it has asked for: it keeps the discipline, or it may
be in a return marker, as it comes from a tail of the tree or from the body of the function. -/
inductive Gets (t : Task) : Value → Prop
  | whole {v : Value} : v.All d.part → Gets t v
  | tail {env : FrameId} {n e : Node} {v : Value} : t = .node env n → e ∈ n.tails →
      d.Result e.returns v → Gets t v
  | body {id : Nat} {ps : List Identifier} {b : Node} {i : FrameId} {args : List Value} {r : Bool}
      {v : Value} : t = .call (.function id ps b i) args → d.Result r v → Gets t v

structure Goes (q : Run) (vs : List Value) (s : Store) : Prop where
  measures : ∀ p : Run, p.Within q → d.Measures p
  fair : d.Fair s
  task : d.Asks q.task
  got : ∀ v ∈ vs, d.Gets q.task v

/-- A discipline is a contract: stores stay fair, and runs yield results as they have to be. -/
def contract : Contract where
  during := d.Goes
  leaves _ := d.Fair
  yields q _ := d.Result (returns q.task)

variable {d} {s : Store}

/-! ## Results -/

theorem Result.mono {r r' : Bool} {v : Value} (h : d.Result r v) (hr : r = true → r' = true) :
    d.Result r' v := by
  cases h with
  | failed h => exact .failed h
  | plain h => exact .plain h
  | marked h hv => exact .marked (hr h) hv

/-- Taking a marker off leaves none. -/
theorem Result.unwrap {r r' : Bool} {v : Value} (h : d.Result r v) : d.Result r' v.unwrap := by
  cases h with
  | failed h =>
    rw [Value.unwrap_of_isError h]
    exact .failed h
  | plain h => exact .plain h.unwrap
  | marked _ hv => exact .plain hv

/-- What an operand yields keeps the discipline, unless it is an error. -/
theorem Lawful.operand (hd : d.Lawful) {n e : Node} {v : Value} (hn : d.node n)
    (he : e ∈ n.operands) (h : d.Result e.returns v) : d.Result false v := by
  cases h with
  | failed h => exact .failed h
  | plain h => exact .plain h
  | @marked id w hret hw =>
    rcases hd.marker with hpart | hsilent
    · exact .plain (Value.all_returned (hpart id w) hw)
    · rw [hsilent n hn e he] at hret
      cases hret

theorem Result.all {v : Value} (h : d.Result false v) (herr : v.isError = false) :
    v.All d.part := by
  cases h with
  | failed h =>
    rw [h] at herr
    cases herr
  | plain h => exact h
  | marked h _ => cases h

section Lawful

variable (hd : d.Lawful)

include hd

theorem Lawful.all_null : Value.null.All d.part := Value.all_atom hd.null nofun nofun

theorem Lawful.all_boolean (b : Bool) : (Value.boolean b).All d.part :=
  Value.all_atom (hd.boolean b) nofun nofun

theorem Lawful.all_string (s : String) : (Value.string s).All d.part :=
  Value.all_atom (hd.string s) nofun nofun

theorem Lawful.all_arithmetic (n : Int) : (Value.integer (Word.wrap n)).All d.part :=
  Value.all_atom (hd.arithmetic n) nofun nofun

theorem Lawful.all_function {t : Token} {id : Nat} {ps : List Identifier} {b : Node} {i : FrameId}
    (h : (Node.function t ps b).Each d.node) : (Value.function id ps b i).All d.part :=
  Value.all_atom (hd.closure t id ps b i h) nofun nofun

theorem Lawful.all_unary {op : String} {v w : Value} (h : v.unary op = .ok w) : w.All d.part := by
  rcases Value.unary_cases h with ⟨b, rfl⟩ | ⟨n, rfl⟩
  · exact hd.all_boolean b
  · exact hd.all_arithmetic n

theorem Lawful.all_binary {op : String} {l r w : Value} (h : l.binary op r = .ok w) :
    w.All d.part := by
  rcases Value.binary_cases h with (⟨b, rfl⟩ | ⟨n, rfl⟩) | ⟨s, rfl⟩
  · exact hd.all_boolean b
  · exact hd.all_arithmetic n
  · exact hd.all_string s

theorem Lawful.all_index {l i w : Value} (hl : l.All d.part) (h : l.index i = .ok w) :
    w.All d.part := by
  rcases Value.index_cases h with rfl | hw
  · exact hd.all_null
  · exact hl.of_stores hw

/-- A parameter is bound to an argument, or to null if there is none left. -/
theorem Lawful.all_ofArguments (ps : List Identifier) {args : List Value}
    (hargs : ∀ a ∈ args, a.All d.part) :
    ∀ b ∈ Bindings.ofArguments ps args [], b.2.All d.part :=
  Bindings.forall_mem_ofArguments hargs hd.all_null

end Lawful

/-! ## Stores -/

theorem Fair.takeId (h : d.Fair s) : d.Fair s.takeId.2 := ⟨h.bindings, h.functions⟩

theorem Fair.print (h : d.Fair s) (lines : List String) : d.Fair (s.print lines) :=
  ⟨h.bindings, h.functions⟩

theorem Fair.bind (h : d.Fair s) (i : FrameId) (x : String) {v : Value} (hv : v.All d.part) :
    d.Fair (s.bind i x v) := by
  refine ⟨fun j b hb => ?_, h.functions⟩
  rcases Store.mem_bindings_bind hb with ⟨rfl, -⟩ | hb
  · exact hv
  · exact h.bindings j b hb

theorem Fair.addInner (h : d.Fair s) (i : FrameId) {bs : Bindings}
    (hbs : ∀ b ∈ bs, b.2.All d.part) : d.Fair (s.addInner i bs) := by
  refine ⟨fun j b hb => ?_, h.functions⟩
  rcases Store.mem_bindings_addFrame hb with hb | hb
  · exact hbs b hb
  · exact h.bindings j b hb

theorem Fair.meaning (h : d.Fair s) {i : FrameId} {x : String} {v : Value}
    (hv : s.meaning? i x = some v) : v.All d.part := by
  rcases s.exists_mem_of_meaning? i hv with ⟨j, -, b, hb, rfl⟩ | ⟨b, hb, rfl⟩
  · exact h.bindings j b hb
  · exact h.functions b hb

/-- In a fresh environment nothing is stored but the primitives. -/
theorem fair_fresh (h : ∀ p, d.part (.builtin p)) : d.Fair Store.empty.addGlobal := by
  refine ⟨fun i b hb => absurd ⟨i, .self, b, hb, .self⟩ (Store.not_holds_fresh i b.2),
    fun b hb => ?_⟩
  obtain ⟨p, -, rfl⟩ := List.mem_map.mp hb
  exact Value.all_atom (h p) nofun nofun

/-! ## Evaluations -/

theorem Asks.given {t : Task} (h : d.Asks t) : ∀ v ∈ t.given, v.All d.part := by
  cases t with
  | node env n => nofun
  | call f args => exact List.forall_mem_cons.mpr h

section got

variable {t : Task} {v : Value}

/-- What is handed on without a change can return from the task. -/
theorem Gets.result (h : d.Gets t v) (ht : ¬t.Answers) : d.Result (returns t) v := by
  cases h with
  | whole h => exact .plain h
  | @tail env n e _ heq he h =>
    subst heq
    exact h.mono fun hret => Node.returns_of_tail he hret fun t ss hn => ht (hn ▸ trivial)
  | body heq _ => exact absurd (heq ▸ trivial) ht

theorem Gets.unwrap {r : Bool} (h : d.Gets t v) : d.Result r v.unwrap := by
  cases h with
  | whole h => exact .plain h.unwrap
  | tail _ _ h | body _ h => exact h.unwrap

/-- A tree without tails gets no marker that returns from it. -/
theorem Gets.all (h : d.Gets t v) {env : FrameId} {n : Node} (ht : t = .node env n)
    (hn : n.tails = []) : v.All d.part := by
  cases h with
  | whole h => exact h
  | tail heq he _ =>
    cases ht.symm.trans heq
    rw [hn] at he
    cases he
  | body heq _ => cases ht.symm.trans heq

end got

section step

variable (hd : d.Lawful) {q p : Run} {vs : List Value} {v : Value}

include hd

theorem begins_of_demands (h : d.Goes q vs s) (hdemands : q.task.Demands vs s p)
    (hp : p ∈ q.parts) : d.contract.Begins p := by
  have hmeasures : ∀ p' : Run, p'.Within p → d.Measures p' :=
    fun p' hp' => h.measures p' (.part hp hp')
  have htask := h.task
  cases hdemands with
  | part ht he hpt hstart =>
    rw [ht] at htask
    refine ⟨hmeasures, hstart ▸ h.fair, ?_, nofun⟩
    rw [hpt]
    exact he.elim (Node.Each.operand htask) (Node.Each.tail htask)
  | call ht hf hargs hpt hstart =>
    refine ⟨hmeasures, hstart ▸ h.fair, ?_, nofun⟩
    rw [hpt]
    exact ⟨(h.got _ hf).all ht rfl, fun a ha => (h.got a (hargs a ha)).all ht rfl⟩
  | body ht hpt hstart =>
    rw [ht] at htask
    obtain ⟨hf, hargs⟩ := htask
    refine ⟨hmeasures, hstart ▸ h.fair.addInner _ (hd.all_ofArguments _ hargs), ?_, nofun⟩
    rw [hpt]
    exact hd.body _ _ _ _ hf.self

/-- What a part yields is got as it has to be. -/
theorem gets_of_demands (htask : d.Asks q.task) (hdemands : q.task.Demands vs s p)
    (hv : d.Result (returns p.task) v) (herr : v.isError = false) : d.Gets q.task v := by
  cases hdemands with
  | @part env n e ht he hpt hstart =>
    rw [hpt] at hv
    rcases he with he | he
    · rw [ht] at htask
      have hhere : d.node n := htask.here (by
        cases n with
        | absent => cases he
        | _ => rfl)
      exact .whole ((hd.operand hhere he hv).all herr)
    · exact .tail ht he hv
  | call _ _ _ hpt _ =>
    rw [hpt] at hv
    exact .whole (hv.all herr)
  | body ht _ _ => exact .body ht hv

theorem all_of_plain (hmeasures : d.Measures q) (ht : d.Asks q.task) (hv : q.task.Plain v)
    (hyields : q.Yields v) : v.All d.part := by
  cases hv with
  | null => exact hd.all_null
  | boolean b => exact hd.all_boolean b
  | string x => exact hd.all_string x
  | literal heq =>
    rw [heq] at ht
    exact Value.all_atom (hd.literal _ _ (ht.here rfl)) nofun nofun
  | arithmetic n => exact hd.all_arithmetic n
  | length heq => exact Value.all_atom (hmeasures _ _ heq hyields) nofun nofun

omit hd in
theorem all_of_finds (h : d.Goes q vs s) (hv : q.task.Finds vs v) : v.All d.part := by
  cases hv with
  | given hmem hv => exact (h.task.given _ hmem).of_stores hv
  | indexed ht hmem hv => exact ((h.got _ hmem).all ht rfl).of_stores hv

theorem result_of_builds (h : d.Goes q vs s) {id : Nat} (hv : q.task.Builds vs id v) :
    d.Result (returns q.task) v := by
  cases hv with
  | array ht hxs =>
    exact .plain (Value.all_array (hd.array _ _) fun x hx => (h.got x (hxs x hx)).all ht rfl)
  | hash ht hes =>
    refine .plain (Value.all_hash (hd.hash _ _ fun e he => ?_) fun e he => ?_)
    · obtain ⟨-, k, hk, hslot⟩ := hes e he
      rw [Value.ofKey_of_key? hslot]
      exact ((h.got k hk).all ht rfl).self
    · exact (h.got _ (hes e he).1).all ht rfl
  | primitive ht hxs =>
    have htask := h.task
    rw [ht] at htask
    refine .plain (Value.all_array (hd.array _ _) fun x hx => ?_)
    rcases hxs x hx with ⟨a, ha, hx⟩ | ⟨-, ha⟩
    · exact (htask.2 a ha).of_stores hx
    · exact htask.2 x ha
  | marker ht hmem =>
    have hret : returns q.task = true := by rw [ht]; rfl
    exact .marked hret ((h.got _ hmem).all ht rfl)

/-- What a run does at the end keeps the discipline. -/
theorem ends_of_deed (h : d.Goes q vs s) (hdeed : Deed q.task vs s q.outcome) :
    d.contract.Ends q q.outcome := by
  generalize hout : q.outcome = out at hdeed
  have htask := h.task
  cases hdeed with
  | plain hv =>
    exact ⟨h.fair, .plain (all_of_plain hd (h.measures q .self) htask hv ⟨_, hout⟩)⟩
  | passed ht hv => exact ⟨h.fair, (h.got _ hv).result ht⟩
  | unwrapped _ hv => exact ⟨h.fair, (h.got _ hv).unwrap⟩
  | found hv => exact ⟨h.fair, .plain (all_of_finds h hv)⟩
  | built hv => exact ⟨h.fair.takeId, result_of_builds hd h hv⟩
  | failed _ => exact ⟨h.fair.takeId, .failed rfl⟩
  | print => exact ⟨h.fair.print _, .plain hd.all_null⟩
  | bind ht hv => exact ⟨h.fair.bind _ _ ((h.got _ hv).all ht rfl), .plain hd.all_null⟩
  | lookUp _ hv => exact ⟨h.fair, .plain (h.fair.meaning hv)⟩
  | function ht =>
    rw [ht] at htask
    exact ⟨h.fair.takeId, .plain (hd.all_function htask)⟩

theorem kept_contract : d.contract.Kept where
  asks := begins_of_demands hd
  resumes h _ hp := ⟨h.measures, hp, h.task, h.got⟩
  gets h hdemands _ _ hv herr := ⟨h.measures, h.fair, h.task, List.forall_mem_cons.mpr
    ⟨gets_of_demands hd h.task hdemands hv herr, h.got⟩⟩
  stops h := h.fair
  fails _ herr := .failed herr
  does := ends_of_deed hd

end step

/-- All runs in an evaluation keep a lawful discipline, if all lengths that are measured do. -/
theorem fits_record (hd : d.Lawful) {limit : Nat} {t : Task} (hs : d.Fair s) (ht : d.Asks t)
    (hlen : ∀ q : Run, q.Within (t.record limit s) → d.Measures q) :
    ∀ q : Run, q.Within (t.record limit s) → d.Fits q := by
  intro q hq
  obtain ⟨hbegins, hends⟩ := (kept_contract hd).within (Run.recorded_record limit t s)
    ⟨hlen, hs, ht, nofun⟩ hq
  exact ⟨hbegins.fair, hbegins.task, hends.leaves_stop, fun v hv => hends.yields_stop hv⟩

end Discipline

end MonkeyLang
