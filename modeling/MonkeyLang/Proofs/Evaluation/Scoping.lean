import MonkeyLang.Proofs.Evaluation.Origin

/-!
Scoping is lexical. The depth of the frame that a tree is evaluated in is the number of function
literals that the tree stands in, counted from where the program began; and a function keeps a frame
whose depth is the number of literals around its own. Where the function is called from, and what it
went through before, plays no part in this.
-/

namespace MonkeyLang

/-! ## Nesting -/

namespace Node

def isFunction : Node → Bool
  | function _ _ _ => true
  | _ => false

def literals (above : List Node) : Nat := above.countP isFunction

/-- In the tree `n` the second node stands below the nodes of the list, the nearest first: it is the
tree itself, an operand or a tail of the first of them, or its body, if that is a function
literal. -/
inductive Below (n : Node) : List Node → Node → Prop
  | root : Below n [] n
  | part {m e : Node} {above : List Node} : Below n above m → e ∈ m.operands ∨ e ∈ m.tails →
      Below n (m :: above) e
  | body {token : Token} {ps : List Identifier} {b : Node} {above : List Node} :
      Below n above (.function token ps b) → Below n (.function token ps b :: above) b

theorem isFunction_of_part {n e : Node} (he : e ∈ n.operands ∨ e ∈ n.tails) :
    n.isFunction = false := by
  cases n with
  | function _ _ _ => exact he.elim nofun nofun
  | _ => rfl

end Node

open Node

namespace Run

/-- The value is one that the run is given or yields, or it occurs in such a value. -/
def Handles (q : Run) (u : Value) : Prop :=
  (∃ v ∈ q.task.given, u.Part v) ∨ ∃ v, q.Yields v ∧ u.Part v

/-- In the run, which is on the tree `n` in a frame with `depth` frames around it, frames are nested
as the function literals of the tree are. -/
structure Lexical (r : Run) (n : Node) (depth : Nat) : Prop where
  /-- All evaluations of trees are of parts of the tree, each at some place. -/
  placed : ∀ q : Run, q.Within r → ∀ env m, q.task = .node env m → ∃ above, r.Evaluates q above
  /-- What is evaluated at a place stands there, and is evaluated in a frame as deep as the place. -/
  nodes : ∀ q above, r.Evaluates q above → ∀ env m, q.task = .node env m →
    n.Below above m ∧ q.start.depth env = depth + literals above
  /-- If a node stands in the same number of literals at all its places, that is the depth. -/
  nesting : ∀ q : Run, q.Within r → ∀ env m, q.task = .node env m → ∀ k,
    (∀ above, n.Below above m → literals above = k) → q.start.depth env = depth + k
  /-- What the evaluation of a literal yields is a function with the body of the literal, which
  keeps the frame of that evaluation. -/
  makes : ∀ q above, r.Evaluates q above → ∀ env token ps b,
    q.task = .node env (.function token ps b) → ∀ v, q.Yields v →
      ∃ id, v = .function id ps b env ∧ r.Makes v above
  /-- All functions that are ever handled are made by literals of the tree. -/
  made : ∀ q : Run, q.Within r → ∀ id ps b i, q.Handles (.function id ps b i) →
    ∃ above, r.Makes (.function id ps b i) above
  /-- A function keeps a frame as deep as the place of the literal that has made it, wherever it is
  handled. -/
  functions : ∀ id ps b i above, r.Makes (.function id ps b i) above →
    (∃ token, n.Below above (.function token ps b)) ∧
      ∀ q : Run, q.Within r → q.Handles (.function id ps b i) →
        q.stop.depth i = depth + literals above

variable {r q : Run} {sees : FrameId → Prop} {n : Node} {env : FrameId}

namespace Recorded

variable (hr : r.Recorded)

include hr

/-- A frame keeps its depth. -/
theorem depth_start (hq : q.Within r) {i : FrameId} (hi : i < q.start.nextFrame) :
    q.start.depth i = r.stop.depth i :=
  (((hr.within hq).grows.trans (hr.grows_within hq).2).depth hi).symm

theorem depth_stop (hq : q.Within r) {i : FrameId} (hi : i < q.stop.nextFrame) :
    q.stop.depth i = r.stop.depth i :=
  ((hr.grows_within hq).2.depth hi).symm

/-- The tree that is evaluated at a place stands there, and the frame is as deep as the place. -/
theorem nested (hroot : r.Begins sees r) (htask : r.task = .node env n) {above : List Node}
    (h : r.Evaluates q above) {env' : FrameId} {m : Node} (hq : q.task = .node env' m) :
    n.Below above m ∧ q.start.depth env' = r.start.depth env + literals above := by
  induction h generalizing env' m with
  | root =>
    cases htask.symm.trans hq
    exact ⟨.root, rfl⟩
  | @part q p env₁ env₂ x e above hwithin ht hp hpt ih =>
    cases hpt.symm.trans hq
    obtain ⟨hbelow, hdepth⟩ := ih ht
    obtain ⟨-, vs, s, hs, hdemands⟩ := (hr.within hwithin.within).demands Store.rises_grows hp
    cases hdemands with
    | @part env n e ht' he hp' hstart =>
      -- a part is evaluated in the frame of the whole, and only literals nest
      cases ht.symm.trans ht'
      cases hpt.symm.trans hp'
      have hlt := ((hr.begins hroot hwithin.within).frame _ _ ht).2
      refine ⟨.part hbelow he, ?_⟩
      rw [hstart, hs.depth hlt, hdepth, literals, literals,
        List.countP_cons_of_neg (by rw [isFunction_of_part he]; nofun)]
    | call _ _ _ hp' _ => cases hpt.symm.trans hp'
    | body ht' _ _ => cases ht.symm.trans ht'
  | @body o c p env₁ i token ps b id args above hwithin ht hyields hc hct hp ih =>
    obtain ⟨hbelow, hdepth⟩ := ih ht
    obtain ⟨-, vs, s, hs, hdemands⟩ := (hr.within hc).demands Store.rises_grows hp
    cases hdemands with
    | part ht' _ _ _ => cases hct.symm.trans ht'
    | call ht' _ _ _ _ => cases hct.symm.trans ht'
    | @body _ _ _ _ _ ht' hp' hstart =>
      cases hct.symm.trans ht'
      cases hp'.symm.trans hq
      have hmade : env₁ = i := by
        obtain ⟨id', heq⟩ := (hr.within hwithin.within).yields_function ht hyields
        cases heq
        rfl
      subst hmade
      have hmaker := ((hr.begins hroot hwithin.within).frame _ _ ht).2
      have hcaller : env₁ < c.start.nextFrame := by
        have hgiven := (hr.begins hroot hc).given
        rw [hct] at hgiven
        exact ((hgiven _ List.mem_cons_self).self id ps b env₁ rfl).2.1
      -- the frame that the function keeps was there when it was made and is there at the call
      refine ⟨.body hbelow, ?_⟩
      calc p.start.depth s.nextFrame
          = s.depth env₁ + 1 := by rw [hstart, s.depth_addInner]
        _ = c.start.depth env₁ + 1 := by rw [hs.depth hcaller]
        _ = o.start.depth env₁ + 1 := by
          rw [hr.depth_start hc hcaller, hr.depth_start hwithin.within hmaker]
        _ = r.start.depth env + literals above + 1 := by rw [hdepth]
        _ = r.start.depth env + literals (.function token ps b :: above) := by
          rw [literals, literals, List.countP_cons_of_pos rfl, Nat.add_assoc]

/-- What a run handles is accounted for when it ends. -/
theorem native (hroot : r.Begins sees r) (hq : q.Within r) {u : Value} (hu : q.Handles u) :
    r.Native sees q.stop.nextFrame u := by
  have hbegins := hr.begins hroot hq
  rcases hu with ⟨v, hv, hu⟩ | ⟨v, hv, hu⟩
  · exact (hbegins.given v hv u hu).mono (hr.within hq).grows.grows
  · exact (hr.ends hroot hq).value v hv u hu

theorem lexical (hroot : r.Begins sees r) (htask : r.task = .node env n) :
    r.Lexical n (r.start.depth env) where
  placed q hq := (hr.begins hroot hq).place
  nodes q above h env' m ht := hr.nested hroot htask h ht
  nesting q hq env' m ht k hk := by
    obtain ⟨above, habove⟩ := (hr.begins hroot hq).place env' m ht
    obtain ⟨hbelow, hdepth⟩ := hr.nested hroot htask habove ht
    rw [hdepth, hk above hbelow]
  makes q above h env' token ps b ht v hv := by
    obtain ⟨id, rfl⟩ := (hr.within h.within).yields_function ht hv
    exact ⟨id, rfl, .literal h ht hv⟩
  made q hq id ps b i hu := (hr.native hroot hq hu id ps b i rfl).2.2
  functions id ps b i above hmade := by
    cases hmade with
    | @literal o i' token ps' b' _ _ hwithin ht hyields =>
      obtain ⟨id', heq⟩ := (hr.within hwithin.within).yields_function ht hyields
      cases heq
      obtain ⟨hbelow, hdepth⟩ := hr.nested hroot htask hwithin ht
      refine ⟨⟨token, hbelow⟩, fun q hq hu => ?_⟩
      have hlt := ((hr.begins hroot hwithin.within).frame _ _ ht).2
      have hlt' := (hr.native hroot hq hu _ _ _ _ rfl).2.1
      rw [hr.depth_stop hq hlt', ← hr.depth_start hwithin.within hlt, hdepth]

end Recorded

end Run

/-- In an environment from which no function can be reached, with just the primitives known
everywhere, frames are nested as the function literals of the program are. -/
theorem eval_lexical (limit : Nat) (env : FrameId) (n : Node) (s : Store)
    (hfunctions : s.functions = Store.empty.functions) (henv : env < s.nextFrame)
    (hfree : ∀ id ps b i, ¬s.Holds env (.function id ps b i)) :
    ((Task.node env n).record limit s).outcome = eval limit env n s ∧
      ((Task.node env n).record limit s).Lexical n (s.depth env) := by
  refine ⟨Task.record_outcome _ _ _, ?_⟩
  have hroot :=
    Run.begins_of_holds (r := (Task.node env n).record limit s) rfl hfunctions henv hfree
  exact (Run.recorded_record limit (.node env n) s).lexical hroot rfl

/-- The tree of `fn(x) \x7b fn(y) \x7b x + y \x7d \x7d(1)(2)`. -/
def curriedSum : Node :=
  .program .unset [.exprStmt .unset (.call .unset (.call .unset
    (.function .unset [⟨.unset, "x"⟩] (.block .unset [.exprStmt .unset
      (.function .unset [⟨.unset, "y"⟩] (.block .unset [.exprStmt .unset
        (.binary .unset (.identifier ⟨.unset, "x"⟩) "+" (.identifier ⟨.unset, "y"⟩))]))]))
    [.integer .unset 1]) [.integer .unset 2])]

/-- The program is evaluated to the end, and the inner function after the outer one has returned. -/
theorem eval_lexical_curriedSum :
    (∃ s', eval 12 0 curriedSum Store.empty.addGlobal = .ok (.integer 3) s') ∧
      ((Task.node 0 curriedSum).record 12 Store.empty.addGlobal).Lexical curriedSum 0 :=
  ⟨⟨_, rfl⟩, (eval_lexical 12 0 curriedSum Store.empty.addGlobal rfl (by decide)
    fun _ _ _ _ => Store.not_holds_fresh 0 _).2⟩

end MonkeyLang
