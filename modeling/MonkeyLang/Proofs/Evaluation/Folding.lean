import MonkeyLang.Proofs.Evaluation
import MonkeyLang.Proofs.Lexing.Spelling
import MonkeyLang.Proofs.Store.Extension

/-!
Loops over arrays. Programs have no loop but recursion: a function named `iter` takes an array and
what was made of the elements so far, and calls itself with the array without its first element.
What is said of one round carries over to the whole array by induction on the elements. Each round
leaves a frame behind, so that all of it is said of stores that grow.
-/

namespace MonkeyLang

open Eval

/-! ## Evaluations that complete -/

section rules

variable {limit : Nat} {env : FrameId} {s s' s'' : Store} {v w f : Value} {token token' : Token}

theorem eval_identifier {id : Identifier} (h : s.meaning? env id.name = some v) :
    eval (limit + 1) env (.identifier id) s = .ok v s := by
  show (eval (limit + 1) env (.identifier id)).run s = _
  simp only [eval, EStateM.run_bind, EStateM.run_get, h, EStateM.run_pure]

/-- From left to right, the nodes are evaluated to these values, none of which is an error, and the
last of them leaves the store `s'`. -/
inductive YieldsEach (ev : Node → Eval Value) : Store → List Node → List Value → Store → Prop
  | nil {s : Store} : YieldsEach ev s [] [] s
  | cons {s s₁ s₂ : Store} {n : Node} {ns : List Node} {v : Value} {vs : List Value} :
      ev n s = .ok v s₁ → v.isError = false → YieldsEach ev s₁ ns vs s₂ →
      YieldsEach ev s (n :: ns) (v :: vs) s₂

theorem YieldsEach.each {ev : Node → Eval Value} {ns : List Node} {vs : List Value}
    (h : YieldsEach ev s ns vs s') (next : List Value → Eval Value) :
    Eval.each ev ns next s = next vs s' := by
  induction h generalizing next with
  | nil => rfl
  | cons hn herr _ ih => exact (unlessError_next hn herr).trans (ih _)

/-- A call evaluates the function and the arguments, and then applies the one to the others. -/
theorem eval_call {callee : Node} {args : List Node} {vs : List Value}
    (hf : eval limit env callee s = .ok f s') (herr : f.isError = false)
    (hargs : YieldsEach (eval limit env) s' args vs s'') :
    eval (limit + 1) env (.call token callee args) s = apply limit f vs s'' :=
  (unlessError_next hf herr).trans (hargs.each _)

theorem eval_binary {l r : Node} {op : String} (hl : eval limit env l s = .ok v s')
    (hr : eval limit env r s' = .ok w s'') (hv : v.isError = false) (hw : w.isError = false) :
    eval (limit + 1) env (.binary token l op r) s = ofExcept (v.binary op w) s'' :=
  (unlessError_next hl hv).trans (unlessError_next hr hw)

theorem eval_ifElse_true {c a b : Node} (hc : eval limit env c s = .ok (.boolean true) s')
    (ha : eval limit env a s' = .ok v s'') :
    eval (limit + 1) env (.ifElse token c a b) s = .ok v s'' :=
  (unlessError_next hc rfl).trans ha

theorem eval_ifElse_false {c a b : Node} (hc : eval limit env c s = .ok (.boolean false) s')
    (hb : eval limit env b s' = .ok v s'') (hpresent : b.isAbsent = false) :
    eval (limit + 1) env (.ifElse token c a b) s = .ok v s'' := by
  refine (unlessError_next hc rfl).trans ?_
  show (if b.isAbsent = true then pure .null else eval limit env b : Eval Value) s' = _
  rw [hpresent]
  exact hb

theorem eval_block {e : Node} (h : eval limit env e s = .ok v s') :
    eval (limit + 2) env (.block token [.exprStmt token' e]) s = .ok v s' := by
  show sequence (eval (limit + 1) env) .null [.exprStmt token' e] s = _
  exact sequence_singleton h

theorem sequence_next (last : Value) {ev : Node → Eval Value} {n : Node} {ns : List Node}
    (hn : ev n s = .ok .null s') : sequence ev last (n :: ns) s = sequence ev .null ns s' := by
  show EStateM.bind (ev n) _ s = _
  simp only [EStateM.bind, hn]
  rfl

/-- A call gives what the body gives in a new frame. -/
theorem apply_function {id : Nat} {ps : List Identifier} {body : Node} {args : List Value}
    (hbody : eval limit s.nextFrame body
      (s.addInner env (Bindings.ofArguments ps args [])) = .ok v s')
    (hret : v.isReturned = false) :
    apply (limit + 1) (.function id ps body env) args s = .ok v s' := by
  show EStateM.map Value.unwrap (eval limit s.nextFrame body) _ = _
  simp only [EStateM.map, hbody, Value.unwrap_of_isReturned hret]

end rules

/-! ## Trees -/

namespace Loop

def name (x : String) : Identifier := ⟨.loose .ident x, x⟩

def var (x : String) : Node := .identifier (name x)

def number (n : Nat) : Node := .integer (.loose .int (toString n)) n

def call (f : String) (args : List Node) : Node := .call (.loose .lparen "(") (var f) args

def block (statements : List Node) : Node := .block (.loose .lbrace "\x7b") statements

def literal (ps : List String) (body : Node) : Node :=
  .function (.loose .kwFn "fn") (ps.map name) body

def define (x : String) (value : Node) : Node :=
  .letStmt (.loose .kwLet "let") (some (name x)) value

/-- An expression as a statement; it begins with the name `x`. -/
def say (x : String) (e : Node) : Node := .exprStmt (.loose .ident x) e

def isEmpty : Node := .binary (.loose .eq "==") (call "len" [var "arr"]) "==" (number 0)

/-- The body of the function `iter`. Its second parameter is `acc`, and `step` is what it passes on
instead of that. -/
def body (acc : String) (step : Node) : Node :=
  block [.exprStmt (.loose .kwIf "if") (.ifElse (.loose .kwIf "if") isEmpty
    (block [say acc (var acc)])
    (block [say "iter" (call "iter" [call "rest" [var "arr"], step])]))]

/-- The body of a function that goes over its argument `arr`, beginning with `start`. -/
def whole (acc : String) (start step : Node) : Node :=
  block [define "iter" (literal ["arr", acc] (body acc step)),
    say "iter" (call "iter" [var "arr", start])]

end Loop

open Loop

/-! ## Rounds -/

def Loop.primitives : Bindings :=
  [("len", .builtin .len), ("first", .builtin .first), ("rest", .builtin .rest),
    ("push", .builtin .push)]

def Loop.iter (id : Nat) (k : FrameId) (acc : String) (step : Node) : Value :=
  .function id [name "arr", name acc] (body acc step) k

def Loop.numbers (id : Nat) (xs : List Int) : Value := .array id (xs.map .integer)

variable {acc : String} {start step : Node} {f : Value} {home : FrameId}
  {P : List Int → Value → Prop}

/-- What one round of a loop does: from a value that stands for the elements so far it makes one
that stands for those and the next one. It may call `f`, and it may count on the frame `home`. -/
structure Folds (acc : String) (step : Node) (f : Value) (home : FrameId)
    (P : List Int → Value → Prop) : Prop where
  fresh : acc ∉ ["arr", "iter", "f", "len", "first", "rest", "push"]
  plain : ∀ ys r, P ys r → r.isError = false ∧ r.isReturned = false
  round : ∀ limit env s id x xs ys r, s.Offers home [] →
    s.Offers env (("arr", numbers id (x :: xs)) :: (acc, r) :: ("f", f) :: primitives) → P ys r →
    ∃ r' s', eval (limit + 7) env step s = .ok r' s' ∧ P (ys ++ [x]) r' ∧ s.Extends s'

/-- A name of the table is evaluated to its value. -/
theorem Store.Offers.eval_var {s : Store} {env : FrameId} {table : Bindings}
    (h : s.Offers env table) (limit : Nat) (x : String) (v : Value) (hmem : (x, v) ∈ table) :
    eval (limit + 1) env (var x) s = .ok v s :=
  eval_identifier (h.meaning (x, v) hmem)

theorem eval_number (limit : Nat) (env : FrameId) (n : Nat) (s : Store) :
    eval (limit + 1) env (number n) s = .ok (.integer n) s :=
  rfl

theorem eval_isEmpty {env : FrameId} {s : Store} (limit id : Nat) (xs : List Int)
    (h : s.Offers env [("arr", numbers id xs), ("len", .builtin .len)]) :
    eval (limit + 3) env isEmpty s = .ok (.boolean (xs.length == 0)) s := by
  have hcall : eval (limit + 2) env (call "len" [var "arr"]) s = .ok (.integer xs.length) s := by
    have hlen := h.eval_var limit "len" (.builtin .len) (by simp)
    have harr := h.eval_var limit "arr" (numbers id xs) (by simp)
    refine (eval_call hlen rfl (.cons harr rfl .nil)).trans ?_
    show EStateM.Result.ok (Value.integer (xs.map Value.integer).length) s = _
    rw [List.length_map]
  have hzero : ((xs.length : Int) == 0) = (xs.length == 0) := by
    rw [Bool.eq_iff_iff]
    simp
  rw [isEmpty, eval_binary hcall (eval_number _ env 0 s) rfl rfl, ← hzero]
  rfl

namespace Folds

variable (hfold : Folds acc step f home P)

include hfold

/-- The frame of a round has what the round asks for. -/
theorem offers {s : Store} {k : FrameId} {g a r : Value}
    (hk : s.Offers k (("iter", g) :: ("f", f) :: primitives)) :
    (s.addInner k (Bindings.ofArguments [name "arr", name acc] [a, r] [])).Offers s.nextFrame
      (("arr", a) :: (acc, r) :: ("iter", g) :: ("f", f) :: primitives) := by
  have hnodup : ["arr", acc].Nodup := by
    have hne : "arr" ≠ acc := fun h => hfold.fresh (h ▸ List.mem_cons_self)
    simpa using hne
  have hother : ∀ y ∈ ["iter", "f", "len", "first", "rest", "push"], y ∉ ["arr", acc] := by
    intro y hy hmem
    rcases List.mem_pair.mp hmem with rfl | rfl
    · exact absurd hy (by decide)
    · exact hfold.fresh (List.mem_cons_of_mem _ hy)
  exact hk.call [name "arr", name acc] [a, r] hnodup rfl hother

variable {ys : List Int} {r : Value} {s : Store} {i : Nat} {k : FrameId}
  (hk : s.Offers k (("iter", iter i k acc step) :: ("f", f) :: primitives))

include hk

/-- Without elements the value is given back. -/
theorem apply_iter_nil (hr : P ys r) (limit id : Nat) :
    ∃ s', apply (limit + 7) (iter i k acc step) [numbers id [], r] s = .ok r s' ∧
      s.Extends s' := by
  have hm := hfold.offers (a := numbers id []) (r := r) hk
  have hcond := eval_isEmpty limit id [] (hm.subset (by simp [primitives]))
  have hacc := hm.eval_var limit acc r (by simp)
  have hbody : eval (limit + 6) s.nextFrame (body acc step) _ = .ok r _ :=
    eval_block (eval_ifElse_true hcond (eval_block hacc))
  exact ⟨_, apply_function hbody (hfold.plain ys r hr).2, .addInner s k _⟩

/-- One round: the call comes to what the call with the other elements comes to. -/
theorem apply_iter_cons (hr : P ys r) (hhome : s.Offers home []) (limit id : Nat) (x : Int)
    (xs : List Int) :
    ∃ id' r' s', P (ys ++ [x]) r' ∧ s.Extends s' ∧ ∀ v s'', v.isReturned = false →
      apply (limit + 7) (iter i k acc step) [numbers id' xs, r'] s' = .ok v s'' →
      apply (limit + 14) (iter i k acc step) [numbers id (x :: xs), r] s = .ok v s'' := by
  have hm := hfold.offers (a := numbers id (x :: xs)) (r := r) hk
  have henter := Store.Extends.addInner s k
    (Bindings.ofArguments [name "arr", name acc] [numbers id (x :: xs), r] [])
  have hcond := eval_isEmpty (limit + 7) id (x :: xs) (hm.subset (by simp [primitives]))
  have hiter := hm.eval_var (limit + 6) "iter" (iter i k acc step) (by simp)
  have hname := hm.eval_var (limit + 5) "rest" (.builtin .rest) (by simp [primitives])
  have harr := hm.eval_var (limit + 5) "arr" (numbers id (x :: xs)) (by simp)
  generalize hs₁ : s.addInner k _ = s₁ at hm henter hcond hiter hname harr
  have hrest : eval (limit + 7) s.nextFrame (call "rest" [var "arr"]) s₁ =
      .ok (numbers s₁.nextId xs) s₁.takeId.2 := eval_call hname rfl (.cons harr rfl .nil)
  have htake := henter.trans (.takeId s₁)
  obtain ⟨r', s₂, hstep, hr', hround⟩ := hfold.round limit s.nextFrame s₁.takeId.2 id x xs ys r
    (hhome.mono htake) ((hm.mono (.takeId s₁)).subset (by simp [primitives])) hr
  refine ⟨s₁.nextId, r', s₂, hr', htake.trans hround, fun v s₃ hret hagain => ?_⟩
  have hcall : eval (limit + 8) s.nextFrame (call "iter" [call "rest" [var "arr"], step]) s₁ =
      .ok v s₃ :=
    (eval_call hiter rfl (.cons hrest rfl (.cons hstep (hfold.plain _ _ hr').1 .nil))).trans hagain
  have hbody : eval (limit + 13) s.nextFrame (body acc step) s₁ = .ok v s₃ :=
    eval_block (eval_ifElse_false hcond (eval_block hcall) rfl)
  rw [← hs₁] at hbody
  exact apply_function hbody hret

/-- Round after round, the value stands for more and more of the elements, and at the end for all
of them. -/
theorem apply_iter (hr : P ys r) (hhome : s.Offers home []) (limit id : Nat) (xs : List Int)
    (hlimit : 7 * xs.length + 7 ≤ limit) :
    ∃ v s', apply limit (iter i k acc step) [numbers id xs, r] s = .ok v s' ∧ P (ys ++ xs) v ∧
      s.Extends s' := by
  induction xs generalizing ys r s id limit with
  | nil =>
    obtain ⟨limit, rfl⟩ : ∃ l, limit = l + 7 := Nat.exists_eq_add_of_le' hlimit
    obtain ⟨s', h, hext⟩ := hfold.apply_iter_nil hk hr limit id
    exact ⟨r, s', h, by rwa [List.append_nil], hext⟩
  | cons x xs ih =>
    rw [List.length_cons] at hlimit
    obtain ⟨limit, rfl⟩ : ∃ l, limit = l + 14 := Nat.exists_eq_add_of_le' (by omega)
    obtain ⟨id', r', s', hr', hext, hround⟩ := hfold.apply_iter_cons hk hr hhome limit id x xs
    obtain ⟨v, s'', hothers, hv, hext'⟩ := ih (hk.mono hext) hr' (hhome.mono hext) (limit + 7) id'
      (by omega)
    refine ⟨v, s'', hround v s'' (hfold.plain _ _ hv).2 hothers, ?_, hext.trans hext'⟩
    rwa [List.append_cons]

end Folds

/-- In a frame where `arr` is an array, going over it gives a value that stands for all elements.
The function `iter` is bound in this frame, which is the one that it keeps. -/
theorem Folds.eval_whole (hfold : Folds acc step f home P) {s : Store} {env : FrameId}
    {table : Bindings} {id : Nat} {xs : List Int} (hhome : s.Offers home [])
    (hm : s.Offers env table) (hiter : "iter" ∉ table.map Prod.fst)
    (harr : ("arr", numbers id xs) ∈ table) (htools : ("f", f) :: primitives ⊆ table)
    (hstart : ∀ limit s, s.Offers env table →
      ∃ r s', eval (limit + 1) env start s = .ok r s' ∧ P [] r ∧ s.Extends s')
    (limit : Nat) (hlimit : 7 * xs.length + 7 ≤ limit + 1) :
    ∃ g v s', eval (limit + 4) env (whole acc start step) s = .ok v s' ∧ P xs v ∧
      (s.takeId.2.bind env "iter" g).Extends s' := by
  let g := iter s.nextId env acc step
  have hdefine : eval (limit + 3) env (define "iter" (literal ["arr", acc] (body acc step))) s =
      .ok .null (s.takeId.2.bind env "iter" g) := rfl
  have hm' := (hm.mono (.takeId s)).bind g hiter
  have hhome' := (hhome.mono (.takeId s)).bind_other env g (x := "iter") (by simp)
  obtain ⟨r, s₁, hr, hnone, hext⟩ := hstart limit _ (hm'.subset (List.subset_cons_self _ _))
  have hk : s₁.Offers env (("iter", g) :: ("f", f) :: primitives) :=
    (hm'.mono hext).subset (List.cons_subset_cons _ htools)
  obtain ⟨v, s₂, hv, hP, hext'⟩ := hfold.apply_iter hk hnone (hhome'.mono hext) (limit + 1) id xs
    hlimit
  have hcall : eval (limit + 2) env (call "iter" [var "arr", start]) _ = .ok v s₂ :=
    (eval_call (hm'.eval_var limit "iter" g List.mem_cons_self) rfl
      (.cons (hm'.eval_var limit "arr" _ (List.mem_cons_of_mem _ harr)) rfl
        (.cons hr (hfold.plain _ _ hnone).1 .nil))).trans hv
  refine ⟨g, v, s₂, ?_, hP, hext.trans hext'⟩
  exact (sequence_next .null hdefine).trans (sequence_singleton hcall)

/-- A function that goes over its argument `arr` gives a value that stands for all elements. -/
theorem Folds.apply_whole (hfold : Folds acc step f home P) {s : Store}
    (hhome : s.Offers home primitives) (limit i id : Nat) (xs : List Int) (ps : List Identifier)
    (args : List Value) (start : Node) (hlimit : 7 * xs.length + 11 ≤ limit)
    (hnodup : (ps.map (·.name)).Nodup) (hlength : args.length = ps.length)
    (hother : ∀ y ∈ ["iter", "len", "first", "rest", "push"], y ∉ ps.map (·.name))
    (harr : ("arr", numbers id xs) ∈ (ps.map (·.name)).zip args)
    (hf : ("f", f) ∈ (ps.map (·.name)).zip args)
    (hstart : ∀ limit env s, s.Offers env ((ps.map (·.name)).zip args) →
      ∃ r s', eval (limit + 1) env start s = .ok r s' ∧ P [] r ∧ s.Extends s') :
    ∃ v s', apply limit (.function i ps (whole acc start step) home) args s = .ok v s' ∧ P xs v ∧
      s.Extends s' := by
  obtain ⟨limit, rfl⟩ : ∃ l, limit = l + 5 := Nat.exists_eq_add_of_le' (by omega)
  obtain ⟨hiter, hprimitives⟩ := List.forall_mem_cons.mp hother
  have hm := hhome.call ps args hnodup hlength hprimitives
  have henter := Store.Extends.addInner s home (Bindings.ofArguments ps args [])
  have hnames : "iter" ∉ ((ps.map (·.name)).zip args ++ primitives).map Prod.fst := by
    rw [List.map_append, List.map_fst_zip (by simp [hlength])]
    simpa [primitives] using hiter
  have htools : ("f", f) :: primitives ⊆ (ps.map (·.name)).zip args ++ primitives :=
    List.cons_subset.mpr ⟨List.mem_append_left _ hf, List.subset_append_right _ _⟩
  obtain ⟨g, v, s', hbody, hP, hext⟩ := hfold.eval_whole
    ((hhome.mono henter).subset (List.nil_subset _)) hm hnames (List.mem_append_left _ harr) htools
    (fun limit s h => hstart limit _ s (h.subset (List.subset_append_left _ _))) limit (by omega)
  exact ⟨v, s', apply_function hbody (hfold.plain _ _ hP).2, hP,
    ((henter.trans (.takeId _)).bind (Nat.le_refl s.nextFrame) "iter" g).trans hext⟩

end MonkeyLang
