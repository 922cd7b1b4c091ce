import Mathlib.Algebra.Ring.Int.Defs
import MonkeyLang.Proofs.Evaluation.Folding
import MonkeyLang.Proofs.Evaluation.View
import MonkeyLang.Program
import MonkeyLang.Word

/-!
The two idioms of working with arrays. `reduce` and `map` are no primitives: a program defines them,
with a function `iter` inside that calls itself. From the texts of the definitions on, `reduce` sums
up and `map` doubles, whatever the array.
-/

namespace MonkeyLang

open Eval Loop

/-! ## Sources -/

namespace Idiom

def reduceSource : String :=
  "let reduce = fn(arr, initial, f) \x7b let iter = fn(arr, result) \x7b " ++
  "if (len(arr) == 0) \x7b result \x7d else \x7b iter(rest(arr), f(result, first(arr))) \x7d " ++
  "\x7d; iter(arr, initial) \x7d;"

/-- Sums up what `xs` is bound to. -/
def sumSource : String := "reduce(xs, 0, fn(acc, el) \x7b acc + el \x7d)"

def mapSource : String :=
  "let map = fn(arr, f) \x7b let iter = fn(arr, acc) \x7b " ++
  "if (len(arr) == 0) \x7b acc \x7d else \x7b iter(rest(arr), push(acc, f(first(arr)))) \x7d " ++
  "\x7d; iter(arr, []) \x7d;"

/-- Doubles each element of what `xs` is bound to. -/
def doubleSource : String := "map(xs, fn(x) \x7b x * 2 \x7d)"

/-- What `reduce` makes of the value so far and the next element. -/
def reduceStep : Node := call "f" [var "result", call "first" [var "arr"]]

/-- What `map` makes of them. -/
def mapStep : Node := call "push" [var "acc", call "f" [call "first" [var "arr"]]]

def sumBody : Node :=
  block [say "acc" (.binary (.loose .plus "+") (var "acc") "+" (var "el"))]

def doubleBody : Node :=
  block [say "x" (.binary (.loose .asterisk "*") (var "x") "*" (number 2))]

def emptyArray : Node := .array (.loose .lbracket "[") []

/-- The source is a clean program, whose one statement this is. -/
def Reads (source : String) (statement : Node) : Prop :=
  (Program.ofSource source).isClean = true ∧
    ∃ token, (Program.ofSource source).node.unplaced = .program token [statement]

set_option maxRecDepth 20000 in
theorem reads_reduceSource : Reads reduceSource (define "reduce"
    (literal ["arr", "initial", "f"] (whole "result" (var "initial") reduceStep))) :=
  ⟨by decide +kernel, .loose .kwLet "let", by with_unfolding_all rfl⟩

theorem reads_sumSource : Reads sumSource (say "reduce"
    (call "reduce" [var "xs", number 0, literal ["acc", "el"] sumBody])) :=
  ⟨by decide +kernel, .loose .ident "reduce", by with_unfolding_all rfl⟩

set_option maxRecDepth 20000 in
theorem reads_mapSource : Reads mapSource (define "map"
    (literal ["arr", "f"] (whole "acc" emptyArray mapStep))) :=
  ⟨by decide +kernel, .loose .kwLet "let", by with_unfolding_all rfl⟩

theorem reads_doubleSource : Reads doubleSource (say "map"
    (call "map" [var "xs", literal ["x"] doubleBody])) :=
  ⟨by decide +kernel, .loose .ident "map", by with_unfolding_all rfl⟩

def reduceValue (i : Nat) (home : FrameId) : Value :=
  .function i [name "arr", name "initial", name "f"] (whole "result" (var "initial") reduceStep)
    home

def sumValue (i : Nat) (home : FrameId) : Value :=
  .function i [name "acc", name "el"] sumBody home

def mapValue (i : Nat) (home : FrameId) : Value :=
  .function i [name "arr", name "f"] (whole "acc" emptyArray mapStep) home

def doubleValue (i : Nat) (home : FrameId) : Value := .function i [name "x"] doubleBody home

end Idiom

open Idiom

/-! ## Rounds of the idioms -/

section rounds

variable {i : Nat} {home : FrameId}

theorem apply_sumValue {s : Store} (hhome : s.Offers home []) (limit : Nat) (m n : Int) :
    ∃ s', apply (limit + 5) (sumValue i home) [.integer m, .integer n] s =
      .ok (.integer (Word.wrap (m + n))) s' ∧ s.Extends s' := by
  have hm := hhome.call [name "acc", name "el"] [.integer m, .integer n] (by decide) rfl (by simp)
  have hl := hm.eval_var limit "acc" (.integer m) (by simp [name])
  have hr := hm.eval_var limit "el" (.integer n) (by simp [name])
  exact ⟨_, apply_function (eval_block (eval_binary hl hr rfl rfl)) rfl, .addInner s home _⟩

theorem apply_doubleValue {s : Store} (hhome : s.Offers home []) (limit : Nat) (n : Int) :
    ∃ s', apply (limit + 5) (doubleValue i home) [.integer n] s =
      .ok (.integer (Word.wrap (2 * n))) s' ∧ s.Extends s' := by
  have hm := hhome.call [name "x"] [.integer n] (by decide) rfl (by simp)
  have hl := hm.eval_var limit "x" (.integer n) (by simp [name])
  have hr := eval_number limit s.nextFrame 2
  rw [Int.mul_comm]
  exact ⟨_, apply_function (eval_block (eval_binary hl (hr _) rfl rfl)) rfl, .addInner s home _⟩

theorem eval_first {s : Store} {env : FrameId} (limit id : Nat) (x : Int) (xs : List Int)
    (h : s.Offers env [("arr", numbers id (x :: xs)), ("first", .builtin .first)]) :
    eval (limit + 3) env (call "first" [var "arr"]) s = .ok (.integer x) s := by
  have hfirst := h.eval_var (limit + 1) "first" (.builtin .first) (by simp)
  have harr := h.eval_var (limit + 1) "arr" (numbers id (x :: xs)) (by simp)
  exact eval_call hfirst rfl (.cons harr rfl .nil)

/-- Each round of `reduce` adds an element to the sum. -/
theorem folds_reduce : Folds "result" reduceStep (sumValue i home) home
    fun ys r => r = .integer (Word.wrap ys.sum) where
  fresh := by decide
  plain := by
    rintro ys r rfl
    exact ⟨rfl, rfl⟩
  round := by
    rintro limit env s id x xs ys r hhome h rfl
    have hf := h.eval_var (limit + 5) "f" (sumValue i home) (by simp)
    have hresult := h.eval_var (limit + 5) "result" (.integer (Word.wrap ys.sum)) (by simp)
    have hfirst := eval_first (limit + 3) id x xs (h.subset (by simp [primitives]))
    obtain ⟨s', happly, hext⟩ := apply_sumValue (i := i) hhome (limit + 1) (Word.wrap ys.sum) x
    have hsum : Word.wrap (Word.wrap ys.sum + x) = Word.wrap (ys ++ [x]).sum := by
      rw [List.sum_append, List.sum_singleton]
      exact Int.bmod_add_bmod
    rw [hsum] at happly
    exact ⟨_, s', (eval_call hf rfl (.cons hresult rfl (.cons hfirst rfl .nil))).trans happly, rfl,
      hext⟩

/-- Each round of `map` adds an element to the array. -/
theorem folds_map : Folds "acc" mapStep (doubleValue i home) home
    fun ys r => ∃ id, r = numbers id (ys.map fun y => Word.wrap (2 * y)) where
  fresh := by decide
  plain := by
    rintro ys r ⟨id, rfl⟩
    exact ⟨rfl, rfl⟩
  round := by
    rintro limit env s id x xs ys r hhome h ⟨id', rfl⟩
    have hpush := h.eval_var (limit + 5) "push" (.builtin .push)
      (by simp [primitives])
    have hacc := h.eval_var (limit + 5) "acc" _ (List.mem_cons_of_mem _ List.mem_cons_self)
    have hf := h.eval_var (limit + 4) "f" (doubleValue i home) (by simp)
    have hfirst := eval_first (limit + 2) id x xs (h.subset (by simp [primitives]))
    obtain ⟨s', happly, hext⟩ := apply_doubleValue (i := i) hhome limit x
    have hcall : eval (limit + 6) env (call "f" [call "first" [var "arr"]]) s = _ :=
      (eval_call hf rfl (.cons hfirst rfl .nil)).trans happly
    refine ⟨_, s'.takeId.2, eval_call hpush rfl (.cons hacc rfl (.cons hcall rfl .nil)),
      ⟨s'.nextId, ?_⟩, hext.trans (.takeId s')⟩
    simp [numbers]

end rounds

/-! ## Runs of the idioms -/

/-- The statement, as the one of a program, defines a function in the frame. -/
theorem eval_definition (limit : Nat) (env : FrameId) (s : Store) (token : Token) (x : String)
    (ps : List String) (body : Node) :
    eval (limit + 3) env (.program token [define x (literal ps body)]) s =
      .ok .null (s.takeId.2.bind env x (.function s.nextId (ps.map name) body env)) :=
  rfl

theorem eval_program {limit : Nat} {env : FrameId} {s s' : Store} {v : Value} {x : String}
    {e : Node} {token : Token} (h : eval limit env e s = .ok v s') (hret : v.isReturned = false) :
    eval (limit + 2) env (.program token [say x e]) s = .ok v s' := by
  have hstatement : sequence (eval (limit + 1) env) .null [say x e] s = .ok v s' :=
    sequence_singleton h
  show EStateM.map Value.unwrap (sequence (eval (limit + 1) env) .null [say x e]) s = _
  simp only [EStateM.map, hstatement, Value.unwrap_of_isReturned hret]

section runs

variable {limit i id : Nat} {env : FrameId} {s : Store} {xs : List Int} (token : Token)
  (hlimit : 7 * xs.length + 14 ≤ limit)

include hlimit

/-- Where `reduce` is defined, the elements are summed up. -/
theorem eval_sum
    (h : s.Offers env (("reduce", reduceValue i env) :: ("xs", numbers id xs) :: primitives)) :
    ∃ s', eval limit env (.program token [say "reduce"
        (call "reduce" [var "xs", number 0, literal ["acc", "el"] sumBody])]) s =
        .ok (.integer (Word.wrap xs.sum)) s' ∧ s.Extends s' := by
  obtain ⟨limit, rfl⟩ : ∃ l, limit = l + 4 := Nat.exists_eq_add_of_le' (by omega)
  have hreduce := h.eval_var limit "reduce" (reduceValue i env) (by simp)
  have hxs := h.eval_var limit "xs" (numbers id xs) (by simp)
  have htake := Store.Extends.takeId s
  obtain ⟨v, s', happly, rfl, hext⟩ := (folds_reduce (i := s.nextId)).apply_whole
    ((h.mono htake).subset (by simp [primitives])) (limit + 1) i id xs
    [name "arr", name "initial", name "f"] [numbers id xs, .integer 0, sumValue s.nextId env]
    (var "initial") (by omega) (by decide) rfl (by decide) (by simp [name]) (by simp [name])
    fun limit m s hm =>
      ⟨.integer 0, s, hm.eval_var limit "initial" _ (by simp [name]), rfl, .refl s⟩
  have hargs : YieldsEach (eval (limit + 1) env) s
      [var "xs", number 0, literal ["acc", "el"] sumBody]
      [numbers id xs, .integer 0, sumValue s.nextId env] s.takeId.2 :=
    .cons hxs rfl (.cons rfl rfl (.cons rfl rfl .nil))
  have hcall : eval (limit + 2) env (call "reduce" _) s = _ :=
    (eval_call hreduce rfl hargs).trans happly
  exact ⟨s', eval_program hcall rfl, htake.trans hext⟩

/-- Where `map` is defined, each element is doubled. -/
theorem eval_double
    (h : s.Offers env (("map", mapValue i env) :: ("xs", numbers id xs) :: primitives)) :
    ∃ id' s', eval limit env (.program token [say "map"
        (call "map" [var "xs", literal ["x"] doubleBody])]) s =
        .ok (numbers id' (xs.map fun x => Word.wrap (2 * x))) s' ∧ s.Extends s' := by
  obtain ⟨limit, rfl⟩ : ∃ l, limit = l + 4 := Nat.exists_eq_add_of_le' (by omega)
  have hmap := h.eval_var limit "map" (mapValue i env) (by simp)
  have hxs := h.eval_var limit "xs" (numbers id xs) (by simp)
  have htake := Store.Extends.takeId s
  obtain ⟨v, s', happly, ⟨id', rfl⟩, hext⟩ := (folds_map (i := s.nextId)).apply_whole
    ((h.mono htake).subset (by simp [primitives])) (limit + 1) i id xs [name "arr", name "f"]
    [numbers id xs, doubleValue s.nextId env] emptyArray (by omega) (by decide) rfl (by decide)
    (by simp [name]) (by simp [name])
    fun limit m s hm => ⟨_, s.takeId.2, rfl, ⟨s.nextId, rfl⟩, .takeId s⟩
  have hargs : YieldsEach (eval (limit + 1) env) s [var "xs", literal ["x"] doubleBody]
      [numbers id xs, doubleValue s.nextId env] s.takeId.2 :=
    .cons hxs rfl (.cons rfl rfl .nil)
  have hcall : eval (limit + 2) env (call "map" _) s = _ :=
    (eval_call hmap rfl hargs).trans happly
  exact ⟨id', s', eval_program hcall rfl, htake.trans hext⟩

end runs

/-! ## From the sources on -/

namespace View

variable {view : View} {before : List String} {s u u' : Store} {limit : Nat} {env : FrameId}

/-- What completes without places, in a store that shows the other one, completes with them. -/
theorem Follows.exists_eval (hu : view.Follows before s u) {n : Node} {w : Value}
    (h : eval limit (view.frame env) n.unplaced u = .ok w u') :
    ∃ v s', eval limit env n s = .ok v s' ∧ v.seen view = w ∧ view.Follows before s' u' := by
  have hmirrors := (simulates_eval view limit).1 env n before s u hu
  rw [h] at hmirrors
  generalize eval limit env n s = result at hmirrors
  cases hmirrors with
  | value hu' => exact ⟨_, _, rfl, rfl, hu'⟩

/-- Values without a source in them are found in the other store too. -/
theorem Shows.offers (h : View.same.Shows s u) {table : Bindings} (hs : s.Offers env table)
    (hseen : ∀ b ∈ table, b.2.seen .same = b.2) : u.Offers env table where
  made := by
    have hscope : u.scope env = (s.scope env).map fun i => i := h.scope env
    have hnext : s.nextFrame = u.nextFrame := h.nextFrame 0
    rw [hscope, List.map_id', ← hnext]
    exact hs.made
  meaning b hb := by
    have hmeaning : u.meaning? env b.1 = (s.meaning? env b.1).map (·.seen .same) :=
      h.meaning? env b.1
    rw [hmeaning, hs.meaning b hb, Option.map_some, hseen b hb]

end View

namespace Value

variable {view : View}

theorem seen_numbers (id : Nat) (xs : List Int) :
    (numbers id xs).seen view = numbers (view.id id) xs := by
  rw [numbers, seen_array, List.map_map]
  rfl

theorem eq_integer_of_seen {v : Value} {n : Int} (h : v.seen view = .integer n) :
    v = .integer n := by
  cases v with
  | integer m => exact h
  | _ => cases h

theorem eq_integers_of_seen {vs : List Value} {xs : List Int}
    (h : vs.map (·.seen view) = xs.map .integer) : vs = xs.map .integer := by
  induction xs generalizing vs with
  | nil => exact List.map_eq_nil_iff.mp h
  | cons x xs ih =>
    obtain ⟨v, vs, rfl, hv, hvs⟩ := List.map_eq_cons_iff.mp h
    rw [List.map_cons, ih hvs, eq_integer_of_seen hv]

theorem exists_eq_numbers_of_seen {v : Value} {id : Nat} {xs : List Int}
    (h : v.seen view = numbers id xs) : ∃ id', v = numbers id' xs ∧ view.id id' = id := by
  cases v with
  | array id' vs =>
    rw [seen_array] at h
    obtain ⟨hid, hvs⟩ := Value.array.inj h
    exact ⟨id', by rw [eq_integers_of_seen hvs, numbers], hid⟩
  | _ => cases h

end Value

/-- The two sources are clean programs. Evaluated one after the other they complete, and the second
gives a value as described; nothing is printed, and `xs` means what it meant. -/
def Idiom.Computes (limit : Nat) (env : FrameId) (s : Store) (definition use : String)
    (P : Value → Prop) : Prop :=
  (Program.ofSource definition).isClean = true ∧ (Program.ofSource use).isClean = true ∧
    ∃ v₁ s₁ v s₂, eval limit env (Program.ofSource definition).node s = .ok v₁ s₁ ∧
      eval limit env (Program.ofSource use).node s₁ = .ok v s₂ ∧ P v ∧
      s₂.printed = s.printed ∧ s₂.meaning? env "xs" = s.meaning? env "xs"

/-- A definition and its use compute what the use gives where the definition has been made. -/
theorem Idiom.computes_of_reads {definition use x : String} {ps : List String}
    {body statement : Node} {limit id : Nat} {env : FrameId} {s : Store} {xs : List Int}
    {P : Value → Prop} (hdefinition : Reads definition (define x (literal ps body)))
    (huse : Reads use statement) (hs : s.Offers env (("xs", numbers id xs) :: primitives))
    (hx : x ∉ ["xs", "len", "first", "rest", "push"]) (hlimit : 3 ≤ limit)
    (hrun : ∀ i u token, Store.Offers u env
        ((x, .function i (ps.map name) body env) :: ("xs", numbers id xs) :: primitives) →
      ∃ w u', eval limit env (.program token [statement]) u = .ok w u' ∧ u.Extends u' ∧
        ∀ v : Value, v.seen .same = w → P v) :
    Computes limit env s definition use P := by
  obtain ⟨limit, rfl⟩ : ∃ l, limit = l + 3 := Nat.exists_eq_add_of_le' hlimit
  obtain ⟨hclean, token, htree⟩ := hdefinition
  obtain ⟨hclean', token', htree'⟩ := huse
  refine ⟨hclean, hclean', ?_⟩
  have hu := (View.shows_unplaced s).follows
  have hoffers := hu.offers hs
    (List.forall_mem_cons.mpr ⟨Value.seen_numbers id xs, by simp [primitives, Value.seen]⟩)
  generalize hu₀ : ({ s.unplaced with printed := [] } : Store) = u at hu hoffers
  -- the definition
  have hdefine := eval_definition limit env u token x ps body
  rw [← htree] at hdefine
  obtain ⟨v₁, s₁, hv₁, -, hu₁⟩ := hu.exists_eval hdefine
  have hoffers₁ := (hoffers.mono (.takeId u)).bind
    (.function u.nextId (ps.map name) body env) (x := x) (by simpa [primitives] using hx)
  -- its use
  obtain ⟨w, u₂, hw, hext, hP⟩ := hrun _ _ token' hoffers₁
  rw [← htree'] at hw
  obtain ⟨v, s₂, hv, hseen, hu₂⟩ := hu₁.exists_eval hw
  refine ⟨v₁, s₁, v, s₂, hv₁, hv, hP v hseen, ?_, ?_⟩
  · have hnothing : u₂.printed = [] := hext.printed.trans (by rw [← hu₀]; rfl)
    rw [hu₂.printed, hnothing, List.append_nil]
  · have hmeaning : u₂.meaning? env "xs" = (s₂.meaning? env "xs").map (·.seen .same) :=
      hu₂.meaning? env "xs"
    rw [(hoffers₁.mono hext).meaning ("xs", numbers id xs) (by simp), eq_comm,
      Option.map_eq_some_iff] at hmeaning
    obtain ⟨v', hv', hsame⟩ := hmeaning
    obtain ⟨id', rfl, rfl⟩ := Value.exists_eq_numbers_of_seen hsame
    exact hv'.trans (hs.meaning ("xs", numbers id' xs) List.mem_cons_self).symm

/-- The idioms are correct for all arrays of numbers, wherever `xs` is bound to one and the
primitives mean what they do. Defining `reduce` and calling it gives the sum, wrapped around once;
defining `map` and calling it gives an array with each number doubled. Nothing is printed, and `xs`
stays what it is. Each element takes seven more levels of nesting. -/
theorem Idiom.reduce_sums_map_doubles {limit id : Nat} {env : FrameId} {s : Store} {xs : List Int}
    (hs : s.Offers env (("xs", numbers id xs) :: primitives))
    (hlimit : 7 * xs.length + 14 ≤ limit) :
    Computes limit env s reduceSource sumSource (· = .integer (Word.wrap xs.sum)) ∧
      Computes limit env s mapSource doubleSource fun v =>
        ∃ id', v = .array id' (xs.map fun x => .integer (Word.wrap (2 * x))) := by
  constructor
  · refine computes_of_reads reads_reduceSource reads_sumSource hs (by decide) (by omega) ?_
    intro i u token h
    obtain ⟨u', hu', hext⟩ := eval_sum token hlimit h
    exact ⟨_, u', hu', hext, fun v hv => Value.eq_integer_of_seen hv⟩
  · refine computes_of_reads reads_mapSource reads_doubleSource hs (by decide) (by omega) ?_
    intro i u token h
    obtain ⟨id', u', hu', hext⟩ := eval_double token hlimit h
    refine ⟨_, u', hu', hext, fun v hv => ?_⟩
    obtain ⟨id'', rfl, -⟩ := Value.exists_eq_numbers_of_seen hv
    exact ⟨id'', by simp [numbers]⟩

/-- A store in whose only frame `xs` is an array of two numbers with a sum that is out of range. -/
def Idiom.bound : Store :=
  Store.empty.addGlobal.takeId.2.bind 0 "xs" (numbers 0 [9223372036854775807, 1])

theorem Idiom.reduce_sums_map_doubles_bound :
    bound.Offers 0 (("xs", numbers 0 [9223372036854775807, 1]) :: primitives) ∧
      Computes 28 0 bound reduceSource sumSource (· = .integer (-9223372036854775808)) ∧
      Computes 28 0 bound mapSource doubleSource fun v =>
        ∃ id, v = .array id [.integer (-2), .integer 2] := by
  have hbound : bound.Offers 0 (("xs", numbers 0 [9223372036854775807, 1]) :: primitives) :=
    ⟨by decide, by
      simp only [primitives, List.forall_mem_cons]
      exact ⟨rfl, rfl, rfl, rfl, rfl, List.forall_mem_nil _⟩⟩
  exact ⟨hbound, reduce_sums_map_doubles hbound (by decide)⟩

end MonkeyLang
