import MonkeyLang.Proofs.Evaluation.View
import MonkeyLang.Proofs.Grammar.Joining
import MonkeyLang.Session

/-!
Sessions and programs. Sources that run one after another come to what their text, each source on
lines of its own, comes to as one program, if none of them but the last fails or returns. Both are
compared with the run of all statements, without their places, in a store in which the stores of
both are to be found: there the statements of a source go on where those before them ended.
-/

namespace MonkeyLang

namespace Eval

/-- None of the statements that are evaluated fails or returns. -/
def runsOn (ev : Node → Eval Value) : List Node → Store → Bool
  | [], _ => true
  | n :: ns, s =>
    match ev n s with
    | .ok v s' => !(v.isError || v.isReturned) && runsOn ev ns s'
    | .error _ _ => true

variable {ev ev' : Node → Eval Value}

/-- Behind statements of which none fails or returns the others go on. -/
theorem sequence_append {ns : List Node} {s : Store} (h : runsOn ev ns s = true) (ms : List Node)
    (last : Value) :
    (sequence ev last (ns ++ ms)).run s =
      (sequence ev last ns >>= fun v => sequence ev v ms).run s := by
  induction ns generalizing s last with
  | nil => rfl
  | cons n ns ih =>
    rw [runsOn] at h
    show EStateM.bind (ev n) _ s = EStateM.bind (EStateM.bind (ev n) _) _ s
    unfold EStateM.bind
    revert h
    generalize ev n s = a
    intro h
    cases a with
    | error e s' => rfl
    | ok v s' =>
      simp only [Bool.and_eq_true, Bool.not_eq_true'] at h
      obtain ⟨hgoes, hothers⟩ := h
      simp only [hgoes]
      exact ih hothers v

/-- The value before the first statement is that of none only. -/
theorem sequence_last (ev : Node → Eval Value) {ns : List Node} (hns : ns ≠ [])
    (last last' : Value) : sequence ev last ns = sequence ev last' ns := by
  cases ns with
  | nil => exact absurd rfl hns
  | cons n ns => rfl

end Eval

open Eval

/-- Whether statements run on is the same in a store that shows the one that they run in. -/
theorem View.Follows.runsOn {view : View} {before : List String} {ev ev' : Node → Eval Value}
    (hev : ∀ n, view.Simulates (·.seen view) (ev n) (ev' n.unplaced)) (ns : List Node)
    {s u : Store} (hu : view.Follows before s u) :
    runsOn ev' (ns.map (·.unplaced)) u = runsOn ev ns s := by
  induction ns generalizing s u with
  | nil => rfl
  | cons n ns ih =>
    have hresult := hev n before s u hu
    rw [List.map_cons, Eval.runsOn, Eval.runsOn]
    revert hresult
    generalize ev n s = a, ev' n.unplaced u = b
    intro hresult
    cases hresult with
    | cut => rfl
    | value h =>
      dsimp only
      rw [Value.isError_seen, Value.isReturned_seen, ih h]

/-! ## Sessions -/

def Outcome.seen (view : View) : Outcome → Outcome
  | value v => value (v.seen view)
  | tooDeep => tooDeep
  | refused errors => refused errors

namespace Session

/-- The sessions have equal contents: there is a store in which both are to be found, so that all
that can be reached from their frames differs in its numbers at most. -/
def Alike (s t : Session) : Prop :=
  ∃ (view view' : View) (u : Store), view.Shows s.store u ∧ view'.Shows t.store u ∧
    view.frame s.env = view'.frame t.env

/-- Two runs, one begun in `s` and one in `t`, came to the same. They printed the same lines; and
both stores are to be found in one store, where the sessions go on in the same frame and the results
are the same. -/
def SameRun (s t : Session) (x y : Outcome × Session) : Prop :=
  ∃ (view view' : View) (u : Store), view.Follows s.store.printed x.2.store u ∧
    view'.Follows t.store.printed y.2.store u ∧ view.frame x.2.env = view'.frame y.2.env ∧
    x.1.seen view = y.1.seen view'

theorem Alike.refl (s : Session) : s.Alike s :=
  ⟨.same, .same, s.store.unplaced, View.shows_unplaced _, View.shows_unplaced _, rfl⟩

/-- Sessions with equal contents have the same names, in the same order. -/
theorem Alike.names {s t : Session} (h : s.Alike t) :
    s.store.names s.env = t.store.names t.env := by
  obtain ⟨view, view', u, hs, ht, henv⟩ := h
  rw [← hs.names, ← ht.names, henv]

/-- In sessions with equal contents a name means values with the same text. -/
theorem Alike.inspect {s t : Session} (h : s.Alike t) (x : String) :
    (s.store.meaning? s.env x).map (·.inspect) = (t.store.meaning? t.env x).map (·.inspect) := by
  obtain ⟨view, view', u, hs, ht, henv⟩ := h
  have hsame := hs.meaning? s.env x
  rw [henv, ht.meaning?] at hsame
  have htexts := congrArg (Option.map (·.inspect)) hsame
  rw [Option.map_map, Option.map_map] at htexts
  simpa [Function.comp_def, Value.inspect_seen] using htexts.symm

/-- Runs that came to the same printed the same lines. -/
theorem SameRun.printed {s t : Session} {x y : Outcome × Session} (h : SameRun s t x y) :
    ∃ lines, x.2.store.printed = s.store.printed ++ lines ∧
      y.2.store.printed = t.store.printed ++ lines := by
  obtain ⟨view, view', u, hx, hy, -⟩ := h
  exact ⟨u.printed, hx.printed, hy.printed⟩

/-- Runs sources one after another and then the last, unless one is refused or cut off. -/
def runEach (limit : Nat) (s : Session) : List String → String → Outcome × Session
  | [], last => s.runWithin limit last
  | source :: sources, last =>
    match s.runWithin limit source with
    | (.value _, s') => s'.runEach limit sources last
    | stopped => stopped

/-- None of the sources that run one after another fails or returns. The statements of a program are
nested in it. -/
def runsOnEach (limit : Nat) (s : Session) : List String → Bool
  | [] => true
  | source :: sources =>
    runsOn (eval (limit - 1) s.env) (Program.ofSource source).statements s.store &&
      match s.runWithin limit source with
      | (.value _, s') => s'.runsOnEach limit sources
      | _ => true

/-! ### Runs in a store that shows another -/

def runStatements (limit : Nat) (s : Session) (statements : List Node) : Outcome × Session :=
  s.perform (Value.unwrap <$> sequence (eval limit s.env) .null statements)

variable {limit : Nat}

theorem runWithin_of_isClean {source : String} (h : (Program.ofSource source).isClean = true)
    (s : Session) : s.runWithin (limit + 1) source =
      s.runStatements limit (Program.ofSource source).statements := by
  rw [runWithin, runProgramWithin, if_pos h]
  rfl

theorem runWithin_zero {source : String} (h : (Program.ofSource source).isClean = true)
    (s : Session) : s.runWithin 0 source = (.tooDeep, s) := by
  rw [runWithin, runProgramWithin, if_pos h]
  rfl

theorem runEach_zero {earlier : List String} {last : String}
    (h : ∀ source ∈ earlier ++ [last], (Program.ofSource source).isClean = true) (s : Session) :
    s.runEach 0 earlier last = (.tooDeep, s) := by
  cases earlier with
  | nil => rw [runEach, runWithin_zero (h last List.mem_cons_self)]
  | cons source earlier => rw [runEach, runWithin_zero (h source List.mem_cons_self)]

theorem perform_seen {view : View} {before : List String} {x x' : Eval Value} {s t : Session}
    (hx : view.Simulates (·.seen view) x x') (h : view.Follows before s.store t.store) :
    (s.perform x).1.seen view = (t.perform x').1 ∧
      view.Follows before (s.perform x).2.store (t.perform x').2.store := by
  have hresult := hx before s.store t.store h
  unfold perform EStateM.run
  revert hresult
  generalize x s.store = a, x' t.store = b
  intro hresult
  cases hresult with
  | value h => exact ⟨rfl, h⟩
  | cut h => exact ⟨rfl, h⟩

theorem env_runStatements (limit : Nat) (s : Session) (ns : List Node) :
    (s.runStatements limit ns).2.env = s.env := by
  unfold runStatements perform
  split <;> rfl

/-- Statements, without their places, in a session that shows another one. -/
theorem runStatements_seen {view : View} {before : List String} {s t : Session}
    (h : view.Follows before s.store t.store) (henv : t.env = view.frame s.env)
    (statements : List Node) :
    (s.runStatements limit statements).1.seen view =
        (t.runStatements limit (statements.map (·.unplaced))).1 ∧
      view.Follows before (s.runStatements limit statements).2.store
        (t.runStatements limit (statements.map (·.unplaced))).2.store := by
  have hev := (View.simulates_eval view limit).1 s.env
  rw [← henv] at hev
  exact perform_seen (View.Simulates.sequence hev .null statements).unwrap h

theorem runStatements_eq (s : Session) (ns : List Node) :
    s.runStatements limit ns =
      match (sequence (eval limit s.env) .null ns).run s.store with
      | .ok v store => (.value v.unwrap, { s with store })
      | .error _ store => (.tooDeep, { s with store }) := by
  rw [runStatements, perform, map_eq_pure_bind, EStateM.run_bind]
  cases (sequence (eval limit s.env) .null ns).run s.store <;> rfl

/-- Statements behind those that run on are run in the session that these leave. -/
theorem runStatements_append {s : Session} {ns ms : List Node}
    (h : runsOn (eval limit s.env) ns s.store = true) (hms : ms ≠ []) :
    s.runStatements limit (ns ++ ms) =
      match s.runStatements limit ns with
      | (.value _, s') => s'.runStatements limit ms
      | stopped => stopped := by
  rw [runStatements_eq, runStatements_eq s ns, sequence_append h, EStateM.run_bind]
  cases (sequence (eval limit s.env) .null ns).run s.store with
  | error e store => rfl
  | ok v store =>
    dsimp only
    rw [runStatements_eq, sequence_last _ hms v .null]

def statementsOf (source : String) : List Node :=
  (Program.ofSource source).statements.map (·.unplaced)

/-- Sources that run on one after another come, in a session that shows this one, to what the one
list of all their statements comes to. -/
theorem runEach_seen {view : View} {before : List String} {earlier : List String} {last : String}
    (hclean : ∀ source ∈ earlier ++ [last], (Program.ofSource source).isClean = true)
    (hlast : statementsOf last ≠ []) {s t : Session} (h : s.runsOnEach (limit + 1) earlier = true)
    (hu : view.Follows before s.store t.store) (henv : t.env = view.frame s.env) :
    (s.runEach (limit + 1) earlier last).1.seen view =
        (t.runStatements limit ((earlier ++ [last]).flatMap statementsOf)).1 ∧
      view.Follows before (s.runEach (limit + 1) earlier last).2.store
        (t.runStatements limit ((earlier ++ [last]).flatMap statementsOf)).2.store ∧
      (s.runEach (limit + 1) earlier last).2.env = s.env := by
  induction earlier generalizing s t with
  | nil =>
    rw [List.nil_append, List.flatMap_singleton, runEach,
      runWithin_of_isClean (hclean last (by simp))]
    obtain ⟨houtcome, hstore⟩ := runStatements_seen hu henv (Program.ofSource last).statements
    exact ⟨houtcome, hstore, env_runStatements _ _ _⟩
  | cons source earlier ih =>
    obtain ⟨hfirst, hothers⟩ := List.forall_mem_cons.1 hclean
    rw [runsOnEach, Bool.and_eq_true, Nat.add_sub_cancel] at h
    obtain ⟨hruns, h⟩ := h
    have hev := (View.simulates_eval view limit).1 s.env
    rw [← henv] at hev
    have hideal : runsOn (eval limit t.env) (statementsOf source) t.store = true :=
      (hu.runsOn hev _).trans hruns
    have hmore : (earlier ++ [last]).flatMap statementsOf ≠ [] := by
      rw [List.flatMap_append, List.flatMap_singleton]
      exact List.append_ne_nil_of_right_ne_nil _ hlast
    obtain ⟨houtcome, hstore⟩ := runStatements_seen hu henv (Program.ofSource source).statements
    have hsenv := env_runStatements limit s (Program.ofSource source).statements
    have htenv := env_runStatements limit t (statementsOf source)
    rw [List.cons_append, List.flatMap_cons, runStatements_append hideal hmore, runEach]
    rw [runWithin_of_isClean hfirst] at h ⊢
    revert h houtcome hstore hsenv htenv
    rw [← statementsOf]
    -- What counts of the first source is how it ended: the others run only behind a value.
    generalize s.runStatements limit (Program.ofSource source).statements = x,
      t.runStatements limit (statementsOf source) = y
    obtain ⟨outcome, s'⟩ := x
    obtain ⟨outcome', t'⟩ := y
    intro h houtcome hstore hsenv htenv
    cases outcome with
    | value v =>
      cases houtcome
      obtain ⟨hsame, hstore', henv'⟩ := ih hothers h hstore (by rw [htenv, hsenv, henv])
      exact ⟨hsame, hstore', henv'.trans hsenv⟩
    | tooDeep | refused _ =>
      cases houtcome
      exact ⟨rfl, hstore, hsenv⟩

/-- Sessions with equal contents that are cut off at once. -/
theorem Alike.sameRun_tooDeep {s t : Session} (h : s.Alike t) :
    SameRun s t (.tooDeep, s) (.tooDeep, t) := by
  obtain ⟨view, view', u, hs, ht, henv⟩ := h
  exact ⟨view, view', { u with printed := [] }, hs.follows, ht.follows, henv, rfl⟩

/-- Sources that are read without a report, all but the last with a semicolon at their end, come to
the same one after another as together. In sessions with equal contents, if none of those before the
last fails or returns, the run of one after another and the run of their text, each on lines of its
own, print the same, leave the same bindings and give the same result; where an evaluation is nested
deeper than the limit, whichever it is, both are cut off there. -/
theorem run_intercalate (limit : Nat) {s t : Session} {earlier : List String} {last : String}
    (halike : s.Alike t)
    (hclean : ∀ source ∈ earlier ++ [last], (Program.ofSource source).isClean = true)
    (hstatements : (Program.ofSource last).statements ≠ [])
    (hend : ∀ source ∈ earlier, EndsInSemicolon source)
    (hruns : s.runsOnEach limit earlier = true) :
    SameRun s t (s.runEach limit earlier last)
      (t.runWithin limit ("\n".intercalate (earlier ++ [last]))) := by
  obtain ⟨hjoined, hnodes⟩ := Program.ofSource_intercalate hclean hend
  cases limit with
  | zero =>
    rw [runEach_zero hclean, runWithin_zero hjoined]
    exact halike.sameRun_tooDeep
  | succ limit =>
    obtain ⟨view, view', u, hs, ht, henv⟩ := halike
    let ideal : Session := ⟨{ u with printed := [] }, view.frame s.env⟩
    have hlast : statementsOf last ≠ [] := by rwa [statementsOf, ne_eq, List.map_eq_nil_iff]
    -- Both runs are seen as the run of all statements in the store that shows both sessions.
    obtain ⟨hone, honestore, honeenv⟩ :=
      runEach_seen (t := ideal) hclean hlast hruns hs.follows rfl
    obtain ⟨hall, hallstore⟩ := runStatements_seen (t := ideal) ht.follows henv
      (Program.ofSource ("\n".intercalate (earlier ++ [last]))).statements
    have hsame : (Program.ofSource ("\n".intercalate (earlier ++ [last]))).statements.map
        (·.unplaced) = (earlier ++ [last]).flatMap statementsOf := hnodes
    rw [hsame] at hall hallstore
    rw [runWithin_of_isClean hjoined]
    refine ⟨view, view', _, honestore, hallstore, ?_, hone.trans hall.symm⟩
    rw [honeenv, env_runStatements, henv]

def lines : List String :=
  ["let f = fn(x) \x7b puts(x); return x + 1; \x7d;", "let y = f(1);"]

def failing : String := "f(y);\nreturn z"

theorem run_intercalate_failing :
    Session.start.Alike Session.start ∧
      (∀ source ∈ lines ++ [failing], (Program.ofSource source).isClean = true) ∧
      (Program.ofSource failing).statements ≠ [] ∧
      (∀ source ∈ lines, EndsInSemicolon source) ∧
      Session.start.runsOnEach nestingLimit lines = true ∧
      SameRun Session.start Session.start (Session.start.runEach nestingLimit lines failing)
        (Session.start.run ("\n".intercalate (lines ++ [failing]))) ∧
      (Session.start.runEach nestingLimit lines failing).2.store.printed = ["1", "2"] := by
  have hclean : ∀ source ∈ lines ++ [failing], (Program.ofSource source).isClean = true := by
    decide +kernel
  have hstatements : (Program.ofSource failing).statements ≠ [] :=
    List.ne_nil_of_length_pos (by decide +kernel)
  have hend : ∀ source ∈ lines, EndsInSemicolon source := by decide +kernel
  have hruns : Session.start.runsOnEach nestingLimit lines = true := by decide +kernel
  exact ⟨.refl _, hclean, hstatements, hend, hruns,
    run_intercalate nestingLimit (.refl _) hclean hstatements hend hruns, by decide +kernel⟩

end Session

end MonkeyLang
