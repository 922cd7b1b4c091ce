import MonkeyLang.Eval
import MonkeyLang.Program

/-!
Sessions: programs that run one after another and see what those before them have bound. How deep
evaluations may be nested depends on the host, and so the runs take it as a limit.
-/

namespace MonkeyLang

/-- A store and the frame in which the next program runs. -/
structure Session where
  store : Store
  env : FrameId
  deriving Inhabited

inductive Outcome
  | value (v : Value)
  | tooDeep
  | refused (errors : List String)
  deriving Inhabited

namespace Session

/-- The limit of a session on a host that gives no other. -/
def nestingLimit : Nat := 20000

def start : Session := ⟨Store.empty.addGlobal, 0⟩

def perform (s : Session) (x : Eval Value) : Outcome × Session :=
  match x.run s.store with
  | .ok v store => (.value v, { s with store })
  | .error _ store => (.tooDeep, { s with store })

def evaluateWithin (limit : Nat) (s : Session) (node : Node) : Outcome × Session :=
  s.perform (eval limit s.env node)

def evaluate : Session → Node → Outcome × Session := evaluateWithin nestingLimit

def call (s : Session) (f : Value) (args : List Value) : Outcome × Session :=
  s.perform (apply nestingLimit f args)

/-- Evaluates a program if it is clean, and refuses it otherwise. -/
def runProgramWithin (limit : Nat) (s : Session) (p : Program) : Outcome × Session :=
  if p.isClean then s.evaluateWithin limit p.node else (.refused p.errors, s)

def runProgram : Session → Program → Outcome × Session := runProgramWithin nestingLimit

def runWithin (limit : Nat) (s : Session) (source : String) : Outcome × Session :=
  s.runProgramWithin limit (Program.ofSource source)

def run : Session → String → Outcome × Session := runWithin nestingLimit

theorem runWithin_of_eval {limit : Nat} {s : Session} {source : String} {v : Value} {store : Store}
    (hclean : (Program.ofSource source).isClean = true)
    (heval : eval limit s.env (Program.ofSource source).node s.store = .ok v store) :
    s.runWithin limit source = (.value v, { s with store }) := by
  rw [runWithin, runProgramWithin, if_pos hclean, evaluateWithin, perform, EStateM.run, heval]

theorem runWithin_of_not_isClean {source : String} (h : (Program.ofSource source).isClean = false)
    (limit : Nat) (s : Session) :
    s.runWithin limit source = (.refused (Program.ofSource source).errors, s) := by
  rw [runWithin, runProgramWithin, h]
  rfl

def bind (s : Session) (name : String) (value : Value) : Session :=
  { s with store := s.store.bind s.env name value }

/-- Goes on in a new frame inside the current one. -/
def enter (s : Session) : Session :=
  ⟨s.store.addInner s.env [], s.store.nextFrame⟩

/-- Goes back to the frame around the current one, if there is one. -/
def leave (s : Session) : Session :=
  { s with env := (s.store.frame s.env).enclosing.headD s.env }

/-- Goes on in a new frame with nothing around it. -/
def reset (s : Session) : Session :=
  ⟨s.store.addGlobal, s.store.nextFrame⟩

def flush (s : Session) : String × Session :=
  let (text, store) := s.store.flush
  (text, { s with store })

end Session

end MonkeyLang
