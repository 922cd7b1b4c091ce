import MonkeyLang.Text.Quoted
import MonkeyLang.Value

/-!
The store that an evaluation reads and writes: frames of bindings, the functions that are known
everywhere, what was printed, and the next free identity. A frame knows the frames around it, the
nearest first, from the moment it is made; later only its own bindings change.
-/

namespace MonkeyLang

/-- Names and their values, in the order in which the names were first bound. -/
abbrev Bindings := List (String × Value)

namespace Bindings

def bind (bs : Bindings) (name : String) (value : Value) : Bindings :=
  upsert Prod.fst (name, value) bs

def value? (bs : Bindings) (name : String) : Option Value :=
  (withKey? Prod.fst name bs).map Prod.snd

/-- Binds parameters to arguments by position: one without an argument is null, and arguments
without a parameter are dropped. -/
def ofArguments : List Identifier → List Value → Bindings → Bindings
  | [], _, bs => bs
  | p :: ps, args, bs => ofArguments ps args.tail (bs.bind p.name (args.headD .null))

end Bindings

/-- One scope: its own bindings, and the frames around it, the nearest first. -/
structure Frame where
  bindings : Bindings
  enclosing : List FrameId
  deriving Inhabited, Repr

structure Store where
  frames : Array Frame
  functions : Bindings
  printed : List String
  nextId : Nat
  deriving Inhabited

namespace Store

/-- A store without frames, where just the primitives are known. -/
def empty : Store :=
  ⟨#[], Primitive.all.map fun p => (p.name, .builtin p), [], 0⟩

/-- A frame of the store; one that was never made is like an empty one. -/
def frame (s : Store) (i : FrameId) : Frame := s.frames.getD i ⟨[], []⟩

/-- The frames in which names are looked up from `i` on, in order. -/
def scope (s : Store) (i : FrameId) : List FrameId := i :: (s.frame i).enclosing

def depth (s : Store) (i : FrameId) : Nat := (s.frame i).enclosing.length

def nextFrame (s : Store) : FrameId := s.frames.size

def addFrame (s : Store) (bindings : Bindings) (enclosing : List FrameId) : Store :=
  { s with frames := s.frames.push ⟨bindings, enclosing⟩ }

def addGlobal (s : Store) : Store := s.addFrame [] []

def addInner (s : Store) (i : FrameId) (bindings : Bindings) : Store :=
  s.addFrame bindings (s.scope i)

/-- The value of a name, from the nearest frame of the scope that binds it. -/
def value? (s : Store) (i : FrameId) (name : String) : Option Value :=
  (s.scope i).findSome? fun j => (s.frame j).bindings.value? name

def isBound (s : Store) (i : FrameId) (name : String) : Bool := (s.value? i name).isSome

def bind (s : Store) (i : FrameId) (name : String) (value : Value) : Store :=
  { s with frames := s.frames.modify i fun f => { f with bindings := f.bindings.bind name value } }

def names (s : Store) (i : FrameId) : List String := (s.frame i).bindings.map Prod.fst

def sortedNames (s : Store) (i : FrameId) : List String := (s.names i).mergeSort (· ≤ ·)

def describeFrame (s : Store) (i : FrameId) : String :=
  "<Environment names=" ++ Text.quotedList (s.sortedNames i) ++
    " depth=" ++ toString (s.depth i) ++ ">"

def function? (s : Store) (name : String) : Option Value := Bindings.value? s.functions name

def functionNames (s : Store) : List String := s.functions.map Prod.fst

/-- What a name means in frame `i`: its binding or else the function known everywhere. -/
def meaning? (s : Store) (i : FrameId) (name : String) : Option Value :=
  (s.value? i name).or (s.function? name)

def takeId (s : Store) : Nat × Store := (s.nextId, { s with nextId := s.nextId + 1 })

/-- Makes a function known everywhere that ignores its arguments and gives `result`. -/
def register (s : Store) (name : String) (result : Value) : Store :=
  let (id, s) := s.takeId
  { s with functions := Bindings.bind s.functions name (.registered id name result) }

def print (s : Store) (lines : List String) : Store := { s with printed := s.printed ++ lines }

/-- All that was printed, each line with its end, and the store in which it is forgotten. -/
def flush (s : Store) : String × Store :=
  (String.join (s.printed.map (· ++ "\n")), { s with printed := [] })

end Store

end MonkeyLang
