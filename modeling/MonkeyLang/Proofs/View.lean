import MonkeyLang.Operator
import MonkeyLang.Proofs.Placement
import MonkeyLang.Proofs.Store

/-!
Values and stores under other numbers. No program can find out which number an identity or a frame
has, nor where its source stands: a view gives everything that has a number another one, no two
things the same, and what operators and lookups make of the values is seen under the view as what
they make of the values that are seen.
-/

namespace MonkeyLang

/-- Other numbers for identities and frames. -/
structure View where
  id : Nat → Nat
  frame : FrameId → FrameId
  id_injective : Function.Injective id
  frame_injective : Function.Injective frame

namespace Value

mutual

/-- A value under the numbers of a view. The source of a function is seen without its places. -/
def seen (view : View) : Value → Value
  | integer n => integer n
  | boolean b => boolean b
  | string s => string s
  | null => null
  | array id elements => array (view.id id) (seenEach view elements)
  | hash id entries => hash (view.id id) (seenEntries view entries)
  | function id parameters body frame =>
    function (view.id id) (parameters.map (·.unplaced)) body.unplaced (view.frame frame)
  | builtin p => builtin p
  | registered id name result => registered (view.id id) name (seen view result)
  | error id failure => error (view.id id) failure
  | returned id value => returned (view.id id) (seen view value)

def seenEach (view : View) : List Value → List Value
  | [] => []
  | v :: vs => seen view v :: seenEach view vs

def seenEntries (view : View) : List (Key × Value) → List (Key × Value)
  | [] => []
  | (k, v) :: entries => (k, seen view v) :: seenEntries view entries

end

variable (view : View) (v : Value)

theorem seenEach_eq_map (vs : List Value) : seenEach view vs = vs.map (·.seen view) := by
  induction vs with
  | nil => rfl
  | cons v vs ih => rw [seenEach, ih, List.map_cons]

theorem seenEntries_eq_map (entries : List (Key × Value)) :
    seenEntries view entries = entries.map fun e => (e.1, e.2.seen view) := by
  induction entries with
  | nil => rfl
  | cons e entries ih => rw [seenEntries, ih, List.map_cons]

@[simp] theorem seen_array (id : Nat) (vs : List Value) :
    (array id vs).seen view = array (view.id id) (vs.map (·.seen view)) := by
  rw [seen, seenEach_eq_map]

@[simp] theorem seen_hash (id : Nat) (entries : List (Key × Value)) :
    (hash id entries).seen view =
      hash (view.id id) (entries.map fun e => (e.1, e.2.seen view)) := by
  rw [seen, seenEntries_eq_map]

@[simp] theorem tag_seen : (v.seen view).tag = v.tag := by cases v <;> rfl

@[simp] theorem isError_seen : (v.seen view).isError = v.isError := by cases v <;> rfl

@[simp] theorem isReturned_seen : (v.seen view).isReturned = v.isReturned := by cases v <;> rfl

@[simp] theorem isTruthy_seen : (v.seen view).isTruthy = v.isTruthy := by
  cases v with
  | boolean b => cases b <;> rfl
  | _ => rfl

@[simp] theorem key?_seen : (v.seen view).key? = v.key? := by cases v <;> rfl

theorem unwrap_seen : (v.seen view).unwrap = v.unwrap.seen view := by cases v <;> rfl

theorem bodyText_unplaced (body : Node) : bodyText body.unplaced = bodyText body := by
  have h := body.render_unplaced
  cases body <;> first | rfl | exact h

mutual

/-- The text of a value has no numbers in it. -/
theorem inspect_seen (view : View) : ∀ v : Value, (v.seen view).inspect = v.inspect
  | integer _ | boolean _ | string _ | null | builtin _ | registered _ _ _ | error _ _ => rfl
  | array _ elements => by rw [seen, inspect, inspect, inspectEach_seen view elements]
  | hash _ entries => by rw [seen, inspect, inspect, inspectEntries_seen view entries]
  | function _ parameters body _ => by
    have hnames : (parameters.map (·.unplaced)).map (·.name) = parameters.map (·.name) := by
      simp [Function.comp_def]
    rw [seen, inspect, inspect, hnames, bodyText_unplaced]
  | returned _ value => by rw [seen, inspect, inspect, inspect_seen view value]

theorem inspectEach_seen (view : View) :
    ∀ vs : List Value, inspectEach (seenEach view vs) = inspectEach vs
  | [] => rfl
  | v :: vs => by
    rw [seenEach, inspectEach, inspectEach, inspect_seen view v, inspectEach_seen view vs]

private theorem inspectEntries_seen (view : View) :
    ∀ entries : List (Key × Value), inspectEntries (seenEntries view entries) =
      inspectEntries entries
  | [] => rfl
  | (k, v) :: entries => by
    rw [seenEntries, inspectEntries, inspectEntries, inspect_seen view v,
      inspectEntries_seen view entries]

end

/-! ## Operators -/

theorem unary_eq_error {op : String} (hbang : op ≠ "!") (hminus : op ≠ "-") (v : Value) :
    v.unary op = .error (.unknownUnary op v.tag) := by
  unfold unary
  split
  · exact absurd rfl hbang
  · exact absurd rfl hminus
  · rfl

theorem unary_seen (op : String) : (v.seen view).unary op = (v.unary op).map (·.seen view) := by
  by_cases hbang : op = "!"
  · subst hbang
    show Except.ok (boolean !(v.seen view).isTruthy) = _
    rw [isTruthy_seen]
    rfl
  by_cases hminus : op = "-"
  · subst hminus
    cases v <;> rfl
  · rw [unary_eq_error hbang hminus, unary_eq_error hbang hminus, tag_seen]
    rfl

theorem identical_seen (l r : Value) : (l.seen view).identical (r.seen view) = l.identical r := by
  have hid : ∀ i j, (view.id i == view.id j) = (i == j) := fun i j =>
    Bool.eq_iff_iff.mpr (by simpa using view.id_injective.eq_iff)
  cases l <;> cases r <;> first | rfl | exact hid _ _

/-- Arithmetic makes nothing that has a number. -/
theorem map_seen_binaryInteger (op : String) (m n : Int) :
    (binaryInteger op m n).map (·.seen view) = binaryInteger op m n := by
  unfold binaryInteger
  split
  case h_4 => split <;> rfl
  all_goals rfl

/-- What an operator makes of values that are not both integers and not both strings. -/
theorem binary_of_tag {op : String} {l r : Value} (hint : ¬(l.tag = .integer ∧ r.tag = .integer))
    (hstring : ¬(l.tag = .string ∧ r.tag = .string)) :
    binary op l r =
      if op = "==" then .ok (.boolean (l.identical r))
      else if op = "!=" then .ok (.boolean !l.identical r)
      else if l.tag = r.tag then .error (.unknownBinary l.tag op r.tag)
      else .error (.typeMismatch l.tag op r.tag) := by
  unfold binary
  split
  · exact absurd ⟨rfl, rfl⟩ hint
  · exact absurd ⟨rfl, rfl⟩ hstring
  · rfl

theorem binary_seen (op : String) (l r : Value) :
    (l.seen view).binary op (r.seen view) = (l.binary op r).map (·.seen view) := by
  by_cases hint : l.tag = .integer ∧ r.tag = .integer
  · obtain ⟨hl, hr⟩ := hint
    cases l <;> cases hl
    cases r <;> cases hr
    exact (map_seen_binaryInteger view op _ _).symm
  · by_cases hstring : l.tag = .string ∧ r.tag = .string
    · obtain ⟨hl, hr⟩ := hstring
      cases l <;> cases hl
      cases r <;> cases hr
      simp only [binary, seen]
      split <;> rfl
    · rw [binary_of_tag hint hstring, binary_of_tag (by simpa using hint) (by simpa using hstring),
        identical_seen, tag_seen, tag_seen]
      repeat' split
      all_goals rfl

theorem elementAt_seen (vs : List Value) (i : Int) :
    elementAt (vs.map (·.seen view)) i = (elementAt vs i).seen view := by
  unfold elementAt
  split
  · rfl
  · rw [List.getD_eq_getElem?_getD, List.getD_eq_getElem?_getD, List.getElem?_map]
    cases vs[i.toNat]? <;> rfl

end Value

/-! ## Lists with keys -/

section entries

variable {α β κ : Type} [DecidableEq κ] (key : α → κ) (f : β → β)

theorem upsert_map (x : α × β) (xs : List (α × β)) :
    upsert (fun e => key e.1) (x.1, f x.2) (xs.map fun e => (e.1, f e.2)) =
      (upsert (fun e => key e.1) x xs).map fun e => (e.1, f e.2) := by
  induction xs with
  | nil => rfl
  | cons y ys ih =>
    rw [List.map_cons, upsert, upsert, ih]
    split <;> rfl

theorem withKey?_map (k : κ) (xs : List (α × β)) :
    (withKey? (fun e => key e.1) k (xs.map fun e => (e.1, f e.2))).map (·.2) =
      ((withKey? (fun e => key e.1) k xs).map (·.2)).map f := by
  unfold withKey?
  rw [List.find?_map, Option.map_map, Option.map_map]
  rfl

end entries

namespace Value

variable (view : View)

theorem putEntry_seen (key : Key) (v : Value) (entries : List (Key × Value)) :
    putEntry key (v.seen view) (entries.map fun e => (e.1, e.2.seen view)) =
      (putEntry key v entries).map fun e => (e.1, e.2.seen view) :=
  upsert_map Key.slot (seen view) (key, v) entries

theorem slotValue?_seen (key : Key) (entries : List (Key × Value)) :
    slotValue? key (entries.map fun e => (e.1, e.2.seen view)) =
      (slotValue? key entries).map (·.seen view) :=
  withKey?_map Key.slot (seen view) key.slot entries

theorem index_seen (l i : Value) :
    (l.seen view).index (i.seen view) = (l.index i).map (·.seen view) := by
  cases l with
  | array id vs =>
    rw [seen_array]
    cases i with
    | integer n => exact congrArg Except.ok (elementAt_seen view vs n)
    | _ => rfl
  | hash id entries =>
    rw [seen_hash, index, index, key?_seen, tag_seen]
    cases i.key? with
    | none => rfl
    | some key =>
      dsimp only
      rw [slotValue?_seen]
      cases slotValue? key entries <;> rfl
  | _ => rfl

end Value

/-! ## Bindings -/

namespace Bindings

def seen (view : View) (bs : Bindings) : Bindings := bs.map fun b => (b.1, b.2.seen view)

variable (view : View)

theorem names_seen (bs : Bindings) : (bs.seen view).map Prod.fst = bs.map Prod.fst := by
  rw [seen, List.map_map]
  rfl

theorem bind_seen (bs : Bindings) (x : String) (v : Value) :
    (bs.seen view).bind x (v.seen view) = (bs.bind x v).seen view :=
  upsert_map (fun name => name) (Value.seen view) (x, v) bs

theorem value?_seen (bs : Bindings) (x : String) :
    (bs.seen view).value? x = (bs.value? x).map (·.seen view) :=
  withKey?_map (fun name => name) (Value.seen view) x bs

theorem ofArguments_seen (ps : List Identifier) (args : List Value) (bs : Bindings) :
    ofArguments (ps.map (·.unplaced)) (args.map (·.seen view)) (bs.seen view) =
      (ofArguments ps args bs).seen view := by
  induction ps generalizing args bs with
  | nil => rfl
  | cons p ps ih =>
    have hhead : (args.map (·.seen view)).headD .null = (args.headD .null).seen view := by
      cases args <;> rfl
    rw [List.map_cons, ofArguments, ofArguments, ← List.map_tail, hhead, bind_seen]
    exact ih _ _

end Bindings

/-! ## Stores -/

def Frame.seen (view : View) (f : Frame) : Frame :=
  ⟨f.bindings.seen view, f.enclosing.map view.frame⟩

namespace View

/-- Under the view, the first store is to be found in the second: each frame under its other
number, and what will be made next under the numbers that come next there. -/
structure Shows (view : View) (s u : Store) : Prop where
  frame : ∀ i, u.frame (view.frame i) = (s.frame i).seen view
  functions : u.functions = Bindings.seen view s.functions
  nextFrame : ∀ k, view.frame (s.nextFrame + k) = u.nextFrame + k
  nextId : ∀ k, view.id (s.nextId + k) = u.nextId + k

namespace Shows

variable {view : View} {s u : Store}

/-- The frames that have been made are those that have been made in the other store. -/
theorem lt_iff (h : view.Shows s u) (i : FrameId) :
    view.frame i < u.nextFrame ↔ i < s.nextFrame := by
  constructor
  · intro hi
    refine Nat.lt_of_not_le fun hge => ?_
    have hnew := h.nextFrame (i - s.nextFrame)
    rw [Nat.add_sub_cancel' hge] at hnew
    rw [hnew] at hi
    exact Nat.not_lt.mpr (Nat.le_add_right _ _) hi
  · intro hi
    refine Nat.lt_of_not_le fun hge => ?_
    have hnew := h.nextFrame (view.frame i - u.nextFrame)
    rw [Nat.add_sub_cancel' hge] at hnew
    rw [← view.frame_injective hnew] at hi
    exact Nat.not_lt.mpr (Nat.le_add_right _ _) hi

theorem scope (h : view.Shows s u) (i : FrameId) :
    u.scope (view.frame i) = (s.scope i).map view.frame := by
  rw [Store.scope, Store.scope, h.frame]
  rfl

theorem names (h : view.Shows s u) (i : FrameId) : u.names (view.frame i) = s.names i := by
  rw [Store.names, Store.names, h.frame]
  exact Bindings.names_seen view _

theorem value? (h : view.Shows s u) (i : FrameId) (x : String) :
    u.value? (view.frame i) x = (s.value? i x).map (·.seen view) := by
  rw [Store.value?, Store.value?, h.scope]
  induction s.scope i with
  | nil => rfl
  | cons j scope ih =>
    rw [List.map_cons, List.findSome?_cons, List.findSome?_cons, h.frame, Frame.seen,
      Bindings.value?_seen, ih]
    cases (s.frame j).bindings.value? x <;> rfl

/-- A name means in both stores the same. -/
theorem meaning? (h : view.Shows s u) (i : FrameId) (x : String) :
    u.meaning? (view.frame i) x = (s.meaning? i x).map (·.seen view) := by
  rw [Store.meaning?, Store.meaning?, Store.function?, Store.function?, h.value?, h.functions,
    Bindings.value?_seen]
  cases s.value? i x <;> rfl

theorem bind (h : view.Shows s u) (i : FrameId) (x : String) (v : Value) :
    view.Shows (s.bind i x v) (u.bind (view.frame i) x (v.seen view)) where
  frame j := by
    simp only [u.frame_bind, s.frame_bind, h.frame, h.lt_iff, view.frame_injective.eq_iff]
    split
    · rw [Frame.seen, Frame.seen, Bindings.bind_seen]
    · rfl
  functions := h.functions
  nextFrame k := by rw [Store.nextFrame_bind, Store.nextFrame_bind, h.nextFrame]
  nextId := h.nextId

theorem addInner (h : view.Shows s u) (i : FrameId) (bs : Bindings) :
    view.Shows (s.addInner i bs) (u.addInner (view.frame i) (bs.seen view)) where
  frame j := by
    have hnext : view.frame s.nextFrame = u.nextFrame := h.nextFrame 0
    simp only [u.frame_addInner, s.frame_addInner, h.frame, h.scope, ← hnext,
      view.frame_injective.eq_iff]
    split <;> rfl
  functions := h.functions
  nextFrame k := by
    rw [Store.nextFrame_addInner, Store.nextFrame_addInner, Nat.add_assoc, Nat.add_assoc,
      h.nextFrame]
  nextId := h.nextId

theorem takeId (h : view.Shows s u) : view.Shows s.takeId.2 u.takeId.2 where
  frame := h.frame
  functions := h.functions
  nextFrame := h.nextFrame
  nextId k := by
    show view.id (s.nextId + 1 + k) = u.nextId + 1 + k
    rw [Nat.add_assoc, Nat.add_assoc, h.nextId]

theorem print (h : view.Shows s u) (lines : List String) :
    view.Shows (s.print lines) (u.print lines) :=
  ⟨h.frame, h.functions, h.nextFrame, h.nextId⟩

end Shows

def same : View := ⟨fun i => i, fun i => i, fun _ _ h => h, fun _ _ h => h⟩

end View

def Store.unplaced (s : Store) : Store :=
  { s with
    frames := s.frames.map (·.seen .same)
    functions := Bindings.seen .same s.functions }

theorem View.shows_unplaced (s : Store) : View.same.Shows s s.unplaced := by
  refine ⟨fun i => ?_, rfl, fun k => ?_, fun _ => rfl⟩
  · show (s.frames.map (·.seen .same)).getD i ⟨[], []⟩ = _
    rw [Store.frame, Array.getD_eq_getD_getElem?, Array.getD_eq_getD_getElem?, Array.getElem?_map]
    cases s.frames[i]? <;> rfl
  · exact congrArg (· + k) (Array.size_map).symm

end MonkeyLang
