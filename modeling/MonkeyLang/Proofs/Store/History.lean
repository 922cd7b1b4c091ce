import MonkeyLang.Proofs.Store

/-!
The frames of a store, by the history of what was done to them. From the history alone one can tell
which frame is around which and what was set where; a lookup goes out from a frame along these and
gives what was set last in the first frame where the name was set at all, whenever that was.
-/

namespace MonkeyLang.Store

/-- What is done to the frames of a store: one is made, by itself or just inside another, a name is
set in one, and a name is looked up from one. -/
inductive Action
  | fresh
  | inside (i : FrameId)
  | set (i : FrameId) (name : String) (value : Value)
  | get (i : FrameId) (name : String)

inductive Answer
  | frame (i : FrameId)
  | value (value : Option Value)

def act (s : Store) : Action → Store × Answer
  | .fresh => (s.addGlobal, .frame s.nextFrame)
  | .inside i => (s.addInner i [], .frame s.nextFrame)
  | .set i x v => (s.bind i x v, .value (some v))
  | .get i x => (s, .value (s.value? i x))

def after (s : Store) (history : List Action) : Store :=
  history.foldl (fun s action => (s.act action).1) s

def answers (s : Store) : List Action → List Answer
  | [] => []
  | action :: history => (s.act action).2 :: (s.act action).1.answers history

theorem after_append (s : Store) (h h' : List Action) :
    s.after (h ++ h') = (s.after h).after h' :=
  List.foldl_append

theorem answers_append (s : Store) (h h' : List Action) :
    s.answers (h ++ h') = s.answers h ++ (s.after h).answers h' := by
  induction h generalizing s with
  | nil => rfl
  | cons a h ih =>
    rw [List.cons_append, answers, answers, ih, List.cons_append]
    rfl

/-! ## What a history says -/

/-- For an action that makes a frame, the frame around that, if there is one. -/
def Action.outer? : Action → Option (Option FrameId)
  | .fresh => some none
  | .inside i => some (some i)
  | .set _ _ _ | .get _ _ => none

def Action.setting? (i : FrameId) : Action → Option (String × Value)
  | .set j x v => if j = i then some (x, v) else none
  | .fresh | .inside _ | .get _ _ => none

def Action.Fits (n : Nat) : Action → Prop
  | .fresh => True
  | .inside i | .set i _ _ | .get i _ => i < n

instance (n : Nat) : (a : Action) → Decidable (a.Fits n)
  | .fresh => inferInstanceAs (Decidable True)
  | .inside i | .set i _ _ | .get i _ => inferInstanceAs (Decidable (i < n))

/-- For each frame, in the order in which they are made, the frame around it. -/
def outers (history : List Action) : List (Option FrameId) := history.filterMap (·.outer?)

def entries (history : List Action) (i : FrameId) : List (String × Value) :=
  history.filterMap (·.setting? i)

/-- Every action is about a frame that was made before it. -/
def Possible (history : List Action) : Prop :=
  ∀ (k : Nat) (h : k < history.length), (history[k]).Fits (outers (history.take k)).length

instance (history : List Action) : Decidable (Possible history) :=
  inferInstanceAs (Decidable (∀ (k : Nat) (_ : k < history.length), _))

/-- From frame `i` to the frame around it, and on to one that has none around it. -/
inductive Chain (history : List Action) : FrameId → List FrameId → Prop
  | outermost {i : FrameId} : (outers history)[i]? = some none → Chain history i [i]
  | inner {i j : FrameId} {js : List FrameId} :
      (outers history)[i]? = some (some j) → Chain history j js → Chain history i (i :: js)

def NeverSet (history : List Action) (i : FrameId) (x : String) : Prop :=
  ∀ v, .set i x v ∉ history

/-- The name was set in frame `i`, to this value when it last was. -/
def LastSet (history : List Action) (i : FrameId) (x : String) (v : Value) : Prop :=
  ∃ before after, history = before ++ .set i x v :: after ∧ NeverSet after i x

/-! ## What the store keeps of it -/

section entries

variable {h : List Action} {i : FrameId} {x : String} {v : Value}

theorem setting?_eq_some {a : Action} : a.setting? i = some (x, v) ↔ a = .set i x v := by
  cases a with
  | set j y w =>
    by_cases hj : j = i <;> simp [Action.setting?, hj]
  | _ => simp [Action.setting?]

theorem mem_entries : (x, v) ∈ entries h i ↔ .set i x v ∈ h := by
  simp [entries, setting?_eq_some]

theorem neverSet_iff : NeverSet h i x ↔ ∀ e ∈ entries h i, e.1 ≠ x := by
  constructor
  · rintro hnever ⟨y, w⟩ he rfl
    exact hnever w (mem_entries.mp he)
  · exact fun hentries w hw => hentries _ (mem_entries.mpr hw) rfl

theorem lastSet_iff : LastSet h i x v ↔ LastWith Prod.fst x (x, v) (entries h i) := by
  constructor
  · rintro ⟨before, after, rfl, hnever⟩
    refine ⟨entries before i, entries after i, ?_, rfl, neverSet_iff.mp hnever⟩
    simp [entries, Action.setting?]
  · rintro ⟨before, after, hsplit, -, hafter⟩
    obtain ⟨l, l', rfl, -, hl'⟩ := List.filterMap_eq_append_iff.mp hsplit
    obtain ⟨skipped, a, rest, rfl, -, ha, hrest⟩ := List.filterMap_eq_cons_iff.mp hl'
    obtain rfl := setting?_eq_some.mp ha
    exact ⟨l ++ skipped, rest, by simp, neverSet_iff.mpr (by rwa [entries, hrest])⟩

end entries

/-- The frames of the store are those that the history makes: each knows the frames around it, which
are older, and has been told all that was set in it. -/
structure Records (s : Store) (h : List Action) : Prop where
  frames : s.nextFrame = (outers h).length
  scope : ∀ i outer, (outers h)[i]? = some outer → s.scope i = i :: (outer.map s.scope).getD []
  outward : ∀ i j : FrameId, (outers h)[i]? = some (some j) → j < i
  bindings : ∀ i, (s.frame i).bindings = tabulate Prod.fst (entries h i)

theorem records_empty : Records .empty [] where
  frames := rfl
  scope i outer h := by simp [outers] at h
  outward i j h := by simp [outers] at h
  bindings i := rfl

section Records

variable {s s' : Store} {h : List Action} {a : Action}

theorem entries_concat (h : List Action) (a : Action) (i : FrameId) :
    entries (h ++ [a]) i = entries h i ++ (a.setting? i).toList := by
  rw [entries, List.filterMap_append, List.filterMap_cons, List.filterMap_nil]
  cases a.setting? i <;> rfl

/-- A frame that is made changes nothing in those that are there. -/
theorem scope_addFrame_of_lt {i : FrameId} (hi : i < s.nextFrame) (bs : Bindings)
    (enclosing : List FrameId) : (s.addFrame bs enclosing).scope i = s.scope i := by
  rw [scope, frame_addFrame, if_neg (Nat.ne_of_lt hi), scope]

theorem of_getElem?_concat {os : List (Option FrameId)} {o o' : Option FrameId} {i : Nat}
    (h : (os ++ [o])[i]? = some o') : os[i]? = some o' ∨ i = os.length ∧ o' = o := by
  rcases Nat.lt_trichotomy i os.length with hlt | rfl | hgt
  · rw [List.getElem?_append_left hlt] at h
    exact .inl h
  · rw [List.getElem?_concat_length] at h
    exact .inr ⟨rfl, (Option.some.inj h).symm⟩
  · rw [List.getElem?_eq_none (by rw [List.length_append]; exact Nat.succ_le_of_lt hgt)] at h
    cases h

/-- An action that makes a frame is recorded once the frame is there. -/
theorem Records.addFrame (hs : Records s h) (outer : Option FrameId)
    (houter : ∀ j ∈ outer, j < s.nextFrame) (ha : a.outer? = some outer)
    (hset : ∀ i, a.setting? i = none) :
    Records (s.addFrame [] ((outer.map s.scope).getD [])) (h ++ [a]) := by
  have houters : outers (h ++ [a]) = outers h ++ [outer] := by simp [outers, ha]
  -- The frame around one that is there, or around the new one, is there already.
  have hscope : ∀ o : Option FrameId, (∀ j ∈ o, j < s.nextFrame) →
      o.map (s.addFrame [] ((outer.map s.scope).getD [])).scope = o.map s.scope := by
    intro o ho
    refine Option.map_congr fun j hj => ?_
    exact scope_addFrame_of_lt (ho j hj) _ _
  have hcases : ∀ i o, (outers (h ++ [a]))[i]? = some o →
      ((outers h)[i]? = some o ∧ i < s.nextFrame) ∨ i = s.nextFrame ∧ o = outer := by
    intro i o hi
    rw [houters] at hi
    rw [hs.frames]
    rcases of_getElem?_concat hi with hi | hi
    · exact .inl ⟨hi, (List.getElem?_eq_some_iff.mp hi).1⟩
    · exact .inr hi
  constructor
  · rw [houters, List.length_append, ← hs.frames]
    exact Array.size_push _
  · intro i o hi
    rcases hcases i o hi with ⟨hi, hlt⟩ | ⟨rfl, rfl⟩
    · rw [scope_addFrame_of_lt hlt, hs.scope i o hi, hscope]
      rintro j rfl
      exact Nat.lt_trans (hs.outward i j hi) hlt
    · rw [hscope _ houter, Store.scope, frame_addFrame, if_pos rfl]
  · intro i j hi
    rcases hcases i (some j) hi with ⟨hi, -⟩ | ⟨rfl, rfl⟩
    · exact hs.outward i j hi
    · exact houter j rfl
  · intro i
    rw [entries_concat, hset, Option.toList_none, List.append_nil, ← hs.bindings, frame_addFrame]
    split
    · next hi => rw [frame_of_le s i (Nat.le_of_eq hi.symm)]
    · rfl

/-- An action that makes no frame is recorded if it leaves all frames where they are and puts what
it sets in its place. -/
theorem Records.keepFrames (hs : Records s h) (ha : a.outer? = none)
    (hframes : s'.nextFrame = s.nextFrame) (hscope : s'.scope = s.scope)
    (hbindings : ∀ i, (s'.frame i).bindings =
      (a.setting? i).toList.foldl (fun bs e => upsert Prod.fst e bs) (s.frame i).bindings) :
    Records s' (h ++ [a]) := by
  have houters : outers (h ++ [a]) = outers h := by simp [outers, ha]
  constructor
  · rw [houters]
    exact hframes.trans hs.frames
  · rw [houters, hscope]
    exact hs.scope
  · rw [houters]
    exact hs.outward
  · intro i
    rw [hbindings, entries_concat, tabulate, List.foldl_append, hs.bindings, tabulate]

/-- What an action does is recorded. -/
theorem Records.act (hs : Records s h) (ha : a.Fits (outers h).length) :
    Records (s.act a).1 (h ++ [a]) := by
  cases a with
  | fresh => exact hs.addFrame none nofun rfl fun _ => rfl
  | inside i =>
    refine hs.addFrame (some i) ?_ rfl fun _ => rfl
    rintro j hj
    cases hj
    rw [hs.frames]
    exact ha
  | get i x => exact hs.keepFrames rfl rfl rfl fun _ => rfl
  | set i x v =>
    have hi : i < s.nextFrame := by
      rw [hs.frames]
      exact ha
    have hscope : (s.bind i x v).scope = s.scope := funext fun j => scope_bind x v
    refine hs.keepFrames rfl (nextFrame_bind s i x v) hscope fun j => ?_
    show ((s.bind i x v).frame j).bindings = _
    rw [frame_bind, Action.setting?]
    by_cases hj : j = i
    · subst hj
      rw [if_pos ⟨rfl, hi⟩, if_pos rfl]
      rfl
    · rw [if_neg fun h => hj h.1, if_neg fun h => hj h.symm]
      rfl

end Records

theorem Possible.of_concat {h : List Action} {a : Action} (hp : Possible (h ++ [a])) :
    Possible h ∧ a.Fits (outers h).length := by
  constructor
  · intro k hk
    have := hp k (by rw [List.length_append]; exact Nat.lt_add_right _ hk)
    rwa [List.getElem_append_left hk, List.take_append_of_le_length (Nat.le_of_lt hk)] at this
  · have := hp h.length (by simp)
    rwa [List.getElem_concat_length rfl, List.take_left] at this

/-- The frames of an empty store to which things were done are those that the history makes. -/
theorem Possible.records {h : List Action} (hp : Possible h) : Records (empty.after h) h := by
  induction h using List.reverseRecOn with
  | nil => exact records_empty
  | append_singleton h a ih =>
    obtain ⟨hh, ha⟩ := hp.of_concat
    rw [after_append]
    exact (ih hh).act ha

/-! ## Chains -/

section Chain

variable {s : Store} {h : List Action} {i : FrameId} {js : List FrameId}

/-- From every frame one comes to one that has none around it. -/
theorem Records.exists_chain (hs : Records s h) (hi : i < (outers h).length) :
    ∃ js, Chain h i js := by
  induction i using Nat.strongRecOn with
  | ind i ih =>
    cases houter : (outers h)[i] with
    | none => exact ⟨[i], .outermost (List.getElem?_eq_some_iff.mpr ⟨hi, houter⟩)⟩
    | some j =>
      have houter' := List.getElem?_eq_some_iff.mpr ⟨hi, houter⟩
      have hj := hs.outward i j houter'
      obtain ⟨js, hjs⟩ := ih j hj (Nat.lt_trans hj hi)
      exact ⟨i :: js, .inner houter' hjs⟩

/-- A chain leads to older frames, and so to no frame twice. -/
theorem Records.chain_nodup (hs : Records s h) (hc : Chain h i js) :
    js.Nodup ∧ ∀ k ∈ js, k ≤ i := by
  induction hc with
  | outermost => simp
  | @inner i j js houter _ ih =>
    have hj := hs.outward i j houter
    obtain ⟨hnodup, hle⟩ := ih
    have hlt : ∀ k ∈ js, k < i := fun k hk => Nat.lt_of_le_of_lt (hle k hk) hj
    refine ⟨List.nodup_cons.mpr ⟨fun hi => Nat.lt_irrefl i (hlt i hi), hnodup⟩, ?_⟩
    exact List.forall_mem_cons.mpr ⟨Nat.le_refl i, fun k hk => Nat.le_of_lt (hlt k hk)⟩

/-- Lookups go along the chain. -/
theorem Records.scope_eq (hs : Records s h) (hc : Chain h i js) : s.scope i = js := by
  induction hc with
  | outermost houter => exact hs.scope _ _ houter
  | inner houter _ ih =>
    rw [hs.scope _ _ houter, Option.map_some, Option.getD_some, ih]

theorem Records.value?_eq_some (hs : Records s h) (hc : Chain h i js) {x : String} {v : Value} :
    s.value? i x = some v ↔ ∃ nearer j farther, js = nearer ++ j :: farther ∧
      (∀ k ∈ nearer, NeverSet h k x) ∧ LastSet h j x v := by
  rw [value?, hs.scope_eq hc, List.findSome?_eq_some_iff]
  simp only [hs.bindings, Bindings.value?_tabulate, Bindings.value?_tabulate_eq_none, lastSet_iff,
    neverSet_iff]
  constructor
  · rintro ⟨nearer, j, farther, hjs, hlast, hnever⟩
    exact ⟨nearer, j, farther, hjs, hnever, hlast⟩
  · rintro ⟨nearer, j, farther, hjs, hnever, hlast⟩
    exact ⟨nearer, j, farther, hjs, hlast, hnever⟩

theorem Records.value?_eq_none (hs : Records s h) (hc : Chain h i js) {x : String} :
    s.value? i x = none ↔ ∀ j ∈ js, NeverSet h j x := by
  rw [value?, hs.scope_eq hc, List.findSome?_eq_none_iff]
  simp only [hs.bindings, Bindings.value?_tabulate_eq_none, neverSet_iff]

end Chain

/-- After any history, every frame has a chain of frames around it, with an end and with no
frame twice. A name that is looked up from a frame has the value that was set last, before or
after the inner frames were made, in the first frame of the chain where the name was set at all, and
none if there is no such frame; the names of a frame stand in the order in which they were first
set. And a history goes on as it would without the lookups in it. -/
theorem scoped_of_possible {h : List Action} (hp : Possible h) :
    (empty.after h).nextFrame = (outers h).length ∧
      (∀ i < (outers h).length, ∃ chain, Chain h i chain) ∧
      (∀ i chain, Chain h i chain → chain.Nodup ∧ ∀ x,
        (∀ v, (empty.after h).value? i x = some v ↔
          ∃ nearer j farther, chain = nearer ++ j :: farther ∧
            (∀ k ∈ nearer, NeverSet h k x) ∧ LastSet h j x v) ∧
        ((empty.after h).value? i x = none ↔ ∀ j ∈ chain, NeverSet h j x) ∧
        ((empty.after h).isBound i x = true ↔ (empty.after h).value? i x ≠ none)) ∧
      (∀ i, (empty.after h).names i = ((entries h i).map Prod.fst).eraseDups ∧
        ((empty.after h).names i).Nodup) ∧
      ∀ before later i x, h = before ++ .get i x :: later →
        empty.after h = empty.after (before ++ later) ∧
          empty.answers h = empty.answers before ++
            .value ((empty.after before).value? i x) :: (empty.after before).answers later ∧
          empty.answers (before ++ later) =
            empty.answers before ++ (empty.after before).answers later := by
  have hs := hp.records
  refine ⟨hs.frames, fun i => hs.exists_chain, fun i chain hc => ?_, fun i => ?_, ?_⟩
  · refine ⟨(hs.chain_nodup hc).1, fun x => ⟨fun v => hs.value?_eq_some hc,
      hs.value?_eq_none hc, ?_⟩⟩
    rw [isBound, Option.isSome_iff_ne_none]
  · rw [names, hs.bindings]
    exact ⟨map_key_tabulate _ _, nodup_map_key_tabulate _ _⟩
  · rintro before later i x rfl
    refine ⟨?_, answers_append _ _ _, answers_append _ _ _⟩
    rw [after_append, after_append]
    rfl

/-- A frame within another and one within that, where a name is set from the inside out. -/
def lateBinding : List Action :=
  [.fresh, .inside 0, .inside 1, .get 2 "x", .set 0 "x" (.integer 1), .set 1 "x" (.integer 2),
    .get 2 "x", .set 1 "x" (.integer 3)]

theorem scoped_of_possible_lateBinding : Possible lateBinding ∧ Chain lateBinding 2 [2, 1, 0] ∧
    (empty.after lateBinding).value? 2 "x" = some (.integer 3) := by
  have hp : Possible lateBinding := by decide
  have hchain : Chain lateBinding 2 [2, 1, 0] := .inner rfl (.inner rfl (.outermost rfl))
  have hnever : ∀ k ∈ [2], NeverSet lateBinding k "x" := by
    simp [NeverSet, lateBinding]
  have hlast : LastSet lateBinding 1 "x" (.integer 3) :=
    ⟨lateBinding.take 7, [], rfl, nofun⟩
  obtain ⟨-, -, hchains, -, -⟩ := scoped_of_possible hp
  obtain ⟨-, hvalue⟩ := hchains 2 _ hchain
  exact ⟨hp, hchain, ((hvalue "x").1 _).mpr ⟨[2], 1, [0], rfl, hnever, hlast⟩⟩

end MonkeyLang.Store
