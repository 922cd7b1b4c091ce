import MonkeyLang.Proofs.Evaluation.Forgetting
import MonkeyLang.Proofs.Policy
import MonkeyLang.Proofs.Session

/-!
Names that are not mentioned. What is bound to a name has no influence on a program that does not
mention it, if no function that the program can come by mentions it: two sessions that differ only
in what the name is bound to are compared by leaving it out of both.
-/

namespace MonkeyLang

/-! ## What is seen of values -/

namespace Value

variable {view : View} {u v w : Value}

theorem Stores.seen (h : v.Stores w) : (v.seen view).Stores (w.seen view) := by
  cases h with
  | element h =>
    rw [seen_array]
    exact .element (List.mem_map_of_mem h)
  | entry h =>
    rw [seen_hash]
    exact .entry (List.mem_map_of_mem (f := fun e => (e.1, e.2.seen view)) h)
  | result => exact .result

theorem Part.seen (h : u.Part v) : (u.seen view).Part (v.seen view) := by
  induction h with
  | self => exact .self
  | stored hx _ ih => exact .stored hx.seen ih
  | marked _ ih => exact .marked ih

/-- What is held by a value that is seen is seen of something that the value holds. -/
theorem stores_of_seen (h : (v.seen view).Stores w) : ∃ x : Value, v.Stores x ∧ x.seen view = w := by
  cases v with
  | array id vs =>
    rw [seen_array] at h
    obtain ⟨x, hx, rfl⟩ := by
      cases h with
      | element h => exact List.mem_map.mp h
    exact ⟨x, .element hx, rfl⟩
  | hash id es =>
    rw [seen_hash] at h
    cases h with
    | entry h =>
      obtain ⟨e, he, rfl⟩ := List.mem_map.mp h
      exact ⟨e.2, .entry he, rfl⟩
  | registered id name result =>
    cases h
    exact ⟨result, .result, rfl⟩
  | _ => cases h

/-- What occurs in a value that is seen is seen of something that occurs in the value. -/
theorem part_of_seen (h : u.Part (v.seen view)) : ∃ x : Value, x.Part v ∧ x.seen view = u := by
  generalize hw : v.seen view = w at h
  induction h generalizing v with
  | self => exact ⟨v, .self, hw⟩
  | stored hw' _ ih =>
    subst hw
    obtain ⟨x, hx, rfl⟩ := stores_of_seen hw'
    obtain ⟨y, hy, rfl⟩ := ih rfl
    exact ⟨y, .stored hx hy, rfl⟩
  | marked _ ih =>
    cases v with
    | returned id x =>
      cases hw
      obtain ⟨y, hy, rfl⟩ := ih rfl
      exact ⟨y, .marked hy, rfl⟩
    | _ => cases hw

/-- Of values that are seen alike, both know of a name or none does. -/
theorem all_unaware_of_seen {name : String} {sees : FrameId → Prop} {view' : View}
    (h : v.All (Unaware name sees)) (hw : w.seen view' = v.seen view) :
    w.All (Unaware name fun j => ∃ i, sees i ∧ view.frame i = view'.frame j) := by
  rintro u hu id ps body k rfl
  have hpart : ((function id ps body k).seen view').Part (v.seen view) := hw ▸ hu.seen
  obtain ⟨x, hx, hseen⟩ := part_of_seen hpart
  cases x with
  | function id' ps' body' k' =>
    obtain ⟨hparameters, hbody, hframe⟩ := h _ hx id' ps' body' k' rfl
    obtain ⟨-, hps, hbodies, hframes⟩ := Value.function.inj hseen
    refine ⟨fun p hp => ?_, hbody.of_unplaced hbodies.symm, k', hframe, hframes⟩
    obtain ⟨p', hp', heq⟩ := List.mem_map.mp (hps ▸ List.mem_map_of_mem hp)
    exact (congrArg Identifier.name heq) ▸ hparameters p' hp'
  | _ => cases hseen

end Value

/-! ## What is seen of stores -/

/-- In a store that shows two others, what is seen of one frame there is the same from both. -/
theorem View.Shows.seen_eq_seen {view view' : View} {s t u : Store} (hs : view.Shows s u)
    (ht : view'.Shows t u) {i j : FrameId} (hij : view.frame i = view'.frame j) :
    (t.frame j).seen view' = (s.frame i).seen view := by
  rw [← ht.frame, ← hs.frame, hij]

namespace Store.Oblivious

variable {name : String} {sees : FrameId → Prop} {s t u : Store} {view view' : View}

/-- If two stores are alike once a name is left out, it plays no part in the one if it plays none in
the other. -/
theorem of_shows (h : s.Oblivious name sees) (hs : view.Shows (s.without name) u)
    (ht : view'.Shows (t.without name) u) :
    t.Oblivious name fun j => ∃ i, sees i ∧ view.frame i = view'.frame j where
  bindings := by
    rintro j ⟨i, hi, hij⟩ b hb hname
    have hframes := hs.seen_eq_seen ht hij
    rw [frame_without, frame_without] at hframes
    have hmem := List.mem_map_of_mem (f := fun b => (b.1, b.2.seen view'))
      (Bindings.mem_without.mpr ⟨hb, hname⟩)
    rw [show List.map _ _ = _ from congrArg Frame.bindings hframes] at hmem
    obtain ⟨a, ha, heq⟩ := List.mem_map.mp hmem
    obtain ⟨ha, haname⟩ := Bindings.mem_without.mp ha
    exact Value.all_unaware_of_seen (h.bindings i hi a ha haname) (congrArg Prod.snd heq).symm
  enclosing := by
    rintro j ⟨i, hi, hij⟩ k hk
    have hframes := hs.seen_eq_seen ht hij
    rw [frame_without, frame_without] at hframes
    have hmem := List.mem_map_of_mem (f := view'.frame) hk
    rw [show List.map _ _ = _ from congrArg Frame.enclosing hframes] at hmem
    obtain ⟨k', hk', heq⟩ := List.mem_map.mp hmem
    exact ⟨k', h.enclosing i hi k' hk', heq⟩
  functions := by
    intro b hb
    have hmem := List.mem_map_of_mem (f := fun b : String × Value => (b.1, b.2.seen view')) hb
    rw [show List.map _ t.functions = Bindings.seen view s.functions from
      ht.functions.symm.trans hs.functions] at hmem
    obtain ⟨a, ha, heq⟩ := List.mem_map.mp hmem
    exact Value.all_unaware_of_seen (h.functions a ha) (congrArg Prod.snd heq).symm
  fresh := by
    intro j hj
    have hnew := ht.nextFrame (j - t.nextFrame)
    rw [nextFrame_without, Nat.add_sub_cancel' hj, ← hs.nextFrame, nextFrame_without] at hnew
    exact ⟨_, h.fresh _ (Nat.le_add_right _ _), hnew.symm⟩

end Store.Oblivious

/-! ## What an evaluation can come by -/

namespace Value

def Avoids (name : String) (v : Value) : Prop :=
  ∀ id ps body i, v = .function id ps body i → (∀ p ∈ ps, p.name ≠ name) ∧ body.Avoids name

end Value

namespace Store

/-- A frame from which an evaluation in `env` looks around: `env`, and those in which the functions
that are known everywhere were made. -/
def Entry (s : Store) (env k : FrameId) : Prop :=
  k = env ∨ ∃ b ∈ s.functions, ∃ id ps body, (Value.function id ps body k).Part b.2

/-- A value that an evaluation in `env` can come by: one that can be reached from a frame from which
it looks around, or that occurs in what is known everywhere. -/
def Finds (s : Store) (env : FrameId) (u : Value) : Prop :=
  (∃ k, s.Entry env k ∧ s.Holds k u) ∨ ∃ b ∈ s.functions, u.Part b.2

/-- Where no function is known everywhere but primitives, what an evaluation can come by are these
and what can be reached from its own frame. -/
theorem Finds.holds {s : Store} {env : FrameId} {u : Value} (h : s.Finds env u)
    (hfunctions : s.functions = Store.empty.functions) : s.Holds env u ∨ ∃ p, u = .builtin p := by
  have hpart : ∀ b ∈ s.functions, ∀ v : Value, v.Part b.2 → ∃ p, v = .builtin p := by
    intro b hb v hv
    rw [hfunctions] at hb
    obtain ⟨p, -, rfl⟩ := List.mem_map.mp hb
    cases hv with
    | self => exact ⟨p, rfl⟩
    | stored h _ => cases h
  rcases h with ⟨k, rfl | ⟨b, hb, id, ps, body, hk⟩, hu⟩ | ⟨b, hb, hu⟩
  · exact .inl hu
  · obtain ⟨p, hp⟩ := hpart b hb _ hk
    cases hp
  · exact .inr (hpart b hb u hu)

/-- The frames that an evaluation in `env` can come to see, those that are made later included. -/
def CanSee (s : Store) (env j : FrameId) : Prop :=
  (∃ k, s.Entry env k ∧ s.Reaches k j) ∨ s.nextFrame ≤ j

/-- If no function that an evaluation can come by, once the name is left out, mentions the name,
then the name plays no part. -/
theorem oblivious_of_finds {name : String} {s : Store} {env : FrameId}
    (h : ∀ u, (s.without name).Finds env u → u.Avoids name) :
    s.Oblivious name ((s.without name).CanSee env) where
  bindings := by
    rintro j hj b hb hname u hu id ps body i rfl
    have hmem : b ∈ ((s.without name).frame j).bindings := by
      rw [frame_without]
      exact Bindings.mem_without.mpr ⟨hb, hname⟩
    rcases hj with ⟨k, hk, hj⟩ | hj
    · obtain ⟨hparameters, hbody⟩ := h _ (.inl ⟨k, hk, j, hj, b, hmem, hu⟩) id ps body i rfl
      exact ⟨hparameters, hbody, .inl ⟨k, hk, .closure hj hmem hu⟩⟩
    · rw [nextFrame_without] at hj
      rw [s.frame_of_le j hj] at hb
      cases hb
  enclosing := by
    rintro j (⟨k, hk, hj⟩ | hj) i hi
    · exact .inl ⟨k, hk, .enclosing hj (by rwa [frame_without])⟩
    · rw [nextFrame_without] at hj
      rw [s.frame_of_le j hj] at hi
      cases hi
  functions := by
    rintro b hb u hu id ps body i rfl
    obtain ⟨hparameters, hbody⟩ := h _ (.inr ⟨b, hb, hu⟩) id ps body i rfl
    exact ⟨hparameters, hbody, .inl ⟨i, .inr ⟨b, hb, id, ps, body, hu⟩, .self⟩⟩
  fresh j hj := .inr (by rwa [nextFrame_without])

theorem canSee_self (s : Store) (env : FrameId) : s.CanSee env env :=
  .inl ⟨env, .inl rfl, .self⟩

end Store

/-! ## Sessions -/

namespace Session

def without (name : String) (s : Session) : Session := { s with store := s.store.without name }

/-- Whether the name is bound in the frame of a session, and to what, makes no difference once it is
left out. -/
theorem bind_without_self (s : Session) (name : String) (v : Value) :
    (s.bind name v).without name = s.without name := by
  rw [without, bind, Store.bind_without_self]
  rfl

/-- If a run that completed without the name and another run without the name are seen as the same
run, then the other one completed too. -/
theorem ended_alike {name : String} {view view' : View} {before before' : List String} {v : Value}
    {s' : Store} {r ideal : EStateM.Result TooDeep Store Value}
    (hone : view.Mirrors before (·.seen view) (Eval.forget name (.ok v s')) ideal)
    (hother : view'.Mirrors before' (·.seen view') (Eval.forget name r) ideal) :
    ∃ v' t', r = .ok v' t' ∧ v'.seen view' = v.seen view ∧
      ∃ u, view.Follows before (s'.without name) u ∧ view'.Follows before' (t'.without name) u := by
  have hone : view.Mirrors before (·.seen view) (.ok v (s'.without name)) ideal := hone
  obtain ⟨v', t', hr, hv, hu⟩ := hone.exists_value hother
  cases r with
  | error e t => cases hr
  | ok w t =>
    refine ⟨w, t, rfl, ?_⟩
    cases hr
    exact ⟨hv, hu⟩

/-- A program that does not mention a name runs alike whatever the name is bound to. In sessions
that are alike once the name is left out, if no function that the first run can come by mentions the
name, and the first run completes, so does the second: it prints the same lines, its value has the
same text, and afterwards all other names have values with the same texts. -/
theorem eval_unmentioned {name : String} {s t : Session} {n : Node} {limit : Nat} {v : Value}
    {s' : Store} (hdiffer : (s.without name).Alike (t.without name)) (hn : n.Avoids name)
    (hfree : ∀ u, (s.store.without name).Finds s.env u → u.Avoids name)
    (hrun : eval limit s.env n s.store = .ok v s') :
    ∃ v' t', eval limit t.env n t.store = .ok v' t' ∧ v'.inspect = v.inspect ∧
      (∃ lines, s'.printed = s.store.printed ++ lines ∧ t'.printed = t.store.printed ++ lines) ∧
      ∀ x, x ≠ name → ((t'.frame t.env).bindings.value? x).map (·.inspect) =
        ((s'.frame s.env).bindings.value? x).map (·.inspect) := by
  obtain ⟨view, view', u, hs, ht, henv⟩ := hdiffer
  replace hs : view.Shows (s.store.without name) u := hs
  replace ht : view'.Shows (t.store.without name) u := ht
  replace henv : view.frame s.env = view'.frame t.env := henv
  -- Neither run looks at the name, so both are runs in the stores without it.
  have hoblivious := Store.oblivious_of_finds hfree
  have hsees := (s.store.without name).canSee_self s.env
  have hoblivious' := hoblivious.of_shows hs ht
  obtain ⟨hforget, -⟩ := (Eval.ignores_eval limit).1 s.env n hsees hn s.store hoblivious
  obtain ⟨hforget', -⟩ := (Eval.ignores_eval limit).1 t.env n ⟨s.env, hsees, henv⟩ hn t.store
    hoblivious'
  -- These in turn are both seen as one run, in the store that shows both.
  have hone := (View.simulates_eval view limit).1 s.env n _ _ _ hs.follows
  have hother := (View.simulates_eval view' limit).1 t.env n _ _ _ ht.follows
  rw [hforget, hrun] at hone
  rw [hforget', ← henv] at hother
  obtain ⟨v', t', hrun', hvalue, u', hleft, hleft'⟩ := ended_alike hone hother
  refine ⟨v', t', hrun', ?_, ⟨u'.printed, hleft.printed, hleft'.printed⟩, fun x hx => ?_⟩
  · rw [← v'.inspect_seen view', hvalue, v.inspect_seen view]
  · have hframes := congrArg Frame.bindings (hleft.seen_eq_seen hleft'.toShows henv)
    have hvalues := congrArg (fun bs => (Bindings.value? bs x).map (·.inspect)) hframes
    simpa [Frame.seen, Bindings.value?_seen, Store.frame_without, Bindings.value?_without hx,
      Function.comp_def, Value.inspect_seen] using hvalues

/-- The function `fn(x) \x7b x + x \x7d`, made in the first frame. -/
def twice : Value :=
  .function 0 [⟨.unset, "x"⟩] (.block .unset [.exprStmt .unset
    (.binary .unset (.identifier ⟨.unset, "x"⟩) "+" (.identifier ⟨.unset, "x"⟩))]) 0

def keeper : Session :=
  ⟨{ Store.empty with frames := #[⟨[("f", twice), ("secret", .integer 1)], []⟩], nextId := 1 }, 0⟩

def otherKeeper : Session := keeper.bind "secret" (.array 1 [twice])

/-- The tree of `let y = f(4); puts(y); y`. -/
def doubling : Node :=
  .program .unset [.letStmt .unset (some ⟨.unset, "y"⟩)
      (.call .unset (.identifier ⟨.unset, "f"⟩) [.integer .unset 4]),
    .exprStmt .unset (.call .unset (.identifier ⟨.unset, "puts"⟩) [.identifier ⟨.unset, "y"⟩]),
    .exprStmt .unset (.identifier ⟨.unset, "y"⟩)]

theorem eval_unmentioned_otherKeeper :
    (keeper.without "secret").Alike (otherKeeper.without "secret") ∧ doubling.Avoids "secret" ∧
      (∀ u, (keeper.store.without "secret").Finds keeper.env u → u.Avoids "secret") ∧
      ∃ s', eval 12 keeper.env doubling keeper.store = .ok (.integer 8) s' ∧
        ∃ v' t', eval 12 otherKeeper.env doubling otherKeeper.store = .ok v' t' ∧
          v'.inspect = (Value.integer 8).inspect ∧
          (∃ lines, s'.printed = keeper.store.printed ++ lines ∧
            t'.printed = otherKeeper.store.printed ++ lines) ∧
          ∀ x, x ≠ "secret" →
            ((t'.frame otherKeeper.env).bindings.value? x).map (·.inspect) =
              ((s'.frame keeper.env).bindings.value? x).map (·.inspect) := by
  have hdiffer : (keeper.without "secret").Alike (otherKeeper.without "secret") := by
    rw [otherKeeper, bind_without_self]
    exact .refl _
  have hn : doubling.Avoids "secret" := by decide
  have hfree : ∀ u, (keeper.store.without "secret").Finds keeper.env u → u.Avoids "secret" := by
    intro u hu
    rcases hu.holds rfl with ⟨j, -, b, hb, hu⟩ | ⟨p, rfl⟩
    · rw [Store.frame_without, Bindings.mem_without] at hb
      obtain ⟨hb, hname⟩ := hb
      cases j with
      | zero =>
        rcases List.mem_pair.mp hb with rfl | rfl
        · cases hu with
          | self =>
            rintro _ _ _ _ ⟨⟩
            decide
          | stored h _ => cases h
        · exact absurd rfl hname
      | succ j =>
        rw [Store.frame_of_le keeper.store _ (Nat.le_add_left 1 j)] at hb
        cases hb
    · nofun
  exact ⟨hdiffer, hn, hfree, _, rfl, eval_unmentioned hdiffer hn hfree rfl⟩

end Session

end MonkeyLang
