import MonkeyLang.Proofs.Evaluation.Frames
import MonkeyLang.Proofs.Evaluation.Numbers
import MonkeyLang.Proofs.Evaluation.View

/-!
Calls are repeatable. A call leaves the frames that it finds as they are, so what it finds the
second time is what it found the first time, and besides what the first time has left. That is out
of its reach, and only moves the numbers of what it makes.
-/

namespace MonkeyLang

/-! ## Views that agree -/

namespace Value

/-- The two views give a value itself the same numbers. -/
structure SeenAlike (view view' : View) (v : Value) : Prop where
  id : ∀ id, v.id? = some id → view.id id = view'.id id
  frame : ∀ id ps b i, v = .function id ps b i → view.frame i = view'.frame i

mutual

/-- A value is seen alike under views that give all numbers in it alike. -/
theorem seen_congr {view view' : View} :
    ∀ v : Value, v.All (SeenAlike view view') → v.seen view = v.seen view'
  | integer _, _ | boolean _, _ | string _, _ | null, _ | builtin _, _ => rfl
  | array id elements, h => by
    rw [seen, seen, h.self.id id rfl, seenEach_congr elements fun x hx => h.of_stores (.element hx)]
  | hash id entries, h => by
    rw [seen, seen, h.self.id id rfl, seenEntries_congr entries fun e he => h.of_stores (.entry he)]
  | function id parameters body frame, h => by
    rw [seen, seen, h.self.id id rfl, h.self.frame id parameters body frame rfl]
  | registered id name result, h => by
    rw [seen, seen, h.self.id id rfl, seen_congr result (h.of_stores .result)]
  | error id failure, h => by rw [seen, seen, h.self.id id rfl]
  | returned id value, h => by
    rw [seen, seen, h.self.id id rfl, seen_congr value h.unwrap]

theorem seenEach_congr {view view' : View} : ∀ vs : List Value,
    (∀ v ∈ vs, v.All (SeenAlike view view')) → seenEach view vs = seenEach view' vs
  | [], _ => rfl
  | v :: vs, h => by
    obtain ⟨hv, hvs⟩ := List.forall_mem_cons.mp h
    rw [seenEach, seenEach, seen_congr v hv, seenEach_congr vs hvs]

theorem seenEntries_congr {view view' : View} : ∀ entries : List (Key × Value),
    (∀ e ∈ entries, e.2.All (SeenAlike view view')) →
      seenEntries view entries = seenEntries view' entries
  | [], _ => rfl
  | (k, v) :: entries, h => by
    obtain ⟨hv, hentries⟩ := List.forall_mem_cons.mp h
    rw [seenEntries, seenEntries, seen_congr v hv, seenEntries_congr entries hentries]

end

end Value

theorem Bindings.seen_congr {view view' : View} {bs : Bindings}
    (h : ∀ b ∈ bs, b.2.All (Value.SeenAlike view view')) : bs.seen view = bs.seen view' :=
  List.map_congr_left fun b hb => by rw [Value.seen_congr b.2 (h b hb)]

/-! ## Later stores -/

def raise (k d i : Nat) : Nat := if i < k then i else i + d

theorem raise_of_lt {k i : Nat} (d : Nat) (h : i < k) : raise k d i = i := if_pos h

/-- The numbers from `k` on become those from `k'` on. -/
theorem raise_add {k k' : Nat} (h : k ≤ k') (j : Nat) : raise k (k' - k) (k + j) = k' + j := by
  rw [raise, if_neg (by omega)]
  omega

theorem raise_injective (k d : Nat) : Function.Injective (raise k d) := by
  intro i j h
  unfold raise at h
  split at h <;> split at h <;> omega

namespace View

/-- What is made next in `s` is numbered as what is made next in the later store `s'`. -/
def ahead (s s' : Store) : View where
  id := raise s.nextId (s'.nextId - s.nextId)
  frame := raise s.nextFrame (s'.nextFrame - s.nextFrame)
  id_injective := raise_injective _ _
  frame_injective := raise_injective _ _

variable {s s' : Store}

/-- Numbers that have been given away stay. -/
theorem seenAlike_ahead {v : Value} (h : s.Knows v) : v.All (Value.SeenAlike (ahead s s') same) :=
  fun u hu => ⟨fun id hid => raise_of_lt _ ((h u hu).id id hid),
    fun id ps b i hf => raise_of_lt _ ((h u hu).frame id ps b i hf)⟩

/-- What a tidy store has is to be found in each later store with the same frames and maybe more. -/
theorem shows_ahead (hs : s.Tidy) (hle : s.Later s')
    (hframes : ∀ i < s.nextFrame, s'.frame i = s.frame i) : (ahead s s').Shows s s'.unplaced := by
  have hshows := shows_unplaced s'
  have hids := hle.ids
  refine ⟨fun i => ?_, ?_, fun k => ?_, fun k => ?_⟩
  · rcases Nat.lt_or_ge i s.nextFrame with hi | hi
    · have hsame : (ahead s s').frame i = same.frame i := raise_of_lt _ hi
      have hbindings : ∀ b ∈ (s.frame i).bindings, b.2.All (Value.SeenAlike (ahead s s') same) :=
        fun b hb => seenAlike_ahead (hs.bindings i b hb)
      have henclosing : (s.frame i).enclosing.map (ahead s s').frame =
          (s.frame i).enclosing.map same.frame :=
        List.map_congr_left fun j hj => raise_of_lt _ (hs.enclosing i j hj)
      rw [hsame, hshows.frame, hframes i hi, Frame.seen, Frame.seen, henclosing,
        Bindings.seen_congr hbindings]
    · obtain ⟨j, rfl⟩ := Nat.exists_eq_add_of_le hi
      have hnew : (ahead s s').frame (s.nextFrame + j) = same.frame (s'.nextFrame + j) :=
        raise_add hle.frames j
      rw [hnew, hshows.frame, s'.frame_of_le _ (Nat.le_add_right _ _), s.frame_of_le _ hi]
      rfl
  · have hbindings : ∀ b ∈ s.functions, b.2.All (Value.SeenAlike (ahead s s') same) := by
      rw [hs.functions]
      intro b hb
      obtain ⟨p, -, rfl⟩ := List.mem_map.mp hb
      exact seenAlike_ahead (Store.knows_of_id? rfl)
    rw [hshows.functions, hle.functions, Bindings.seen_congr hbindings]
  · exact (raise_add hle.frames k).trans (hshows.nextFrame k)
  · exact raise_add hle.ids k

end View

/-! ## Calls -/

/-- What a call has found is still to be found in the store that it leaves. -/
theorem View.shows_of_apply {limit : Nat} {f v : Value} {args : List Value} {s s' : Store}
    (hs : s.Tidy) (h : apply limit f args s = .ok v s') : (ahead s s').Shows s s'.unplaced := by
  have hstop : ((Task.call f args).record limit s).stop = s' :=
    Run.stop_of_value ((Task.record_outcome _ _ _).trans h)
  have hlater := (Run.recorded_record limit (.call f args) s).rises Store.rises_later
  have hframes := ((Task.call f args).changesOnly_record limit s).frame
  rw [hstop] at hlater hframes
  exact shows_ahead hs hlater fun i hi => hframes i hi fun h => h

/-- Calls are repeatable. In a state that can be reached, if the call of a value completes, then the
same call right afterwards completes too and prints the same lines, and its value has the same type
and the same text. -/
theorem apply_repeats {s : Store} {limit : Nat} {f v : Value} {args : List Value} {s' : Store}
    (hs : s.Reached) (hf : s.Knows f) (hargs : ∀ a ∈ args, s.Knows a)
    (h : apply limit f args s = .ok v s') :
    ∃ v' s'' lines, apply limit f args s' = .ok v' s'' ∧ s'.printed = s.printed ++ lines ∧
      s''.printed = s'.printed ++ lines ∧ v'.tag = v.tag ∧ v'.inspect = v.inspect := by
  -- Both calls are seen as one, in the store that the first one has left.
  have hfirst := (View.shows_of_apply hs.tidy h).follows
  have hsecond := (View.shows_unplaced s').follows
  have hone := (View.simulates_eval (View.ahead s s') limit).2 f args _ _ _ hfirst
  have hother := (View.simulates_eval .same limit).2 f args _ _ _ hsecond
  have hseen : ∀ w, s.Knows w → w.seen (View.ahead s s') = w.seen .same := fun w hw =>
    Value.seen_congr w (View.seenAlike_ahead hw)
  rw [h, hseen f hf, List.map_congr_left fun a ha => hseen a (hargs a ha)] at hone
  obtain ⟨v', s'', hagain, hvalue, u, hu, hu'⟩ := hone.exists_value hother
  refine ⟨v', s'', u.printed, hagain, hu.printed, hu'.printed, ?_, ?_⟩
  · rw [← v'.tag_seen .same, hvalue, v.tag_seen]
  · rw [← v'.inspect_seen .same, hvalue, v.inspect_seen]

/-- The tree of `fn(x) \x7b puts(x); [fn() \x7b x \x7d, x] \x7d`. -/
def keeping : Node :=
  .function .unset [⟨.unset, "x"⟩] (.block .unset [
    .exprStmt .unset (.call .unset (.identifier ⟨.unset, "puts"⟩) [.identifier ⟨.unset, "x"⟩]),
    .exprStmt .unset (.array .unset [
      .function .unset [] (.block .unset [.exprStmt .unset (.identifier ⟨.unset, "x"⟩)]),
      .identifier ⟨.unset, "x"⟩])])

/-- The function is called with itself. It gives an array, which is a new one each time, as is the
function in it. -/
theorem apply_repeats_keeping :
    ∃ f s v s', eval 1 0 keeping Store.empty.addGlobal = .ok f s ∧ s.Reached ∧ s.Knows f ∧
      apply 6 f [f] s = .ok v s' ∧ v.tag = .array ∧
      ∃ v' s'' lines, apply 6 f [f] s' = .ok v' s'' ∧ s'.printed = s.printed ++ lines ∧
        s''.printed = s'.printed ++ lines ∧ v'.tag = v.tag ∧ v'.inspect = v.inspect := by
  have hstart : Store.empty.addGlobal.Reached := .addGlobal .empty
  have hready : Store.empty.addGlobal.Ready (.node 0 keeping) := by
    refine ⟨hstart.tidy, nofun, ?_⟩
    rintro env n ⟨⟩
    decide
  have hs : ((Task.node 0 keeping).record 1 Store.empty.addGlobal).stop.Reached :=
    .ended hstart hready.given hready.frame .self
  have hr := Run.recorded_record 1 (.node 0 keeping) Store.empty.addGlobal
  have hf := (hr.settles_within hready .self).2.value _ ⟨_, rfl⟩
  exact ⟨_, _, _, _, rfl, hs, hf, rfl, rfl,
    apply_repeats hs hf (List.forall_mem_singleton.mpr hf) rfl⟩

end MonkeyLang
