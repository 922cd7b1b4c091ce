import MonkeyLang.Proofs.Evaluation.Trail
import MonkeyLang.Proofs.Evaluation.Discipline

/-!
Numbers that are in use. Identities and frames are numbered in the order in which they are made, and
no value that can be come by has a number that is still to be given away: this is so in an empty
store, and everything that is done to a store keeps it so.
-/

namespace MonkeyLang

namespace Value

def id? : Value → Option Nat
  | array id _ | hash id _ | function id _ _ _ | registered id _ _ | error id _ | returned id _ =>
    some id
  | integer _ | boolean _ | string _ | null | builtin _ => none

end Value

namespace Store

/-- The numbers that a value has itself, its identity and the frame of a function, have been given
away in the store. -/
structure Dates (s : Store) (v : Value) : Prop where
  id : ∀ id, v.id? = some id → id < s.nextId
  frame : ∀ id ps b i, v = .function id ps b i → i < s.nextFrame

def Knows (s : Store) (v : Value) : Prop := v.All s.Dates

/-- Only numbers that have been given away are in use in the store, and no functions are known
everywhere but the primitives. -/
structure Tidy (s : Store) : Prop where
  bindings : ∀ i, ∀ b ∈ (s.frame i).bindings, s.Knows b.2
  enclosing : ∀ i, ∀ j ∈ (s.frame i).enclosing, j < s.nextFrame
  functions : s.functions = Store.empty.functions

/-- A later store, in which no number is given back. -/
structure Later (s s' : Store) : Prop where
  ids : s.nextId ≤ s'.nextId
  frames : s.nextFrame ≤ s'.nextFrame
  functions : s'.functions = s.functions

theorem rises_later : Rises Later where
  refl _ := ⟨Nat.le_refl _, Nat.le_refl _, rfl⟩
  trans h h' :=
    ⟨Nat.le_trans h.ids h'.ids, Nat.le_trans h.frames h'.frames, h'.functions.trans h.functions⟩
  takeId _ := ⟨Nat.le_succ _, Nat.le_refl _, rfl⟩
  print _ _ := ⟨Nat.le_refl _, Nat.le_refl _, rfl⟩
  bind s i x v := ⟨Nat.le_refl _, Nat.le_of_eq (s.nextFrame_bind i x v).symm, rfl⟩
  addInner s i bs := ⟨Nat.le_refl _, by rw [s.nextFrame_addInner]; exact Nat.le_succ _, rfl⟩

/-! ## Values -/

section Knows

variable {s s' : Store} {v : Value} {vs : List Value}

theorem Knows.mono (h : s.Knows v) (hids : s.nextId ≤ s'.nextId)
    (hframes : s.nextFrame ≤ s'.nextFrame) : s'.Knows v := by
  intro u hu
  obtain ⟨hid, hframe⟩ := h u hu
  exact ⟨fun id hv => Nat.lt_of_lt_of_le (hid id hv) hids,
    fun id ps b i hv => Nat.lt_of_lt_of_le (hframe id ps b i hv) hframes⟩

theorem knows_of_id? (h : v.id? = none) : s.Knows v := by
  cases v with
  | integer _ | boolean _ | string _ | null | builtin _ =>
    exact Value.all_atom ⟨nofun, nofun⟩ nofun nofun
  | _ => cases h

/-- The next identity. -/
theorem dates_nextId (hid : v.id? = some s.nextId)
    (hf : ∀ id ps b i, v = .function id ps b i → i < s.nextFrame) : s.takeId.2.Dates v := by
  refine ⟨fun id h => ?_, hf⟩
  cases hid.symm.trans h
  exact Nat.lt_succ_self _

end Knows

/-! ## Stores -/

namespace Tidy

variable {s s' : Store}

/-- Nothing but numbers given away and lines printed. -/
theorem of_frames (h : s.Tidy) (hframes : s'.frames = s.frames)
    (hfunctions : s'.functions = s.functions) (hids : s.nextId ≤ s'.nextId) : s'.Tidy := by
  have hframe : ∀ i, s'.frame i = s.frame i := fun i => by rw [Store.frame, Store.frame, hframes]
  have hnext : s'.nextFrame = s.nextFrame := by rw [nextFrame, nextFrame, hframes]
  refine ⟨fun i b hb => ?_, fun i j hj => ?_, hfunctions.trans h.functions⟩
  · rw [hframe] at hb
    exact (h.bindings i b hb).mono hids (Nat.le_of_eq hnext.symm)
  · rw [hframe] at hj
    rw [hnext]
    exact h.enclosing i j hj

theorem takeId (h : s.Tidy) : s.takeId.2.Tidy := h.of_frames rfl rfl (Nat.le_succ _)

theorem print (h : s.Tidy) (lines : List String) : (s.print lines).Tidy :=
  h.of_frames rfl rfl (Nat.le_refl _)

theorem bind (h : s.Tidy) (i : FrameId) (x : String) {v : Value} (hv : s.Knows v) :
    (s.bind i x v).Tidy := by
  have hsize := s.nextFrame_bind i x v
  have hknows : ∀ w, s.Knows w → (s.bind i x v).Knows w := fun w hw =>
    hw.mono (Nat.le_refl _) (Nat.le_of_eq hsize.symm)
  refine ⟨fun j b hb => ?_, fun j k hk => ?_, h.functions⟩
  · rcases mem_bindings_bind hb with ⟨rfl, -⟩ | hb
    · exact hknows v hv
    · exact hknows _ (h.bindings j b hb)
  · rw [enclosing_bind] at hk
    rw [hsize]
    exact h.enclosing j k hk

theorem addFrame (h : s.Tidy) {bs : Bindings} {enclosing : List FrameId}
    (hbs : ∀ b ∈ bs, s.Knows b.2) (henclosing : ∀ j ∈ enclosing, j < s.nextFrame) :
    (s.addFrame bs enclosing).Tidy := by
  have hsize : (s.addFrame bs enclosing).nextFrame = s.nextFrame + 1 := Array.size_push _
  have hknows : ∀ w, s.Knows w → (s.addFrame bs enclosing).Knows w := fun w hw =>
    hw.mono (Nat.le_refl _) (by rw [hsize]; exact Nat.le_succ _)
  refine ⟨fun j b hb => ?_, fun j k hk => ?_, h.functions⟩
  · rcases mem_bindings_addFrame hb with hb | hb
    · exact hknows _ (hbs b hb)
    · exact hknows _ (h.bindings j b hb)
  · rw [hsize]
    rcases mem_enclosing_addFrame hk with hk | hk
    · exact Nat.lt_succ_of_lt (henclosing k hk)
    · exact Nat.lt_succ_of_lt (h.enclosing j k hk)

theorem addInner (h : s.Tidy) {i : FrameId} (hi : i < s.nextFrame) {bs : Bindings}
    (hbs : ∀ b ∈ bs, s.Knows b.2) : (s.addInner i bs).Tidy :=
  h.addFrame hbs (List.forall_mem_cons.mpr ⟨hi, h.enclosing i⟩)

theorem empty : Store.empty.Tidy := by
  have hframe : ∀ i, Store.empty.frame i = ⟨[], []⟩ := fun i => frame_of_le _ i (Nat.zero_le i)
  refine ⟨fun i b hb => ?_, fun i j hj => ?_, rfl⟩
  · rw [hframe] at hb
    cases hb
  · rw [hframe] at hj
    cases hj

theorem meaning? (h : s.Tidy) {i : FrameId} {x : String} {v : Value}
    (hv : s.meaning? i x = some v) : s.Knows v := by
  rcases s.exists_mem_of_meaning? i hv with ⟨j, -, b, hb, rfl⟩ | ⟨b, hb, rfl⟩
  · exact h.bindings j b hb
  · rw [h.functions] at hb
    obtain ⟨p, -, rfl⟩ := List.mem_map.mp hb
    exact knows_of_id? rfl

end Tidy

/-- A task can be begun in the store: what it is given is known there, and its frame is there. -/
structure Ready (s : Store) (t : Task) : Prop where
  tidy : s.Tidy
  given : ∀ v ∈ t.given, s.Knows v
  frame : ∀ env n, t = .node env n → env < s.nextFrame

theorem Ready.mono {s s' : Store} {t : Task} (h : s.Ready t) (hs : s'.Tidy) (hle : s.Later s') :
    s'.Ready t :=
  ⟨hs, fun v hv => (h.given v hv).mono hle.ids hle.frames,
    fun env n ht => Nat.lt_of_lt_of_le (h.frame env n ht) hle.frames⟩

end Store

/-! ## Evaluations -/

/-- What a run has come to uses only numbers that have been given away by then. -/
structure Run.Settles (r : Run) : Prop where
  tidy : r.stop.Tidy
  value : ∀ v, r.Yields v → r.stop.Knows v

namespace Contract

def tidiness : Contract where
  during q vs s := s.Ready q.task ∧ q.start.Later s ∧ ∀ v ∈ vs, s.Knows v
  leaves q s := s.Tidy ∧ q.start.Later s
  yields _ := Store.Knows

section step

variable {t : Task} {q p : Run} {vs : List Value} {s : Store}

theorem ready_of_demands (h : t.Demands vs s p) (hs : s.Ready t) (hvs : ∀ v ∈ vs, s.Knows v) :
    p.start.Ready p.task := by
  cases h with
  | @part env n e ht _ hp hstart =>
    rw [hp, hstart]
    refine ⟨hs.tidy, nofun, fun env' n' heq => ?_⟩
    cases heq
    exact hs.frame _ _ ht
  | call _ hf hargs hp hstart =>
    rw [hp, hstart]
    exact ⟨hs.tidy, List.forall_mem_cons.mpr ⟨hvs _ hf, fun a ha => hvs a (hargs a ha)⟩, nofun⟩
  | @body id ps b i args ht hp hstart =>
    obtain ⟨hf, hargs⟩ := List.forall_mem_cons.mp (show ∀ v ∈ _ :: _, s.Knows v from ht ▸ hs.given)
    have hi : i < s.nextFrame := hf.self.frame id ps b i rfl
    have hbs : ∀ b ∈ Bindings.ofArguments ps args [], s.Knows b.2 :=
      Bindings.forall_mem_ofArguments hargs (Store.knows_of_id? rfl)
    rw [hp, hstart]
    refine ⟨hs.tidy.addInner hi hbs, nofun, fun env n heq => ?_⟩
    cases heq
    rw [s.nextFrame_addInner]
    exact Nat.lt_succ_self _

theorem tidy_of_deed (hs : s.Ready q.task) (hlater : q.start.Later s) (hvs : ∀ v ∈ vs, s.Knows v)
    (h : Deed q.task vs s q.outcome) : tidiness.Ends q q.outcome := by
  generalize q.outcome = out at h ⊢
  have htakeId : ∀ v, s.Knows v → s.takeId.2.Knows v :=
    fun v hv => hv.mono (Nat.le_succ _) (Nat.le_refl _)
  have hnext := Store.rises_later.trans hlater (Store.rises_later.takeId s)
  cases h with
  | plain hv =>
    refine ⟨⟨hs.tidy, hlater⟩, Store.knows_of_id? ?_⟩
    cases hv <;> rfl
  | passed _ hv => exact ⟨⟨hs.tidy, hlater⟩, hvs _ hv⟩
  | unwrapped _ hv => exact ⟨⟨hs.tidy, hlater⟩, (hvs _ hv).unwrap⟩
  | found hv => exact ⟨⟨hs.tidy, hlater⟩, Value.all_of_finds hs.given hvs hv⟩
  | @built v hv =>
    have hdates : s.takeId.2.Dates v := by cases hv <;> exact Store.dates_nextId rfl nofun
    exact ⟨⟨hs.tidy.takeId, hnext⟩, Value.all_of_builds (fun w hw => htakeId w (hs.given w hw))
      (fun w hw => htakeId w (hvs w hw)) hv hdates⟩
  | failed _ =>
    exact ⟨⟨hs.tidy.takeId, hnext⟩, Value.all_atom (Store.dates_nextId rfl nofun) nofun nofun⟩
  | print =>
    exact ⟨⟨hs.tidy.print _, Store.rises_later.trans hlater (Store.rises_later.print s _)⟩,
      Store.knows_of_id? rfl⟩
  | bind _ hv =>
    exact ⟨⟨hs.tidy.bind _ _ (hvs _ hv),
      Store.rises_later.trans hlater (Store.rises_later.bind s _ _ _)⟩, Store.knows_of_id? rfl⟩
  | lookUp _ hv => exact ⟨⟨hs.tidy, hlater⟩, hs.tidy.meaning? hv⟩
  | @function env token ps b ht =>
    refine ⟨⟨hs.tidy.takeId, hnext⟩, Value.all_atom (Store.dates_nextId rfl ?_) nofun nofun⟩
    intro id ps' b' i hf
    cases hf
    exact hs.frame _ _ ht

end step

theorem kept_tidiness : tidiness.Kept where
  asks h hdemands _ := ⟨ready_of_demands hdemands h.1 h.2.2, Store.rises_later.refl _, nofun⟩
  resumes h hdemands hp := by
    have hle := Store.rises_later.trans (hdemands.rises Store.rises_later) hp.2
    exact ⟨h.1.mono hp.1 hle, Store.rises_later.trans h.2.1 hle,
      fun v hv => (h.2.2 v hv).mono hle.ids hle.frames⟩
  gets h _ _ _ hv _ := ⟨h.1, h.2.1, List.forall_mem_cons.mpr ⟨hv, h.2.2⟩⟩
  stops h := ⟨h.1.tidy, h.2.1⟩
  fails h _ := h
  does h := tidy_of_deed h.1 h.2.1 h.2.2

end Contract

namespace Run

variable {r q : Run}

/-- A run that is begun where it can be settles, and so does all that it asks for. -/
theorem Recorded.settles_within (hr : r.Recorded) (hready : r.start.Ready r.task)
    (hq : q.Within r) : q.start.Ready q.task ∧ q.Settles := by
  obtain ⟨hbegins, hends⟩ := Contract.kept_tidiness.within hr
    ⟨hready, Store.rises_later.refl _, nofun⟩ hq
  exact ⟨hbegins.1, hends.leaves_stop.1, fun v hv => hends.yields_stop hv⟩

end Run

/-! ## States -/

/-- The stores that can be reached: from an empty one by making frames and identities, by binding
names to values that are there, by taking what was printed, and by evaluations, at any time at which
one within them begins or ends. -/
inductive Store.Reached : Store → Prop
  | empty : Reached .empty
  | addGlobal {s : Store} : Reached s → Reached s.addGlobal
  | addInner {s : Store} {i : FrameId} : Reached s → i < s.nextFrame → Reached (s.addInner i [])
  | takeId {s : Store} : Reached s → Reached s.takeId.2
  | bind {s : Store} {i : FrameId} {x : String} {v : Value} : Reached s → s.Knows v →
      Reached (s.bind i x v)
  | flush {s : Store} : Reached s → Reached s.flush.2
  | begun {s : Store} {limit : Nat} {t : Task} {q : Run} : Reached s → (∀ v ∈ t.given, s.Knows v) →
      (∀ env n, t = .node env n → env < s.nextFrame) → q.Within (t.record limit s) →
      Reached q.start
  | ended {s : Store} {limit : Nat} {t : Task} {q : Run} : Reached s → (∀ v ∈ t.given, s.Knows v) →
      (∀ env n, t = .node env n → env < s.nextFrame) → q.Within (t.record limit s) →
      Reached q.stop

theorem Store.Reached.tidy {s : Store} (h : s.Reached) : s.Tidy := by
  induction h with
  | empty => exact .empty
  | addGlobal _ ih => exact ih.addFrame nofun nofun
  | addInner _ hi ih => exact ih.addInner hi nofun
  | takeId _ ih => exact ih.takeId
  | bind _ hv ih => exact ih.bind _ _ hv
  | flush _ ih => exact ih.of_frames rfl rfl (Nat.le_refl _)
  | @begun s limit t q _ hgiven hframe hq ih =>
    have hr := Run.recorded_record limit t s
    exact (hr.settles_within ⟨ih, hgiven, hframe⟩ hq).1.tidy
  | @ended s limit t q _ hgiven hframe hq ih =>
    have hr := Run.recorded_record limit t s
    exact (hr.settles_within ⟨ih, hgiven, hframe⟩ hq).2.tidy

end MonkeyLang
