import MonkeyLang.Proofs.Reading.Induction
import MonkeyLang.Proofs.Reading.Machine

/-!
The reader comes to an end on every token list. With a budget that grows with the number of tokens,
the machine never gives up: it reads what the phrases are, each round of its loops uses up a token
or finds none left and is the last, and all blocks that it opens it also leaves.
-/

namespace MonkeyLang

open Token (Kind)

/-- The state after a phrase: what it reported comes behind what was reported before. -/
def Reader.behind (r : Reader) (reports : List Diagnostic) (stop : Cursor) (laps : List Lap) :
    Reader :=
  ⟨stop, r.reports ++ reports, r.depth, (reports.getLast?.map (·.depth)).getD r.reportDepth,
    r.laps ++ laps⟩

@[simp] theorem Reader.cursor_behind (r : Reader) (reports : List Diagnostic) (stop : Cursor)
    (laps : List Lap) : (r.behind reports stop laps).cursor = stop := rfl

/-- A round that begins with a step advances, unless the loop goes on without a token. -/
theorem Lap.advances_of_le {start stop : Cursor} (h : stop.left ≤ start.left - 1) :
    Lap.Advances ⟨start, stop, false⟩ := by
  rcases Nat.eq_zero_or_pos start.left with hzero | hpos
  · exact .inr ⟨hzero, rfl⟩
  · exact .inl (show stop.left < start.left by omega)

/-- A round of statements, which ends with a step, advances: without a token before the step the end
is behind it. -/
theorem Lap.advances_of_advance {start c : Cursor} {terminator : Kind} (h : c.left ≤ start.left) :
    Lap.Advances ⟨start, c.advance,
      decide (c.advance.cur.kind ≠ terminator ∧ c.advance.cur.kind ≠ .eof)⟩ := by
  have hleft := c.left_advance
  rcases Nat.eq_zero_or_pos start.left with hzero | hpos
  · have hend : c.peek.kind = .eof := Decidable.byContradiction fun hreal => by
      have hpos := Cursor.left_pos hreal
      omega
    exact .inr ⟨hzero, by simp [hend]⟩
  · exact .inl (show c.advance.left < start.left by omega)

namespace Walk

variable {α β : Type}

def behind (reports : List Diagnostic) (p : α × List Diagnostic × Cursor) :
    α × List Diagnostic × Cursor :=
  (p.1, reports ++ p.2.1, p.2.2)

/-- What is read from the token of kind `k` on, if it comes next. -/
def expected (depth : Nat) (k : Kind) (value : α) (c : Cursor)
    (p : α × List Diagnostic × Cursor) : α × List Diagnostic × Cursor :=
  if c.peek.kind = k then p else (value, [c.unexpected depth k], c)

/-- The computation ends with the value, the reports and the cursor, and all its rounds advance. -/
def Runs (x : Walk α) (r : Reader) (p : α × List Diagnostic × Cursor) : Prop :=
  ∃ laps, (∀ l ∈ laps, Lap.Advances l) ∧ x r = some (p.1, r.behind p.2.1 p.2.2 laps)

namespace Runs

variable {r : Reader} {x : Walk α} {f : α → Walk β} {a : α} {b : β} {rs qs : List Diagnostic}
  {c e : Cursor} {p : α × List Diagnostic × Cursor} {q : β × List Diagnostic × Cursor}

theorem behind_behind (rs qs : List Diagnostic) (c e : Cursor) (laps laps' : List Lap) :
    (r.behind rs c laps).behind qs e laps' = r.behind (rs ++ qs) e (laps ++ laps') := by
  have hlast : (qs.getLast?.map (·.depth)).getD ((rs.getLast?.map (·.depth)).getD r.reportDepth) =
      ((rs ++ qs).getLast?.map (·.depth)).getD r.reportDepth := by
    rw [List.getLast?_append]
    cases qs.getLast? <;> rfl
  simp only [Reader.behind, List.append_assoc, hlast]

theorem bind (hx : Runs x r (a, rs, c))
    (hf : ∀ laps, Runs (f a) (r.behind rs c laps) (b, qs, e)) :
    Runs (x >>= f) r (b, rs ++ qs, e) := by
  obtain ⟨laps, hlaps, hx⟩ := hx
  obtain ⟨laps', hlaps', hf⟩ := hf laps
  refine ⟨laps ++ laps', ?_, ?_⟩
  · intro l hl
    rcases List.mem_append.mp hl with hl | hl
    · exact hlaps l hl
    · exact hlaps' l hl
  · rw [← behind_behind]
    show (x r).bind (fun y => f y.1 y.2) = _
    rw [hx]
    exact hf

theorem pure (v : α) : Runs (pure v) r (v, [], r.cursor) := by
  refine ⟨[], List.forall_mem_nil _, ?_⟩
  simp [Reader.behind]
  rfl

theorem andThen (hx : Runs x r (a, rs, c)) (hf : ∀ laps, Runs (f a) (r.behind rs c laps) q) :
    Runs (x >>= f) r (behind rs q) :=
  hx.bind hf

/-- Behind a phrase, something that reports nothing. -/
theorem bind_silent (hx : Runs x r (a, rs, c))
    (hf : ∀ laps, Runs (f a) (r.behind rs c laps) (b, [], e)) : Runs (x >>= f) r (b, rs, e) := by
  have h := hx.bind hf
  rwa [List.append_nil] at h

/-- Something behind a step that reports nothing. -/
theorem silent_bind (hx : Runs x r (a, [], c)) (hf : ∀ laps, Runs (f a) (r.behind [] c laps) q) :
    Runs (x >>= f) r q :=
  hx.bind hf

theorem map (hx : Runs x r (a, rs, c)) (g : α → β) :
    Runs (x >>= fun v => Pure.pure (g v)) r (g a, rs, c) :=
  hx.bind_silent fun _ => pure (g a)

theorem get {f : Reader → Walk β} (h : Runs (f r) r q) : Runs (MonadState.get >>= f) r q := h

theorem next {f : Unit → Walk β} (h : Runs (f ()) r.advance q) :
    Runs (next >>= f) r q := h

theorem skip {k : Kind} {f : Unit → Walk β}
    (h : Runs (f ()) { r with cursor := r.cursor.skip k } q) : Runs (skip k >>= f) r q := h

theorem lap {start : Cursor} {goesOn : Bool} {f : Unit → Walk β}
    (hadvances : Lap.Advances ⟨start, r.cursor, goesOn⟩)
    (h : Runs (f ()) { r with laps := r.laps ++ [⟨start, r.cursor, goesOn⟩] } q) :
    Runs (lap start goesOn >>= f) r q := by
  obtain ⟨laps, hlaps, heq⟩ := h
  refine ⟨⟨start, r.cursor, goesOn⟩ :: laps, List.forall_mem_cons.mpr ⟨hadvances, hlaps⟩, ?_⟩
  refine (show _ = _ from heq).trans ?_
  simp [Reader.behind]

theorem broken (v : α) (cause : Diagnostic.Cause) :
    Runs (broken v cause) r (v, [r.cursor.report r.depth cause], r.cursor) := by
  refine ⟨[], List.forall_mem_nil _, ?_⟩
  simp [Reader.behind]
  rfl

theorem expecting {k : Kind} {v : α} (h : r.cursor.peek.kind = k → Runs x r.advance p) :
    Runs (expecting k v x) r (expected r.depth k v r.cursor p) := by
  refine Runs.get ?_
  unfold expected
  dsimp only
  split
  · rename_i hk
    exact Runs.next (h hk)
  · exact Runs.broken v _

/-- A phrase with the token that closes it. -/
theorem closed {c : Cursor} {p : Phrase c Node} {x : Walk Node} {k : Kind} (hx : Runs x r p.result)
    (g : Node → Node) :
    Runs (x >>= fun v => Walk.expecting k .absent (Pure.pure (g v))) r
      (if p.stop.peek.kind = k then (g p.value, p.reports, p.stop.advance)
        else (.absent, p.reports ++ [p.stop.unexpected r.depth k], p.stop)) := by
  have h : Runs (x >>= fun v => Walk.expecting k .absent (Pure.pure (g v))) r
      (behind p.reports (expected r.depth k .absent p.stop (g p.value, [], p.stop.advance))) :=
    hx.andThen fun laps => expecting fun _ => pure (g p.value)
  unfold behind expected at h
  split
  · rename_i hk
    rwa [if_pos hk, List.append_nil] at h
  · rename_i hk
    rwa [if_neg hk] at h

theorem inBlock (h : Runs x { r with depth := r.depth + 1 } p) : Runs (inBlock x) r p := by
  obtain ⟨laps, hlaps, heq⟩ := h
  refine ⟨laps, hlaps, ?_⟩
  show (x { r with depth := r.depth + 1 }).bind _ = _
  rw [heq]
  rfl

end Runs

/-! ## Loops without phrases in them -/

theorem synchronize_runs {budget : Nat} {r : Reader} (hbudget : r.cursor.left < budget) :
    Runs (synchronize budget) r ((), [], r.cursor.synchronize) := by
  induction budget generalizing r with
  | zero => exact absurd hbudget (Nat.not_lt_zero _)
  | succ budget ih =>
    rw [synchronize, Cursor.synchronize]
    refine Runs.get ?_
    dsimp only
    split
    · exact Runs.pure ()
    rename_i hgo
    simp only [not_or] at hgo
    have hpos := Cursor.left_pos hgo.2.2.2
    have hleft := r.cursor.left_advance
    refine Runs.next (Runs.lap (.inl ?_) (ih ?_))
    · show r.cursor.advance.left < r.cursor.left
      omega
    · show r.cursor.advance.left < budget
      omega

/-- The last report arose at this depth, and in this statement, if the state says so. -/
theorem reportDepth_behind (r : Reader) (reports : List Diagnostic) (stop : Cursor)
    (laps : List Lap) :
    (r.reports.length < (r.behind reports stop laps).reports.length ∧
      (r.behind reports stop laps).reportDepth = (r.behind reports stop laps).depth) ↔
      reports.getLast?.map (·.depth) = some r.depth := by
  simp only [Reader.behind, List.length_append]
  cases hlast : reports.getLast? with
  | none =>
    rw [List.getLast?_eq_none_iff.mp hlast]
    simp
  | some d =>
    have hpos := List.length_pos_of_mem (List.mem_of_getLast? hlast)
    simp
    omega

/-- A statement is given up as the reports in it say. -/
theorem recover_runs {budget : Nat} {r : Reader} (reports : List Diagnostic) (stop : Cursor)
    (laps : List Lap) (hbudget : stop.left < budget) :
    Runs (recover budget r.reports.length) (r.behind reports stop laps)
      ((), [], stop.recover r.depth reports) := by
  have hcond := reportDepth_behind r reports stop laps
  refine Runs.get ?_
  by_cases hlast : reports.getLast?.map (·.depth) = some r.depth
  · rw [if_pos (hcond.mpr hlast), Cursor.recover, if_pos hlast]
    exact synchronize_runs hbudget
  · rw [if_neg fun h => hlast (hcond.mp h), Cursor.recover, if_neg hlast]
    exact Runs.pure ()

def afterName (depth : Nat) (c : Cursor) : Option (List Identifier) × List Diagnostic × Cursor :=
  if c.peek.kind = .comma then (Phrase.parameterNames depth c.advance).result
  else if c.peek.kind = .rparen then (some [], [], c.advance)
  else (none, [c.unexpected depth .rparen], c)

theorem result_parameterNames (depth : Nat) (c : Cursor) :
    (Phrase.parameterNames depth c).result =
      if c.peek.kind = .ident then
        let p := afterName depth c.advance
        (p.1.map (⟨c.peek, c.peek.literal⟩ :: ·), p.2.1, p.2.2)
      else (none, [c.unexpected depth .ident], c) := by
  rw [Phrase.result_parameterNames, afterName]
  dsimp only
  split
  · split
    · rfl
    · split <;> rfl
  · rfl

theorem moreNames_runs {budget : Nat} {r : Reader} (hbudget : r.cursor.left < budget) :
    Runs (moreNames budget) r (afterName r.depth r.cursor) := by
  induction budget generalizing r with
  | zero => exact absurd hbudget (Nat.not_lt_zero _)
  | succ budget ih =>
    rw [moreNames, afterName]
    refine Runs.get ?_
    dsimp only
    by_cases hcomma : r.cursor.peek.kind = .comma
    · have hpos := Cursor.left_pos_of_peek hcomma (by decide)
      have hleft := r.cursor.left_advance
      rw [if_pos hcomma, if_pos hcomma, result_parameterNames]
      refine Runs.next (Runs.get ?_)
      dsimp only
      by_cases hname : r.cursor.advance.peek.kind = .ident
      · have hleft' := r.cursor.advance.left_advance
        rw [Reader.cursor_advance, if_neg (not_not_intro hname), if_pos hname]
        refine Runs.next (Runs.lap (.inl ?_) (Runs.map (ih ?_) _))
        · show r.cursor.advance.advance.left < r.cursor.left
          omega
        · show r.cursor.advance.advance.left < budget
          omega
      · rw [Reader.cursor_advance, if_pos hname, if_neg hname]
        refine Runs.lap (.inl ?_) (Runs.broken _ _)
        show r.cursor.advance.left < r.cursor.left
        omega
    · rw [if_neg hcomma, if_neg hcomma]
      exact Runs.expecting fun _ => Runs.pure _

theorem parameters_runs {budget : Nat} {r : Reader} (hbudget : r.cursor.left < budget) :
    Runs (parameters budget) r (Phrase.parameters r.depth r.cursor).result := by
  rw [Phrase.result_parameters]
  refine Runs.get ?_
  dsimp only
  split
  · exact Runs.next (Runs.pure _)
  rw [result_parameterNames]
  have hleft := r.cursor.left_advance
  refine Runs.expecting fun _ => Runs.get (Runs.map (moreNames_runs ?_) _)
  show r.cursor.advance.left < budget
  omega

theorem integer_runs (r : Reader) :
    Runs integer r (Phrase.integer r.depth r.cursor).result := by
  rw [Phrase.result_integer]
  refine Runs.get ?_
  dsimp only
  cases Numeral.read? r.cursor.cur.literal.toList with
  | none => exact Runs.broken _ _
  | some value =>
    dsimp only
    split
    · exact Runs.pure _
    · exact Runs.broken _ _

theorem closeBrace_runs (r : Reader) :
    Runs closeBrace r ((), if r.cursor.cur.kind = .eof then
      [r.cursor.report r.depth (.unexpected .rbrace .eof)] else [], r.cursor) := by
  refine Runs.get ?_
  split
  · exact Runs.broken () _
  · exact Runs.pure ()

/-! ## Phrases -/

/-- The kind of token that closes a list of statements, besides the end. -/
def terminator (depth : Nat) : Kind := if depth = 0 then .eof else .rbrace

/-- With enough of a budget each phrase is read to its end, and is what it should be. -/
def Running : Phrase.Property where
  statements depth c := ∀ budget rs d laps, 16 * c.pending + 7 < budget →
    Runs (statements budget (terminator depth)) ⟨c, rs, depth, d, laps⟩
      (Phrase.statements depth c).result
  statement depth c := ∀ budget rs d laps, 16 * c.pending + 6 < budget →
    Runs (statement budget) ⟨c, rs, depth, d, laps⟩ (Phrase.statement depth c).result
  block depth c := ∀ budget rs d laps, 16 * c.left + 8 < budget →
    Runs (block budget) ⟨c, rs, depth, d, laps⟩ (Phrase.block depth c).result
  expression depth m c := ∀ budget rs d laps, 16 * c.pending + 3 < budget →
    Runs (expression budget m) ⟨c, rs, depth, d, laps⟩ (Phrase.expression depth m c).result
  operators depth m c left := ∀ budget rs d laps, 16 * c.left + 2 < budget →
    Runs (operators budget m left) ⟨c, rs, depth, d, laps⟩
      (Phrase.operators depth m c left).result
  application depth c left := ∀ budget rs d laps, 16 * c.left + 6 < budget →
    Runs (application budget left) ⟨c, rs, depth, d, laps⟩ (Phrase.application depth c left).result
  items depth close c := ∀ budget rs d laps, 16 * c.left + 5 < budget →
    Runs (items budget close) ⟨c, rs, depth, d, laps⟩ (Phrase.items depth close c).result
  moreItems depth close c := ∀ budget rs d laps, 16 * c.left + 4 < budget →
    Runs (moreItems budget close) ⟨c, rs, depth, d, laps⟩ (Phrase.moreItems depth close c).result
  pairs depth c := ∀ budget rs d laps, 16 * c.left + 5 < budget →
    Runs (pairs budget) ⟨c, rs, depth, d, laps⟩ (Phrase.pairs depth c).result
  operand depth c := ∀ budget rs d laps, 16 * c.pending + 1 < budget →
    Runs (operand budget) ⟨c, rs, depth, d, laps⟩ (Phrase.operand depth c).result

/-! What is read after the first part of a phrase is taken by itself, without the reports of that
part. -/

def afterValue (depth : Nat) (key value : Node) (c : Cursor) :
    Option (List (Node × Node)) × List Diagnostic × Cursor :=
  if c.peek.kind = .rbrace then (some [(key, value)], [], c.advance)
  else if c.peek.kind = .comma then
    let p := Phrase.pairs depth c.advance
    (p.value.map ((key, value) :: ·), p.reports, p.stop)
  else (none, [c.unexpected depth .comma], c)

def afterKey (depth : Nat) (key : Node) (c : Cursor) :
    Option (List (Node × Node)) × List Diagnostic × Cursor :=
  if c.peek.kind ≠ .colon then (none, [c.unexpected depth .colon], c)
  else
    let p := Phrase.expression depth .lowest c.advance.advance
    behind p.reports (afterValue depth key p.value p.stop)

theorem result_pairs (depth : Nat) (c : Cursor) :
    (Phrase.pairs depth c).result =
      if c.peek.kind = .rbrace then (some [], [], c.advance)
      else
        let p := Phrase.expression depth .lowest c.advance
        behind p.reports (afterKey depth p.value p.stop) := by
  rw [Phrase.result_pairs]
  unfold afterKey afterValue behind
  dsimp only
  split
  · rfl
  split
  · rfl
  split
  · simp
  split <;> simp

def afterParameters (depth : Nat) (t : Token) (names : Option (List Identifier)) (c : Cursor) :
    Node × List Diagnostic × Cursor :=
  match names with
  | none => (.absent, [], c)
  | some names =>
    expected depth .lbrace .absent c
      (let p := Phrase.block depth c.advance
      (.function t names p.value, p.reports, p.stop))

theorem result_function {depth : Nat} {c : Cursor} (h : c.cur.kind = .kwFn) :
    (Phrase.operand depth c).result =
      expected depth .lparen .absent c
        (let p := Phrase.parameters depth c.advance
        behind p.reports (afterParameters depth c.cur p.value p.stop)) := by
  rw [Phrase.result_operand_function h]
  unfold afterParameters expected behind
  simp only [ne_eq, ite_not]
  split
  · cases (Phrase.parameters depth c.advance).value with
    | none => simp
    | some names =>
      dsimp only
      split <;> rfl
  · rfl

def afterConsequence (depth : Nat) (t : Token) (condition consequence : Node) (c : Cursor) :
    Node × List Diagnostic × Cursor :=
  if c.peek.kind = .kwElse then
    expected depth .lbrace .absent c.advance
      (let p := Phrase.block depth c.advance.advance
      (.ifElse t condition consequence p.value, p.reports, p.stop))
  else (.ifElse t condition consequence .absent, [], c)

theorem result_conditional {depth : Nat} {c : Cursor} (h : c.cur.kind = .kwIf) :
    (Phrase.operand depth c).result =
      expected depth .lparen .absent c
        (let p := Phrase.expression depth .lowest c.advance.advance
        behind p.reports (expected depth .rparen .absent p.stop
          (expected depth .lbrace .absent p.stop.advance
            (let q := Phrase.block depth p.stop.advance.advance
            behind q.reports (afterConsequence depth c.cur p.value q.value q.stop))))) := by
  rw [Phrase.result_operand_if h]
  unfold afterConsequence expected behind
  simp only [ne_eq, ite_not]
  repeat' split
  all_goals simp

section Rules

variable {budget : Nat} {r : Reader}

theorem expression_runs {m : Precedence} (hbudget : 16 * r.cursor.pending + 2 < budget)
    (hfirst : Running.operand r.depth r.cursor)
    (hmore : Running.operators r.depth m (Phrase.operand r.depth r.cursor).stop
      (Phrase.operand r.depth r.cursor).value) :
    Runs (expression (budget + 1) m) r (Phrase.expression r.depth m r.cursor).result := by
  have hle := (Phrase.operand r.depth r.cursor).le
  have hpending := r.cursor.left_le_pending
  rw [expression, Phrase.result_expression]
  exact (hfirst budget _ _ _ (by omega)).bind fun laps =>
    hmore budget _ _ _ (by omega)

theorem operators_runs {m : Precedence} {left : Node} (hbudget : 16 * r.cursor.left + 1 < budget)
    (happlied : r.cursor.peek.kind ≠ .eof → Running.application r.depth r.cursor.advance left)
    (hmore : r.cursor.peek.kind ≠ .eof → Running.operators r.depth m
      (Phrase.application r.depth r.cursor.advance left).stop
      (Phrase.application r.depth r.cursor.advance left).value) :
    Runs (operators (budget + 1) m left) r (Phrase.operators r.depth m r.cursor left).result := by
  rw [operators, Phrase.result_operators]
  refine Runs.get ?_
  dsimp only
  by_cases hstop : left.isAbsent = true ∨ r.cursor.peek.kind.precedence.rank ≤ m.rank
  · rw [if_pos (hstop.imp_right .inr), if_pos hstop]
    exact Runs.pure left
  -- A semicolon does not bind at all, so that the loop's own test for it adds nothing.
  have hgo : ¬(left.isAbsent = true ∨ r.cursor.peek.kind = .semicolon ∨
      r.cursor.peek.kind.precedence.rank ≤ m.rank) := by
    rintro (h | h | h)
    · exact hstop (.inl h)
    · exact hstop (.inr (by rw [h]; exact Nat.zero_le _))
    · exact hstop (.inr h)
  have hreal : r.cursor.peek.kind ≠ .eof := fun h => hstop (.inr (by rw [h]; exact Nat.zero_le _))
  have hpos := Cursor.left_pos hreal
  have hleft := r.cursor.left_advance
  have hle := (Phrase.application r.depth r.cursor.advance left).le
  rw [if_neg hgo, if_neg hstop]
  refine Runs.next ((happlied hreal budget _ _ _ (by omega)).bind fun laps => ?_)
  refine Runs.lap (.inl ?_) (hmore hreal budget _ _ _ (by omega))
  show (Phrase.application r.depth r.cursor.advance left).stop.left < r.cursor.left
  omega

theorem application_runs {left : Node} (hbudget : 16 * r.cursor.left + 5 < budget)
    (hitems : Running.items r.depth .rparen r.cursor)
    (hi : Running.expression r.depth .lowest r.cursor.advance)
    (hright : Running.expression r.depth r.cursor.cur.kind.precedence r.cursor.advance) :
    Runs (application (budget + 1) left) r (Phrase.application r.depth r.cursor left).result := by
  have hpending := r.cursor.pending_advance_le
  rw [application]
  refine Runs.get ?_
  dsimp only
  split
  · rename_i hparen
    rw [Phrase.result_application_call hparen]
    exact (hitems budget _ _ _ (by omega)).map
      fun v => (v.map (Node.call r.cursor.cur left)).getD Node.absent
  · rename_i hbracket
    rw [Phrase.result_application_index hbracket]
    exact Runs.next (Runs.closed (hi budget _ _ _ (by omega)) _)
  · rename_i hparen hbracket
    rw [Phrase.result_application_binary hparen hbracket]
    refine Runs.next ?_
    exact (hright budget _ _ _ (by omega)).map
      fun v => Node.binary r.cursor.cur left r.cursor.cur.literal v

theorem items_runs {close : Kind} (hbudget : 16 * r.cursor.left + 4 < budget)
    (hfirst : Running.expression r.depth .lowest r.cursor.advance)
    (hmore : Running.moreItems r.depth close
      (Phrase.expression r.depth .lowest r.cursor.advance).stop) :
    Runs (items (budget + 1) close) r (Phrase.items r.depth close r.cursor).result := by
  have hpending := r.cursor.pending_advance_le
  have hle := (Phrase.expression r.depth .lowest r.cursor.advance).le
  have hleft := r.cursor.left_advance
  rw [items, Phrase.result_items]
  refine Runs.get ?_
  dsimp only
  split
  · exact Runs.next (Runs.pure _)
  · exact Runs.next ((hfirst budget _ _ _ (by omega)).bind fun laps =>
      (hmore budget _ _ _ (by omega)).map _)

theorem moreItems_runs {close : Kind} (hbudget : 16 * r.cursor.left + 3 < budget)
    (hfirst : Running.expression r.depth .lowest r.cursor.advance.advance)
    (hmore : r.cursor.peek.kind = .comma → Running.moreItems r.depth close
      (Phrase.expression r.depth .lowest r.cursor.advance.advance).stop) :
    Runs (moreItems (budget + 1) close) r (Phrase.moreItems r.depth close r.cursor).result := by
  have hpending := Phrase.Property.Inductive.pending_advance_advance_le r.cursor
  have hle := Phrase.Property.Inductive.left_stop_advance_le
    (Phrase.expression r.depth .lowest r.cursor.advance.advance)
  have hleft := r.cursor.left_advance
  rw [moreItems, Phrase.result_moreItems]
  refine Runs.get ?_
  dsimp only
  by_cases hcomma : r.cursor.peek.kind = .comma
  · have hpos := Cursor.left_pos_of_peek hcomma (by decide)
    rw [if_pos hcomma, if_pos hcomma]
    refine Runs.next (Runs.next
      ((hfirst budget _ _ _ (by omega)).bind fun laps => ?_))
    refine Runs.lap (.inl ?_) ((hmore hcomma budget _ _ _ (by omega)).map _)
    show (Phrase.expression r.depth .lowest r.cursor.advance.advance).stop.left < r.cursor.left
    omega
  · rw [if_neg hcomma, if_neg hcomma]
    exact Runs.expecting fun _ => Runs.pure _

theorem pairs_close (hbudget : 0 < budget) (hpeek : r.cursor.peek.kind = .rbrace) :
    Runs (pairs budget) r (some [], [], r.cursor.advance) := by
  obtain ⟨budget, rfl⟩ := Nat.exists_eq_add_of_lt hbudget
  rw [pairs]
  refine Runs.get ?_
  rw [if_pos hpeek]
  exact Runs.next (Runs.pure _)

theorem pairs_runs (hbudget : 16 * r.cursor.left + 4 < budget)
    (hkey : Running.expression r.depth .lowest r.cursor.advance)
    (hvalue : Running.expression r.depth .lowest
      (Phrase.expression r.depth .lowest r.cursor.advance).stop.advance.advance)
    (hmore : (Phrase.expression r.depth .lowest (Phrase.expression r.depth .lowest
        r.cursor.advance).stop.advance.advance).stop.peek.kind = .comma →
      Running.pairs r.depth (Phrase.expression r.depth .lowest (Phrase.expression r.depth .lowest
        r.cursor.advance).stop.advance.advance).stop.advance) :
    Runs (pairs (budget + 1)) r (Phrase.pairs r.depth r.cursor).result := by
  have hpending := r.cursor.pending_advance_le
  have hkeyLe := Phrase.Property.Inductive.left_stop_advance_le
    (Phrase.expression r.depth .lowest r.cursor.advance)
  rw [pairs, result_pairs]
  refine Runs.get ?_
  dsimp only
  split
  · exact Runs.next (Runs.pure _)
  refine Runs.next ((hkey budget _ _ _ (by omega)).andThen fun laps => Runs.get ?_)
  rw [Reader.cursor_behind]
  generalize Phrase.expression r.depth .lowest r.cursor.advance = key at *
  rw [afterKey]
  split
  · exact Runs.lap (Lap.advances_of_le hkeyLe) (Runs.broken _ _)
  rename_i hcolon
  have hpos := Cursor.left_pos_of_peek (Decidable.not_not.mp hcolon) (by decide)
  have hpending' := Phrase.Property.Inductive.pending_advance_advance_le key.stop
  have hvalueLe := Phrase.Property.Inductive.left_stop_advance_le
    (Phrase.expression r.depth .lowest key.stop.advance.advance)
  have hleft := key.stop.left_advance
  refine Runs.next (Runs.next ((hvalue budget _ _ _ (by omega)).andThen fun laps => Runs.get ?_))
  rw [Reader.cursor_behind]
  generalize Phrase.expression r.depth .lowest key.stop.advance.advance = value at *
  have hnext := value.stop.left_advance
  have hadvances : Lap.Advances ⟨r.cursor, value.stop, true⟩ :=
    .inl (show value.stop.left < r.cursor.left by omega)
  rw [afterValue]
  split
  · rename_i hbrace
    exact Runs.lap hadvances (Runs.map (pairs_close (by omega) hbrace) _)
  split
  · rename_i hcomma
    refine Runs.next (Runs.lap (.inl ?_) ((hmore hcomma budget _ _ _ (by omega)).map _))
    show value.stop.advance.left < r.cursor.left
    omega
  · exact Runs.lap (Lap.advances_of_le (by
      show value.stop.left ≤ r.cursor.left - 1
      omega)) (Runs.broken _ _)

theorem block_runs (hbudget : 16 * r.cursor.left + 7 < budget)
    (hbody : Running.statements (r.depth + 1) r.cursor.advance) :
    Runs (block (budget + 1)) r (Phrase.block r.depth r.cursor).result := by
  have hpending := r.cursor.pending_advance_le
  rw [block, Phrase.result_block]
  refine Runs.get (Runs.next (Runs.inBlock ?_))
  refine (hbody budget _ _ _ (by omega)).bind fun laps => ?_
  exact (closeBrace_runs _).map fun _ => Node.block r.cursor.cur _

theorem statement_runs (hbudget : 16 * r.cursor.pending + 5 < budget)
    (hbinding : Running.expression r.depth .lowest r.cursor.advance.advance.advance)
    (hreturning : Running.expression r.depth .lowest r.cursor.advance)
    (hexpression : Running.expression r.depth .lowest r.cursor) :
    Runs (statement (budget + 1)) r (Phrase.statement r.depth r.cursor).result := by
  have hpending := r.cursor.left_le_pending
  have hadvance := r.cursor.pending_advance_le
  have hleft := r.cursor.left_advance
  have hvalue := Phrase.Property.Inductive.pending_advance_advance_le r.cursor.advance
  rw [statement]
  refine Runs.get ?_
  dsimp only
  split
  · rename_i hlet
    simp only [Phrase.result_statement_let hlet, ne_eq, ite_not]
    refine Runs.expecting fun _ => Runs.get (Runs.expecting fun _ => Runs.next ?_)
    exact (hbinding budget _ _ _ (by omega)).bind_silent fun laps => Runs.skip (Runs.pure _)
  · rename_i hreturn
    rw [Phrase.result_statement_return hreturn]
    exact Runs.next ((hreturning budget _ _ _ (by omega)).bind_silent fun laps =>
      Runs.skip (Runs.pure _))
  · rename_i hlet hreturn
    rw [Phrase.result_statement_expression hlet hreturn]
    exact (hexpression budget _ _ _ (by omega)).bind_silent fun laps => Runs.skip (Runs.pure _)

theorem statements_runs (hbudget : 16 * r.cursor.pending + 6 < budget)
    (hfirst : r.cursor.cur.kind ≠ .eof → Running.statement r.depth r.cursor)
    (hmore : r.cursor.cur.kind ≠ .eof → Running.statements r.depth
      ((Phrase.statement r.depth r.cursor).stop.recover r.depth
        (Phrase.statement r.depth r.cursor).reports).advance) :
    Runs (statements (budget + 1) (terminator r.depth)) r
      (Phrase.statements r.depth r.cursor).result := by
  have hends : (r.cursor.cur.kind = terminator r.depth ∨ r.cursor.cur.kind = .eof) ↔
      r.cursor.cur.kind = .eof ∨ (r.cursor.cur.kind = .rbrace ∧ 0 < r.depth) := by
    unfold terminator
    split
    · rename_i hzero
      simp [hzero]
    · rename_i hpos
      have hpos : 0 < r.depth := Nat.pos_of_ne_zero hpos
      simp [hpos, or_comm]
  rw [statements, Phrase.result_statements]
  refine Runs.get ?_
  by_cases hclosed : r.cursor.cur.kind = .eof ∨ (r.cursor.cur.kind = .rbrace ∧ 0 < r.depth)
  · rw [if_pos (hends.mpr hclosed), if_pos hclosed]
    exact Runs.pure _
  have hreal : r.cursor.cur.kind ≠ .eof := fun h => hclosed (.inl h)
  have hpending := Cursor.pending_of_ne_eof hreal
  have hle := (Phrase.statement r.depth r.cursor).le
  have hrecover := (Phrase.statement r.depth r.cursor).stop.left_recover_le r.depth
    (Phrase.statement r.depth r.cursor).reports
  have hnext := ((Phrase.statement r.depth r.cursor).stop.recover r.depth
    (Phrase.statement r.depth r.cursor).reports).pending_advance_le
  rw [if_neg fun h => hclosed (hends.mp h), if_neg hclosed]
  refine (hfirst hreal budget _ _ _ (by omega)).bind fun laps => ?_
  refine (recover_runs _ _ laps (by omega)).silent_bind fun laps' => ?_
  exact Runs.next (Runs.get (Runs.lap (Lap.advances_of_advance (Nat.le_trans hrecover hle))
    ((hmore hreal budget _ _ _ (by omega)).map _)))

theorem function_runs (hbudget : 16 * r.cursor.left + 14 < budget)
    (hk : r.cursor.cur.kind = .kwFn)
    (hbody : Running.block r.depth (Phrase.parameters r.depth r.cursor.advance).stop.advance) :
    Runs (function (budget + 1)) r (Phrase.operand r.depth r.cursor).result := by
  have hleft := r.cursor.left_advance
  have hle := (Phrase.parameters r.depth r.cursor.advance).le
  have hleft' := (Phrase.parameters r.depth r.cursor.advance).stop.left_advance
  have hnames : Runs (parameters budget) r.advance
      ((Phrase.parameters r.depth r.cursor.advance).value, _, _) :=
    parameters_runs (show r.cursor.advance.left < budget by omega)
  rw [function, result_function hk]
  refine Runs.get (Runs.expecting fun _ => hnames.andThen fun laps => ?_)
  cases (Phrase.parameters r.depth r.cursor.advance).value with
  | none => exact Runs.pure _
  | some names => exact Runs.expecting fun _ => (hbody budget _ _ _ (by omega)).map _

theorem conditional_runs (hbudget : 16 * r.cursor.left + 14 < budget)
    (hk : r.cursor.cur.kind = .kwIf)
    (hcondition : Running.expression r.depth .lowest r.cursor.advance.advance)
    (hconsequence : Running.block r.depth
      (Phrase.expression r.depth .lowest r.cursor.advance.advance).stop.advance.advance)
    (halternative : Running.block r.depth (Phrase.block r.depth (Phrase.expression r.depth .lowest
      r.cursor.advance.advance).stop.advance.advance).stop.advance.advance) :
    Runs (conditional (budget + 1)) r (Phrase.operand r.depth r.cursor).result := by
  have hpending := Phrase.Property.Inductive.pending_advance_advance_le r.cursor
  have hle := Phrase.Property.Inductive.left_stop_advance_le
    (Phrase.expression r.depth .lowest r.cursor.advance.advance)
  have hleft := r.cursor.left_advance
  rw [conditional, result_conditional hk]
  refine Runs.get (Runs.expecting fun _ => Runs.next ?_)
  refine (hcondition budget _ _ _ (by omega)).andThen fun laps => ?_
  generalize Phrase.expression r.depth .lowest r.cursor.advance.advance = condition at *
  have hbrace := Phrase.Property.Inductive.left_advance_advance_le condition.stop
  have hle' := (Phrase.block r.depth condition.stop.advance.advance).le
  refine Runs.expecting fun _ => Runs.expecting fun _ => ?_
  refine (hconsequence budget _ _ _ (by omega)).andThen fun laps => Runs.get ?_
  rw [Reader.cursor_behind]
  generalize Phrase.block r.depth condition.stop.advance.advance = consequence at *
  have hlast := Phrase.Property.Inductive.left_advance_advance_le consequence.stop
  rw [afterConsequence]
  split
  · exact Runs.next (Runs.expecting fun _ => (halternative budget _ _ _ (by omega)).map _)
  · exact Runs.pure _

theorem leaf_runs {n : Node} (h : Phrase.Leaf r.cursor.cur n) :
    Runs (Pure.pure n) r (Phrase.operand r.depth r.cursor).result := by
  rw [Phrase.result_operand_leaf h]
  exact Runs.pure n

theorem sign_runs (hk : r.cursor.cur.kind = .bang ∨ r.cursor.cur.kind = .minus)
    (hright : Runs (expression budget .sign) r.advance
      (Phrase.expression r.depth .sign r.cursor.advance).result) :
    Runs (do
      next
      let right ← expression budget .sign
      return .unary r.cursor.cur r.cursor.cur.literal right) r
      (Phrase.operand r.depth r.cursor).result := by
  rw [Phrase.result_operand_sign hk]
  exact Runs.next (hright.map fun v => Node.unary r.cursor.cur r.cursor.cur.literal v)

theorem operand_runs (hbudget : 16 * r.cursor.pending < budget)
    (hright : r.cursor.cur.kind ≠ .eof → Running.expression r.depth .sign r.cursor.advance)
    (hinner : r.cursor.cur.kind ≠ .eof → Running.expression r.depth .lowest r.cursor.advance)
    (hitems : r.cursor.cur.kind ≠ .eof → Running.items r.depth .rbracket r.cursor)
    (hpairs : r.cursor.cur.kind ≠ .eof → Running.pairs r.depth r.cursor)
    (hbody : r.cursor.cur.kind ≠ .eof →
      Running.block r.depth (Phrase.parameters r.depth r.cursor.advance).stop.advance)
    (hcondition : r.cursor.cur.kind ≠ .eof →
      Running.expression r.depth .lowest r.cursor.advance.advance)
    (hconsequence : r.cursor.cur.kind ≠ .eof → Running.block r.depth
      (Phrase.expression r.depth .lowest r.cursor.advance.advance).stop.advance.advance)
    (halternative : r.cursor.cur.kind ≠ .eof → Running.block r.depth (Phrase.block r.depth
      (Phrase.expression r.depth .lowest
        r.cursor.advance.advance).stop.advance.advance).stop.advance.advance) :
    Runs (operand (budget + 1)) r (Phrase.operand r.depth r.cursor).result := by
  have hpending := r.cursor.pending_advance_le
  have hreal : Phrase.beginsOperand r.cursor.cur.kind ≠ false →
      r.cursor.cur.kind ≠ .eof ∧ r.cursor.pending = r.cursor.left + 1 := fun h =>
    have hne := Phrase.ne_eof_of_beginsOperand h
    ⟨hne, Cursor.pending_of_ne_eof hne⟩
  rw [operand]
  refine Runs.get ?_
  dsimp only
  split <;> rename_i hk
  · exact leaf_runs (.identifier hk)
  · rw [Phrase.result_operand_int hk]
    exact integer_runs r
  · exact leaf_runs (.string hk)
  · exact leaf_runs (.truth hk)
  · exact leaf_runs (.falsehood hk)
  · obtain ⟨hne, heq⟩ := hreal (by rw [hk]; decide)
    exact sign_runs (.inl hk) (hright hne budget _ _ _ (by omega))
  · obtain ⟨hne, heq⟩ := hreal (by rw [hk]; decide)
    exact sign_runs (.inr hk) (hright hne budget _ _ _ (by omega))
  · obtain ⟨hne, heq⟩ := hreal (by rw [hk]; decide)
    rw [Phrase.result_operand_group hk]
    exact Runs.next (Runs.closed (hinner hne budget _ _ _ (by omega)) id)
  · obtain ⟨hne, heq⟩ := hreal (by rw [hk]; decide)
    rw [Phrase.result_operand_array hk]
    exact (hitems hne budget _ _ _ (by omega)).map
      fun v => (v.map (Node.array r.cursor.cur)).getD Node.absent
  · obtain ⟨hne, heq⟩ := hreal (by rw [hk]; decide)
    rw [Phrase.result_operand_hash hk]
    exact (hpairs hne budget _ _ _ (by omega)).map
      fun v => (v.map (Node.hash r.cursor.cur)).getD Node.absent
  · obtain ⟨hne, heq⟩ := hreal (by rw [hk]; decide)
    obtain ⟨budget, rfl⟩ := Nat.exists_eq_add_of_lt (Nat.zero_lt_of_lt hbudget)
    exact function_runs (by omega) hk (hbody hne)
  · obtain ⟨hne, heq⟩ := hreal (by rw [hk]; decide)
    obtain ⟨budget, rfl⟩ := Nat.exists_eq_add_of_lt (Nat.zero_lt_of_lt hbudget)
    exact conditional_runs (by omega) hk (hcondition hne) (hconsequence hne) (halternative hne)
  · have hbegins : Phrase.beginsOperand r.cursor.cur.kind = false := by
      unfold Phrase.beginsOperand
      split <;> first | rfl | contradiction
    rw [Phrase.result_operand_none hbegins]
    exact Runs.broken _ _

end Rules

theorem running_inductive : Running.Inductive where
  statements depth c hfirst hmore budget rs d laps hbudget := by
    obtain ⟨budget, rfl⟩ := Nat.exists_eq_add_one_of_ne_zero (Nat.ne_zero_of_lt hbudget)
    exact statements_runs (r := ⟨c, rs, depth, d, laps⟩) (Nat.lt_of_succ_lt_succ hbudget) hfirst
      hmore
  statement depth c hbinding hreturning hexpression budget rs d laps hbudget := by
    obtain ⟨budget, rfl⟩ := Nat.exists_eq_add_one_of_ne_zero (Nat.ne_zero_of_lt hbudget)
    exact statement_runs (r := ⟨c, rs, depth, d, laps⟩) (Nat.lt_of_succ_lt_succ hbudget) hbinding
      hreturning hexpression
  block depth c hbody budget rs d laps hbudget := by
    obtain ⟨budget, rfl⟩ := Nat.exists_eq_add_one_of_ne_zero (Nat.ne_zero_of_lt hbudget)
    exact block_runs (r := ⟨c, rs, depth, d, laps⟩) (Nat.lt_of_succ_lt_succ hbudget) hbody
  expression depth m c hfirst hmore budget rs d laps hbudget := by
    obtain ⟨budget, rfl⟩ := Nat.exists_eq_add_one_of_ne_zero (Nat.ne_zero_of_lt hbudget)
    exact expression_runs (r := ⟨c, rs, depth, d, laps⟩) (Nat.lt_of_succ_lt_succ hbudget) hfirst
      hmore
  operators depth m c left happlied hmore budget rs d laps hbudget := by
    obtain ⟨budget, rfl⟩ := Nat.exists_eq_add_one_of_ne_zero (Nat.ne_zero_of_lt hbudget)
    exact operators_runs (r := ⟨c, rs, depth, d, laps⟩) (Nat.lt_of_succ_lt_succ hbudget) happlied
      hmore
  application depth c left hitems hi hright budget rs d laps hbudget := by
    obtain ⟨budget, rfl⟩ := Nat.exists_eq_add_one_of_ne_zero (Nat.ne_zero_of_lt hbudget)
    exact application_runs (r := ⟨c, rs, depth, d, laps⟩) (Nat.lt_of_succ_lt_succ hbudget) hitems hi
      hright
  items depth close c hfirst hmore budget rs d laps hbudget := by
    obtain ⟨budget, rfl⟩ := Nat.exists_eq_add_one_of_ne_zero (Nat.ne_zero_of_lt hbudget)
    exact items_runs (r := ⟨c, rs, depth, d, laps⟩) (Nat.lt_of_succ_lt_succ hbudget) hfirst hmore
  moreItems depth close c hfirst hmore budget rs d laps hbudget := by
    obtain ⟨budget, rfl⟩ := Nat.exists_eq_add_one_of_ne_zero (Nat.ne_zero_of_lt hbudget)
    exact moreItems_runs (r := ⟨c, rs, depth, d, laps⟩) (Nat.lt_of_succ_lt_succ hbudget) hfirst
      hmore
  pairs depth c hkey hvalue hmore budget rs d laps hbudget := by
    obtain ⟨budget, rfl⟩ := Nat.exists_eq_add_one_of_ne_zero (Nat.ne_zero_of_lt hbudget)
    exact pairs_runs (r := ⟨c, rs, depth, d, laps⟩) (Nat.lt_of_succ_lt_succ hbudget) hkey hvalue
      hmore
  operand depth c hright hinner hitems hpairs hbody hcondition hconsequence halternative budget rs d
      laps hbudget := by
    obtain ⟨budget, rfl⟩ := Nat.exists_eq_add_one_of_ne_zero (Nat.ne_zero_of_lt hbudget)
    exact operand_runs (r := ⟨c, rs, depth, d, laps⟩) (Nat.lt_of_succ_lt_succ hbudget) hright hinner
      hitems hpairs hbody hcondition hconsequence halternative

theorem pending_ofTokens_le (tokens : List Token) :
    (Cursor.ofTokens tokens).pending ≤ tokens.length := by
  cases tokens with
  | nil => exact Nat.le_refl _
  | cons t ts =>
    unfold Cursor.pending
    split
    · exact Nat.le_succ _
    · exact Nat.le_refl _

/-- The reader comes to an end on every token list, wherever tokens of kind `eof` stand in it: with
sixteen calls for each token, and eight more, it does not give up. What it reads is the program with
all that was reported. Each round of its loops used up a token or was the last one with none left,
and all blocks are closed again. -/
theorem program_terminates (tokens : List Token) {budget : Nat}
    (hbudget : 16 * tokens.length + 8 ≤ budget) :
    ∃ r, program tokens budget = some (Program.ofTokens tokens, r) ∧
      r.reports = (Program.ofTokens tokens).diagnostics ∧ r.depth = 0 ∧
      ∀ l ∈ r.laps, l.Advances := by
  have hpending := pending_ofTokens_le tokens
  obtain ⟨laps, hlaps, hruns⟩ := running_inductive.all_statements 0 (Cursor.ofTokens tokens)
    budget [] 0 [] (by omega)
  have hprogram : program tokens budget = some (Program.ofTokens tokens,
      (Reader.start tokens).behind (Program.ofTokens tokens).diagnostics
        (Phrase.statements 0 (Cursor.ofTokens tokens)).stop laps) := by
    show (statements budget (terminator 0) ⟨Cursor.ofTokens tokens, [], 0, 0, []⟩).bind _ = _
    rw [hruns]
    rfl
  exact ⟨_, hprogram, rfl, rfl, hlaps⟩

/-- A token of kind `eof` in an open block: the reader leaves the block there and reads on. -/
theorem program_terminates_endInBlock :
    let tokens : List Token := [⟨.kwIf, "if", ⟨1, 1⟩⟩, ⟨.lparen, "(", ⟨1, 3⟩⟩,
      ⟨.ident, "a", ⟨1, 4⟩⟩, ⟨.rparen, ")", ⟨1, 5⟩⟩, ⟨.lbrace, "\x7b", ⟨1, 6⟩⟩, ⟨.eof, "", ⟨1, 7⟩⟩,
      ⟨.comma, ",", ⟨1, 8⟩⟩, ⟨.ident, "b", ⟨1, 9⟩⟩]
    16 * tokens.length + 8 ≤ 136 ∧
      ∃ r, program tokens 136 = some (Program.ofTokens tokens, r) ∧
        r.reports = (Program.ofTokens tokens).diagnostics ∧ r.depth = 0 ∧
        ∀ l ∈ r.laps, l.Advances :=
  ⟨by decide, program_terminates _ (by decide)⟩

end Walk

end MonkeyLang
