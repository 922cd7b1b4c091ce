import MonkeyLang.Program.Diagnostic

/-!
A place in a token list: the current token and those after it. A list that has run out goes on as
if it ended in tokens of kind `eof`, all at the place of the last real one. What bounds a walk
along the list is `left`, the number of tokens after the current one, and `pending`, which counts
the current one too unless it is of kind `eof`.
-/

namespace MonkeyLang

open Token (Kind)

structure Cursor where
  cur : Token
  rest : List Token
  deriving DecidableEq, Repr, Inhabited

namespace Cursor

def ofTokens : List Token → Cursor
  | [] => ⟨.eof ⟨0, 0⟩, []⟩
  | t :: ts => ⟨t, ts⟩

def peek (c : Cursor) : Token := c.rest.headD (.eof c.cur.pos)

def advance (c : Cursor) : Cursor := ⟨c.peek, c.rest.tail⟩

def left (c : Cursor) : Nat := c.rest.length

/-- The number of tokens that can still be used, where an `eof` cannot. -/
def pending (c : Cursor) : Nat := if c.cur.kind = .eof then c.left else c.left + 1

@[simp] theorem cur_advance (c : Cursor) : c.advance.cur = c.peek := rfl

@[simp] theorem rest_advance (c : Cursor) : c.advance.rest = c.rest.tail := rfl

@[simp, grind =] theorem left_advance (c : Cursor) : c.advance.left = c.left - 1 := by
  simp [advance, left]

@[grind =]
theorem pending_of_ne_eof {c : Cursor} (h : c.cur.kind ≠ .eof) : c.pending = c.left + 1 := by
  simp [pending, h]

theorem left_le_pending (c : Cursor) : c.left ≤ c.pending := by
  unfold pending
  split <;> omega

grind_pattern left_le_pending => c.pending

/-- A step uses up the current token. -/
theorem pending_advance_le (c : Cursor) : c.advance.pending ≤ c.left := by
  obtain ⟨cur, rest⟩ := c
  cases rest with
  | nil => simp [advance, peek, pending, left]
  | cons t ts =>
    by_cases h : t.kind = .eof <;> simp [advance, peek, pending, left, h]

grind_pattern pending_advance_le => c.advance.pending

/-- There is a real token after the current one if it is not of kind `eof`. -/
theorem left_pos {c : Cursor} (h : c.peek.kind ≠ .eof) : 0 < c.left := by
  obtain ⟨cur, rest⟩ := c
  cases rest with
  | nil => simp [peek] at h
  | cons t ts => simp [left]

theorem left_pos_of_peek {c : Cursor} {k : Kind} (h : c.peek.kind = k) (hk : k ≠ .eof) :
    0 < c.left :=
  left_pos (h ▸ hk)

def skip (c : Cursor) (k : Kind) : Cursor :=
  if c.peek.kind = k then c.advance else c

theorem left_skip_le (c : Cursor) (k : Kind) : (c.skip k).left ≤ c.left := by
  unfold skip
  split <;> simp

/-- Goes to the end of a broken statement: onto the next semicolon, or to just before the token
that closes the statement list. -/
def synchronize (c : Cursor) : Cursor :=
  if c.cur.kind = .semicolon ∨ c.cur.kind = .eof ∨ c.peek.kind = .rbrace ∨ c.peek.kind = .eof then
    c
  else
    c.advance.synchronize
termination_by c.left
decreasing_by
  rename_i h
  simp only [not_or] at h
  have := left_pos h.2.2.2
  simp only [left_advance]
  omega

theorem left_synchronize_le (c : Cursor) : c.synchronize.left ≤ c.left := by
  fun_induction synchronize c with
  | case1 => exact Nat.le_refl _
  | case2 c _ ih =>
    have := c.left_advance
    omega

def report (c : Cursor) (depth : Nat) (cause : Diagnostic.Cause) : Diagnostic :=
  ⟨cause, c.cur.pos, depth⟩

def unexpected (c : Cursor) (depth : Nat) (wanted : Kind) : Diagnostic :=
  c.report depth (.unexpected wanted c.peek.kind)

/-- Where the statement list goes on after a statement that stopped at `c`. The rest of the
statement is given up if its last diagnostic arose at this very depth; one from an inner block has
been recovered from there. -/
def recover (c : Cursor) (depth : Nat) (reports : List Diagnostic) : Cursor :=
  if reports.getLast?.map (·.depth) = some depth then c.synchronize else c

theorem left_recover_le (c : Cursor) (depth : Nat) (reports : List Diagnostic) :
    (c.recover depth reports).left ≤ c.left := by
  unfold recover
  split
  · exact c.left_synchronize_le
  · exact Nat.le_refl _

grind_pattern left_recover_le => (c.recover depth reports).left

end Cursor

end MonkeyLang
