import MonkeyLang.Program.Cursor

/-!
What reading a phrase of the language gives. Reading never fails: a phrase that is broken still
has a value, and a diagnostic. Each phrase carries the proof that reading it did not move back, so
that lists of phrases come to an end.
-/

namespace MonkeyLang

open Token (Kind)

/-- What was read from `start`: the phrase, the diagnostics that it caused, in order, and the
cursor at its last token. -/
structure Phrase (start : Cursor) (α : Type) where
  value : α
  reports : List Diagnostic
  stop : Cursor
  le : stop.left ≤ start.left

namespace Phrase

/-- A phrase that ends at the current token and has nothing to report. -/
def done {c : Cursor} {α : Type} (value : α) : Phrase c α := ⟨value, [], c, Nat.le_refl _⟩

def broken {c : Cursor} {α : Type} (value : α) (report : Diagnostic) : Phrase c α :=
  ⟨value, [report], c, Nat.le_refl _⟩

theorem left_stop_le {c : Cursor} {α : Type} (p : Phrase c α) : p.stop.left ≤ c.left := p.le

grind_pattern left_stop_le => p.stop

/-- The same phrase after what was read before it. -/
def after {start c : Cursor} {α : Type} (p : Phrase c α) (before : List Diagnostic)
    (h : c.left ≤ start.left) : Phrase start α :=
  ⟨p.value, before ++ p.reports, p.stop, Nat.le_trans p.le h⟩

def map {c : Cursor} {α β : Type} (f : α → β) (p : Phrase c α) : Phrase c β :=
  ⟨f p.value, p.reports, p.stop, p.le⟩

/-- A statement with the semicolon after it, if there is one. -/
def terminated {c : Cursor} {α : Type} (p : Phrase c α) : Phrase c α :=
  ⟨p.value, p.reports, p.stop.skip .semicolon,
    Nat.le_trans (p.stop.left_skip_le _) p.le⟩

/-- The phrase with the token of kind `k` that closes it; without that token, `broken`. -/
def closed {c : Cursor} {α : Type} (p : Phrase c α) (depth : Nat) (k : Kind) (broken : α) :
    Phrase c α :=
  if p.stop.peek.kind = k then
    ⟨p.value, p.reports, p.stop.advance, by have := p.le; simp; omega⟩
  else
    ⟨broken, p.reports ++ [p.stop.unexpected depth k], p.stop, p.le⟩

end Phrase

end MonkeyLang
