import MonkeyLang.Program.Cursor

/-!
Stretches of a token list as a cursor walks along them. A stretch may go on beyond the end of the
list, where the cursor finds tokens of kind `eof`.
-/

namespace MonkeyLang.Cursor

open Token (Kind)

theorem ofTokens_eq {tokens : List Token} (h : tokens ≠ []) :
    (ofTokens tokens).cur :: (ofTokens tokens).rest = tokens := by
  cases tokens with
  | nil => exact absurd rfl h
  | cons t ts => rfl

/-- Reading from `c` on gives the tokens `ts`, the last of them at `e`. -/
inductive Spans : Cursor → List Token → Cursor → Prop
  | last (c : Cursor) : Spans c [c.cur] c
  | step {c e : Cursor} {ts : List Token} : Spans c.advance ts e → Spans c (c.cur :: ts) e

theorem Spans.ne_nil {c e : Cursor} {ts : List Token} (h : c.Spans ts e) : ts ≠ [] := by
  cases h <;> simp

theorem Spans.append {c m e : Cursor} {ts us : List Token} (h : c.Spans ts m)
    (h' : m.advance.Spans us e) : c.Spans (ts ++ us) e := by
  induction h with
  | last c => exact .step h'
  | step _ ih => exact .step (ih h')

theorem Spans.snoc {c m : Cursor} {ts : List Token} (h : c.Spans ts m) :
    c.Spans (ts ++ [m.peek]) m.advance :=
  h.append (.last m.advance)

theorem Spans.cur_eq {c e : Cursor} {t : Token} {ts : List Token} (h : c.Spans (t :: ts) e) :
    c.cur = t := by
  cases h <;> rfl

theorem Spans.peek_eq {c e : Cursor} {t : Token} {ts : List Token}
    (h : c.advance.Spans (t :: ts) e) : c.peek = t :=
  h.cur_eq

theorem spans_singleton {c e : Cursor} {t : Token} : c.Spans [t] e ↔ c.cur = t ∧ e = c := by
  constructor
  · intro h
    cases h with
    | last => exact ⟨rfl, rfl⟩
    | step h => exact absurd rfl h.ne_nil
  · rintro ⟨rfl, rfl⟩
    exact .last _

theorem Spans.tail {c e : Cursor} {t : Token} {ts : List Token} (h : c.Spans (t :: ts) e)
    (hts : ts ≠ []) : c.advance.Spans ts e := by
  cases h with
  | last => exact absurd rfl hts
  | step h => exact h

/-- A stretch of two parts can be cut between them. -/
theorem Spans.split {e : Cursor} {ts us : List Token} (hts : ts ≠ []) (hus : us ≠ []) :
    ∀ {c : Cursor}, c.Spans (ts ++ us) e → ∃ m, c.Spans ts m ∧ m.advance.Spans us e := by
  induction ts with
  | nil => exact absurd rfl hts
  | cons t ts ih =>
    intro c h
    have hc := h.cur_eq
    have htail := h.tail (by simp [hus])
    subst hc
    by_cases hn : ts = []
    · subst hn
      exact ⟨c, .last c, htail⟩
    · obtain ⟨m, hm, he⟩ := ih hn htail
      exact ⟨m, .step hm, he⟩

theorem Spans.stop_cur {c e : Cursor} {ts : List Token} {r : Token} (h : c.Spans (ts ++ [r]) e) :
    e.cur = r := by
  by_cases hn : ts = []
  · subst hn
    obtain ⟨rfl, rfl⟩ := spans_singleton.1 h
    rfl
  · obtain ⟨m, -, hr⟩ := h.split hn (by simp)
    obtain ⟨rfl, rfl⟩ := spans_singleton.1 hr
    rfl

/-- A stretch of real tokens is a beginning of the list. -/
theorem Spans.eq_append {c e : Cursor} {ts : List Token} (h : c.Spans ts e)
    (hts : ∀ t ∈ ts, t.kind ≠ .eof) : c.cur :: c.rest = ts ++ e.rest := by
  induction h with
  | last c => rfl
  | @step c e ts h ih =>
    have hrest : c.rest ≠ [] := by
      intro hnil
      obtain ⟨t, us, rfl⟩ := List.exists_cons_of_ne_nil h.ne_nil
      have ht : t = c.peek := h.cur_eq.symm
      refine hts t (by simp) ?_
      simp [ht, peek, hnil]
    have hcut : c.rest = c.advance.cur :: c.advance.rest := by
      obtain ⟨u, us, hu⟩ := List.exists_cons_of_ne_nil hrest
      simp [peek, hu]
    rw [List.cons_append, hcut, ih fun t ht => hts t (by simp [ht])]

/-- Every beginning of the list is a stretch. -/
theorem exists_spans {r : List Token} {ts : List Token} (hts : ts ≠ []) :
    ∀ {c : Cursor}, c.cur :: c.rest = ts ++ r → ∃ e, c.Spans ts e ∧ e.rest = r := by
  induction ts with
  | nil => exact absurd rfl hts
  | cons t ts ih =>
    intro c h
    obtain ⟨rfl, hrest⟩ := List.cons.inj h
    by_cases hn : ts = []
    · subst hn
      exact ⟨c, .last c, hrest⟩
    · obtain ⟨u, us, rfl⟩ := List.exists_cons_of_ne_nil hn
      have hadv : c.advance.cur :: c.advance.rest = u :: us ++ r := by
        simp [peek, hrest]
      obtain ⟨e, he, hr⟩ := ih hn hadv
      exact ⟨e, .step he, hr⟩

end MonkeyLang.Cursor
