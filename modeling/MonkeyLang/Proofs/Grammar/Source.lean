import MonkeyLang.Proofs.Grammar.Acceptance
import MonkeyLang.Proofs.Lexing.Spelling
import MonkeyLang.Proofs.Reading.Placement

/-!
Sources and the statements that they spell. A source that spells a derivation is read without a
report and as its tree, and every source that is read without a report spells one. The derivations
of lists are made from those of their entries, with a comma before each but the first.
-/

namespace MonkeyLang

open Token (Kind)

/-- Lists agree in what `f` and `g` make of their entries if these agree pairwise. -/
theorem map_eq_map_of_forall₂ {α β γ : Type} {f : α → γ} {g : β → γ} {xs : List α} {ys : List β}
    (h : List.Forall₂ (fun x y => g y = f x) xs ys) : ys.map g = xs.map f := by
  induction h with
  | nil => rfl
  | cons hxy _ ih => rw [List.map_cons, List.map_cons, hxy, ih]

theorem forall_of_forall₂ {α β : Type} {R : α → β → Prop} {p : β → Prop} {xs : List α}
    {ys : List β} (h : List.Forall₂ R xs ys) (hp : ∀ x y, R x y → p y) : ∀ y ∈ ys, p y := by
  induction h with
  | nil => simp
  | cons hxy _ ih => simpa using ⟨hp _ _ hxy, ih⟩

namespace Grammar

def Lexeme.loose (k : Kind) (literal : String) : Lexeme k := ⟨.loose k literal, rfl⟩

@[simp] theorem Lexeme.val_loose (k : Kind) (literal : String) :
    (Lexeme.loose k literal).1 = .loose k literal :=
  rfl

/-! ## Lists -/

def colon : Token := .loose .colon ":"

def MoreItems.ofList : List Expr → MoreItems
  | [] => .done
  | d :: ds => .next (.loose .comma ",") d (ofList ds)

def Items.ofList : List Expr → Items
  | [] => .empty
  | d :: ds => .list d (.ofList ds)

def MoreEntries.ofList : List (Expr × Expr) → MoreEntries
  | [] => .done
  | (key, value) :: ds => .next (.loose .comma ",") key (.loose .colon ":") value (ofList ds)

def Entries.ofList : List (Expr × Expr) → Entries
  | [] => .empty
  | (key, value) :: ds => .list key (.loose .colon ":") value (.ofList ds)

def entryTokens (entry : Expr × Expr) : List Token :=
  entry.1.tokens ++ colon :: entry.2.tokens

theorem MoreItems.tokens_ofList (d : Expr) (ds : List Expr) :
    d.tokens ++ (MoreItems.ofList ds).tokens =
      [Lexer.comma].intercalate ((d :: ds).map (·.tokens)) := by
  induction ds generalizing d with
  | nil => simp [MoreItems.ofList, MoreItems.tokens]
  | cons e ds ih =>
    have hmore : (MoreItems.ofList (e :: ds)).tokens =
        Lexer.comma :: (e.tokens ++ (MoreItems.ofList ds).tokens) := rfl
    rw [hmore, ih, List.map_cons, List.map_cons, List.map_cons, List.intercalate_cons_cons]
    simp

theorem Items.tokens_ofList (ds : List Expr) :
    (Items.ofList ds).tokens = [Lexer.comma].intercalate (ds.map (·.tokens)) := by
  cases ds with
  | nil => rfl
  | cons d ds => exact MoreItems.tokens_ofList d ds

theorem MoreEntries.tokens_ofList (d : Expr × Expr) (ds : List (Expr × Expr)) :
    entryTokens d ++ (MoreEntries.ofList ds).tokens =
      [Lexer.comma].intercalate ((d :: ds).map entryTokens) := by
  induction ds generalizing d with
  | nil => simp [MoreEntries.ofList, MoreEntries.tokens]
  | cons e ds ih =>
    have hmore : (MoreEntries.ofList (e :: ds)).tokens =
        Lexer.comma :: (entryTokens e ++ (MoreEntries.ofList ds).tokens) := by
      rw [entryTokens, List.append_assoc]
      rfl
    rw [hmore, ih, List.map_cons, List.map_cons, List.map_cons, List.intercalate_cons_cons]
    simp

theorem Entries.tokens_ofList (ds : List (Expr × Expr)) :
    (Entries.ofList ds).tokens = [Lexer.comma].intercalate (ds.map entryTokens) := by
  cases ds with
  | nil => rfl
  | cons d ds =>
    rw [← MoreEntries.tokens_ofList, entryTokens, List.append_assoc]
    rfl

theorem MoreItems.trees_ofList (ds : List Expr) :
    (MoreItems.ofList ds).trees = ds.map (·.tree) := by
  induction ds with
  | nil => rfl
  | cons d ds ih => rw [MoreItems.ofList, MoreItems.trees, ih, List.map_cons]

theorem Items.trees_ofList (ds : List Expr) : (Items.ofList ds).trees = ds.map (·.tree) := by
  cases ds with
  | nil => rfl
  | cons d ds => rw [Items.ofList, Items.trees, MoreItems.trees_ofList, List.map_cons]

theorem MoreEntries.trees_ofList (ds : List (Expr × Expr)) :
    (MoreEntries.ofList ds).trees = ds.map fun d => (d.1.tree, d.2.tree) := by
  induction ds with
  | nil => rfl
  | cons d ds ih => rw [MoreEntries.ofList, MoreEntries.trees, ih, List.map_cons]

theorem Entries.trees_ofList (ds : List (Expr × Expr)) :
    (Entries.ofList ds).trees = ds.map fun d => (d.1.tree, d.2.tree) := by
  cases ds with
  | nil => rfl
  | cons d ds => rw [Entries.ofList, Entries.trees, MoreEntries.trees_ofList, List.map_cons]

theorem MoreItems.valid_ofList {ds : List Expr} (h : ∀ d ∈ ds, d.Valid) :
    (MoreItems.ofList ds).Valid := by
  induction ds with
  | nil => trivial
  | cons d ds ih => exact ⟨h d List.mem_cons_self, ih fun e he => h e (List.mem_cons_of_mem _ he)⟩

theorem Items.valid_ofList {ds : List Expr} (h : ∀ d ∈ ds, d.Valid) : (Items.ofList ds).Valid := by
  cases ds with
  | nil => trivial
  | cons d ds =>
    exact ⟨h d List.mem_cons_self,
      MoreItems.valid_ofList fun e he => h e (List.mem_cons_of_mem _ he)⟩

theorem MoreEntries.valid_ofList {ds : List (Expr × Expr)}
    (h : ∀ d ∈ ds, d.1.Valid ∧ d.2.Valid) : (MoreEntries.ofList ds).Valid := by
  induction ds with
  | nil => trivial
  | cons d ds ih =>
    obtain ⟨hkey, hvalue⟩ := h d List.mem_cons_self
    exact ⟨hkey, hvalue, ih fun e he => h e (List.mem_cons_of_mem _ he)⟩

theorem Entries.valid_ofList {ds : List (Expr × Expr)} (h : ∀ d ∈ ds, d.1.Valid ∧ d.2.Valid) :
    (Entries.ofList ds).Valid := by
  cases ds with
  | nil => trivial
  | cons d ds =>
    obtain ⟨hkey, hvalue⟩ := h d List.mem_cons_self
    exact ⟨hkey, hvalue, MoreEntries.valid_ofList fun e he => h e (List.mem_cons_of_mem _ he)⟩

end Grammar

/-! ## Sources -/

namespace Lexer

theorem scan_ends (pos last : Position) (text : List Char) :
    ∃ body stop, scan pos last text = body ++ [stop] ∧ stop.kind = .eof ∧
      Grammar.Endless body := by
  fun_induction scan pos last text with
  | case1 pos last => exact ⟨[], _, rfl, rfl, fun _ h => absurd h List.not_mem_nil⟩
  | case2 _ _ _ _ _ ih => exact ih
  | case3 pos last c cs _ m stop ih =>
    obtain ⟨body, stop, hscan, hstop, hbody⟩ := ih
    refine ⟨m.token pos :: body, stop, by rw [hscan, List.cons_append], hstop, ?_⟩
    intro t ht
    rcases List.mem_cons.mp ht with rfl | ht
    · exact kind_munch_ne_eof c cs
    · exact hbody t ht

/-- An integer token is not empty. -/
theorem ne_nil_of_mem_scan {pos last : Position} {text : List Char} {t : Token}
    (ht : t ∈ scan pos last text) (hk : t.kind = .int) : t.literal.toList ≠ [] := by
  fun_induction scan pos last text with
  | case1 pos last =>
    rw [List.mem_singleton.mp ht] at hk
    cases hk
  | case2 pos last c cs _ ih => exact ih ht
  | case3 pos last c cs _ m stop ih =>
    rcases List.mem_cons.mp ht with rfl | ht
    · have hint : m.kind = .int := hk
      simpa [Munch.token, hint] using taken_ne_nil c cs
    · exact ih ht

/-- The tokens of every source are legible. -/
theorem legible_tokenize (source : String) : Grammar.Legible (tokenize source) where
  ends := scan_ends _ _ _
  digits t ht hk hread := by
    have hdigits : ∀ c ∈ t.literal.toList, '0' ≤ c ∧ c ≤ '9' := by
      intro c hc
      simpa [isDigit] using digits_of_mem_scan ht hk c hc
    exact ⟨ne_nil_of_mem_scan ht hk, Numeral.length_le_of_read? hdigits hread, hdigits⟩

end Lexer

namespace Grammar

/-- A source whose tokens are those of the statements is read without a report, and as their
trees. -/
theorem Statements.read_source {ss : Statements} {source : String} {stop : Token} (hv : ss.Valid)
    (hstop : stop.kind = .eof) (htokens : Lexer.lexemes source.toList = ss.tokens ++ [stop]) :
    (Program.ofSource source).isClean = true ∧
      (Program.ofSource source).statements.map (·.unplaced) = ss.trees := by
  let d : Derivation ((tokenize source).map (·.unplaced)) :=
    { body := ss, last := ⟨stop, hstop⟩, valid := hv, covers := htokens.symm }
  obtain ⟨hclean, hnode⟩ := d.read
  rw [Program.isClean_ofTokens_unplaced] at hclean
  rw [Program.node, Derivation.tree, Node.program.injEq] at hnode
  exact ⟨hclean, (Program.ofTokens_unplaced _).1.symm.trans hnode.2⟩

/-- A legible list is legible without places too. -/
theorem Legible.unplaced {tokens : List Token} (h : Legible tokens) :
    Legible (tokens.map (·.unplaced)) := by
  constructor
  · obtain ⟨body, last, rfl, hlast, hbody⟩ := h.ends
    refine ⟨body.map (·.unplaced), last.unplaced, by simp, hlast, ?_⟩
    intro t ht
    obtain ⟨u, hu, rfl⟩ := List.mem_map.1 ht
    exact hbody u hu
  · intro t ht
    obtain ⟨u, hu, rfl⟩ := List.mem_map.1 ht
    exact h.digits u hu

/-- A clean source spells statements. -/
theorem exists_statements {source : String} (h : (Program.ofSource source).isClean = true) :
    ∃ (ss : Statements) (stop : Token), ss.Valid ∧ stop.kind = .eof ∧
      Lexer.lexemes source.toList = ss.tokens ++ [stop] := by
  have hlegible := (Lexer.legible_tokenize source).unplaced
  obtain ⟨d⟩ := hlegible.derivation (by rwa [Program.isClean_ofTokens_unplaced])
  exact ⟨d.body, d.last.1, d.valid, d.last.2, d.covers.symm⟩

end Grammar

end MonkeyLang
