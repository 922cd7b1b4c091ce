import Mathlib.Algebra.Group.Nat.Defs
import MonkeyLang.Proofs.Data
import MonkeyLang.Proofs.Evaluation.Integers
import MonkeyLang.Proofs.Evaluation.Table

/-!
Printed data is a program that makes the data again. The text of data without the least word is a
literal, and its evaluation comes to the same numbers, truth values, arrays and hashes, only with
other identities. Where the least word occurs, the text is refused.
-/

namespace MonkeyLang

open Token (Kind)

namespace Value

/-! ## Where a number occurs -/

theorem mentions_integer {m n : Int} : (integer m).Mentions n ↔ m = n := by
  constructor
  · rintro ⟨u, hu, hn⟩
    cases hu with
    | self =>
      cases hn
      rfl
    | stored h => cases h
  · rintro rfl
    exact ⟨_, .self, .integer⟩

theorem mentions_boolean {b : Bool} {n : Int} : ¬(boolean b).Mentions n := by
  rintro ⟨u, hu, hn⟩
  cases hu with
  | self => cases hn
  | stored h => cases h

theorem mentions_array {id : Nat} {vs : List Value} {n : Int} :
    (array id vs).Mentions n ↔ ∃ v ∈ vs, v.Mentions n := by
  constructor
  · rintro ⟨u, hu, hn⟩
    cases hu with
    | self => cases hn
    | stored h hu =>
      cases h with
      | element hmem => exact ⟨_, hmem, u, hu, hn⟩
  · rintro ⟨v, hmem, u, hu, hn⟩
    exact ⟨u, .stored (.element hmem) hu, hn⟩

theorem mentions_hash {id : Nat} {es : List (Key × Value)} {n : Int} :
    (hash id es).Mentions n ↔ ∃ e ∈ es, e.1 = .integer n ∨ e.2.Mentions n := by
  constructor
  · rintro ⟨u, hu, hn⟩
    cases hu with
    | self =>
      cases hn with
      | key hmem => exact ⟨_, hmem, .inl rfl⟩
    | stored h hu =>
      cases h with
      | entry hmem => exact ⟨_, hmem, .inr ⟨u, hu, hn⟩⟩
  · rintro ⟨⟨k, v⟩, hmem, hk | ⟨u, hu, hn⟩⟩
    · subst hk
      exact ⟨_, .self, .key hmem⟩
    · exact ⟨u, .stored (.entry hmem) hu, hn⟩

/-! ## Data without the least word -/

/-- The derivation covers the tokens of the data, and its tree evaluates to the data again, wherever
its tokens stand, if evaluations may be nested deep enough. -/
structure Literal (v : Value) (d : Grammar.Expr) : Prop where
  data : v.IsData
  valid : d.Valid
  tokens : d.tokens = v.tokens
  value : ∀ n : Node, n.unplaced = d.tree → ∀ (limit : Nat) (env : FrameId) (s : Store),
    v.depth ≤ limit → ∃ w s', eval limit env n s = .ok w s' ∧ w.anonymous = v.anonymous

theorem quiet_of_anonymous {v w : Value} (hv : v.IsData) (h : w.anonymous = v.anonymous) :
    w.isError = false ∧ w.isReturned = false := by
  cases v with
  | integer _ | boolean _ | array _ _ | hash _ _ =>
    cases w with
    | error _ _ | returned _ _ => simp [anonymous] at h
    | _ => exact ⟨rfl, rfl⟩
  | _ => simp only [IsData] at hv

theorem integer_of_unplaced {n : Node} {t : Token} {value : Int}
    (h : n.unplaced = .integer t value) : ∃ t', n = .integer t' value := by
  cases n <;> simp_all [Node.unplaced]

/-- The numeral of a number that fits. -/
theorem exists_numeral {n : Nat} (h : n ≤ 2 ^ 63 - 1) :
    ∃ d : Grammar.Expr, d.Valid ∧ d.level = 6 ∧ d.tokens = [.loose .int n.repr] ∧
      d.tree = .integer (.loose .int n.repr) n := by
  have hfits : Grammar.decimal n.repr ≤ 0x7fffffffffffffff := by
    rw [Numeral.decimal_repr]
    exact h
  refine ⟨.integer ⟨.loose .int n.repr, rfl, Numeral.digits_repr (by omega), hfits⟩, trivial, rfl,
    rfl, ?_⟩
  show Node.integer _ (Grammar.decimal n.repr : Int) = _
  rw [Numeral.decimal_repr]

theorem literal_integer {n : Int} (h : Word.InRange n) (hleast : n ≠ Word.least) :
    ∃ d, Literal (integer n) d := by
  have hfits : n.natAbs ≤ 2 ^ 63 - 1 := by
    obtain ⟨hlow, hhigh⟩ := h
    simp only [Word.least, Word.greatest] at hlow hhigh hleast
    omega
  obtain ⟨numeral, hvalid, hlevel, htokens, htree⟩ := exists_numeral hfits
  have hdata : (integer n).IsData := by rwa [IsData]
  by_cases hsign : n < 0
  · refine ⟨.unary ⟨.loose .minus "-", .inr rfl⟩ numeral, hdata,
      ⟨hvalid, by rw [hlevel]; decide⟩, ?_, fun m hm limit env s hlimit => ?_⟩
    · rw [Value.tokens, integerTokens, if_pos hsign, Grammar.Expr.tokens, htokens]
    · rw [Grammar.Expr.tree, htree] at hm
      obtain ⟨t, t', rfl⟩ : ∃ t t', m = .unary t "-" (.integer t' n.natAbs) := by
        cases m with
        | unary t op right =>
          rw [Node.unplaced, Node.unary.injEq] at hm
          obtain ⟨-, rfl, hright⟩ := hm
          obtain ⟨t', rfl⟩ := integer_of_unplaced hright
          exact ⟨t, t', rfl⟩
        | _ => simp [Node.unplaced] at hm
      obtain ⟨limit, rfl⟩ := Nat.exists_eq_add_of_le' (show 2 ≤ limit from hlimit)
      have hneg : Word.wrap (-(n.natAbs : Int)) = n := by
        rw [Int.ofNat_natAbs_of_nonpos (Int.le_of_lt hsign), Int.neg_neg, Word.wrap_eq_self h]
      refine ⟨.integer (Word.wrap (-(n.natAbs : Int))), s, rfl, ?_⟩
      rw [hneg]
  · refine ⟨numeral, hdata, hvalid, ?_, fun m hm limit env s hlimit => ?_⟩
    · rw [Value.tokens, integerTokens, if_neg hsign, htokens]
    · rw [htree, Int.natAbs_of_nonneg (Int.not_lt.mp hsign)] at hm
      obtain ⟨t, rfl⟩ := integer_of_unplaced hm
      obtain ⟨limit, rfl⟩ := Nat.exists_eq_add_of_le' (show 2 ≤ limit from hlimit)
      exact ⟨.integer n, s, rfl, rfl⟩

theorem literal_boolean (b : Bool) : ∃ d, Literal (boolean b) d := by
  have hdata : (boolean b).IsData := by rw [IsData]; trivial
  have hvalue : ∀ (n : Node) (t : Token), n.unplaced = .boolean t b → ∀ (limit : Nat)
      (env : FrameId) (s : Store), (boolean b).depth ≤ limit →
      ∃ w s', eval limit env n s = .ok w s' ∧ w.anonymous = (boolean b).anonymous := by
    intro n t hn limit env s hlimit
    obtain ⟨limit, rfl⟩ := Nat.exists_eq_add_of_le' (show 2 ≤ limit from hlimit)
    cases n with
    | boolean t' b' =>
      rw [Node.unplaced, Node.boolean.injEq] at hn
      obtain ⟨-, rfl⟩ := hn
      exact ⟨_, s, rfl, rfl⟩
    | _ => simp [Node.unplaced] at hn
  cases b with
  | true => exact ⟨.truth (.loose .kwTrue "true"), hdata, trivial, rfl, fun n hn => hvalue n _ hn⟩
  | false =>
    exact ⟨.falsehood (.loose .kwFalse "false"), hdata, trivial, rfl, fun n hn => hvalue n _ hn⟩

/-! ## Lists of data -/

theorem tokensEach_eq_map (vs : List Value) : tokensEach vs = vs.map tokens := by
  induction vs with
  | nil => rfl
  | cons v vs ih => rw [tokensEach, ih, List.map_cons]

theorem tokensEntries_eq_map (es : List (Key × Value)) :
    tokensEntries es = es.map fun e => e.1.tokens ++ Grammar.colon :: e.2.tokens := by
  induction es with
  | nil => rfl
  | cons e es ih => rw [tokensEntries, ih, List.map_cons]

theorem anonymousEntries_eq_map (es : List (Key × Value)) :
    anonymousEntries es = es.map fun e => (e.1, e.2.anonymous) := by
  induction es with
  | nil => rfl
  | cons e es ih => rw [anonymousEntries, ih, List.map_cons]

/-- Elements are evaluated one after another, each to itself again. -/
theorem each_literals {vs : List Value} {ds : List Grammar.Expr} (h : List.Forall₂ Literal vs ds)
    {ns : List Node} (hns : ns.map (·.unplaced) = ds.map (·.tree)) {limit : Nat} (env : FrameId)
    (hlimit : depthEach vs ≤ limit) (s : Store) :
    ∃ ws s', (∀ next, Eval.each (eval limit env) ns next s = next ws s') ∧
      anonymousEach ws = anonymousEach vs := by
  induction h generalizing ns s with
  | nil =>
    obtain rfl := List.map_eq_nil_iff.mp hns
    exact ⟨[], s, fun _ => rfl, rfl⟩
  | @cons v d vs ds hv _ ih =>
    obtain ⟨n, ns, rfl, hn, hns⟩ := List.map_eq_cons_iff.mp hns
    rw [depthEach] at hlimit
    obtain ⟨w, s₁, heval, hw⟩ := hv.value n hn limit env s (by omega)
    obtain ⟨ws, s₂, heach, hws⟩ := ih hns (by omega) s₁
    refine ⟨w :: ws, s₂, fun next => ?_, by rw [anonymousEach, anonymousEach, hw, hws]⟩
    rw [Eval.each, Eval.unlessError_next heval (quiet_of_anonymous hv.data hw).1]
    exact heach _

theorem key?_of_anonymous {k : Key} {w : Value} (h : w.anonymous = (ofKey k).anonymous) :
    w.key? = some k := by
  cases k <;> cases w <;> simp_all [anonymous, ofKey, key?]

theorem depth_ofKey (k : Key) : (ofKey k).depth = 2 := by
  cases k <;> rfl

theorem two_le_depthEntries (es : List (Key × Value)) : 2 ≤ depthEntries es := by
  induction es with
  | nil => exact Nat.le_refl 2
  | cons e es ih =>
    rw [depthEntries]
    omega

/-- Keys and values are evaluated in turn, each to itself again. -/
theorem yieldsPairs_literals {es : List (Key × Value)} {ds : List (Grammar.Expr × Grammar.Expr)}
    (h : List.Forall₂ (fun e d => Literal (ofKey e.1) d.1 ∧ Literal e.2 d.2) es ds)
    {ns : List (Node × Node)}
    (hns : ns.map (fun n => (n.1.unplaced, n.2.unplaced)) = ds.map fun d => (d.1.tree, d.2.tree))
    {limit : Nat} (env : FrameId) (hlimit : depthEntries es ≤ limit) (s : Store) :
    ∃ pairs s', YieldsPairs (eval limit env) s ns pairs s' ∧
      anonymousEntries pairs = anonymousEntries es := by
  induction h generalizing ns s with
  | nil =>
    obtain rfl := List.map_eq_nil_iff.mp hns
    exact ⟨[], s, .nil, rfl⟩
  | @cons e d es ds hkv _ ih =>
    obtain ⟨⟨k, v⟩, ns, rfl, hn, hns⟩ := List.map_eq_cons_iff.mp hns
    obtain ⟨hk, hv⟩ := Prod.mk.inj hn
    rw [depthEntries] at hlimit
    have htwo : (ofKey e.1).depth ≤ limit := by
      have := two_le_depthEntries es
      rw [depth_ofKey]
      omega
    obtain ⟨kw, s₁, hkeval, hkw⟩ := hkv.1.value k hk limit env s htwo
    obtain ⟨w, s₂, heval, hw⟩ := hkv.2.value v hv limit env s₁ (by omega)
    obtain ⟨pairs, s₃, hpairs, hanon⟩ := ih hns (by omega) s₂
    refine ⟨(e.1, w) :: pairs, s₃, .cons hkeval (key?_of_anonymous hkw) heval
      (quiet_of_anonymous hkv.2.data hw).1 hpairs, ?_⟩
    rw [anonymousEntries, anonymousEntries, hw, hanon]

theorem isDataEach_iff {vs : List Value} : IsDataEach vs ↔ ∀ v ∈ vs, v.IsData := by
  induction vs with
  | nil => simp [IsDataEach]
  | cons v vs ih => simp [IsDataEach, ih]

theorem isDataEntries_iff {es : List (Key × Value)} :
    IsDataEntries es ↔ ∀ e ∈ es, e.1.IsData ∧ e.2.IsData := by
  induction es with
  | nil => simp [IsDataEntries]
  | cons e es ih =>
    obtain ⟨k, v⟩ := e
    simp [IsDataEntries, ih, and_assoc]

theorem literal_array {vs : List Value} {ds : List Grammar.Expr} (id : Nat)
    (hdata : (array id vs).IsData) (h : List.Forall₂ Literal vs ds) :
    Literal (array id vs) (.array (.loose .lbracket "[") (.ofList ds) (.loose .rbracket "]")) where
  data := hdata
  valid := Grammar.Items.valid_ofList (forall_of_forall₂ h fun _ _ hd => hd.valid)
  tokens := by
    have htokens := map_eq_map_of_forall₂ (h.imp fun _ _ hd => hd.tokens)
    rw [Value.tokens, Grammar.Expr.tokens, Grammar.Items.tokens_ofList, htokens,
      tokensEach_eq_map]
    rfl
  value n hn limit env s hlimit := by
    rw [Grammar.Expr.tree, Grammar.Items.trees_ofList] at hn
    obtain ⟨t, ns, rfl, hns⟩ :
        ∃ t ns, n = .array t ns ∧ ns.map (·.unplaced) = ds.map (·.tree) := by
      cases n <;> simp_all [Node.unplaced, Node.unplacedEach_eq_map]
    rw [depth] at hlimit
    obtain ⟨limit, rfl⟩ := Nat.exists_eq_add_of_le' (show 1 ≤ limit by omega)
    obtain ⟨ws, s', heach, hws⟩ := each_literals h hns env (Nat.le_of_succ_le_succ hlimit) s
    exact ⟨.array s'.nextId ws, s'.takeId.2, heach _, by rw [anonymous, anonymous, hws]⟩

theorem literal_hash {es : List (Key × Value)} {ds : List (Grammar.Expr × Grammar.Expr)} (id : Nat)
    (hdata : (hash id es).IsData)
    (h : List.Forall₂ (fun e d => Literal (ofKey e.1) d.1 ∧ Literal e.2 d.2) es ds) :
    Literal (hash id es) (.hash (.loose .lbrace "\x7b") (.ofList ds) (.loose .rbrace "\x7d")) where
  data := hdata
  valid := Grammar.Entries.valid_ofList
    (forall_of_forall₂ h fun _ _ hd => ⟨hd.1.valid, hd.2.valid⟩)
  tokens := by
    have htokens : ds.map Grammar.entryTokens =
        es.map fun e => e.1.tokens ++ Grammar.colon :: e.2.tokens := by
      refine map_eq_map_of_forall₂ (h.imp fun e d hd => ?_)
      have hkey : (ofKey e.1).tokens = e.1.tokens := by
        cases e.1 <;> rfl
      rw [Grammar.entryTokens, hd.1.tokens, hd.2.tokens, hkey]
    rw [Value.tokens, Grammar.Expr.tokens, Grammar.Entries.tokens_ofList, htokens,
      tokensEntries_eq_map]
    rfl
  value n hn limit env s hlimit := by
    rw [Grammar.Expr.tree, Grammar.Entries.trees_ofList] at hn
    obtain ⟨t, ns, rfl, hns⟩ : ∃ t ns, n = .hash t ns ∧
        ns.map (fun n => (n.1.unplaced, n.2.unplaced)) = ds.map fun d => (d.1.tree, d.2.tree) := by
      cases n <;> simp_all [Node.unplaced, Node.unplacedPairs_eq_map]
    rw [depth] at hlimit
    obtain ⟨limit, rfl⟩ := Nat.exists_eq_add_of_le' (show 1 ≤ limit by omega)
    obtain ⟨pairs, s', hpairs, hanon⟩ :=
      yieldsPairs_literals h hns env (Nat.le_of_succ_le_succ hlimit) s
    have hslots : pairs.map (·.1.slot) = es.map (·.1.slot) := by
      have := congrArg (List.map (·.1.slot)) hanon
      rwa [anonymousEntries_eq_map, anonymousEntries_eq_map, List.map_map, List.map_map] at this
    have hkept : tabulate (·.1.slot) pairs = pairs := by
      rw [IsData, ← hslots] at hdata
      exact tabulate_of_nodup _ hdata.2
    refine ⟨.hash s'.nextId (tabulate (·.1.slot) pairs), s'.takeId.2, hpairs.eachEntry _, ?_⟩
    rw [hkept, anonymous, anonymous, hanon]

theorem literal_key {k : Key} (h : k.IsData) (hleast : k ≠ .integer Word.least) :
    ∃ d, Literal (ofKey k) d := by
  cases k with
  | integer n => exact literal_integer h fun hn => hleast (by rw [hn])
  | boolean b => exact literal_boolean b
  | string s => exact h.elim

mutual

/-- Data without the least word has a literal. -/
theorem exists_literal : ∀ {v : Value}, v.IsData → ¬v.Mentions Word.least → ∃ d, Literal v d
  | integer n, h, hleast => by
    rw [IsData] at h
    exact literal_integer h (mt mentions_integer.mpr hleast)
  | boolean b, _, _ => literal_boolean b
  | array id vs, h, hleast => by
    have heach := h
    rw [IsData] at heach
    obtain ⟨ds, hds⟩ := exists_literals heach fun v hv hm =>
      hleast (mentions_array.mpr ⟨v, hv, hm⟩)
    exact ⟨_, literal_array id h hds⟩
  | hash id es, h, hleast => by
    have hentries := h
    rw [IsData] at hentries
    obtain ⟨ds, hds⟩ := exists_literalEntries hentries.1 fun e he hm =>
      hleast (mentions_hash.mpr ⟨e, he, hm⟩)
    exact ⟨_, literal_hash id h hds⟩
  | string _, h, _ | null, h, _ | function _ _ _ _, h, _ | builtin _, h, _
  | registered _ _ _, h, _ | error _ _, h, _ | returned _ _, h, _ => by
    simp only [IsData] at h

theorem exists_literals : ∀ {vs : List Value}, IsDataEach vs →
    (∀ v ∈ vs, ¬v.Mentions Word.least) → ∃ ds, List.Forall₂ Literal vs ds
  | [], _, _ => ⟨[], .nil⟩
  | v :: vs, h, hleast => by
    rw [IsDataEach] at h
    obtain ⟨hv, hvs⟩ := List.forall_mem_cons.mp hleast
    obtain ⟨d, hd⟩ := exists_literal h.1 hv
    obtain ⟨ds, hds⟩ := exists_literals h.2 hvs
    exact ⟨d :: ds, .cons hd hds⟩

theorem exists_literalEntries : ∀ {es : List (Key × Value)}, IsDataEntries es →
    (∀ e ∈ es, ¬(e.1 = .integer Word.least ∨ e.2.Mentions Word.least)) →
    ∃ ds : List (Grammar.Expr × Grammar.Expr),
      List.Forall₂ (fun e d => Literal (ofKey e.1) d.1 ∧ Literal e.2 d.2) es ds
  | [], _, _ => ⟨[], .nil⟩
  | (k, v) :: es, h, hleast => by
    rw [IsDataEntries] at h
    obtain ⟨hk, hv, hes⟩ := h
    obtain ⟨hhead, htail⟩ := List.forall_mem_cons.mp hleast
    obtain ⟨hkey, hvalue⟩ := not_or.mp hhead
    obtain ⟨key, hkey⟩ := literal_key hk hkey
    obtain ⟨d, hd⟩ := exists_literal hv hvalue
    obtain ⟨ds, hds⟩ := exists_literalEntries hes htail
    exact ⟨(key, d) :: ds, .cons ⟨hkey, hd⟩ hds⟩

end

/-! ## The least word -/

theorem subset_intercalate {tss : List (List Token)} {ts : List Token} (h : ts ∈ tss) :
    ts ⊆ [Lexer.comma].intercalate tss := by
  induction tss with
  | nil => cases h
  | cons us tss ih =>
    cases tss with
    | nil =>
      rw [List.mem_singleton.mp h, List.intercalate_singleton]
      exact List.Subset.refl _
    | cons vs tss =>
      rw [List.intercalate_cons_cons]
      rcases List.mem_cons.mp h with rfl | h
      · exact List.subset_append_of_subset_left _ (List.subset_append_left _ _)
      · exact List.subset_append_of_subset_right _ (ih h)

/-- What data holds is data, and its tokens are among those of the whole. -/
theorem data_of_stores {v x : Value} (hv : v.IsData) (h : v.Stores x) :
    x.IsData ∧ x.tokens ⊆ v.tokens := by
  cases h with
  | @element id vs x hmem =>
    rw [IsData, isDataEach_iff] at hv
    have hsub := subset_intercalate (List.mem_map_of_mem (f := tokens) hmem)
    rw [tokens.eq_3, tokensEach_eq_map]
    exact ⟨hv x hmem, fun t ht => List.mem_cons_of_mem _ (List.mem_append_left _ (hsub ht))⟩
  | @entry id es e hmem =>
    rw [IsData, isDataEntries_iff] at hv
    have hsub := subset_intercalate
      (List.mem_map_of_mem (f := fun e => e.1.tokens ++ Grammar.colon :: e.2.tokens) hmem)
    rw [tokens.eq_4, tokensEntries_eq_map]
    refine ⟨(hv.1 e hmem).2, fun t ht => List.mem_cons_of_mem _ (List.mem_append_left _ (hsub ?_))⟩
    exact List.mem_append_right _ (List.mem_cons_of_mem _ ht)
  | result => simp only [IsData] at hv

theorem data_of_part {u v : Value} (hv : v.IsData) (h : u.Part v) :
    u.IsData ∧ u.tokens ⊆ v.tokens := by
  induction h with
  | self => exact ⟨hv, List.Subset.refl _⟩
  | stored hx _ ih =>
    obtain ⟨hdata, hsub⟩ := data_of_stores hv hx
    exact ⟨(ih hdata).1, List.Subset.trans (ih hdata).2 hsub⟩
  | marked => simp only [IsData] at hv

def leastNumeral : Token := .loose .int "9223372036854775808"

theorem not_coverable_leastNumeral : ¬Grammar.Coverable leastNumeral := by
  intro h
  exact absurd (h.fits rfl) (by decide)

theorem mem_tokens_of_mentions {v : Value} (hv : v.IsData) (h : v.Mentions Word.least) :
    leastNumeral ∈ v.tokens := by
  have hleast : leastNumeral ∈ integerTokens Word.least := by decide
  obtain ⟨u, hu, hshows⟩ := h
  obtain ⟨hdata, hsub⟩ := data_of_part hv hu
  refine hsub ?_
  cases hshows with
  | integer => exact hleast
  | key hmem =>
    have hentry := subset_intercalate
      (List.mem_map_of_mem (f := fun e => e.1.tokens ++ Grammar.colon :: e.2.tokens) hmem)
    rw [tokens, tokensEntries_eq_map]
    exact List.mem_cons_of_mem _ (List.mem_append_left _ (hentry (List.mem_append_left _ hleast)))
  | literal => simp only [IsData] at hdata

/-- The text of data in which the least word occurs is no program. -/
theorem not_isClean_of_mentions {v : Value} (hv : v.IsData) (h : v.Mentions Word.least) :
    (Program.ofSource v.inspect).isClean = false := by
  by_contra hclean
  rw [Bool.not_eq_false] at hclean
  obtain ⟨ss, stop, -, -, htokens⟩ := Grammar.exists_statements hclean
  obtain ⟨hbody, -⟩ := List.append_inj' (htokens.symm.trans (spells_inspect hv).whole) rfl
  have hmem := mem_tokens_of_mentions hv h
  rw [← hbody] at hmem
  exact not_coverable_leastNumeral (ss.covered _ hmem)

/-- The text of data without the least word is a program of one literal. -/
theorem Literal.read {v : Value} {d : Grammar.Expr} (h : Literal v d) :
    (Program.ofSource v.inspect).isClean = true ∧
      ∃ t t' n, (Program.ofSource v.inspect).node = .program t [.exprStmt t' n] ∧
        n.unplaced = d.tree := by
  let ss : Grammar.Statements := .next (.expression d none) .done
  have hspells : Lexer.Spells v.inspect.toList ss.tokens := by
    have htokens : ss.tokens = v.tokens := by
      rw [← h.tokens]
      simp [ss, Grammar.Statements.tokens, Grammar.Statement.tokens, Grammar.ending]
    rw [htokens]
    exact spells_inspect h.data
  have hvalid : ss.Valid := ⟨h.valid, fun _ => rfl, trivial⟩
  obtain ⟨hclean, htrees⟩ := Grammar.Statements.read_source hvalid rfl hspells.whole
  obtain ⟨stmt, hstatements, hstmt⟩ := List.map_eq_singleton_iff.mp htrees
  refine ⟨hclean, (Program.ofSource v.inspect).token, ?_⟩
  cases stmt with
  | exprStmt t n =>
    rw [Node.unplaced, Grammar.Statement.tree, Node.exprStmt.injEq] at hstmt
    exact ⟨t, n, by rw [Program.node, hstatements], hstmt.2⟩
  | _ => simp [Node.unplaced, Grammar.Statement.tree] at hstmt

/-- The program of the literal comes to the data. -/
theorem Literal.run {v : Value} {d : Grammar.Expr} (h : Literal v d) {limit : Nat} (env : FrameId)
    (s : Store) (hlimit : v.depth + 2 ≤ limit) :
    ∃ w s', eval limit env (Program.ofSource v.inspect).node s = .ok w s' ∧
      w.anonymous = v.anonymous := by
  obtain ⟨-, t, t', n, hnode, hn⟩ := h.read
  obtain ⟨limit, rfl⟩ := Nat.exists_eq_add_of_le' (Nat.le_trans (Nat.le_add_left 2 _) hlimit)
  obtain ⟨w, s', heval, hw⟩ := h.value n hn limit env s (Nat.le_of_add_le_add_right hlimit)
  refine ⟨w, s', ?_, hw⟩
  have hstatement : eval (limit + 1) env (.exprStmt t' n) s = .ok w s' := heval
  rw [hnode]
  show EStateM.map Value.unwrap (Eval.sequence (eval (limit + 1) env) .null _) s = _
  simp only [EStateM.map, Eval.sequence_singleton hstatement,
    Value.unwrap_of_isReturned (quiet_of_anonymous h.data hw).2]

end Value

open Value in
/-- Printed data evaluates back to itself, except for one number. If the least word occurs nowhere
in it, the text of data is a clean program that comes to the same data, whatever was bound and
printed before and whatever identities are new; it takes two more levels of nesting than the data
has. If the least word occurs in it, the program is refused. -/
theorem run_inspect {v : Value} (hdata : v.IsData) :
    (¬v.Mentions Word.least →
      (Program.ofSource v.inspect).isClean = true ∧
      (∀ (limit : Nat) (env : FrameId) (s : Store), v.depth + 2 ≤ limit →
        ∃ w s', eval limit env (Program.ofSource v.inspect).node s = .ok w s' ∧
          w.anonymous = v.anonymous) ∧
      ∀ s : Session, v.depth + 2 ≤ Session.nestingLimit →
        ∃ w, (s.run v.inspect).1 = .value w ∧ w.anonymous = v.anonymous) ∧
    (v.Mentions Word.least →
      ∃ errors, errors ≠ [] ∧ ∀ s : Session, s.run v.inspect = (.refused errors, s)) := by
  constructor
  · intro hleast
    obtain ⟨d, hd⟩ := exists_literal hdata hleast
    refine ⟨hd.read.1, fun limit env s => hd.run env s, fun s hlimit => ?_⟩
    obtain ⟨w, s', heval, hw⟩ := hd.run s.env s.store hlimit
    exact ⟨w, congrArg Prod.fst (Session.runWithin_of_eval hd.read.1 heval), hw⟩
  · intro hleast
    have hclean := not_isClean_of_mentions hdata hleast
    refine ⟨(Program.ofSource v.inspect).errors, fun hnil => ?_, fun s =>
      Session.runWithin_of_not_isClean hclean _ s⟩
    rw [Program.errors, List.map_eq_nil_iff] at hnil
    rw [Program.isClean, hnil] at hclean
    cases hclean

def nested : Value :=
  .hash 0 [(.integer (-5), .array 1 [.boolean true, .integer 7]), (.boolean false, .array 2 [])]

theorem isData_nested : nested.IsData := by
  simp [nested, Value.IsData, Value.IsDataEntries, Value.IsDataEach, Value.Key.IsData,
    Value.Key.slot, Word.InRange, Word.least, Word.greatest]

theorem not_mentions_nested : ¬nested.Mentions Word.least := by
  simp [nested, Value.mentions_hash, Value.mentions_array, Value.mentions_integer,
    Value.mentions_boolean, Word.least]

def lowest : Value := .array 0 [.integer Word.least]

theorem isData_lowest : lowest.IsData := by
  simp [lowest, Value.IsData, Value.IsDataEach, Word.InRange, Word.least, Word.greatest]

theorem mentions_lowest : lowest.Mentions Word.least := by
  simp [lowest, Value.mentions_array, Value.mentions_integer]

theorem run_inspect_nested :
    nested.IsData ∧ ¬nested.Mentions Word.least ∧
      nested.inspect = "\x7b-5: [true, 7], false: []\x7d" ∧
      (Program.ofSource nested.inspect).isClean = true ∧
      (∀ (limit : Nat) (env : FrameId) (s : Store), nested.depth + 2 ≤ limit →
        ∃ w s', eval limit env (Program.ofSource nested.inspect).node s = .ok w s' ∧
          w.anonymous = nested.anonymous) ∧
      (∀ s : Session, nested.depth + 2 ≤ Session.nestingLimit →
        ∃ w, (s.run nested.inspect).1 = .value w ∧ w.anonymous = nested.anonymous) ∧
      lowest.IsData ∧ lowest.Mentions Word.least ∧ lowest.inspect = "[-9223372036854775808]" ∧
      ∃ errors, errors ≠ [] ∧ ∀ s : Session, s.run lowest.inspect = (.refused errors, s) := by
  obtain ⟨hclean, heval, hrun⟩ := (run_inspect isData_nested).1 not_mentions_nested
  exact ⟨isData_nested, not_mentions_nested, by decide, hclean, heval, hrun, isData_lowest,
    mentions_lowest, by decide, (run_inspect isData_lowest).2 mentions_lowest⟩

end MonkeyLang
