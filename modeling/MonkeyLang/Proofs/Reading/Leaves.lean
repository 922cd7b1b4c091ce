import MonkeyLang.Proofs.Grammar.Acceptance
import MonkeyLang.Proofs.Reading.Tree

/-!
The leaves of what is read. Whatever is broken in a token list, the leaves of its tree are tokens of
the list, in their order and none of them twice; if nothing is reported, none is left out.
-/

namespace MonkeyLang

open Token (Kind)

namespace Node

def isLeaf : Node → Bool
  | identifier _ | integer _ _ | string _ _ | boolean _ _ => true
  | _ => false

def leaves (n : Node) : List Node := n.walk.filter isLeaf

theorem flatMap_walk_filter_isLeaf (ns : List Node) :
    (ns.flatMap walk).filter isLeaf = ns.flatMap leaves := by
  rw [List.filter_flatMap]
  rfl

/-- The leaves of a node are its own, if it is one, and else those of its parts. -/
theorem leaves_eq (n : Node) : n.leaves = match n with
    | absent => []
    | identifier _ | integer _ _ | string _ _ | boolean _ _ => [n]
    | array _ elements => elements.flatMap leaves
    | hash _ pairs => pairs.flatMap fun p => p.1.leaves ++ p.2.leaves
    | unary _ _ right => right.leaves
    | binary _ left _ right => left.leaves ++ right.leaves
    | index _ left i => left.leaves ++ i.leaves
    | ifElse _ condition consequence alternative =>
      condition.leaves ++ consequence.leaves ++ alternative.leaves
    | function _ parameters body => parameters.map identifier ++ body.leaves
    | call _ callee arguments => callee.leaves ++ arguments.flatMap leaves
    | letStmt _ name value => (name.map identifier).toList ++ value.leaves
    | returnStmt _ value => value.leaves
    | exprStmt _ expression => expression.leaves
    | block _ statements | program _ statements => statements.flatMap leaves := by
  have hnames : ∀ ids : List Identifier,
      (ids.map identifier).filter isLeaf = ids.map identifier := fun ids => by
    rw [List.filter_eq_self]
    intro n hn
    obtain ⟨id, -, rfl⟩ := List.mem_map.mp hn
    rfl
  cases n with
  | letStmt t name value =>
    rw [leaves, walk, List.filter_cons_of_neg (by simp [isLeaf]), List.filter_append]
    cases name <;> rfl
  | function t parameters body => simp [leaves, walk, isLeaf, hnames]
  | hash t pairs => simp [leaves, walk, isLeaf, walkPairs_eq_flatMap, List.filter_flatMap]
  | _ => simp [leaves, walk, isLeaf, walkEach_eq_flatMap, flatMap_walk_filter_isLeaf]

end Node

/-! ## Tokens that leaves are read from -/

def Token.Kind.isOperand (k : Kind) : Bool :=
  k matches .ident | .int | .string | .kwTrue | .kwFalse

def operandsOf (ts : List Token) : List Token := ts.filter (·.kind.isOperand)

theorem operandsOf_cons_of_pos {t : Token} {ts : List Token} (h : t.kind.isOperand = true) :
    operandsOf (t :: ts) = t :: operandsOf ts :=
  List.filter_cons_of_pos h

theorem operandsOf_cons_of_neg {t : Token} {ts : List Token} (h : t.kind.isOperand = false) :
    operandsOf (t :: ts) = operandsOf ts :=
  List.filter_cons_of_neg (by simp [h])

theorem isOperand_of_rank {k : Kind} {m : Precedence} (h : ¬k.precedence.rank ≤ m.rank) :
    k.isOperand = false := by
  revert h
  cases k <;> simp [Kind.precedence, Precedence.rank, Kind.isOperand]

namespace Cursor

/-- The tokens from the current one on; an end that is current counts as none. -/
def upcoming (c : Cursor) : List Token := if c.cur.kind = .eof then c.rest else c.cur :: c.rest

theorem upcoming_of_ne_eof {c : Cursor} (h : c.cur.kind ≠ .eof) : c.upcoming = c.cur :: c.rest :=
  if_neg h

theorem rest_sublist_upcoming (c : Cursor) : c.rest.Sublist c.upcoming := by
  unfold upcoming
  split
  · exact List.Sublist.refl _
  · exact List.sublist_cons_self _ _

theorem upcoming_sublist (c : Cursor) : c.upcoming.Sublist (c.cur :: c.rest) := by
  unfold upcoming
  split
  · exact List.sublist_cons_self _ _
  · exact List.Sublist.refl _

theorem upcoming_ofTokens_sublist (tokens : List Token) :
    (ofTokens tokens).upcoming.Sublist tokens := by
  cases tokens with
  | nil => exact List.Sublist.refl _
  | cons t ts => exact upcoming_sublist _

theorem upcoming_advance_sublist (c : Cursor) : c.advance.upcoming.Sublist c.rest := by
  obtain ⟨cur, rest⟩ := c
  cases rest with
  | nil => exact List.Sublist.refl _
  | cons t ts => exact upcoming_sublist _

theorem operandsOf_upcoming (c : Cursor) :
    operandsOf c.upcoming = operandsOf (c.cur :: c.rest) := by
  unfold upcoming
  split
  · rename_i heof
    exact (operandsOf_cons_of_neg (by rw [heof]; rfl)).symm
  · rfl

theorem operandsOf_upcoming_ofTokens (tokens : List Token) :
    operandsOf (ofTokens tokens).upcoming = operandsOf tokens := by
  rw [operandsOf_upcoming]
  cases tokens <;> rfl

theorem operandsOf_upcoming_advance (c : Cursor) :
    operandsOf c.advance.upcoming = operandsOf c.rest := by
  rw [operandsOf_upcoming]
  obtain ⟨cur, rest⟩ := c
  cases rest <;> rfl

end Cursor

namespace Phrase

/-- The leaf says what its token does, by its form and by its value. -/
inductive Faithful : Node → Prop
  | leaf {t : Token} {n : Node} : Leaf t n → Faithful n
  | integer {t : Token} {value : Int} : t.kind = .int →
      Numeral.read? t.literal.toList = some value → Faithful (.integer t value)

/-- Of the tokens `ts`, those that the leaves stand for were taken, in this order, and `us` are left
behind them. If nothing was reported, no other was dropped that could stand for one. -/
structure Draws (leaves : List Node) (reports : List Diagnostic) (ts us : List Token) : Prop where
  faithful : ∀ n ∈ leaves, Faithful n
  sublist : (leaves.map (·.token) ++ us).Sublist ts
  complete : reports = [] → leaves.map (·.token) ++ operandsOf us = operandsOf ts

namespace Draws

variable {ls ls' : List Node} {rs rs' qs : List Diagnostic} {ts us vs : List Token} {c : Cursor}

theorem refl (rs : List Diagnostic) (ts : List Token) : Draws [] rs ts ts where
  faithful := nofun
  sublist := List.Sublist.refl _
  complete _ := rfl

/-- What is drawn in turn, where the reports of both are among those of the whole. -/
theorem trans (h : Draws ls rs ts us) (h' : Draws ls' rs' us vs)
    (hreports : qs = [] → rs = [] ∧ rs' = []) : Draws (ls ++ ls') qs ts vs where
  faithful := List.forall_mem_append.mpr ⟨h.faithful, h'.faithful⟩
  sublist := by
    rw [List.map_append, List.append_assoc]
    exact (h'.sublist.append_left _).trans h.sublist
  complete hq := by
    obtain ⟨hrs, hrs'⟩ := hreports hq
    rw [List.map_append, List.append_assoc, h'.complete hrs', h.complete hrs]

theorem append (h : Draws ls rs ts us) (h' : Draws ls' rs' us vs) :
    Draws (ls ++ ls') (rs ++ rs') ts vs :=
  h.trans h' List.append_eq_nil_iff.mp

theorem behind (h : Draws [] [] ts us) (h' : Draws ls rs us vs) : Draws ls rs ts vs :=
  h.append h'

/-- More tokens that stand for nothing. -/
theorem pass (h : Draws ls rs ts us) (h' : Draws [] rs us vs) : Draws ls rs ts vs := by
  have hboth := h.trans h' fun hrs => ⟨hrs, hrs⟩
  rwa [List.append_nil] at hboth

/-- More may be reported. -/
theorem report (h : Draws ls rs ts us) (qs : List Diagnostic) : Draws ls (rs ++ qs) ts us where
  faithful := h.faithful
  sublist := h.sublist
  complete hnil := h.complete (List.append_eq_nil_iff.mp hnil).1

/-- Leaves that come to nothing; that has to be reported. -/
theorem lose (h : Draws ls rs ts us) (hqs : qs ≠ []) : Draws [] qs ts us where
  faithful := nofun
  sublist := (List.sublist_append_right _ _).trans h.sublist
  complete hnil := absurd hnil hqs

theorem of_leaf {n : Node} (h : Faithful n) (htoken : n.token = c.cur)
    (hk : c.cur.kind.isOperand = true) : Draws [n] rs c.upcoming c.rest where
  faithful := List.forall_mem_singleton.mpr h
  sublist := by
    have hreal : c.cur.kind ≠ .eof := fun heof => by
      rw [heof] at hk
      cases hk
    rw [Cursor.upcoming_of_ne_eof hreal, List.map_singleton, htoken]
    exact List.Sublist.refl _
  complete _ := by
    rw [Cursor.operandsOf_upcoming, operandsOf_cons_of_pos hk, List.map_singleton, htoken]
    rfl

/-- A token that stands for no leaf is passed over. -/
theorem silent (hk : c.cur.kind.isOperand = false) : Draws [] rs c.upcoming c.rest where
  faithful := nofun
  sublist := c.rest_sublist_upcoming
  complete _ := by
    rw [Cursor.operandsOf_upcoming, operandsOf_cons_of_neg hk]
    rfl

theorem step (c : Cursor) : Draws [] rs c.rest c.advance.upcoming where
  faithful := nofun
  sublist := c.upcoming_advance_sublist
  complete _ := c.operandsOf_upcoming_advance

/-- The next token is passed over. -/
theorem next (hk : c.peek.kind.isOperand = false) : Draws [] rs c.rest c.advance.rest :=
  (step c).pass (silent hk)

theorem skip (c : Cursor) : Draws [] rs c.rest (c.skip .semicolon).rest := by
  unfold Cursor.skip
  split
  · rename_i hk
    exact next (by rw [hk]; rfl)
  · exact refl rs c.rest

/-- What is reported may drop tokens. -/
theorem drop (hsublist : us.Sublist ts) (hrs : rs ≠ []) : Draws [] rs ts us where
  faithful := nofun
  sublist := hsublist
  complete hnil := absurd hnil hrs

theorem recover (c : Cursor) (depth : Nat) (rs : List Diagnostic) :
    Draws [] rs c.rest (c.recover depth rs).rest := by
  have hsynchronize : c.synchronize.rest.Sublist c.rest :=
    holds_synchronize (C := fun k => k.rest.Sublist c.rest)
      (fun k hk => (List.tail_sublist k.rest).trans hk) (List.Sublist.refl _)
  unfold Cursor.recover
  split
  · -- tokens are skipped only where something was reported
    rename_i hlast
    refine drop hsynchronize ?_
    rintro rfl
    cases hlast
  · exact refl rs c.rest

end Draws

/-- What is drawn by a result and by what was read before it, with the reports `rs`; `f` finds the
leaves of a value. -/
def Drawn {α : Type} (f : α → List Node) (rs : List Diagnostic) (ts : List Token)
    (r : α × List Diagnostic × Cursor) : Prop :=
  Draws (f r.1) (rs ++ r.2.1) ts r.2.2.rest

/-- What is drawn by a list that may be broken, which has to be reported. -/
def DrawnList {α : Type} (f : α → List Node) (ts : List Token)
    (r : Option (List α) × List Diagnostic × Cursor) : Prop :=
  Drawn (fun o => (o.getD []).flatMap f) [] ts r ∧ (r.1 = none → r.2.1 ≠ [])

def Closes (depth : Nat) (c : Cursor) : Prop :=
  c.cur.kind = .eof ∨ (c.cur.kind = .rbrace ∧ 0 < depth)

def entryLeaves (pair : Node × Node) : List Node := pair.1.leaves ++ pair.2.leaves

/-- Each phrase draws its leaves from the tokens that it takes up. An operator adds to what its left
operand has drawn. Statements go on up to what closes them. -/
def drawing : Property where
  statements depth c :=
    Drawn (·.flatMap Node.leaves) [] c.upcoming (statements depth c).result ∧
      Closes depth (statements depth c).stop
  statement depth c :=
    Drawn (fun o => o.toList.flatMap Node.leaves) [] c.upcoming (statement depth c).result
  block depth c := Drawn Node.leaves [] c.rest (block depth c).result
  expression depth m c := Drawn Node.leaves [] c.upcoming (expression depth m c).result
  operators depth m c left := ∀ rs ts, Draws left.leaves rs ts c.rest →
    Drawn Node.leaves rs ts (operators depth m c left).result
  application depth c left := ∀ rs ts, Draws left.leaves rs ts c.rest →
    Drawn Node.leaves rs ts (application depth c left).result
  items depth close c :=
    close.isOperand = false → DrawnList Node.leaves c.rest (items depth close c).result
  moreItems depth close c :=
    close.isOperand = false → DrawnList Node.leaves c.rest (moreItems depth close c).result
  pairs depth c := DrawnList entryLeaves c.rest (pairs depth c).result
  operand depth c := Drawn Node.leaves [] c.upcoming (operand depth c).result

section Rules

variable {α : Type} {f : α → List Node} {depth : Nat} {c e : Cursor} {rs : List Diagnostic}
  {ts : List Token}

theorem drawn_result {p : Phrase c α} :
    Drawn f rs ts p.result ↔ Draws (f p.value) (rs ++ p.reports) ts p.stop.rest :=
  Iff.rfl

theorem drawn_mk {v : α} {qs : List Diagnostic} :
    Drawn f rs ts (v, qs, e) ↔ Draws (f v) (rs ++ qs) ts e.rest :=
  Iff.rfl

/-- A phrase and the token that closes it. -/
theorem closed_drawn {p : Phrase c α} {k : Kind} {n : Node} (hk : k.isOperand = false)
    (h : Draws n.leaves (rs ++ p.reports) ts p.stop.rest) :
    Drawn Node.leaves rs ts (if p.stop.peek.kind = k then (n, p.reports, p.stop.advance)
      else (.absent, p.reports ++ [p.stop.unexpected depth k], p.stop)) := by
  split
  · rename_i hpeek
    exact h.pass (.next (by rw [hpeek, hk]))
  · exact h.lose (by simp)

/-! ### Lists -/

theorem drawnList_empty (h : c.peek.kind.isOperand = false) :
    DrawnList f c.rest (some [], [], c.advance) :=
  ⟨.next h, nofun⟩

/-- A list that is broken off where its elements end. -/
theorem drawnList_broken {d : Diagnostic} {ls : List Node} (rs : List Diagnostic)
    (h : Draws ls rs ts e.rest) :
    DrawnList f ts (none, rs ++ [d], e) :=
  ⟨h.lose (by simp), fun _ => by simp⟩

/-- A list with one more element in front of it. -/
theorem DrawnList.cons {p : Phrase c (Option (List α))} {a : α} (hp : DrawnList f e.rest p.result)
    (h : Draws (f a) rs ts e.rest) :
    DrawnList f ts (p.value.map (a :: ·), rs ++ p.reports, p.stop) := by
  obtain ⟨hdrawn, hbroken⟩ := hp
  have hboth := h.append (drawn_result.mp hdrawn)
  cases hvalue : p.value with
  | none =>
    have hmore : p.reports ≠ [] := hbroken hvalue
    have hreports : rs ++ p.reports ≠ [] := fun hnil => hmore (List.append_eq_nil_iff.mp hnil).2
    exact ⟨hboth.lose hreports, fun _ => hreports⟩
  | some items =>
    rw [hvalue] at hboth
    exact ⟨hboth, fun hnone => absurd hnone (Option.some_ne_none _)⟩

/-- A node that is made of the elements of a list, behind the leaves of what stands before it. -/
theorem DrawnList.node {p : Phrase c (Option (List α))} {make : List α → Node} {ls : List Node}
    (hp : DrawnList f e.rest p.result) (h : Draws ls rs ts e.rest)
    (hleaves : ∀ items, (make items).leaves = ls ++ items.flatMap f) :
    Drawn Node.leaves rs ts ((p.value.map make).getD .absent, p.reports, p.stop) := by
  obtain ⟨hdrawn, hbroken⟩ := hp
  have hboth := h.append (drawn_result.mp hdrawn)
  rw [drawn_mk]
  cases hvalue : p.value with
  | none =>
    have hreports : p.reports ≠ [] := hbroken hvalue
    exact hboth.lose (by simp [hreports])
  | some items =>
    rw [hvalue] at hboth
    rw [Option.map_some, Option.getD_some, hleaves]
    exact hboth

/-- A name is drawn from its token. -/
theorem draws_name (h : c.peek.kind = .ident) :
    Draws [.identifier ⟨c.peek, c.peek.literal⟩] [] c.rest c.advance.rest :=
  (Draws.step c).behind (.of_leaf (.leaf (.identifier h)) rfl (by rw [Cursor.cur_advance, h]; rfl))

theorem parameterNames_drawn (depth : Nat) (c : Cursor) :
    DrawnList (fun id => [.identifier id]) c.rest (parameterNames depth c).result := by
  rw [result_parameterNames]
  split
  · rename_i hname
    have hpos := Cursor.left_pos_of_peek hname (by decide)
    have hfirst := draws_name hname
    dsimp only
    split
    · rename_i hcomma
      exact (parameterNames_drawn depth c.advance.advance).cons
        (hfirst.pass (.next (by rw [hcomma]; rfl)))
    split
    · rename_i hparen
      exact ⟨hfirst.pass (.next (by rw [hparen]; rfl)), nofun⟩
    · exact drawnList_broken [] hfirst
  · exact drawnList_broken [] (.refl [] _)
termination_by c.left
decreasing_by
  simp only [Cursor.left_advance]
  omega

theorem parameters_drawn (depth : Nat) (c : Cursor) :
    DrawnList (fun id => [.identifier id]) c.rest (parameters depth c).result := by
  rw [result_parameters]
  split
  · rename_i hparen
    exact drawnList_empty (by rw [hparen]; rfl)
  · exact parameterNames_drawn depth c

theorem items_drawn {close : Kind} (hfirst : drawing.expression depth .lowest c.advance)
    (hmore : drawing.moreItems depth close (expression depth .lowest c.advance).stop) :
    drawing.items depth close c := by
  intro hclose
  rw [result_items]
  split
  · rename_i hpeek
    exact drawnList_empty (by rw [hpeek, hclose])
  · exact (hmore hclose).cons ((Draws.step c).behind (drawn_result.mp hfirst))

theorem moreItems_drawn {close : Kind}
    (hnext : drawing.expression depth .lowest c.advance.advance)
    (hmore : c.peek.kind = .comma →
      drawing.moreItems depth close (expression depth .lowest c.advance.advance).stop) :
    drawing.moreItems depth close c := by
  intro hclose
  rw [result_moreItems]
  split
  · rename_i hcomma
    have hread := ((Draws.next (by rw [hcomma]; rfl)).pass (.step _)).behind (drawn_result.mp hnext)
    exact (hmore hcomma hclose).cons hread
  split
  · rename_i hpeek
    exact drawnList_empty (by rw [hpeek, hclose])
  · exact drawnList_broken [] (.refl [] _)

theorem pairs_drawn (hkey : drawing.expression depth .lowest c.advance)
    (hvalue : drawing.expression depth .lowest
      (expression depth .lowest c.advance).stop.advance.advance)
    (hmore : (expression depth .lowest
        (expression depth .lowest c.advance).stop.advance.advance).stop.peek.kind = .comma →
      drawing.pairs depth (expression depth .lowest
        (expression depth .lowest c.advance).stop.advance.advance).stop.advance) :
    drawing.pairs depth c := by
  show DrawnList entryLeaves c.rest (pairs depth c).result
  rw [result_pairs]
  split
  · rename_i hbrace
    exact drawnList_empty (by rw [hbrace]; rfl)
  have hfirst := (Draws.step c).behind (drawn_result.mp hkey)
  generalize expression depth .lowest c.advance = p at *
  dsimp only
  split
  · exact drawnList_broken _ hfirst
  rename_i hcolon
  rw [Decidable.not_not] at hcolon
  have hsecond :=
    ((Draws.next (by rw [hcolon]; rfl)).pass (.step _)).behind (drawn_result.mp hvalue)
  have hentry := hfirst.append hsecond
  generalize expression depth .lowest p.stop.advance.advance = q at *
  split
  · rename_i hbrace
    refine ⟨?_, nofun⟩
    rw [drawn_mk, Option.getD_some, List.flatMap_singleton]
    exact hentry.pass (.next (by rw [hbrace]; rfl))
  split
  · rename_i hcomma
    exact (hmore hcomma).cons (hentry.pass (.next (by rw [hcomma]; rfl)))
  · exact drawnList_broken _ hentry

/-! ### Statements -/

theorem statements_drawn (hfirst : drawing.statement depth c)
    (hmore : drawing.statements depth
      ((statement depth c).stop.recover depth (statement depth c).reports).advance)
    (hopen : ¬Closes depth c) : drawing.statements depth c := by
  have hone : Draws ((statement depth c).value.toList.flatMap Node.leaves)
      (statement depth c).reports c.upcoming (statement depth c).stop.rest := hfirst
  have hboth := ((hone.pass (.recover _ depth _)).pass (.step _)).append hmore.1
  have hread := (result_statements depth c).trans (if_neg hopen)
  refine ⟨?_, ?_⟩
  · rw [hread, drawn_mk, List.flatMap_append]
    exact hboth
  · rw [stop_of_result hread]
    exact hmore.2

theorem statement_drawn (hvalue : drawing.expression depth .lowest c.advance.advance.advance)
    (hreturned : drawing.expression depth .lowest c.advance)
    (hplain : drawing.expression depth .lowest c) : drawing.statement depth c := by
  show Drawn (fun o => o.toList.flatMap Node.leaves) [] c.upcoming (statement depth c).result
  by_cases hlet : c.cur.kind = .kwLet
  · have hword : Draws [] [] c.upcoming c.rest := .silent (by rw [hlet]; rfl)
    rw [result_statement_let hlet]
    split
    · exact hword.lose (by simp)
    rename_i hname
    rw [Decidable.not_not] at hname
    have hbound := hword.behind (draws_name hname)
    split
    · exact hbound.lose (by simp)
    rename_i hequals
    rw [Decidable.not_not] at hequals
    have hsign := (hbound.pass (.next (by rw [hequals]; rfl))).pass (.step _)
    have hread := (hsign.append (drawn_result.mp hvalue)).pass (.skip _)
    rw [drawn_mk, Option.toList_some, List.flatMap_singleton, Node.leaves_eq]
    exact hread
  by_cases hreturn : c.cur.kind = .kwReturn
  · have hword : Draws [] [] c.upcoming c.rest := .silent (by rw [hreturn]; rfl)
    have hread := ((hword.pass (.step c)).behind (drawn_result.mp hreturned)).pass (.skip _)
    rw [result_statement_return hreturn, drawn_mk, Option.toList_some, List.flatMap_singleton,
      Node.leaves_eq]
    exact hread
  · have hread := (drawn_result.mp hplain).pass (.skip _)
    rw [result_statement_expression hlet hreturn, drawn_mk, Option.toList_some,
      List.flatMap_singleton, Node.leaves_eq]
    exact hread

theorem block_drawn (hbody : drawing.statements (depth + 1) c.advance) :
    drawing.block depth c := by
  show Drawn Node.leaves [] c.rest (block depth c).result
  have hread := (Draws.step c).behind (drawn_result.mp hbody.1)
  rw [result_block, drawn_mk, Node.leaves_eq]
  exact hread.report _

/-! ### Expressions -/

theorem expression_drawn {m : Precedence} (hfirst : drawing.operand depth c)
    (hmore : drawing.operators depth m (operand depth c).stop (operand depth c).value) :
    drawing.expression depth m c := by
  show Drawn Node.leaves [] c.upcoming (expression depth m c).result
  rw [result_expression]
  exact hmore _ _ (drawn_result.mp hfirst)

theorem operators_drawn {m : Precedence} {left : Node}
    (happlied : c.peek.kind ≠ .eof → drawing.application depth c.advance left)
    (hmore : c.peek.kind ≠ .eof → drawing.operators depth m
      (application depth c.advance left).stop (application depth c.advance left).value) :
    drawing.operators depth m c left := by
  intro rs ts h
  rw [result_operators]
  split
  · rw [drawn_mk, List.append_nil]
    exact h
  · rename_i hgo
    rw [not_or] at hgo
    have hreal : c.peek.kind ≠ .eof := fun heof =>
      hgo.2 (by rw [heof]; exact Nat.zero_le _)
    -- a token that binds as an operator stands for no leaf
    have happlied := happlied hreal rs ts (h.pass (.next (isOperand_of_rank hgo.2)))
    rw [drawn_mk, ← List.append_assoc]
    exact hmore hreal _ ts (drawn_result.mp happlied)

theorem application_drawn {left : Node} (hitems : drawing.items depth .rparen c)
    (hi : drawing.expression depth .lowest c.advance)
    (hright : drawing.expression depth c.cur.kind.precedence c.advance) :
    drawing.application depth c left := by
  intro rs ts h
  by_cases hparen : c.cur.kind = .lparen
  · rw [result_application_call hparen]
    exact (hitems rfl).node h fun args => Node.leaves_eq _
  have hbehind {m : Precedence} (hnext : drawing.expression depth m c.advance) :=
    h.append ((Draws.step c).behind (drawn_result.mp hnext))
  by_cases hbracket : c.cur.kind = .lbracket
  · rw [result_application_index hbracket]
    exact closed_drawn rfl (by rw [Node.leaves_eq]; exact hbehind hi)
  · rw [result_application_binary hparen hbracket, drawn_mk, Node.leaves_eq]
    exact hbehind hright

/-- Behind a token that stands for no leaf. -/
theorem draws_inner {m : Precedence} (hk : c.cur.kind.isOperand = false)
    (hnext : drawing.expression depth m c.advance) :
    Draws (expression depth m c.advance).value.leaves (expression depth m c.advance).reports
      c.upcoming (expression depth m c.advance).stop.rest :=
  ((Draws.silent hk).pass (.step c)).behind (drawn_result.mp hnext)

theorem integer_drawn (hk : c.cur.kind = .int) :
    Drawn Node.leaves [] c.upcoming (integer depth c).result := by
  rw [result_integer]
  split
  · rename_i value hread
    split
    · rw [drawn_mk, Node.leaves_eq]
      exact .of_leaf (.integer hk hread) rfl (by rw [hk]; rfl)
    · exact .drop c.rest_sublist_upcoming (by simp)
  · exact .drop c.rest_sublist_upcoming (by simp)

theorem leaf_drawn {n : Node} (h : Leaf c.cur n) : Drawn Node.leaves [] c.upcoming (n, [], c) := by
  have hleaf := h
  rw [drawn_mk]
  cases h with
  | identifier hk | string hk | truth hk | falsehood hk =>
    rw [Node.leaves_eq]
    exact .of_leaf (.leaf hleaf) rfl (by rw [hk]; rfl)

theorem function_drawn (hk : c.cur.kind = .kwFn)
    (hbody : drawing.block depth (parameters depth c.advance).stop.advance) :
    drawing.operand depth c := by
  show Drawn Node.leaves [] c.upcoming (operand depth c).result
  have hword : Draws [] [] c.upcoming c.rest := .silent (by rw [hk]; rfl)
  rw [result_operand_function hk]
  split
  · exact hword.lose (by simp)
  rename_i hparen
  rw [Decidable.not_not] at hparen
  have hopened := hword.pass (.next (by rw [hparen]; rfl))
  obtain ⟨hnames, hbroken⟩ := parameters_drawn depth c.advance
  have hlist := hopened.behind (drawn_result.mp hnames)
  generalize parameters depth c.advance = p at *
  dsimp only
  split
  · rename_i hnone
    exact hlist.lose (hbroken hnone)
  rename_i ps hsome
  split
  · exact hlist.lose (by simp)
  rename_i hbrace
  rw [Decidable.not_not] at hbrace
  have hread := (hlist.pass (.next (by rw [hbrace]; rfl))).append (drawn_result.mp hbody)
  rw [hsome, Option.getD_some, ← List.map_eq_flatMap] at hread
  rw [drawn_mk, Node.leaves_eq]
  exact hread

theorem if_drawn (hk : c.cur.kind = .kwIf)
    (hcondition : drawing.expression depth .lowest c.advance.advance)
    (hconsequence : drawing.block depth
      (expression depth .lowest c.advance.advance).stop.advance.advance)
    (halternative : drawing.block depth (block depth (expression depth .lowest
      c.advance.advance).stop.advance.advance).stop.advance.advance) :
    drawing.operand depth c := by
  show Drawn Node.leaves [] c.upcoming (operand depth c).result
  have hword : Draws [] [] c.upcoming c.rest := .silent (by rw [hk]; rfl)
  rw [result_operand_if hk]
  split
  · exact hword.lose (by simp)
  rename_i hparen
  rw [Decidable.not_not] at hparen
  have hopened := (hword.pass (.next (by rw [hparen]; rfl))).pass (.step _)
  have hfirst := hopened.behind (drawn_result.mp hcondition)
  generalize expression depth .lowest c.advance.advance = p at *
  dsimp only
  split
  · exact hfirst.lose (by simp)
  rename_i hclosed
  rw [Decidable.not_not] at hclosed
  have hheld := hfirst.pass (.next (by rw [hclosed]; rfl))
  split
  · exact hheld.lose (by simp)
  rename_i hbrace
  rw [Decidable.not_not] at hbrace
  have hsecond := (hheld.pass (.next (by rw [hbrace]; rfl))).append (drawn_result.mp hconsequence)
  generalize block depth p.stop.advance.advance = q at *
  split
  · have hleaves : (Node.ifElse c.cur p.value q.value .absent).leaves =
        p.value.leaves ++ q.value.leaves := by
      rw [Node.leaves_eq]
      exact List.append_nil _
    rw [drawn_mk, hleaves]
    exact hsecond
  rename_i helse
  rw [Decidable.not_not] at helse
  have hother := hsecond.pass (.next (by rw [helse]; rfl))
  split
  · exact hother.lose (by simp)
  rename_i hbrace'
  rw [Decidable.not_not] at hbrace'
  have hthird := (hother.pass (.next (by rw [hbrace']; rfl))).append (drawn_result.mp halternative)
  rw [drawn_mk, Node.leaves_eq]
  exact hthird

end Rules

theorem drawing_inductive : drawing.Inductive where
  statements depth c hfirst hmore := by
    by_cases hend : Closes depth c
    · have hread := (result_statements depth c).trans (if_pos hend)
      refine ⟨?_, ?_⟩
      · rw [hread]
        exact .silent (by rcases hend with heof | ⟨hbrace, -⟩ <;> simp [Kind.isOperand, *])
      · rw [stop_of_result hread]
        exact hend
    · exact statements_drawn (hfirst fun heof => hend (.inl heof))
        (hmore fun heof => hend (.inl heof)) hend
  statement _ _ hvalue hreturned hplain := statement_drawn hvalue hreturned hplain
  block _ _ hbody := block_drawn hbody
  expression _ _ _ hfirst hmore := expression_drawn hfirst hmore
  operators _ _ _ _ happlied hmore := operators_drawn happlied hmore
  application _ _ _ hitems hi hright := application_drawn hitems hi hright
  items _ _ _ hfirst hmore := items_drawn hfirst hmore
  moreItems _ _ _ hnext hmore := moreItems_drawn hnext hmore
  pairs _ _ hkey hvalue hmore := pairs_drawn hkey hvalue hmore
  operand depth c hsign hgroup hitems hpairs hbody hcondition hconsequence halternative := by
    show Drawn Node.leaves [] c.upcoming (operand depth c).result
    by_cases hbegins : beginsOperand c.cur.kind = false
    · rw [result_operand_none hbegins]
      exact .drop c.rest_sublist_upcoming (by simp)
    · have hreal := ne_eof_of_beginsOperand hbegins
      cases operandForm hbegins with
      | leaf hleaf =>
        rw [result_operand_leaf hleaf]
        exact leaf_drawn hleaf
      | integer hk =>
        rw [result_operand_int hk]
        exact integer_drawn hk
      | sign hk =>
        have hsilent : c.cur.kind.isOperand = false := by rcases hk with hk | hk <;> rw [hk] <;> rfl
        rw [result_operand_sign hk, drawn_mk, Node.leaves_eq]
        exact draws_inner hsilent (hsign hreal)
      | group hk =>
        rw [result_operand_group hk]
        exact closed_drawn rfl (draws_inner (by rw [hk]; rfl) (hgroup hreal))
      | array hk =>
        rw [result_operand_array hk]
        exact (hitems hreal rfl).node (.silent (by rw [hk]; rfl)) fun elements => Node.leaves_eq _
      | hash hk =>
        rw [result_operand_hash hk]
        exact (hpairs hreal).node (.silent (by rw [hk]; rfl)) fun entries => Node.leaves_eq _
      | function hk => exact function_drawn hk (hbody hreal)
      | conditional hk =>
        exact if_drawn hk (hcondition hreal) (hconsequence hreal) (halternative hreal)

/-- A cursor in the token list, or behind all of it. -/
def Within (tokens : List Token) (c : Cursor) : Prop :=
  c.rest = [] ∨ ∃ read, tokens = read ++ c.cur :: c.rest

theorem ensures_within (tokens : List Token) : Ensures (Within tokens) fun _ => True where
  advance c hc := by
    obtain ⟨cur, rest⟩ := c
    cases rest with
    | nil => exact .inl rfl
    | cons t ts =>
      obtain ⟨read, htokens⟩ := hc.resolve_left (List.cons_ne_nil t ts)
      refine .inr ⟨read ++ [cur], ?_⟩
      rw [htokens, List.append_assoc]
      rfl
  integer _ _ _ _ _ _ := trivial
  other _ _ _ := trivial

theorem within_ofTokens (tokens : List Token) : Within tokens (.ofTokens tokens) := by
  cases tokens with
  | nil => exact .inl rfl
  | cons t ts => exact .inr ⟨[], rfl⟩

/-- If no token but the last can be an end, everything is read. -/
theorem rest_stop_statements {tokens : List Token} (h : Grammar.Endless tokens.dropLast) :
    (statements 0 (.ofTokens tokens)).stop.rest = [] := by
  have hwithin : Within tokens (statements 0 (.ofTokens tokens)).stop :=
    ((making_inductive (ensures_within tokens).forms).all_statements 0 _ (within_ofTokens tokens)).2
  have hend : (statements 0 (.ofTokens tokens)).stop.cur.kind = .eof :=
    (drawing_inductive.all_statements 0 _).2.resolve_right fun h => absurd h.2 (by decide)
  generalize (statements 0 (.ofTokens tokens)).stop = e at *
  rcases hwithin with hrest | ⟨read, htokens⟩
  · exact hrest
  by_contra hrest
  refine h _ ?_ hend
  rw [htokens, List.dropLast_append_of_ne_nil (List.cons_ne_nil _ _),
    List.dropLast_cons_of_ne_nil hrest]
  exact List.mem_append_right _ List.mem_cons_self

end Phrase

/-- Whatever is broken in a token list, the leaves of its program stand for tokens of it in their
order, and each is what its token says. If no token but the last is an end and nothing is reported,
no token that could stand for a leaf is left out. -/
theorem Program.leaves_conserved (tokens : List Token) :
    ((Program.ofTokens tokens).node.leaves.map (·.token)).Sublist tokens ∧
      (∀ n ∈ (Program.ofTokens tokens).node.leaves, Phrase.Faithful n) ∧
      (Grammar.Endless tokens.dropLast → (Program.ofTokens tokens).isClean = true →
        (Program.ofTokens tokens).node.leaves.map (·.token) = operandsOf tokens) := by
  have hdrawn := Phrase.drawn_result.mp
    (Phrase.drawing_inductive.all_statements 0 (.ofTokens tokens)).1
  have hleaves : (Program.ofTokens tokens).node.leaves =
      (Phrase.statements 0 (.ofTokens tokens)).value.flatMap Node.leaves :=
    Node.leaves_eq _
  rw [hleaves]
  refine ⟨?_, hdrawn.faithful, ?_⟩
  · exact ((List.sublist_append_left _ _).trans hdrawn.sublist).trans
      (Cursor.upcoming_ofTokens_sublist tokens)
  · intro hends hclean
    have hreports : (Phrase.statements 0 (.ofTokens tokens)).reports = [] :=
      List.isEmpty_iff.mp hclean
    -- the reading stops at the end, behind which nothing is left
    have hcomplete := hdrawn.complete hreports
    rw [Phrase.rest_stop_statements hends] at hcomplete
    rw [← Cursor.operandsOf_upcoming_ofTokens, ← hcomplete]
    exact (List.append_nil _).symm

def binding : List Token :=
  [⟨.kwLet, "let", ⟨1, 1⟩⟩, ⟨.ident, "x", ⟨1, 5⟩⟩, ⟨.assign, "=", ⟨1, 7⟩⟩, ⟨.string, "a", ⟨1, 9⟩⟩,
    ⟨.semicolon, ";", ⟨1, 12⟩⟩, ⟨.eof, "", ⟨1, 13⟩⟩]

theorem Program.leaves_conserved_binding :
    Grammar.Endless binding.dropLast ∧ (Program.ofTokens binding).isClean = true ∧
      (Program.ofTokens binding).node.leaves.map (·.token) =
        [⟨.ident, "x", ⟨1, 5⟩⟩, ⟨.string, "a", ⟨1, 9⟩⟩] := by
  have hends : Grammar.Endless binding.dropLast := by simp [Grammar.Endless, binding]
  have hclean : (Program.ofTokens binding).isClean = true := by decide +kernel
  exact ⟨hends, hclean, (Program.leaves_conserved binding).2.2 hends hclean⟩

end MonkeyLang
