import MonkeyLang.Proofs.Node
import MonkeyLang.Proofs.Reading.Induction

/-!
The nodes that reading makes, whether there was something to report or not. Only integers and
operators depend on more than the form of their phrase. So a property of all other nodes that have
expressions as operands holds of a whole tree once it holds of the integers and of the operators
that its tokens write.
-/

namespace MonkeyLang

/-- The node takes a number or an operator from the text of its token. -/
def Node.takesText : Node → Bool
  | integer _ _ | unary _ _ _ | binary _ _ _ _ => true
  | _ => false

namespace Cursor

def All (T : Token → Prop) (c : Cursor) : Prop := ∀ t ∈ c.cur :: c.rest, T t

variable {T : Token → Prop} (heof : ∀ pos, T (.eof pos))

include heof

/-- The end that a list goes on with has the property too. -/
theorem All.advance {c : Cursor} (h : c.All T) : c.advance.All T := by
  obtain ⟨cur, rest⟩ := c
  cases rest with
  | nil => exact List.forall_mem_singleton.mpr (heof _)
  | cons t ts => exact fun u hu => h u (List.mem_cons_of_mem _ hu)

theorem all_ofTokens {tokens : List Token} (h : ∀ t ∈ tokens, T t) : (ofTokens tokens).All T := by
  cases tokens with
  | nil => exact List.forall_mem_singleton.mpr (heof _)
  | cons t ts => exact h

end Cursor

namespace Phrase

open Token (Kind)

/-- `C` holds of the next cursor too, and where it holds, an integer that is read has the property
`N`. Other nodes have it if their operands are expressions. -/
structure Ensures (C : Cursor → Prop) (N : Node → Prop) : Prop where
  advance : ∀ c : Cursor, C c → C c.advance
  integer : ∀ (c : Cursor) (value : Int), C c → c.cur.kind = .int →
    Numeral.read? c.cur.literal.toList = some value → value ≤ Word.greatest →
      N (.integer c.cur value)
  other : ∀ n : Node, (∀ t k, n ≠ .integer t k) → (∀ e ∈ n.operands, e.isExpression = true) → N n

/-- `C` holds of the next cursor too, and where it holds, the integers and the operators that are
read have the property `N`. Other nodes have it if their operands are expressions. -/
structure Forms (C : Cursor → Prop) (N : Node → Prop) : Prop where
  advance : ∀ c : Cursor, C c → C c.advance
  integer : ∀ (c : Cursor) (value : Int), C c → c.cur.kind = .int →
    Numeral.read? c.cur.literal.toList = some value → value ≤ Word.greatest →
      N (.integer c.cur value)
  unary : ∀ (c : Cursor) (e : Node), C c → c.cur.kind = .bang ∨ c.cur.kind = .minus →
    e.isExpression = true → N (.unary c.cur c.cur.literal e)
  binary : ∀ (c : Cursor) (l r : Node), C c → 0 < c.cur.kind.precedence.rank →
    c.cur.kind ≠ .lparen → c.cur.kind ≠ .lbracket → l.isExpression = true →
      r.isExpression = true → N (.binary c.cur l c.cur.literal r)
  other : ∀ n : Node, n.takesText = false → (∀ e ∈ n.operands, e.isExpression = true) → N n

def Usable (N : Node → Prop) (n : Node) : Prop := n.isExpression = true ∧ n.Each N

theorem usable_absent {N : Node → Prop} : Usable N .absent := ⟨rfl, .absent⟩

/-- The value of a phrase is as it has to be, and so is the cursor at its end. -/
def Made {α : Type} (C : Cursor → Prop) (V : α → Prop) (r : α × List Diagnostic × Cursor) : Prop :=
  V r.1 ∧ C r.2.2

variable {C : Cursor → Prop} {N : Node → Prop}

theorem Ensures.forms (h : Ensures C N) : Forms C N where
  advance := h.advance
  integer := h.integer
  unary _ _ _ _ he := h.other _ nofun (List.forall_mem_singleton.mpr he)
  binary _ _ _ _ _ _ _ hl hr :=
    h.other _ nofun (List.forall_mem_cons.mpr ⟨hl, List.forall_mem_singleton.mpr hr⟩)
  other n hn he := by
    refine h.other n (fun t k heq => ?_) he
    subst heq
    cases hn

namespace Forms

variable (h : Forms C N) {c : Cursor}

include h

theorem skip (hc : C c) (k : Kind) : C (c.skip k) := by
  unfold Cursor.skip
  split
  · exact h.advance c hc
  · exact hc

theorem recover (hc : C c) (depth : Nat) (reports : List Diagnostic) :
    C (c.recover depth reports) :=
  holds_recover h.advance hc depth reports

theorem identifier (id : Identifier) : (Node.identifier id).Each N :=
  .of_children (h.other _ rfl nofun) nofun

/-- A node that has the property itself and is no function has it in all parts if what it is made of
has. -/
theorem made {n : Node} (hn : N n) (hf : ∀ t ps b, n ≠ .function t ps b)
    (ho : ∀ e ∈ n.operands, Usable N e) (ht : ∀ e ∈ n.tails, e.Each N) : n.Each N := by
  refine .of_children hn fun e he => ?_
  rcases Node.mem_children he with he | he | ⟨t, ps, rfl⟩ | ⟨id, rfl⟩
  · exact (ho e he).2
  · exact ht e he
  · exact absurd rfl (hf t ps e)
  · exact h.identifier id

theorem node {n : Node} (hn : n.takesText = false) (hf : ∀ t ps b, n ≠ .function t ps b)
    (ho : ∀ e ∈ n.operands, Usable N e) (ht : ∀ e ∈ n.tails, e.Each N) : n.Each N :=
  h.made (h.other n hn fun e he => (ho e he).1) hf ho ht

theorem usable {n : Node} (he : n.isExpression = true) (hn : n.takesText = false)
    (hf : ∀ t ps b, n ≠ .function t ps b) (ho : ∀ e ∈ n.operands, Usable N e)
    (ht : ∀ e ∈ n.tails, e.Each N) : Usable N n :=
  ⟨he, h.node hn hf ho ht⟩

theorem function {t : Token} {ps : List Identifier} {b : Node} (hb : b.Each N) :
    Usable N (.function t ps b) := by
  refine ⟨rfl, .of_children (h.other _ rfl nofun) fun e he => ?_⟩
  rcases Node.mem_children he with he | he | ⟨t, ps, heq⟩ | ⟨id, rfl⟩
  · cases he
  · cases he
  · cases heq
    exact hb
  · exact h.identifier id

theorem leaf {n : Node} (hn : Leaf c.cur n) : Usable N n := by
  cases hn <;> exact h.usable rfl rfl nofun nofun nofun

/-- A sign before an operand. -/
theorem sign {e : Node} (hc : C c) (hkind : c.cur.kind = .bang ∨ c.cur.kind = .minus)
    (he : Usable N e) : Usable N (.unary c.cur c.cur.literal e) :=
  ⟨rfl, h.made (h.unary c e hc hkind he.1) nofun (List.forall_mem_singleton.mpr he) nofun⟩

/-- An operator between two operands. -/
theorem operation {l r : Node} (hc : C c) (hrank : 0 < c.cur.kind.precedence.rank)
    (hcall : c.cur.kind ≠ .lparen) (hbracket : c.cur.kind ≠ .lbracket) (hl : Usable N l)
    (hr : Usable N r) : Usable N (.binary c.cur l c.cur.literal r) :=
  ⟨rfl, h.made (h.binary c l r hc hrank hcall hbracket hl.1 hr.1) nofun
    (List.forall_mem_cons.mpr ⟨hl, List.forall_mem_singleton.mpr hr⟩) nofun⟩

theorem statement {n e : Node} (hn : (∃ t name, n = .letStmt t name e) ∨
    (∃ t, n = .returnStmt t e) ∨ ∃ t, n = .exprStmt t e) (he : Usable N e) : n.Each N := by
  rcases hn with ⟨t, name, rfl⟩ | ⟨t, rfl⟩ | ⟨t, rfl⟩
  · exact h.node rfl nofun (List.forall_mem_singleton.mpr he) nofun
  · exact h.node rfl nofun (List.forall_mem_singleton.mpr he) nofun
  · exact h.node rfl nofun nofun (List.forall_mem_singleton.mpr he.2)

end Forms

/-! ## All phrases -/

/-- Whatever is read where `C` holds consists of nodes with the property `N`. -/
def making (C : Cursor → Prop) (N : Node → Prop) : Property where
  statements depth c :=
    C c → Made C (fun ns => ∀ n ∈ ns, n.Each N) (Phrase.statements depth c).result
  statement depth c := C c → Made C (fun o => ∀ n ∈ o, n.Each N) (Phrase.statement depth c).result
  block depth c := C c → Made C (·.Each N) (Phrase.block depth c).result
  expression depth m c := C c → Made C (Usable N) (Phrase.expression depth m c).result
  operators depth m c left :=
    C c → Usable N left → Made C (Usable N) (Phrase.operators depth m c left).result
  application depth c left :=
    C c → 0 < c.cur.kind.precedence.rank → Usable N left →
      Made C (Usable N) (Phrase.application depth c left).result
  items depth close c :=
    C c → Made C (fun o => ∀ ns ∈ o, ∀ n ∈ ns, Usable N n) (Phrase.items depth close c).result
  moreItems depth close c :=
    C c → Made C (fun o => ∀ ns ∈ o, ∀ n ∈ ns, Usable N n) (Phrase.moreItems depth close c).result
  pairs depth c :=
    C c → Made C (fun o => ∀ ps ∈ o, ∀ p ∈ ps, Usable N p.1 ∧ Usable N p.2)
      (Phrase.pairs depth c).result
  operand depth c := C c → Made C (Usable N) (Phrase.operand depth c).result

section cases

variable (h : Forms C N) {depth : Nat} {c : Cursor}

include h

theorem parameterNames_made (depth : Nat) (c : Cursor) (hc : C c) :
    C (parameterNames depth c).stop := by
  have heq := result_parameterNames depth c
  split at heq
  · rename_i hfirst
    have hleft := Cursor.left_pos_of_peek hfirst (by decide)
    dsimp only at heq
    split at heq
    · rw [stop_of_result heq]
      exact parameterNames_made depth c.advance.advance (h.advance _ (h.advance _ hc))
    · split at heq <;> rw [stop_of_result heq]
      · exact h.advance _ (h.advance _ hc)
      · exact h.advance _ hc
  · rw [stop_of_result heq]
    exact hc
termination_by c.left
decreasing_by
  simp only [Cursor.left_advance]
  omega

theorem parameters_made (depth : Nat) (hc : C c) : C (parameters depth c).stop := by
  have heq := result_parameters depth c
  split at heq
  · rw [stop_of_result heq]
    exact h.advance _ hc
  · rw [stop_of_result heq]
    exact parameterNames_made h depth c hc

theorem statements_made (hfirst : (making C N).statement depth c)
    (hmore : (making C N).statements depth
      ((Phrase.statement depth c).stop.recover depth (Phrase.statement depth c).reports).advance)
    (hc : C c) : Made C (fun ns => ∀ n ∈ ns, n.Each N) (Phrase.statements depth c).result := by
  rw [result_statements]
  split
  · exact ⟨nofun, hc⟩
  · obtain ⟨hvalue, hstop⟩ := hfirst hc
    obtain ⟨hvalues, hend⟩ := hmore (h.advance _ (h.recover hstop _ _))
    refine ⟨fun n hn => ?_, hend⟩
    rcases List.mem_append.mp hn with hn | hn
    · exact hvalue n (Option.mem_toList.mp hn)
    · exact hvalues n hn

theorem statement_made (hlet : (making C N).expression depth .lowest c.advance.advance.advance)
    (hreturn : (making C N).expression depth .lowest c.advance)
    (hplain : (making C N).expression depth .lowest c) (hc : C c) :
    Made C (fun o => ∀ n ∈ o, n.Each N) (Phrase.statement depth c).result := by
  have hadvance := h.advance _ hc
  by_cases hkind : c.cur.kind = .kwLet
  · rw [result_statement_let hkind]
    split
    · exact ⟨nofun, hc⟩
    · split
      · exact ⟨nofun, hadvance⟩
      · obtain ⟨hvalue, hstop⟩ := hlet (h.advance _ (h.advance _ hadvance))
        refine ⟨fun n hn => ?_, h.skip hstop _⟩
        cases hn
        exact h.statement (.inl ⟨_, _, rfl⟩) hvalue
  · by_cases hkind' : c.cur.kind = .kwReturn
    · rw [result_statement_return hkind']
      obtain ⟨hvalue, hstop⟩ := hreturn hadvance
      refine ⟨fun n hn => ?_, h.skip hstop _⟩
      cases hn
      exact h.statement (.inr (.inl ⟨_, rfl⟩)) hvalue
    · rw [result_statement_expression hkind hkind']
      obtain ⟨hvalue, hstop⟩ := hplain hc
      refine ⟨fun n hn => ?_, h.skip hstop _⟩
      cases hn
      exact h.statement (.inr (.inr ⟨_, rfl⟩)) hvalue

theorem application_made {left : Node} (hitems : (making C N).items depth .rparen c)
    (hindex : (making C N).expression depth .lowest c.advance)
    (hright : (making C N).expression depth c.cur.kind.precedence c.advance)
    (hc : C c) (hrank : 0 < c.cur.kind.precedence.rank) (hleft : Usable N left) :
    Made C (Usable N) (Phrase.application depth c left).result := by
  have hadvance := h.advance _ hc
  by_cases hcall : c.cur.kind = .lparen
  · rw [result_application_call hcall]
    obtain ⟨hvalues, hstop⟩ := hitems hc
    refine ⟨?_, hstop⟩
    dsimp only
    cases hargs : (Phrase.items depth .rparen c).value with
    | none => exact usable_absent
    | some args =>
      exact h.usable rfl rfl nofun (List.forall_mem_cons.mpr ⟨hleft, hvalues args hargs⟩) nofun
  · by_cases hbracket : c.cur.kind = .lbracket
    · rw [result_application_index hbracket]
      obtain ⟨hvalue, hstop⟩ := hindex hadvance
      dsimp only
      split
      · refine ⟨h.usable rfl rfl nofun ?_ nofun, h.advance _ hstop⟩
        exact List.forall_mem_cons.mpr ⟨hleft, List.forall_mem_singleton.mpr hvalue⟩
      · exact ⟨usable_absent, hstop⟩
    · rw [result_application_binary hcall hbracket]
      obtain ⟨hvalue, hstop⟩ := hright hadvance
      exact ⟨h.operation hc hrank hcall hbracket hleft hvalue, hstop⟩

theorem operators_made {m : Precedence} {left : Node}
    (happlied : c.peek.kind ≠ .eof → (making C N).application depth c.advance left)
    (hmore : c.peek.kind ≠ .eof → (making C N).operators depth m
      (Phrase.application depth c.advance left).stop
      (Phrase.application depth c.advance left).value)
    (hc : C c) (hleft : Usable N left) :
    Made C (Usable N) (Phrase.operators depth m c left).result := by
  rw [result_operators]
  split
  · exact ⟨hleft, hc⟩
  · rename_i hgo
    have hreal : c.peek.kind ≠ .eof := fun e =>
      hgo (.inr (by simp [e, Kind.precedence, Precedence.rank]))
    have hrank : 0 < c.peek.kind.precedence.rank := by
      simp only [not_or, Nat.not_le] at hgo
      omega
    obtain ⟨hvalue, hstop⟩ := happlied hreal (h.advance _ hc) hrank hleft
    exact hmore hreal hstop hvalue

theorem items_made {close : Kind} (hfirst : (making C N).expression depth .lowest c.advance)
    (hmore : (making C N).moreItems depth close (Phrase.expression depth .lowest c.advance).stop)
    (hc : C c) :
    Made C (fun o => ∀ ns ∈ o, ∀ n ∈ ns, Usable N n) (Phrase.items depth close c).result := by
  rw [result_items]
  split
  · refine ⟨fun ns hns => ?_, h.advance _ hc⟩
    cases hns
    nofun
  · obtain ⟨hvalue, hstop⟩ := hfirst (h.advance _ hc)
    obtain ⟨hvalues, hend⟩ := hmore hstop
    refine ⟨fun ns hns => ?_, hend⟩
    obtain ⟨rest, hrest, rfl⟩ := Option.map_eq_some_iff.mp hns
    exact List.forall_mem_cons.mpr ⟨hvalue, hvalues rest hrest⟩

theorem moreItems_made {close : Kind}
    (hnext : (making C N).expression depth .lowest c.advance.advance)
    (hmore : c.peek.kind = .comma → (making C N).moreItems depth close
      (Phrase.expression depth .lowest c.advance.advance).stop) (hc : C c) :
    Made C (fun o => ∀ ns ∈ o, ∀ n ∈ ns, Usable N n) (Phrase.moreItems depth close c).result := by
  rw [result_moreItems]
  split
  · rename_i hcomma
    obtain ⟨hvalue, hstop⟩ := hnext (h.advance _ (h.advance _ hc))
    obtain ⟨hvalues, hend⟩ := hmore hcomma hstop
    refine ⟨fun ns hns => ?_, hend⟩
    obtain ⟨rest, hrest, rfl⟩ := Option.map_eq_some_iff.mp hns
    exact List.forall_mem_cons.mpr ⟨hvalue, hvalues rest hrest⟩
  · split
    · refine ⟨fun ns hns => ?_, h.advance _ hc⟩
      cases hns
      nofun
    · exact ⟨nofun, hc⟩

theorem pairs_made (hkey : (making C N).expression depth .lowest c.advance)
    (hvalue : (making C N).expression depth .lowest
      (Phrase.expression depth .lowest c.advance).stop.advance.advance)
    (hmore : (Phrase.expression depth .lowest
        (Phrase.expression depth .lowest c.advance).stop.advance.advance).stop.peek.kind = .comma →
      (making C N).pairs depth (Phrase.expression depth .lowest
        (Phrase.expression depth .lowest c.advance).stop.advance.advance).stop.advance)
    (hc : C c) : Made C (fun o => ∀ ps ∈ o, ∀ p ∈ ps, Usable N p.1 ∧ Usable N p.2)
      (Phrase.pairs depth c).result := by
  rw [result_pairs]
  split
  · refine ⟨fun ps hps => ?_, h.advance _ hc⟩
    cases hps
    nofun
  · obtain ⟨hfirst, hcolon⟩ := hkey (h.advance _ hc)
    dsimp only
    split
    · exact ⟨nofun, hcolon⟩
    · obtain ⟨hsecond, hstop⟩ := hvalue (h.advance _ (h.advance _ hcolon))
      split
      · refine ⟨fun ps hps => ?_, h.advance _ hstop⟩
        cases hps
        exact List.forall_mem_singleton.mpr ⟨hfirst, hsecond⟩
      · split
        · rename_i hcomma
          obtain ⟨hvalues, hend⟩ := hmore hcomma (h.advance _ hstop)
          refine ⟨fun ps hps => ?_, hend⟩
          obtain ⟨rest, hrest, rfl⟩ := Option.map_eq_some_iff.mp hps
          exact List.forall_mem_cons.mpr ⟨⟨hfirst, hsecond⟩, hvalues rest hrest⟩
        · exact ⟨nofun, hstop⟩

theorem integer_made (hkind : c.cur.kind = .int) (hc : C c) :
    Made C (Usable N) (Phrase.operand depth c).result := by
  rw [result_operand_int hkind, result_integer]
  cases hread : Numeral.read? c.cur.literal.toList with
  | none => exact ⟨usable_absent, hc⟩
  | some value =>
    dsimp only
    split
    · rename_i hle
      exact ⟨⟨rfl, .of_children (h.integer c value hc hkind hread hle) nofun⟩, hc⟩
    · exact ⟨usable_absent, hc⟩

theorem hash_made (hkind : c.cur.kind = .lbrace) (hpairs : (making C N).pairs depth c) (hc : C c) :
    Made C (Usable N) (Phrase.operand depth c).result := by
  rw [result_operand_hash hkind]
  obtain ⟨hvalues, hstop⟩ := hpairs hc
  refine ⟨?_, hstop⟩
  dsimp only
  cases hps : (Phrase.pairs depth c).value with
  | none => exact usable_absent
  | some ps =>
    refine h.usable rfl rfl nofun (fun e he => ?_) nofun
    obtain ⟨p, hp, he⟩ := List.mem_flatMap.mp he
    rcases List.mem_pair.mp he with rfl | rfl
    · exact (hvalues ps hps p hp).1
    · exact (hvalues ps hps p hp).2

theorem function_made (hkind : c.cur.kind = .kwFn)
    (hbody : (making C N).block depth (Phrase.parameters depth c.advance).stop.advance) (hc : C c) :
    Made C (Usable N) (Phrase.operand depth c).result := by
  rw [result_operand_function hkind]
  have hnames := parameters_made h depth (h.advance _ hc)
  split
  · exact ⟨usable_absent, hc⟩
  · dsimp only
    split
    · exact ⟨usable_absent, hnames⟩
    · split
      · exact ⟨usable_absent, hnames⟩
      · obtain ⟨hvalue, hstop⟩ := hbody (h.advance _ hnames)
        exact ⟨h.function hvalue, hstop⟩

theorem if_made (hkind : c.cur.kind = .kwIf)
    (hcondition : (making C N).expression depth .lowest c.advance.advance)
    (hconsequence : (making C N).block depth
      (Phrase.expression depth .lowest c.advance.advance).stop.advance.advance)
    (halternative : (making C N).block depth (Phrase.block depth (Phrase.expression depth .lowest
      c.advance.advance).stop.advance.advance).stop.advance.advance) (hc : C c) :
    Made C (Usable N) (Phrase.operand depth c).result := by
  rw [result_operand_if hkind]
  split
  · exact ⟨usable_absent, hc⟩
  · obtain ⟨hfirst, hparen⟩ := hcondition (h.advance _ (h.advance _ hc))
    have hnext := h.advance _ hparen
    dsimp only
    split
    · exact ⟨usable_absent, hparen⟩
    · split
      · exact ⟨usable_absent, hnext⟩
      · obtain ⟨hsecond, hbrace⟩ := hconsequence (h.advance _ hnext)
        have hnode : ∀ {alternative : Node}, alternative.Each N →
            Usable N (.ifElse c.cur (Phrase.expression depth .lowest c.advance.advance).value
              (Phrase.block depth (Phrase.expression depth .lowest
                c.advance.advance).stop.advance.advance).value alternative) := by
          intro alternative halternative
          refine h.usable rfl rfl nofun (List.forall_mem_singleton.mpr hfirst) ?_
          exact List.forall_mem_cons.mpr ⟨hsecond, List.forall_mem_singleton.mpr halternative⟩
        split
        · exact ⟨hnode .absent, hbrace⟩
        · split
          · exact ⟨usable_absent, h.advance _ hbrace⟩
          · obtain ⟨hthird, hstop⟩ := halternative (h.advance _ (h.advance _ hbrace))
            exact ⟨hnode hthird, hstop⟩

end cases

theorem making_inductive (h : Forms C N) : (making C N).Inductive where
  statements depth c hfirst hmore hc := by
    by_cases heof : c.cur.kind = .eof
    · rw [result_statements, if_pos (.inl heof)]
      exact ⟨nofun, hc⟩
    · exact statements_made h (hfirst heof) (hmore heof) hc
  statement depth c hlet hreturn hplain hc := statement_made h hlet hreturn hplain hc
  block depth c hbody hc := by
    rw [result_block]
    obtain ⟨hvalues, hstop⟩ := hbody (h.advance _ hc)
    exact ⟨h.node rfl nofun nofun hvalues, hstop⟩
  expression depth m c hfirst hmore hc := by
    rw [result_expression]
    obtain ⟨hvalue, hstop⟩ := hfirst hc
    exact hmore hstop hvalue
  operators depth m c left happlied hmore hc hleft := operators_made h happlied hmore hc hleft
  application depth c left hitems hindex hright hc hrank hleft :=
    application_made h hitems hindex hright hc hrank hleft
  items depth close c hfirst hmore hc := items_made h hfirst hmore hc
  moreItems depth close c hnext hmore hc := moreItems_made h hnext hmore hc
  pairs depth c hkey hvalue hmore hc := pairs_made h hkey hvalue hmore hc
  operand depth c hsign hgroup hitems hpairs hbody hcondition hconsequence halternative hc := by
    by_cases hbegins : beginsOperand c.cur.kind = false
    · rw [result_operand_none hbegins]
      exact ⟨usable_absent, hc⟩
    · have hreal := ne_eof_of_beginsOperand hbegins
      cases operandForm hbegins with
      | leaf hleaf =>
        rw [result_operand_leaf hleaf]
        exact ⟨h.leaf hleaf, hc⟩
      | integer hkind => exact integer_made h hkind hc
      | sign hkind =>
        rw [result_operand_sign hkind]
        obtain ⟨hvalue, hstop⟩ := hsign hreal (h.advance _ hc)
        exact ⟨h.sign hc hkind hvalue, hstop⟩
      | group hkind =>
        rw [result_operand_group hkind]
        obtain ⟨hvalue, hstop⟩ := hgroup hreal (h.advance _ hc)
        dsimp only
        split
        · exact ⟨hvalue, h.advance _ hstop⟩
        · exact ⟨usable_absent, hstop⟩
      | array hkind =>
        rw [result_operand_array hkind]
        obtain ⟨hvalues, hstop⟩ := hitems hreal hc
        refine ⟨?_, hstop⟩
        dsimp only
        cases hns : (Phrase.items depth .rbracket c).value with
        | none => exact usable_absent
        | some ns => exact h.usable rfl rfl nofun (hvalues ns hns) nofun
      | hash hkind => exact hash_made h hkind (hpairs hreal) hc
      | function hkind => exact function_made h hkind (hbody hreal) hc
      | conditional hkind =>
        exact if_made h hkind (hcondition hreal) (hconsequence hreal) (halternative hreal) hc

/-- All nodes of a program have the property, broken statements included. -/
theorem each_of_forms (h : Forms C N) {tokens : List Token} (hc : C (Cursor.ofTokens tokens)) :
    (Program.ofTokens tokens).node.Each N :=
  h.node rfl nofun nofun ((making_inductive h).all_statements 0 _ hc).1

theorem each_of_tokens (h : Ensures C N) {tokens : List Token} (hc : C (Cursor.ofTokens tokens)) :
    (Program.ofTokens tokens).node.Each N :=
  each_of_forms h.forms hc

end Phrase

end MonkeyLang
