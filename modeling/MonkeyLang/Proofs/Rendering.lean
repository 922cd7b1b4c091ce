import MonkeyLang.Proofs.Grammar.Source

/-!
Programs and their source form. A program of bindings, returns and at most one expression behind
them, made of names, integers, booleans, lists, signs, operators, indices and calls, is read back
from its source form as the very same tree. The source form of each expression in it spells a
derivation of that expression, and one that stands for itself next to any operator.
-/

namespace MonkeyLang

open Token (Kind)
open Lexer (Spells)

/-! ## Canonical programs -/

/-- A name that the lexer reads as one: a word that is no keyword. -/
def IsName (name : String) : Prop :=
  Lexer.IsWord name.toList ∧ name ∉ Kind.keywords.map (·.1)

namespace Node

theorem barePairs_eq_map (pairs : List (Node × Node)) :
    barePairs pairs = pairs.map fun p => (p.1.bare, p.2.bare) := by
  induction pairs with
  | nil => rfl
  | cons p pairs ih => simp [barePairs, ih]

theorem renderPairs_eq_map (pairs : List (Node × Node)) :
    renderPairs pairs = pairs.map fun p => p.1.render ++ ":" ++ p.2.render := by
  induction pairs with
  | nil => rfl
  | cons p pairs ih => simp [renderPairs, ih]

mutual

/-- An expression that its source form determines: no child is absent, names are names to the
lexer, integers fit into a word and are written as a decimal of their value, and the operators are
those of the language. -/
def Canonical : Node → Prop
  | identifier id => IsName id.name
  | integer t value =>
    Grammar.Digits (integer t value).render ∧
      (Grammar.decimal (integer t value).render : Int) = value ∧ value ≤ 0x7fffffffffffffff
  | boolean _ _ => True
  | array _ elements => CanonicalEach elements
  | hash _ pairs => CanonicalPairs pairs
  | unary _ op right => (op = "!" ∨ op = "-") ∧ right.Canonical
  | binary _ left op right =>
    op ∈ ["+", "-", "*", "/", "<", ">", "==", "!="] ∧ left.Canonical ∧ right.Canonical
  | index _ left i => left.Canonical ∧ i.Canonical
  | call _ callee arguments => callee.Canonical ∧ CanonicalEach arguments
  | _ => False

def CanonicalEach : List Node → Prop
  | [] => True
  | n :: ns => n.Canonical ∧ CanonicalEach ns

def CanonicalPairs : List (Node × Node) → Prop
  | [] => True
  | (key, value) :: pairs => key.Canonical ∧ value.Canonical ∧ CanonicalPairs pairs

end

/-- An integer without a spelling of its own is written as the number that it is. -/
theorem canonical_unset {n : Nat} (h : n ≤ 0x7fffffffffffffff) : (integer .unset n).Canonical := by
  have hrender : (integer .unset n).render = n.repr := rfl
  rw [Canonical, hrender, Numeral.decimal_repr]
  exact ⟨Numeral.digits_repr (by omega), rfl, by omega⟩

/-- Bindings and returns of canonical expressions, with such an expression as the last statement at
most. -/
def CanonicalBody : List Node → Prop
  | [] => True
  | [exprStmt _ expression] => expression.Canonical
  | letStmt _ name value :: more =>
    (∃ id, name = some id ∧ IsName id.name) ∧ value.Canonical ∧ CanonicalBody more
  | returnStmt _ value :: more => value.Canonical ∧ CanonicalBody more
  | _ => False

end Node

/-! ## The source form of an expression -/

/-- The source form of the expression spells the derivation, which is one of the expression. -/
structure Renders (n : Node) (d : Grammar.Expr) : Prop where
  valid : d.Valid
  level : d.level = 6
  bare : d.tree.bare = n.bare
  render : d.tree.render = n.render
  spells : Spells n.render.toList d.tokens

namespace Renders

open Grammar

theorem ofWord_of_isName {name : String} (h : IsName name) : Kind.ofWord name = .ident :=
  Lexer.ofWord_eq_ident_iff.mpr h.2

theorem identifier {id : Identifier} (h : IsName id.name) :
    Renders (.identifier id) (.identifier (.loose .ident id.name)) where
  valid := trivial
  level := rfl
  bare := rfl
  render := rfl
  spells := by
    have := Lexer.spells_word h.1
    rwa [ofWord_of_isName h] at this

theorem integer {t : Token} {value : Int} (hdigits : Digits (Node.integer t value).render)
    (hvalue : (decimal (Node.integer t value).render : Int) = value) (hle : value ≤ 0x7fffffffffffffff) :
    ∃ d, Renders (.integer t value) d := by
  have hmax : decimal (Node.integer t value).render ≤ 0x7fffffffffffffff := by omega
  have hne : (Node.integer t value).render ≠ "" := by
    intro hnil
    rw [hnil] at hdigits
    exact hdigits.1 rfl
  refine ⟨.integer ⟨.loose .int (Node.integer t value).render, rfl, hdigits, hmax⟩, trivial, rfl,
    ?_, if_neg hne, Lexer.spells_digits hdigits⟩
  show Node.integer .unset (decimal (Node.integer t value).render : Int) = _
  rw [hvalue]
  rfl

theorem boolean (t : Token) (value : Bool) : ∃ d, Renders (.boolean t value) d := by
  cases value with
  | true =>
    exact ⟨.truth (.loose .kwTrue "true"), trivial, rfl, rfl, rfl,
      @Lexer.spells_keyword "true" .kwTrue (by decide)⟩
  | false =>
    exact ⟨.falsehood (.loose .kwFalse "false"), trivial, rfl, rfl, rfl,
      @Lexer.spells_keyword "false" .kwFalse (by decide)⟩

section Lists

variable {ns : List Node} {ds : List Expr} (h : List.Forall₂ Renders ns ds)

include h

theorem items_valid : (Items.ofList ds).Valid :=
  Items.valid_ofList (forall_of_forall₂ h fun _ _ hd => hd.valid)

theorem items_bare : Node.bareEach (Items.ofList ds).trees = Node.bareEach ns := by
  rw [Node.bareEach_eq_map, Node.bareEach_eq_map, Items.trees_ofList, List.map_map]
  exact map_eq_map_of_forall₂ (h.imp fun _ _ hd => hd.bare)

theorem items_render : Node.renderEach (Items.ofList ds).trees = Node.renderEach ns := by
  rw [Node.renderEach_eq_map, Node.renderEach_eq_map, Items.trees_ofList, List.map_map]
  exact map_eq_map_of_forall₂ (h.imp fun _ _ hd => hd.render)

theorem items_spells :
    Spells (", ".intercalate (Node.renderEach ns)).toList (Items.ofList ds).tokens := by
  rw [Node.renderEach_eq_map, Items.tokens_ofList]
  refine Spells.list ?_
  rw [List.forall₂_map_left_iff, List.forall₂_map_right_iff]
  exact h.imp fun _ _ hd => hd.spells

end Lists

theorem array {ns : List Node} {ds : List Expr} (t : Token) (h : List.Forall₂ Renders ns ds) :
    Renders (.array t ns)
      (.array (.loose .lbracket "[") (.ofList ds) (.loose .rbracket "]")) where
  valid := items_valid h
  level := rfl
  bare := by rw [Expr.tree, Node.bare, Node.bare, items_bare h]
  render := by rw [Expr.tree, Node.render, Node.render, items_render h]
  spells := by
    have hclose : Lexer.IsPunctuation ']' .rbracket := by decide
    have hopen : Lexer.IsPunctuation '[' .lbracket := by decide
    have := ((items_spells h).before hclose).behind hopen
    rw [Node.render, String.toList_append, String.toList_append]
    exact this

theorem call {callee : Node} {ns : List Node} {d : Expr} {ds : List Expr} (t : Token)
    (hcallee : Renders callee d) (h : List.Forall₂ Renders ns ds) :
    Renders (.call t callee ns)
      (.call d (.loose .lparen "(") (.ofList ds) (.loose .rparen ")")) where
  valid := ⟨hcallee.valid, Nat.le_of_eq hcallee.level.symm, items_valid h⟩
  level := rfl
  bare := by rw [Expr.tree, Node.bare, Node.bare, hcallee.bare, items_bare h]
  render := by rw [Expr.tree, Node.render, Node.render, hcallee.render, items_render h]
  spells := by
    have hclose : Lexer.IsPunctuation ')' .rparen := by decide
    have hopen : Lexer.IsPunctuation '(' .lparen := by decide
    have := hcallee.spells.append (((items_spells h).before hclose).behind hopen) rfl
    simpa [Node.render, Expr.tokens] using this

theorem entries_spells {pairs : List (Node × Node)} {ds : List (Expr × Expr)}
    (h : List.Forall₂ (fun p d => Renders p.1 d.1 ∧ Renders p.2 d.2) pairs ds) :
    Spells (", ".intercalate (Node.renderPairs pairs)).toList (Entries.ofList ds).tokens := by
  rw [Node.renderPairs_eq_map, Entries.tokens_ofList]
  refine Spells.list ?_
  rw [List.forall₂_map_left_iff, List.forall₂_map_right_iff]
  refine h.imp fun p d hd => ?_
  have hcolon : Lexer.IsPunctuation ':' .colon := by decide
  have := hd.1.spells.append (hd.2.spells.behind hcolon) rfl
  simpa [entryTokens, colon] using this

theorem hash {pairs : List (Node × Node)} {ds : List (Expr × Expr)} (t : Token)
    (h : List.Forall₂ (fun p d => Renders p.1 d.1 ∧ Renders p.2 d.2) pairs ds) :
    Renders (.hash t pairs)
      (.hash (.loose .lbrace "\x7b") (.ofList ds) (.loose .rbrace "\x7d")) where
  valid := Entries.valid_ofList (forall_of_forall₂ h fun _ _ hd => ⟨hd.1.valid, hd.2.valid⟩)
  level := rfl
  bare := by
    rw [Expr.tree, Node.bare, Node.bare, Node.barePairs_eq_map, Node.barePairs_eq_map,
      Entries.trees_ofList, List.map_map]
    exact congrArg _ (map_eq_map_of_forall₂ (h.imp fun _ _ hd => Prod.ext hd.1.bare hd.2.bare))
  render := by
    have heach : Node.renderPairs (Entries.ofList ds).trees = Node.renderPairs pairs := by
      rw [Node.renderPairs_eq_map, Node.renderPairs_eq_map, Entries.trees_ofList, List.map_map]
      refine map_eq_map_of_forall₂ (h.imp fun _ _ hd => ?_)
      dsimp only [Function.comp]
      rw [hd.1.render, hd.2.render]
    rw [Expr.tree, Node.render, Node.render, heach]
  spells := by
    have hclose : Lexer.IsPunctuation '\x7d' .rbrace := by decide
    have hopen : Lexer.IsPunctuation '\x7b' .lbrace := by decide
    have := ((entries_spells h).before hclose).behind hopen
    rw [Node.render, String.toList_append, String.toList_append]
    exact this

/-- Between parentheses any expression stands for itself. -/
theorem group {n : Node} {d : Expr} {text : List Char} (hv : d.Valid)
    (hbare : d.tree.bare = n.bare) (hrender : d.tree.render = n.render)
    (htext : n.render.toList = '(' :: (text ++ [')'])) (hspells : Spells text d.tokens) :
    Renders n (.group (.loose .lparen "(") d (.loose .rparen ")")) where
  valid := hv
  level := rfl
  bare := hbare
  render := hrender
  spells := by
    have hclose : Lexer.IsPunctuation ')' .rparen := by decide
    have hopen : Lexer.IsPunctuation '(' .lparen := by decide
    rw [htext]
    exact (hspells.before hclose).behind hopen

/-- What begins with an equals sign is no operand. -/
theorem leadKind_equals (cs : List Char) :
    Phrase.beginsOperand (leadKind (Lexer.lexemes ('=' :: cs))) = false := by
  by_cases hcs : cs.head? = some '='
  · obtain ⟨rest, rfl⟩ := List.head?_eq_some_iff.mp hcs
    rw [Lexer.lexemes_token rfl]
    rfl
  · rw [Lexer.lexemes_symbol (k := .assign) (by decide) fun _ => hcs]
    rfl

/-- A sign does not run together with its operand. -/
theorem spells_sign {op : String} (hop : op = "!" ∨ op = "-") {text : List Char} {d : Expr}
    (h : Spells text d.tokens) :
    ∃ sign : SignLexeme, sign.1.literal = op ∧ Spells (op.toList ++ text) (sign.1 :: d.tokens) := by
  rcases hop with rfl | rfl
  · refine ⟨⟨.loose .bang "!", .inl rfl⟩, rfl, fun more hmore => ?_⟩
    have hhead : (text ++ more).head? ≠ some '=' := by
      intro hequals
      obtain ⟨rest, hrest⟩ := List.head?_eq_some_iff.mp hequals
      have hlead := leadKind_operand d (Lexer.lexemes more)
      rw [← h more hmore, hrest, leadKind_equals] at hlead
      cases hlead
    show Lexer.lexemes ('!' :: (text ++ more)) = _
    rw [Lexer.lexemes_symbol (k := .bang) (by decide) fun _ => hhead, h more hmore]
    rfl
  · have hminus : Lexer.IsPunctuation '-' .minus := by decide
    exact ⟨⟨.loose .minus "-", .inr rfl⟩, rfl, h.behind hminus⟩

theorem unary {op : String} {right : Node} {d : Expr} (t : Token) (hop : op = "!" ∨ op = "-")
    (h : Renders right d) : ∃ d, Renders (.unary t op right) d := by
  obtain ⟨sign, rfl, hspells⟩ := spells_sign hop h.spells
  have hlevel : 5 ≤ d.level := by rw [h.level]; decide
  refine ⟨_, group (d := .unary sign d) ⟨h.valid, hlevel⟩ ?_ ?_ ?_ hspells⟩
  · rw [Expr.tree, Node.bare, Node.bare, h.bare]
  · rw [Expr.tree, Node.render, Node.render, h.render]
  · simp [Node.render]

theorem exists_operator {op : String} (hop : op ∈ ["+", "-", "*", "/", "<", ">", "==", "!="]) :
    ∃ k, (op, k) ∈ Lexer.operators ∧ 1 ≤ operatorLevel k ∧ operatorLevel k ≤ 4 := by
  have hlevels : ∀ e ∈ Lexer.operators, 1 ≤ operatorLevel e.2 ∧ operatorLevel e.2 ≤ 4 := by decide
  obtain ⟨entry, hmem, rfl⟩ := List.mem_map.mp (show op ∈ Lexer.operators.map (·.1) from hop)
  exact ⟨entry.2, hmem, hlevels entry hmem⟩

theorem binary {op : String} {left right : Node} {l r : Expr} (t : Token)
    (hop : op ∈ ["+", "-", "*", "/", "<", ">", "==", "!="]) (hl : Renders left l)
    (hr : Renders right r) : ∃ d, Renders (.binary t left op right) d := by
  obtain ⟨k, hmem, hlevel⟩ := exists_operator hop
  have hleft : operatorLevel k ≤ l.level := by rw [hl.level]; omega
  have hright : operatorLevel k < r.level := by rw [hr.level]; omega
  refine ⟨_, group (d := .binary l ⟨.loose k op, hlevel⟩ r) ⟨hl.valid, hr.valid, hleft, hright⟩
    ?_ ?_ ?_ (hl.spells.append (hr.spells.operator hmem).blank rfl)⟩
  · rw [Expr.tree, Node.bare, Node.bare, hl.bare, hr.bare]
    rfl
  · rw [Expr.tree, Node.render, Node.render, hl.render, hr.render]
    rfl
  · simp [Node.render]

theorem index {left i : Node} {l d : Expr} (t : Token) (hl : Renders left l) (hi : Renders i d) :
    ∃ d, Renders (.index t left i) d := by
  have hclose : Lexer.IsPunctuation ']' .rbracket := by decide
  have hopen : Lexer.IsPunctuation '[' .lbracket := by decide
  refine ⟨_, group (d := .index l (.loose .lbracket "[") d (.loose .rbracket "]"))
    ⟨hl.valid, Nat.le_of_eq hl.level.symm, hi.valid⟩ ?_ ?_ ?_
    (hl.spells.append ((hi.spells.before hclose).behind hopen) rfl)⟩
  · rw [Expr.tree, Node.bare, Node.bare, hl.bare, hi.bare]
  · rw [Expr.tree, Node.render, Node.render, hl.render, hi.render]
  · simp [Node.render]

end Renders

mutual

/-- Every canonical expression has a derivation that its source form spells. -/
theorem exists_renders : ∀ {n : Node}, n.Canonical → ∃ d, Renders n d
  | .identifier _, h => by
    rw [Node.Canonical] at h
    exact ⟨_, .identifier h⟩
  | .integer _ _, h => by
    rw [Node.Canonical] at h
    exact Renders.integer h.1 h.2.1 h.2.2
  | .boolean t value, _ => Renders.boolean t value
  | .array t elements, h => by
    rw [Node.Canonical] at h
    obtain ⟨ds, hds⟩ := exists_renders_each h
    exact ⟨_, .array t hds⟩
  | .hash t pairs, h => by
    rw [Node.Canonical] at h
    obtain ⟨ds, hds⟩ := exists_renders_pairs h
    exact ⟨_, .hash t hds⟩
  | .unary t op right, h => by
    rw [Node.Canonical] at h
    obtain ⟨d, hd⟩ := exists_renders h.2
    exact hd.unary t h.1
  | .binary t left op right, h => by
    rw [Node.Canonical] at h
    obtain ⟨hop, hleft, hright⟩ := h
    obtain ⟨l, hl⟩ := exists_renders hleft
    obtain ⟨r, hr⟩ := exists_renders hright
    exact hl.binary t hop hr
  | .index t left i, h => by
    rw [Node.Canonical] at h
    obtain ⟨l, hl⟩ := exists_renders h.1
    obtain ⟨d, hi⟩ := exists_renders h.2
    exact hl.index t hi
  | .call t callee arguments, h => by
    rw [Node.Canonical] at h
    obtain ⟨d, hd⟩ := exists_renders h.1
    obtain ⟨ds, hds⟩ := exists_renders_each h.2
    exact ⟨_, hd.call t hds⟩
  | .absent, h | .string _ _, h | .ifElse _ _ _ _, h | .function _ _ _, h | .letStmt _ _ _, h
  | .returnStmt _ _, h | .exprStmt _ _, h | .block _ _, h | .program _ _, h => by
    simp only [Node.Canonical] at h

theorem exists_renders_each :
    ∀ {ns : List Node}, Node.CanonicalEach ns → ∃ ds, List.Forall₂ Renders ns ds
  | [], _ => ⟨[], .nil⟩
  | n :: ns, h => by
    rw [Node.CanonicalEach] at h
    obtain ⟨d, hd⟩ := exists_renders h.1
    obtain ⟨ds, hds⟩ := exists_renders_each h.2
    exact ⟨d :: ds, .cons hd hds⟩

theorem exists_renders_pairs : ∀ {pairs : List (Node × Node)}, Node.CanonicalPairs pairs →
    ∃ ds : List (Grammar.Expr × Grammar.Expr),
      List.Forall₂ (fun p d => Renders p.1 d.1 ∧ Renders p.2 d.2) pairs ds
  | [], _ => ⟨[], .nil⟩
  | (key, value) :: pairs, h => by
    rw [Node.CanonicalPairs] at h
    obtain ⟨hkey, hvalue, hpairs⟩ := h
    obtain ⟨k, hk⟩ := exists_renders hkey
    obtain ⟨v, hv⟩ := exists_renders hvalue
    obtain ⟨ds, hds⟩ := exists_renders_pairs hpairs
    exact ⟨(k, v) :: ds, .cons ⟨hk, hv⟩ hds⟩

end

/-! ## The source form of a program -/

structure RendersBody (ns : List Node) (ss : Grammar.Statements) : Prop where
  valid : ss.Valid
  bare : Node.bareEach ss.trees = Node.bareEach ns
  render : Node.renderEach ss.trees = Node.renderEach ns
  spells : Spells (String.join (Node.renderEach ns)).toList ss.tokens

namespace RendersBody

open Grammar

theorem nil : RendersBody [] .done where
  valid := trivial
  bare := rfl
  render := rfl
  spells := Lexer.spells_nil

theorem expression {n : Node} {d : Expr} (t : Token) (h : Renders n d) :
    RendersBody [.exprStmt t n] (.next (.expression d none) .done) where
  valid := ⟨h.valid, fun _ => rfl, trivial⟩
  bare := by
    simp [Statements.trees, Statement.tree, Node.bareEach, Node.bare, h.bare]
  render := by
    simp [Statements.trees, Statement.tree, Node.renderEach, Node.render, h.render]
  spells := by
    simpa [Node.renderEach, Node.render, Statements.tokens, Statement.tokens, ending] using h.spells

def semicolon : Option (Lexeme .semicolon) := some (.loose .semicolon ";")

theorem binding {id : Identifier} {n : Node} {d : Expr} {ns : List Node} {ss : Statements}
    (t : Token) (hname : IsName id.name) (h : Renders n d) (hmore : RendersBody ns ss) :
    RendersBody (.letStmt t (some id) n :: ns)
      (.next (.binding (.loose .kwLet "let") (.loose .ident id.name) (.loose .assign "=") d
        semicolon) ss) where
  valid := ⟨h.valid, nofun, hmore.valid⟩
  bare := by
    simp [Statements.trees, Statement.tree, Node.bareEach, Node.bare, h.bare, hmore.bare,
      nameOf, Identifier.bare, Token.loose]
  render := by
    simp [Statements.trees, Statement.tree, Node.renderEach, Node.render, h.render, hmore.render,
      nameOf, Token.loose]
  spells := by
    have hlet := @Lexer.spells_keyword "let" .kwLet (by decide)
    have hident : Spells id.name.toList [.loose .ident id.name] := by
      have := Lexer.spells_word hname.1
      rwa [Renders.ofWord_of_isName hname] at this
    have hend : Lexer.IsPunctuation ';' .semicolon := by decide
    have hvalue := h.spells.append (hmore.spells.behind hend) rfl
    have := hlet.append (hident.append hvalue.assign.blank rfl).blank rfl
    simpa [Node.renderEach, Node.render, Statements.tokens, Statement.tokens, ending, semicolon]
      using this

theorem returning {n : Node} {d : Expr} {ns : List Node} {ss : Statements} (t : Token)
    (h : Renders n d) (hmore : RendersBody ns ss) :
    RendersBody (.returnStmt t n :: ns)
      (.next (.returning (.loose .kwReturn "return") d semicolon) ss) where
  valid := ⟨h.valid, nofun, hmore.valid⟩
  bare := by
    simp [Statements.trees, Statement.tree, Node.bareEach, Node.bare, h.bare, hmore.bare]
  render := by
    simp [Statements.trees, Statement.tree, Node.renderEach, Node.render, h.render, hmore.render]
  spells := by
    have hreturn := @Lexer.spells_keyword "return" .kwReturn (by decide)
    have hend : Lexer.IsPunctuation ';' .semicolon := by decide
    have := hreturn.append (h.spells.append (hmore.spells.behind hend) rfl).blank rfl
    simpa [Node.renderEach, Node.render, Statements.tokens, Statement.tokens, ending, semicolon]
      using this

end RendersBody

/-- Every canonical program has a derivation that its source form spells. -/
theorem exists_rendersBody {ns : List Node} (h : Node.CanonicalBody ns) :
    ∃ ss, RendersBody ns ss := by
  fun_induction Node.CanonicalBody ns with
  | case1 => exact ⟨_, .nil⟩
  | case2 t expression =>
    obtain ⟨d, hd⟩ := exists_renders h
    exact ⟨_, .expression t hd⟩
  | case3 t name value more ih =>
    obtain ⟨⟨id, rfl, hname⟩, hvalue, hmore⟩ := h
    obtain ⟨d, hd⟩ := exists_renders hvalue
    obtain ⟨ss, hss⟩ := ih hmore
    exact ⟨_, .binding t hname hd hss⟩
  | case4 t value more ih =>
    obtain ⟨hvalue, hmore⟩ := h
    obtain ⟨d, hd⟩ := exists_renders hvalue
    obtain ⟨ss, hss⟩ := ih hmore
    exact ⟨_, .returning t hd hss⟩
  | case5 => exact h.elim

/-- A canonical program is read back from its source form: without a report, as the same tree and
with the same source form. -/
theorem ofSource_render (p : Program) (h : Node.CanonicalBody p.statements) :
    (Program.ofSource p.render).isClean = true ∧
      (Program.ofSource p.render).same p = true ∧
      (Program.ofSource p.render).render = p.render := by
  obtain ⟨ss, hss⟩ := exists_rendersBody h
  have hspells : Spells p.render.toList ss.tokens := by
    rw [Program.render, Program.node, Node.render]
    exact hss.spells
  obtain ⟨hclean, htrees⟩ := Grammar.Statements.read_source hss.valid rfl hspells.whole
  have hbare : Node.bareEach (Program.ofSource p.render).statements =
      Node.bareEach p.statements := by
    rw [← hss.bare, ← htrees, ← Node.unplacedEach_eq_map, Node.bareEach_unplaced]
  have hrender : Node.renderEach (Program.ofSource p.render).statements =
      Node.renderEach p.statements := by
    rw [← hss.render, ← htrees, ← Node.unplacedEach_eq_map, Node.renderEach_unplaced]
  refine ⟨hclean, ?_, ?_⟩
  · rw [Program.same, Node.sameTree_iff, Program.node, Program.node, Node.bare, Node.bare, hbare]
  · rw [Program.render, Program.node, Node.render, hrender, Program.render, Program.node,
      Node.render]

/-- The program `let x = (!([007, true][0]));`, whose one token says how the seven is written. -/
def negation : Program :=
  ⟨.unset,
    [.letStmt .unset (some ⟨.unset, "x"⟩) (.unary .unset "!" (.index .unset
      (.array .unset [.integer (.loose .int "007") 7, .boolean .unset true])
      (.integer .unset 0)))],
    []⟩

theorem canonicalBody_negation : Node.CanonicalBody negation.statements := by
  have hname : IsName "x" := by unfold IsName; decide
  have hseven : Node.Canonical (.integer (.loose .int "007") 7) := by
    rw [Node.Canonical]
    exact ⟨⟨by decide, by decide, by simp [Token.loose, Node.render]⟩, by decide, by decide⟩
  have hzero : Node.Canonical (.integer .unset 0) := Node.canonical_unset (Nat.zero_le _)
  simp only [negation, Node.CanonicalBody, Node.Canonical, Node.CanonicalEach]
  exact ⟨⟨_, rfl, hname⟩, ⟨.inl trivial, ⟨hseven, trivial, trivial⟩, hzero⟩, trivial⟩

theorem ofSource_render_negation : Node.CanonicalBody negation.statements ∧
    negation.render = "let x = (!([007, true][0]));" ∧
      (Program.ofSource negation.render).isClean = true ∧
      (Program.ofSource negation.render).same negation = true ∧
      (Program.ofSource negation.render).render = negation.render :=
  ⟨canonicalBody_negation, by decide, ofSource_render negation canonicalBody_negation⟩

end MonkeyLang
