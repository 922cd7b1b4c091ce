import MonkeyLang.Proofs.Grammar.Source
import MonkeyLang.Proofs.Value
import MonkeyLang.Proofs.Word

/-!
Plain data and how it is written. A number is written as a numeral behind a minus sign or none, a
truth value as a word, a list as what is in it between brackets; so the text of data spells tokens
that the data determines (`tokens`). They are those of a literal, but for one number: the numeral of
the least word is greater than any literal.
-/

namespace MonkeyLang

open Token (Kind)
open Lexer (Spells)

namespace Value

/-! ## Data -/

def Key.IsData : Key → Prop
  | .integer n => Word.InRange n
  | .boolean _ => True
  | .string _ => False

mutual

/-- Signed words and truth values, arrays of data, and hashes of data with words and truth values
for keys, each key in a slot of its own. -/
def IsData : Value → Prop
  | integer n => Word.InRange n
  | boolean _ => True
  | array _ vs => IsDataEach vs
  | hash _ es => IsDataEntries es ∧ (es.map (·.1.slot)).Nodup
  | _ => False

def IsDataEach : List Value → Prop
  | [] => True
  | v :: vs => v.IsData ∧ IsDataEach vs

def IsDataEntries : List (Key × Value) → Prop
  | [] => True
  | (k, v) :: es => k.IsData ∧ v.IsData ∧ IsDataEntries es

end

mutual

/-- The value with the identities of its arrays and hashes forgotten: data is structurally equal if
it is the same without them. -/
def anonymous : Value → Value
  | array _ vs => array 0 (anonymousEach vs)
  | hash _ es => hash 0 (anonymousEntries es)
  | v => v

def anonymousEach : List Value → List Value
  | [] => []
  | v :: vs => v.anonymous :: anonymousEach vs

def anonymousEntries : List (Key × Value) → List (Key × Value)
  | [] => []
  | (k, v) :: es => (k, v.anonymous) :: anonymousEntries es

end

mutual

/-- How deep data is nested, where a number counts for its sign too. -/
def depth : Value → Nat
  | array _ vs => depthEach vs + 1
  | hash _ es => depthEntries es + 1
  | _ => 2

def depthEach : List Value → Nat
  | [] => 0
  | v :: vs => max v.depth (depthEach vs)

def depthEntries : List (Key × Value) → Nat
  | [] => 2
  | (_, v) :: es => max v.depth (depthEntries es)

end

/-! ## Texts -/

/-- The tokens of a number: a numeral, behind a minus sign if it is negative. -/
def integerTokens (n : Int) : List Token :=
  if n < 0 then [.loose .minus "-", .loose .int n.natAbs.repr] else [.loose .int n.natAbs.repr]

def booleanToken (b : Bool) : Token := if b then .loose .kwTrue "true" else .loose .kwFalse "false"

def Key.tokens : Key → List Token
  | .integer n => integerTokens n
  | .boolean b => [booleanToken b]
  | .string _ => []

mutual

def tokens : Value → List Token
  | integer n => integerTokens n
  | boolean b => [booleanToken b]
  | array _ vs => .loose .lbracket "[" :: ([Lexer.comma].intercalate (tokensEach vs) ++
    [.loose .rbracket "]"])
  | hash _ es => .loose .lbrace "\x7b" :: ([Lexer.comma].intercalate (tokensEntries es) ++
    [.loose .rbrace "\x7d"])
  | _ => []

def tokensEach : List Value → List (List Token)
  | [] => []
  | v :: vs => v.tokens :: tokensEach vs

def tokensEntries : List (Key × Value) → List (List Token)
  | [] => []
  | (k, v) :: es => (k.tokens ++ Grammar.colon :: v.tokens) :: tokensEntries es

end

theorem natAbs_le {n : Int} (h : Word.InRange n) : n.natAbs ≤ 0x8000000000000000 := by
  obtain ⟨hleast, hgreatest⟩ := h
  simp only [Word.least, Word.greatest] at hleast hgreatest
  omega

theorem spells_integer {n : Int} (h : Word.InRange n) :
    Spells (toString n).toList (integerTokens n) := by
  have hdigits := Lexer.spells_digits (Numeral.digits_repr (natAbs_le h))
  have hminus : Lexer.IsPunctuation '-' .minus := by decide
  unfold integerTokens
  cases n with
  | ofNat n => exact hdigits
  | negSucc n =>
    have htext : toString (Int.negSucc n) = "-" ++ (Int.negSucc n).natAbs.repr := rfl
    rw [if_pos (Int.negSucc_lt_zero n), htext, String.toList_append]
    exact hdigits.behind hminus

theorem spells_boolean (b : Bool) :
    Spells (if b then "true" else "false" : String).toList [booleanToken b] := by
  cases b with
  | true => exact @Lexer.spells_keyword "true" .kwTrue (by decide)
  | false => exact @Lexer.spells_keyword "false" .kwFalse (by decide)

theorem Key.spells {k : Key} (h : k.IsData) : Spells k.inspect.toList k.tokens := by
  cases k with
  | integer n => exact spells_integer h
  | boolean b => exact spells_boolean b
  | string s => exact h.elim

mutual

/-- Data is written with its tokens. -/
theorem spells_inspect : ∀ {v : Value}, v.IsData → Spells v.inspect.toList v.tokens
  | integer n, h => by
    rw [IsData] at h
    rw [inspect, tokens]
    exact spells_integer h
  | boolean b, _ => by
    rw [inspect, tokens]
    exact spells_boolean b
  | array id vs, h => by
    rw [IsData] at h
    have hclose : Lexer.IsPunctuation ']' .rbracket := by decide
    have hopen : Lexer.IsPunctuation '[' .lbracket := by decide
    rw [inspect, tokens, String.toList_append, String.toList_append]
    exact ((Spells.list (spells_inspectEach h)).before hclose).behind hopen
  | hash id es, h => by
    rw [IsData] at h
    have hclose : Lexer.IsPunctuation '\x7d' .rbrace := by decide
    have hopen : Lexer.IsPunctuation '\x7b' .lbrace := by decide
    rw [inspect, tokens, String.toList_append, String.toList_append]
    exact ((Spells.list (spells_inspectEntries h.1)).before hclose).behind hopen
  | string _, h | null, h | function _ _ _ _, h | builtin _, h | registered _ _ _, h | error _ _, h
  | returned _ _, h => by
    simp only [IsData] at h

theorem spells_inspectEach : ∀ {vs : List Value}, IsDataEach vs →
    List.Forall₂ (fun x ts => Spells x.toList ts) (inspectEach vs) (tokensEach vs)
  | [], _ => .nil
  | v :: vs, h => by
    rw [IsDataEach] at h
    exact .cons (spells_inspect h.1) (spells_inspectEach h.2)

theorem spells_inspectEntries : ∀ {es : List (Key × Value)}, IsDataEntries es →
    List.Forall₂ (fun x ts => Spells x.toList ts) (inspectEntries es) (tokensEntries es)
  | [], _ => .nil
  | (k, v) :: es, h => by
    rw [IsDataEntries] at h
    obtain ⟨hk, hv, hes⟩ := h
    have hcolon : Lexer.IsPunctuation ':' .colon := by decide
    have hentry := (Key.spells hk).append ((spells_inspect hv).blank.behind hcolon) rfl
    refine .cons ?_ (spells_inspectEntries hes)
    simpa [Grammar.colon] using hentry

end

end Value

end MonkeyLang
