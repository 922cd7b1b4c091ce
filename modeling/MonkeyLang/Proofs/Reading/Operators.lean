import MonkeyLang.Proofs.Lexing.Layout
import MonkeyLang.Proofs.Reading.Tree

/-!
The operators in what is read. They are taken from the texts of tokens, and a token that can stand
as an operator has one of a few spellings. So even the tree of a broken source has no other
operators in it than those of the language.
-/

namespace MonkeyLang

open Token (Kind)

namespace Lexer

/-- Only what has a spelling of its own binds operands or negates one. -/
theorem Fits.mem_spellings {k : Kind} {w : List Char} (h : Fits k w)
    (hk : 0 < k.precedence.rank ∨ k = .bang) : (w, k) ∈ spellings := by
  have hkeyword : ∀ e ∈ Kind.keywords, ¬(0 < e.2.precedence.rank ∨ e.2 = .bang) := by decide
  cases h with
  | operator hmem => exact hmem
  | keyword hmem => exact absurd hk (hkeyword _ hmem)
  | _ => exact absurd hk (by decide)

/-- A token that stands before its operand is a sign. -/
theorem sign_of_fits {k : Kind} {literal : String} (h : Fits k literal.toList)
    (hk : k = .bang ∨ k = .minus) : literal = "!" ∨ literal = "-" := by
  have hsign : ∀ e ∈ spellings, e.2 = .bang ∨ e.2 = .minus →
      String.ofList e.1 = "!" ∨ String.ofList e.1 = "-" := by decide
  have hmem := h.mem_spellings (hk.symm.imp (fun heq => by rw [heq]; decide) id)
  simpa using hsign _ hmem hk

/-- A token that stands between its operands is an operator. -/
theorem operator_of_fits {k : Kind} {literal : String} (h : Fits k literal.toList)
    (hrank : 0 < k.precedence.rank) (hcall : k ≠ .lparen) (hbracket : k ≠ .lbracket) :
    literal ∈ operators.map Prod.fst := by
  have hoperator : ∀ e ∈ spellings, 0 < e.2.precedence.rank → e.2 ≠ .lparen → e.2 ≠ .lbracket →
      String.ofList e.1 ∈ operators.map Prod.fst := by decide
  have hliteral := hoperator _ (h.mem_spellings (.inl hrank)) hrank hcall hbracket
  rwa [String.ofList_toList] at hliteral

end Lexer

/-- The operator of the node, if it has one, is one of the language. -/
def Node.Speaks : Node → Prop
  | unary _ op _ => op = "!" ∨ op = "-"
  | binary _ _ op _ => op ∈ Lexer.operators.map Prod.fst
  | _ => True

/-- Whatever is broken in a source, its tree has no other operators in it than the eight between
operands and the two signs. -/
theorem Program.speaks_ofSource (source : String) :
    (Program.ofSource source).node.Each Node.Speaks := by
  let T (t : Token) : Prop :=
    t.kind ≠ .eof → t.kind ≠ .illegal → Lexer.Fits t.kind t.literal.toList
  have heof : ∀ pos, T (.eof pos) := fun _ hreal => absurd rfl hreal
  have hforms : Phrase.Forms (·.All T) Node.Speaks := by
    refine ⟨fun c => .advance heof, fun _ _ _ _ _ _ => trivial, fun c e hc hk _ => ?_,
      fun c l r hc hrank hcall hbracket _ _ => ?_, fun n hn _ => ?_⟩
    · refine Lexer.sign_of_fits (hc c.cur List.mem_cons_self ?_ ?_) hk <;>
        rcases hk with hk | hk <;> simp [hk]
    · have hne : ∀ k : Kind, ¬0 < k.precedence.rank → c.cur.kind ≠ k :=
        fun k hk heq => hk (heq ▸ hrank)
      exact Lexer.operator_of_fits
        (hc c.cur List.mem_cons_self (hne _ (by decide)) (hne _ (by decide))) hrank hcall hbracket
    · cases n with
      | unary _ _ _ | binary _ _ _ _ => cases hn
      | _ => trivial
  exact Phrase.each_of_forms hforms
    (Cursor.all_ofTokens heof fun t ht => Lexer.fits_of_mem_scan ht)

end MonkeyLang
