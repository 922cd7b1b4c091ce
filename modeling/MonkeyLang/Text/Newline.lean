/-!
Line ends. A file may end its lines with a line feed, a carriage return or both.
-/

namespace MonkeyLang.Text

/-- Ends every line with a line feed alone. -/
def unifyNewlines : List Char → List Char
  | [] => []
  | '\r' :: '\n' :: cs => '\n' :: unifyNewlines cs
  | '\r' :: cs => '\n' :: unifyNewlines cs
  | c :: cs => c :: unifyNewlines cs

theorem not_mem_unifyNewlines (cs : List Char) : '\r' ∉ unifyNewlines cs := by
  fun_induction unifyNewlines cs with
  | case1 => simp
  | case2 _ ih => simpa using ih
  | case3 _ _ ih => simpa using ih
  | case4 c cs _ h ih =>
    have hc : '\r' ≠ c := fun e => h e.symm
    simp [ih, hc]

end MonkeyLang.Text
