/-!
What is shown of a program that did not come to a value.
-/

namespace MonkeyLang.Report

def tooDeep : String := "maximum recursion depth exceeded"

def failure (message : String) : String := "Error: " ++ message

def summary (errors : List String) : String :=
  if errors.isEmpty then "parse failed" else "; ".intercalate errors

/-- One diagnostic in each line, set in by a tab. -/
def listing (errors : List String) : String :=
  "\n".intercalate (errors.map ("\t" ++ ·))

end MonkeyLang.Report
