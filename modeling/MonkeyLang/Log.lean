import MonkeyLang.Console
import MonkeyLang.Program
import MonkeyLang.Text.Quoted

/-!
Debugging records: what the lexer, the parser and the runner have to say of a source. Each names
the part that wrote it.
-/

namespace MonkeyLang.Log

def record (part message : String) : Write :=
  .errorLine ("[DEBUG] monkey." ++ part ++ ": " ++ message)

/-- One record for each character that is no token. -/
def ofTokens (tokens : List Token) : Output :=
  (tokens.filter (·.kind == .illegal)).map fun t =>
    record "lexer" ("illegal character " ++ Text.quoted t.literal ++ " at " ++ t.pos.text)

/-- One record for each diagnostic, and one for the whole program. -/
def ofProgram (p : Program) : Output :=
  (p.diagnostics.map fun d =>
    record "parser" ("parse error at " ++ d.pos.text ++ ": " ++ d.message)) ++
  [record "runner" ("parsed " ++ toString p.statements.length ++ " statement(s), " ++
    toString p.diagnostics.length ++ " diagnostic(s)")]

def ofSource (source : String) : Output :=
  let tokens := tokenize source
  ofTokens tokens ++ ofProgram (Program.ofTokens tokens)

def ofLine (text : String) : Output :=
  [record "repl" ("evaluating " ++ toString text.length ++ " chars")]

end MonkeyLang.Log
