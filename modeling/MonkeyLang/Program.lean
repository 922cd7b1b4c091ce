import MonkeyLang.Node.Render
import MonkeyLang.Node.Same
import MonkeyLang.Program.Phrase.Reader
import MonkeyLang.Token.Lexer

/-!
Programs: the statements read from a whole token list, with everything that was reported on the
way. A program is clean if nothing was.
-/

namespace MonkeyLang

structure Program where
  token : Token
  statements : List Node
  diagnostics : List Diagnostic

namespace Program

/-- Reads a token list, up to its first token of kind `eof` that begins no phrase. -/
def ofTokens (tokens : List Token) : Program :=
  let start := Cursor.ofTokens tokens
  let body := Phrase.statements 0 start
  ⟨start.cur, body.value, body.reports⟩

def ofSource (source : String) : Program := ofTokens (tokenize source)

def node (p : Program) : Node := .program p.token p.statements

def render (p : Program) : String := p.node.render

def errors (p : Program) : List String := p.diagnostics.map (·.message)

def isClean (p : Program) : Bool := p.diagnostics.isEmpty

/-- The programs have the same tree, tokens aside. -/
def same (p q : Program) : Bool := p.node.sameTree q.node

end Program

end MonkeyLang
