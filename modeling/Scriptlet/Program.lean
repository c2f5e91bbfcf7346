import Scriptlet.Grammar.Nonterminal

/-!
# Programs

A program is commands up to the end of the input. Reading one gives its tree or the
first diagnostic, and the parser as it was left, whose symbol table holds the
variables found so far.
-/

namespace Scriptlet

/-- Commands, and then the end of the input. -/
def Grammar.program {σ ν : Type} [Scoping σ ν] : Rule σ (Block ν) := do
  let block ← Grammar.code Inner.full
  let _ ← Rule.expect .endOfInput
  pure block

/-- Reads a program from a source of tokens. -/
def parse (source : TokenSource) (file : String) (mode : ScopeMode) :
    Except Diagnostic (Block Variable) × Parser SymbolTable :=
  Grammar.program (Parser.start source file (SymbolTable.empty mode) .standard)

/-- Reads a program from its text. -/
def parseText (text file : String) (mode : ScopeMode) :
    Except Diagnostic (Block Variable) × Parser SymbolTable :=
  parse (.ofText text) file mode

end Scriptlet
