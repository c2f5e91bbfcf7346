import Scriptlet.Text.Notation

/-!
# Diagnostics

Why a program is refused, and where. A `Fault` is a cause with the data that its
message needs; a `Diagnostic` puts it at a `Position`.
-/

namespace Scriptlet

/-- A line of a file. -/
structure Position where
  /-- The line, counted from one. -/
  line : Nat
  /-- The name of the file. -/
  file : String
  deriving DecidableEq

/-- The position of what is in no file. -/
def Position.nowhere : Position := ⟨0, "<null>"⟩

/-- A position as it is shown. -/
def Position.text (p : Position) : String := p.file ++ ":" ++ p.line.repr

/-- Why a program is refused. -/
inductive Fault where
  /-- A lexeme is not one of the language. -/
  | invalidLexeme (text : String)
  /-- The input ends where it must go on. -/
  | unexpectedEnd
  /-- A token stands where it may not. -/
  | unexpectedLexeme (text : String)
  /-- A name is declared twice in one scope. -/
  | duplicateDeclaration (name : String)
  /-- A name is used that is not declared. -/
  | undeclaredName (name : String)
  /-- An expression that cannot be assigned to stands before `=`. -/
  | invalidTarget (description : String)
  /-- More constructs are open at once than the limit allows. -/
  | tooDeep (limit : Nat)
  deriving DecidableEq

namespace Fault

/-- The name of the kind of fault. -/
def label : Fault → String
  | invalidLexeme _ => "LexicalError"
  | unexpectedEnd => "UnexpectedEndOfInput"
  | unexpectedLexeme _ => "UnexpectedToken"
  | duplicateDeclaration _ => "DuplicateDeclaration"
  | undeclaredName _ => "UndeclaredName"
  | invalidTarget _ => "InvalidAssignmentTarget"
  | tooDeep _ => "NestingTooDeep"

/-- What is said of a fault. -/
def message : Fault → String
  | invalidLexeme text => "Invalid lexeme [" ++ text ++ "]"
  | unexpectedEnd => "Unexpected end of file"
  | unexpectedLexeme text => "Unexpected lexeme [" ++ text ++ "]"
  | duplicateDeclaration name => "Duplicate declaration [" ++ name ++ "]"
  | undeclaredName name => "Undeclared name [" ++ name ++ "]"
  | invalidTarget description => "Invalid assignment target [" ++ description ++ "]"
  | tooDeep limit => "Nesting deeper than " ++ limit.repr ++ " levels"

/-- A suggestion for mending a fault, where there is one. -/
def tip? : Fault → Option String
  | invalidLexeme _ => none
  | unexpectedEnd => some "is a closing `)`, `]`, `\x7d` or `\"` missing?"
  | unexpectedLexeme text =>
    some ("Unexpected token: `" ++ text ++ "`, did you miss a semicolon?")
  | duplicateDeclaration name =>
    some ("Variable `" ++ name ++ "` already declared, assign to it instead")
  | undeclaredName name =>
    some ("Variable `" ++ name ++ "` not declared, add `var " ++ name ++
      ";` before its first use")
  | invalidTarget description =>
    some ("Cannot assign to " ++ description ++
      ", only variables and indexed elements can be assigned")
  | tooDeep limit =>
    some ("At most " ++ limit.repr ++
      " nested expressions, statements or list clauses are allowed")

end Fault

/-- A fault at its place. -/
structure Diagnostic where
  /-- What is wrong. -/
  fault : Fault
  /-- Where it was noticed. -/
  position : Position
  deriving DecidableEq

/-- The line that reports a diagnostic. -/
def Diagnostic.report (d : Diagnostic) : String :=
  Text.Decimal.twoDigits d.position.line ++ ": " ++ d.fault.message

end Scriptlet
