import Scriptlet.Text.Notation
import Scriptlet.Tree.Basic
import Scriptlet.Variable

/-!
# Printing programs

The source text of a tree. Every binary operation and every operand of a unary
operator stands in parentheses, so no precedence is left to be known when the text
is read again. Commands are printed in lines: a body in braces opens on the line of
its header, any other body stands below, one level in.

Two texts would be read as something else, and are kept from it. A map that stands
as a command would open with a brace, and is put in parentheses. The first body of
a conditional with an `else` is put in braces if it ends in a conditional without
one, which would take the `else` for itself.
-/

namespace Scriptlet

open Text (separated unlines indented hang braced)

/-- How a literal is written. -/
def Literal.spelling : Literal → String
  | null => "null"
  | bool true => "true"
  | bool false => "false"
  | number n => Text.Decimal.spelling n
  | text s => Text.Quoted.encode s

/-! ### Expressions -/

mutual

/-- The source text of an expression. -/
def Expr.render : Expr Variable → String
  | .const value _ => value.spelling
  | .binary op left right _ =>
    "(" ++ left.render ++ " " ++ op.spelling ++ " " ++ right.render ++ ")"
  | .unary op operand _ =>
    if op.standsAfter then "(" ++ operand.render ++ ")" ++ op.spelling
    else op.spelling ++ "(" ++ operand.render ++ ")"
  | .call function argument _ => function.spelling ++ "(" ++ argument.render ++ ")"
  | .var v _ => v.name
  | .index base subscript _ => base.render ++ "[" ++ subscript.render ++ "]"
  | .list elements _ => "[" ++ separated ", " (Expr.renderElements elements) ++ "]"
  | .map entries _ => "\x7b" ++ separated ", " (Expr.renderEntries entries) ++ "\x7d"

/-- The source text of an element of a list. -/
def Element.render : Element Variable → String
  | .single value => value.render
  | .spread value => "..." ++ value.render
  | .cond condition thenElement none _ =>
    "if (" ++ condition.render ++ ") " ++ thenElement.render
  | .cond condition thenElement (some elseElement) _ =>
    "if (" ++ condition.render ++ ") " ++ thenElement.render ++ " else " ++ elseElement.render
  | .each v iterable element _ =>
    "for (" ++ v.name ++ " in " ++ iterable.render ++ ") " ++ element.render

/-- The source text of each element. -/
def Expr.renderElements : List (Element Variable) → List String
  | [] => []
  | element :: rest => element.render :: Expr.renderElements rest

/-- The source text of each entry of a map. -/
def Expr.renderEntries : List (Expr Variable × Expr Variable) → List String
  | [] => []
  | (key, value) :: rest => (key.render ++ ": " ++ value.render) :: Expr.renderEntries rest

end

/-- The source text of an expression that stands as a command. -/
def Expr.renderAlone (e : Expr Variable) : String :=
  match e with
  | .map .. => "(" ++ e.render ++ ")"
  | _ => e.render

/-! ### Declarations -/

/-- The value that a command gives a variable, if it is an assignment to it. -/
def Command.initialValue? (v : Variable) : Command Variable → Option (Expr Variable)
  | .assign (some (.var w _)) value _ => if w.slot = v.slot then some value else none
  | _ => none

/-- A declared name, with the first value that the commands of its block give it. -/
def Variable.renderDeclared (body : List (Command Variable)) (v : Variable) : String :=
  match body.findSome? (Command.initialValue? v) with
  | some value => v.name ++ " = " ++ value.render
  | none => v.name

/-- The words before the names of a declaration, which the first variable decides. -/
def Block.declarationHead (declares : List Variable) : String :=
  match declares with
  | [] => ""
  | first :: _ =>
    (if first.constant then "final " else "") ++ "var " ++ (if first.isNullable then "?" else "")

/-- The source text of a declaration. -/
def Block.renderDeclaration (body : List (Command Variable)) (declares : List Variable) : String :=
  Block.declarationHead declares ++
    separated ", " (declares.map (Variable.renderDeclared body)) ++ ";"

/-! ### Commands -/

/-- The lines of a body under its header. A block in braces opens on the line of
the header, and so does any other body that is to be put in braces. -/
def Command.underHeader (header : String) (body : Command Variable) (inBraces : Bool)
    (lines : List String) : List String :=
  if body.isBraced then hang header lines
  else if inBraces then hang header (braced lines)
  else header :: indented lines

mutual

/-- The lines of a command. -/
def Command.lines : Command Variable → List String
  | .block ⟨body, declares, _⟩ =>
    if declares.isEmpty then braced (Block.linesOf body)
    else [Block.renderDeclaration body declares]
  | .assign none value _ => [value.renderAlone ++ ";"]
  | .assign (some target) value _ => [target.toExpr.render ++ " = " ++ value.render ++ ";"]
  | .print none _ => ["print();"]
  | .print (some value) _ => ["print(" ++ value.render ++ ");"]
  | .assert condition none _ => ["assert(" ++ condition.render ++ ");"]
  | .assert condition (some message) _ =>
    ["assert(" ++ condition.render ++ ", " ++ message.render ++ ");"]
  | .cond condition thenBody none _ =>
    Command.underHeader ("if (" ++ condition.render ++ ")") thenBody false thenBody.lines
  | .cond condition thenBody (some elseBody) _ =>
    Command.underHeader ("if (" ++ condition.render ++ ")") thenBody thenBody.hasDanglingIf
        thenBody.lines ++
      Command.underHeader "else" elseBody false elseBody.lines
  | .whileDo condition body _ =>
    Command.underHeader ("while (" ++ condition.render ++ ")") body false body.lines
  | .doWhile body condition _ =>
    Command.underHeader "do" body false body.lines ++ ["while (" ++ condition.render ++ ");"]
  | .each v iterable body _ =>
    Command.underHeader ("for (" ++ v.name ++ " in " ++ iterable.render ++ ")") body false
      body.lines

/-- The lines of commands in order. -/
def Block.linesOf : List (Command Variable) → List String
  | [] => []
  | c :: rest => c.lines ++ Block.linesOf rest

end

/-- The source text of a command, without a line end after it. -/
def Command.render (c : Command Variable) : String := separated "\n" c.lines

/-- The source text of a program, which is a block without braces. -/
def Block.render (b : Block Variable) : String := unlines (Block.linesOf b.body)

end Scriptlet
