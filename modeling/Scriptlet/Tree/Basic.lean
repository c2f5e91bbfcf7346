import Scriptlet.Tree.Operator

/-!
# Syntax trees

The tree of a program: commands over expressions, and the elements of list
literals. Every node knows the line it was recorded on. The type `ν` is what a
tree keeps where the program names a variable: the variable itself once names are
resolved, or less.

A declaration is a block that lists what it declares and holds an assignment for
each initial value; every other block declares nothing.
-/

namespace Scriptlet

mutual

/-- Expressions. -/
inductive Expr (ν : Type) where
  /-- A constant. -/
  | const (value : Literal) (line : Nat)
  /-- An operator between two operands. -/
  | binary (op : BinaryOp) (left right : Expr ν) (line : Nat)
  /-- An operator before or after its operand. -/
  | unary (op : UnaryOp) (operand : Expr ν) (line : Nat)
  /-- The call of a built-in function. -/
  | call (function : Builtin) (argument : Expr ν) (line : Nat)
  /-- A variable. -/
  | var (v : ν) (line : Nat)
  /-- An entry of a list or a map. -/
  | index (base subscript : Expr ν) (line : Nat)
  /-- A list literal. -/
  | list (elements : List (Element ν)) (line : Nat)
  /-- A map literal: keys with their values. -/
  | map (entries : List (Expr ν × Expr ν)) (line : Nat)

/-- The elements of a list literal. -/
inductive Element (ν : Type) where
  /-- One value. -/
  | single (value : Expr ν)
  /-- All values of a list. -/
  | spread (value : Expr ν)
  /-- One element or another. -/
  | cond (condition : Expr ν) (thenElement : Element ν) (elseElement : Option (Element ν))
    (line : Nat)
  /-- An element for each value of a list. -/
  | each (v : ν) (iterable : Expr ν) (element : Element ν) (line : Nat)

end

/-- What can be assigned to. -/
inductive Target (ν : Type) where
  /-- A variable. -/
  | var (v : ν) (line : Nat)
  /-- An entry of a list or a map. -/
  | index (base subscript : Expr ν) (line : Nat)

mutual

/-- Commands. -/
inductive Command (ν : Type) where
  /-- A block, or a declaration. -/
  | block (block : Block ν)
  /-- An assignment, or without a target an expression for its effect. -/
  | assign (target : Option (Target ν)) (value : Expr ν) (line : Nat)
  /-- Prints a value, or an empty line. -/
  | print (value : Option (Expr ν)) (line : Nat)
  /-- Checks a condition. -/
  | assert (condition : Expr ν) (message : Option (Expr ν)) (line : Nat)
  /-- One command or another. -/
  | cond (condition : Expr ν) (thenBody : Command ν) (elseBody : Option (Command ν)) (line : Nat)
  /-- A loop that tests before each round. -/
  | whileDo (condition : Expr ν) (body : Command ν) (line : Nat)
  /-- A loop that tests after each round. -/
  | doWhile (body : Command ν) (condition : Expr ν) (line : Nat)
  /-- A round for each value of a list. -/
  | each (v : ν) (iterable : Expr ν) (body : Command ν) (line : Nat)

/-- Commands in order, with the variables that they declare together. -/
structure Block (ν : Type) where
  /-- The commands. -/
  body : List (Command ν)
  /-- What the block declares: nothing, unless it is a declaration. -/
  declares : List ν
  /-- The line it starts on. -/
  line : Nat

end

variable {ν : Type}

/-- The block is a declaration. -/
def Block.isDeclaration (b : Block ν) : Bool := !b.declares.isEmpty

namespace Expr

/-- What kind of expression it is, in a listing. -/
def label : Expr ν → String
  | const .. => "Const"
  | binary .. => "Binary"
  | unary .. => "Unary"
  | call .. => "Function"
  | var .. => "Variable"
  | index .. => "Index"
  | list .. => "List"
  | map .. => "Map"

/-- The line an expression was recorded on. -/
def line : Expr ν → Nat
  | const _ l | binary _ _ _ l | unary _ _ l | call _ _ l | var _ l | index _ _ l | list _ l
  | map _ l => l

/-- The expression as a target, if it can be assigned to. -/
def target? : Expr ν → Option (Target ν)
  | var v l => some (.var v l)
  | index b s l => some (.index b s l)
  | _ => none

end Expr

namespace Target

/-- A target as an expression. -/
def toExpr : Target ν → Expr ν
  | var v l => .var v l
  | index b s l => .index b s l

/-- What kind of target it is, in a listing. -/
def label (t : Target ν) : String := t.toExpr.label

/-- The line a target was recorded on. -/
def line (t : Target ν) : Nat := t.toExpr.line

@[simp] theorem target?_toExpr (t : Target ν) : t.toExpr.target? = some t := by
  cases t <;> rfl

end Target

namespace Command

/-- The line a command was recorded on. -/
def line : Command ν → Nat
  | block b => b.line
  | assign _ _ l | print _ l | assert _ _ l | cond _ _ _ l | whileDo _ _ l | doWhile _ _ l
  | each _ _ _ l => l

/-- The command is a block in braces. -/
def isBraced : Command ν → Bool
  | block b => !b.isDeclaration
  | _ => false

/-- An `else` written after the command would belong to a conditional inside it. -/
def hasDanglingIf : Command ν → Bool
  | cond _ _ none _ => true
  | cond _ _ (some elseBody) _ => elseBody.hasDanglingIf
  | whileDo _ body _ => body.hasDanglingIf
  | each _ _ body _ => body.hasDanglingIf
  | _ => false

end Command

end Scriptlet
