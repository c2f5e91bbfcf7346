/-!
# Operators and literals

What the leaves and the inner nodes of an expression are labelled with: literal
values, binary and unary operators, and the built-in functions. Each operator has
a spelling, which programs are printed with, and a label, which listings of trees
use.
-/

namespace Scriptlet

/-- The value of a constant. -/
inductive Literal where
  /-- The value that is none. -/
  | null
  /-- A truth value. -/
  | bool (value : Bool)
  /-- A signed number of 32 bits. -/
  | number (value : Int)
  /-- A text. -/
  | text (value : String)
  deriving DecidableEq

/-- Operators between two operands. -/
inductive BinaryOp where
  /-- The second operand if the first is null: `??`. -/
  | ifNull
  /-- Conjunction: `&&`. -/
  | and
  /-- Disjunction: `||`. -/
  | or
  /-- Comparison: `<`. -/
  | lowerThan
  /-- Comparison: `>`. -/
  | greaterThan
  /-- Comparison: `<=`. -/
  | lowerEqual
  /-- Comparison: `>=`. -/
  | greaterEqual
  /-- Equality: `==`. -/
  | equal
  /-- Inequality: `!=`. -/
  | notEqual
  /-- Addition: `+`. -/
  | add
  /-- Subtraction: `-`. -/
  | sub
  /-- Multiplication: `*`. -/
  | mul
  /-- Division: `/`. -/
  | div
  /-- Remainder: `%`. -/
  | mod
  deriving DecidableEq

/-- Operators on one operand. -/
inductive UnaryOp where
  /-- Negation of a truth value: `!`. -/
  | not
  /-- Negation of a number: `-`. -/
  | neg
  /-- Increment: `++` before the operand. -/
  | incBefore
  /-- Decrement: `--` before the operand. -/
  | decBefore
  /-- Increment: `++` after the operand. -/
  | incAfter
  /-- Decrement: `--` after the operand. -/
  | decAfter
  deriving DecidableEq

/-- The built-in functions, each of one argument. -/
inductive Builtin where
  /-- Reads a line of input. -/
  | read
  /-- Draws a number. -/
  | random
  /-- The length of a list, a map or a text. -/
  | length
  /-- The keys of a map. -/
  | keys
  /-- The values of a map. -/
  | values
  /-- Turns a value into a truth value. -/
  | tobool
  /-- Turns a value into a number. -/
  | toint
  /-- Turns a value into a text. -/
  | tostr
  deriving DecidableEq

namespace BinaryOp

/-- How the operator is written. -/
def spelling : BinaryOp → String
  | ifNull => "??"
  | and => "&&"
  | or => "||"
  | lowerThan => "<"
  | greaterThan => ">"
  | lowerEqual => "<="
  | greaterEqual => ">="
  | equal => "=="
  | notEqual => "!="
  | add => "+"
  | sub => "-"
  | mul => "*"
  | div => "/"
  | mod => "%"

/-- What the operator is called in a listing. -/
def label : BinaryOp → String
  | ifNull => "IfNull"
  | and => "And"
  | or => "Or"
  | lowerThan => "LowerThan"
  | greaterThan => "GreaterThan"
  | lowerEqual => "LowerEqual"
  | greaterEqual => "GreaterEqual"
  | equal => "Equal"
  | notEqual => "NotEqual"
  | add => "Add"
  | sub => "Sub"
  | mul => "Mul"
  | div => "Div"
  | mod => "Mod"

/-- All binary operators. -/
def all : List BinaryOp :=
  [ifNull, and, or, lowerThan, greaterThan, lowerEqual, greaterEqual, equal, notEqual, add, sub,
    mul, div, mod]

end BinaryOp

namespace UnaryOp

/-- How the operator is written. -/
def spelling : UnaryOp → String
  | not => "!"
  | neg => "-"
  | incBefore | incAfter => "++"
  | decBefore | decAfter => "--"

/-- The operator stands after its operand. -/
def standsAfter : UnaryOp → Bool
  | incAfter | decAfter => true
  | _ => false

/-- What the operator is called in a listing. -/
def label : UnaryOp → String
  | not => "Not"
  | neg => "Neg"
  | incBefore => "PreInc"
  | decBefore => "PreDec"
  | incAfter => "PosInc"
  | decAfter => "PosDec"

/-- All unary operators. -/
def all : List UnaryOp := [not, neg, incBefore, decBefore, incAfter, decAfter]

end UnaryOp

namespace Builtin

/-- How the function is written. -/
def spelling : Builtin → String
  | read => "read"
  | random => "random"
  | length => "length"
  | keys => "keys"
  | values => "values"
  | tobool => "tobool"
  | toint => "toint"
  | tostr => "tostr"

/-- What the function is called in a listing. -/
def label : Builtin → String
  | read => "Read"
  | random => "Random"
  | length => "Length"
  | keys => "Keys"
  | values => "Values"
  | tobool => "ToBool"
  | toint => "ToInt"
  | tostr => "ToStr"

/-- All built-in functions. -/
def all : List Builtin := [read, random, length, keys, values, tobool, toint, tostr]

end Builtin

end Scriptlet
