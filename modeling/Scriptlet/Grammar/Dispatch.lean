import Scriptlet.Token.Kind
import Scriptlet.Tree.Operator

/-!
# What a token decides

The grammar is read with one token of lookahead, so every choice hangs on the kind
of that token. Which operator a token stands for is fixed. Which form of command or
of operand it opens is looked up in the tables of a `Dispatch`, which can be
changed; `Dispatch.standard` is that of the language.
-/

namespace Scriptlet

/-! ### Operators -/

namespace BinaryOp

/-- The operator that binds loosest. -/
def fallback? : TokenKind → Option BinaryOp
  | .symbol .ifNull => some .ifNull
  | _ => none

/-- Operators between conditions. -/
def logical? : TokenKind → Option BinaryOp
  | .symbol .and => some .and
  | .symbol .or => some .or
  | _ => none

/-- Operators that compare. -/
def relational? : TokenKind → Option BinaryOp
  | .symbol .less => some .lowerThan
  | .symbol .greater => some .greaterThan
  | .symbol .lessEquals => some .lowerEqual
  | .symbol .greaterEquals => some .greaterEqual
  | .symbol .equals => some .equal
  | .symbol .notEquals => some .notEqual
  | _ => none

/-- Operators of a sum. -/
def additive? : TokenKind → Option BinaryOp
  | .symbol .plus => some .add
  | .symbol .dash => some .sub
  | _ => none

/-- Operators of a product. -/
def multiplicative? : TokenKind → Option BinaryOp
  | .symbol .star => some .mul
  | .symbol .slash => some .div
  | .symbol .percent => some .mod
  | _ => none

end BinaryOp

namespace UnaryOp

/-- Operators that stand before their operand. -/
def before? : TokenKind → Option UnaryOp
  | .symbol .not => some .not
  | .symbol .dash => some .neg
  | .symbol .plusPlus => some .incBefore
  | .symbol .minusMinus => some .decBefore
  | _ => none

/-- Operators that stand after their operand. -/
def after? : TokenKind → Option UnaryOp
  | .symbol .plusPlus => some .incAfter
  | .symbol .minusMinus => some .decAfter
  | _ => none

end UnaryOp

/-- The built-in function that a keyword names. -/
def Builtin.ofKind? : TokenKind → Option Builtin
  | .keyword .readWord => some .read
  | .keyword .randomWord => some .random
  | .keyword .lengthWord => some .length
  | .keyword .keysWord => some .keys
  | .keyword .valuesWord => some .values
  | .keyword .toboolWord => some .tobool
  | .keyword .tointWord => some .toint
  | .keyword .tostrWord => some .tostr
  | _ => none

/-! ### Forms -/

/-- The forms of commands that a first token can decide. -/
inductive CommandForm where
  /-- A declaration: `var`, with or without `final`. -/
  | declaration
  /-- Printing: `print`. -/
  | print
  /-- An assertion: `assert`. -/
  | assertion
  /-- A conditional: `if`. -/
  | conditional
  /-- A loop that tests before each round: `while`. -/
  | whileLoop
  /-- A loop that tests after each round: `do`. -/
  | doWhileLoop
  /-- A round for each value of a list: `for`. -/
  | forLoop
  /-- An assignment, or an expression for its effect. -/
  | assignment
  deriving DecidableEq

/-- The forms of operands. -/
inductive OperandForm where
  /-- A literal. -/
  | constant
  /-- The call of a built-in function. -/
  | call
  /-- A variable, with any number of subscripts. -/
  | place
  /-- A list literal. -/
  | list
  /-- A map literal. -/
  | map
  deriving DecidableEq

/-- Which form each kind of token opens. -/
structure Dispatch where
  /-- The form of command that opens with a kind of token. -/
  command : TokenKind → Option CommandForm
  /-- The form of operand that opens with a kind of token. -/
  operand : TokenKind → Option OperandForm

namespace Dispatch

/-- No token opens anything. -/
def empty : Dispatch := ⟨fun _ => none, fun _ => none⟩

/-- The commands of the language. -/
def standardCommand? : TokenKind → Option CommandForm
  | .keyword .finalWord | .keyword .varWord => some .declaration
  | .keyword .printWord => some .print
  | .keyword .assertWord => some .assertion
  | .keyword .ifWord => some .conditional
  | .keyword .whileWord => some .whileLoop
  | .keyword .doWord => some .doWhileLoop
  | .keyword .forWord => some .forLoop
  | _ => none

/-- The operands of the language. -/
def standardOperand? (kind : TokenKind) : Option OperandForm :=
  match kind with
  | .keyword .nullWord | .keyword .falseWord | .keyword .trueWord | .number | .text =>
    some .constant
  | .name => some .place
  | .symbol .openBracket => some .list
  | .symbol .openCurly => some .map
  | _ => (Builtin.ofKind? kind).map fun _ => .call

/-- The tables of the language. -/
def standard : Dispatch := ⟨standardCommand?, standardOperand?⟩

/-- Adds the tables of the language, which win over what was there. -/
def addStandard (d : Dispatch) : Dispatch :=
  ⟨fun k => (standardCommand? k).or (d.command k), fun k => (standardOperand? k).or (d.operand k)⟩

/-- Lets a kind of token open a form of command. -/
def setCommand (d : Dispatch) (kind : TokenKind) (form : CommandForm) : Dispatch :=
  { d with command := fun k => if k = kind then some form else d.command k }

/-- Lets a kind of token open a form of operand. -/
def setOperand (d : Dispatch) (kind : TokenKind) (form : OperandForm) : Dispatch :=
  { d with operand := fun k => if k = kind then some form else d.operand k }

/-- How many kinds of token open a command by the table. -/
def commandCount (d : Dispatch) : Nat := TokenKind.all.countP fun k => (d.command k).isSome

/-- How many kinds of token open an operand. -/
def operandCount (d : Dispatch) : Nat := TokenKind.all.countP fun k => (d.operand k).isSome

/-- An expression can start with this kind of token. -/
def startsExpression (d : Dispatch) (kind : TokenKind) : Bool :=
  (UnaryOp.before? kind).isSome || kind = .symbol .openParen || (d.operand kind).isSome

/-- A command can start with this kind of token. -/
def startsCommand (d : Dispatch) (kind : TokenKind) : Bool :=
  (d.command kind).isSome || d.startsExpression kind

end Dispatch

end Scriptlet
