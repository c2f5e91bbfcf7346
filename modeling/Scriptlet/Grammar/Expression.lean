import Scriptlet.Grammar.Rule
import Scriptlet.Text.Notation
import Scriptlet.Tree.Basic

/-!
# Expressions and list elements

The rules for expressions are stacked by how tightly operators bind:

    expression  ::=  condition [ ?? condition ]
    condition   ::=  comparison { (&& | ||) comparison }
    comparison  ::=  sum [ (< | > | <= | >= | == | !=) sum ]
    sum         ::=  product { (+ | -) product }
    product     ::=  signed { (* | / | %) signed }
    signed      ::=  [ ! | - | ++ | -- ] factor
    factor      ::=  ( '(' expression ')' | operand ) [ ++ | -- ]
    operand     ::=  constant | call | place | list | map

Each rule takes the rules for the phrases that may stand inside it, so that what is
nested is read one level deeper (`Inner`).

The line of an operator's node is the line that has been read up to once the
operator is taken, which is where the token behind it ends.
-/

namespace Scriptlet

/-- The rules for the phrases inside a phrase. -/
structure Inner (σ ν : Type) where
  /-- An expression. -/
  expression : Rule σ (Expr ν)
  /-- An element of a list. -/
  element : Rule σ (Element ν)
  /-- A command. -/
  command : Rule σ (Command ν)

/-- The literal that a token stands for, or what is wrong with it. -/
def Literal.ofToken (t : Token) : Except Fault Literal :=
  match t.kind with
  | .keyword .nullWord => .ok .null
  | .keyword .falseWord => .ok (.bool false)
  | .keyword .trueWord => .ok (.bool true)
  | .number =>
    match Text.Decimal.number? t.value with
    | some n => .ok (.number n)
    | none => .error (.invalidLexeme t.value)
  | .text => .ok (.text t.value)
  | _ => .error (.unexpectedLexeme t.value)

namespace Grammar

open Rule

variable {σ ν : Type}

/-! ### Operators -/

/-- Takes an operator, and gives the line for its node. -/
def operator : Rule σ Nat := do
  let _ ← advance
  reached

/-- Goes on from a left operand with an operator of a level and a right operand, if
such an operator follows. -/
def operation? (op? : TokenKind → Option BinaryOp) (operand : Rule σ (Expr ν)) (left : Expr ν) :
    Rule σ (Option (Expr ν)) := do
  match op? (← kind) with
  | none => pure none
  | some op =>
    let line ← operator
    let right ← operand
    pure (some (.binary op left right line))

/-- Operands with operators of a level between them, from the left. -/
def chain (op? : TokenKind → Option BinaryOp) (operand : Rule σ (Expr ν)) : Rule σ (Expr ν) := do
  let first ← operand
  grow (operation? op? operand) first

/-- One operand, or two with an operator of a level between them. -/
def pair (op? : TokenKind → Option BinaryOp) (operand : Rule σ (Expr ν)) : Rule σ (Expr ν) := do
  let left ← operand
  match ← operation? op? operand left with
  | none => pure left
  | some e => pure e

/-! ### Operands -/

/-- A literal. -/
def constant : Rule σ (Expr ν) := do
  let token ← advance
  match Literal.ofToken token with
  | .ok value => pure (.const value token.line)
  | .error fault => failAt fault token.line

variable (inner : Inner σ ν)

/-- The call of a built-in function. -/
def call : Rule σ (Expr ν) := do
  let token ← advance
  match Builtin.ofKind? token.kind with
  | none => failAt (.unexpectedLexeme token.value) token.line
  | some function =>
    let argument ← parenthesized inner.expression
    pure (.call function argument token.line)

/-- Goes on from a place with a subscript, if one follows. -/
def subscript? (base : Expr ν) : Rule σ (Option (Expr ν)) := do
  if (← kind) = .symbol .openBracket then
    let line ← operator
    let subscript ← inner.expression
    let _ ← expect (.symbol .closeBracket)
    pure (some (.index base subscript line))
  else pure none

/-- A list literal. -/
def list : Rule σ (Expr ν) := do
  let start ← expect (.symbol .openBracket)
  let elements ← itemsUntil .closeBracket inner.element
  let _ ← expect (.symbol .closeBracket)
  pure (.list elements start.line)

/-- An entry of a map literal. -/
def entry : Rule σ (Expr ν × Expr ν) := do
  let key ← inner.expression
  let _ ← expect (.symbol .colon)
  let value ← inner.expression
  pure (key, value)

/-- A map literal. -/
def map : Rule σ (Expr ν) := do
  let start ← expect (.symbol .openCurly)
  let entries ← itemsUntil .closeCurly (entry inner)
  let _ ← expect (.symbol .closeCurly)
  pure (.map entries start.line)

/-- What a loop runs over: a name, and a list that cannot refer to it. -/
def loopHeader : Rule σ (Token × Expr ν) := parenthesized do
  let name ← expect .name
  let _ ← expect (.keyword .inWord)
  let iterable ← inner.expression
  pure (name, iterable)

variable [Scoping σ ν]

/-- A variable, with any number of subscripts. The name is resolved as soon as it is
read. -/
def place : Rule σ (Expr ν) := do
  let name ← expect .name
  let v ← resolve name
  grow (subscript? inner) (.var v name.line)

/-- The rule for a form of operand. -/
def operandOf : OperandForm → Rule σ (Expr ν)
  | .constant => constant
  | .call => call inner
  | .place => place inner
  | .list => list inner
  | .map => map inner

/-- An operand, of the form that its first token opens. -/
def operand : Rule σ (Expr ν) := do
  match (← dispatch).operand (← kind) with
  | some form => operandOf inner form
  | none => unexpected

/-! ### The levels -/

/-- An operand or an expression in parentheses, with at most one operator after it. -/
def factor : Rule σ (Expr ν) := do
  let value ←
    if (← kind) = .symbol .openParen then parenthesized inner.expression else operand inner
  match UnaryOp.after? (← kind) with
  | none => pure value
  | some op =>
    let line ← operator
    pure (.unary op value line)

/-- A factor, with at most one operator before it. -/
def signed : Rule σ (Expr ν) := do
  match UnaryOp.before? (← kind) with
  | none => factor inner
  | some op =>
    let line ← operator
    let operand ← factor inner
    pure (.unary op operand line)

/-- Factors multiplied and divided. -/
def product : Rule σ (Expr ν) := chain BinaryOp.multiplicative? (signed inner)

/-- Products added and subtracted. -/
def sum : Rule σ (Expr ν) := chain BinaryOp.additive? (product inner)

/-- Sums compared. Comparisons do not chain: a second operator is left unread. -/
def comparison : Rule σ (Expr ν) := pair BinaryOp.relational? (sum inner)

/-- Comparisons joined by `&&` and `||`, which bind alike. -/
def condition : Rule σ (Expr ν) := chain BinaryOp.logical? (comparison inner)

/-- Conditions, the second for when the first is null. -/
def fallback : Rule σ (Expr ν) := pair BinaryOp.fallback? (condition inner)

/-! ### Elements of lists -/

/-- An element of a list. -/
def clause : Rule σ (Element ν) := do
  match ← kind with
  | .symbol .spread =>
    let _ ← advance
    let value ← inner.expression
    pure (.spread value)
  | .keyword .ifWord =>
    let start ← advance
    let condition ← parenthesized inner.expression
    let thenElement ← inner.element
    if ← accept (.keyword .elseWord) then
      let elseElement ← inner.element
      pure (.cond condition thenElement (some elseElement) start.line)
    else pure (.cond condition thenElement none start.line)
  | .keyword .forWord =>
    let start ← advance
    let (name, iterable) ← loopHeader inner
    let (v, element) ← withLoopVariable name inner.element
    pure (.each v iterable element start.line)
  | _ =>
    let value ← inner.expression
    pure (.single value)

end Grammar

end Scriptlet
