import Scriptlet.Grammar.Expression

/-!
# Commands

    code         ::=  { command }
    body         ::=  '{' code '}' | command
    declaration  ::=  [ final ] var [ ? ] name [ = expression ] { , name [ = expression ] } ;
    print        ::=  print ( [ expression ] ) ;
    assertion    ::=  assert ( expression [ , expression ] ) ;
    conditional  ::=  if ( expression ) body [ else body ]
    while loop   ::=  while ( expression ) body
    do loop      ::=  do body while ( expression ) ;
    for loop     ::=  for ( name in expression ) body
    assignment   ::=  [ place = ] expression ;

The form of a command is looked up by its first token; a token that opens no form,
but an expression, opens an assignment. The rule for a form takes its first token
without looking at it, since looking it up has been enough.
-/

namespace Scriptlet.Grammar

open Rule

variable {σ ν : Type} (inner : Inner σ ν)

/-! ### Sequences -/

/-- Commands, as long as one can start. -/
def code : Rule σ (Block ν) := do
  let start ← peek
  let body ← collect do
    if (← dispatch).startsCommand (← kind) then
      let command ← inner.command
      pure (some command)
    else pure none
  pure ⟨body, [], start.line⟩

/-! ### Simple commands -/

/-- Printing. -/
def print : Rule σ (Command ν) := do
  let start ← advance
  let value ← parenthesized do
    if (← dispatch).startsExpression (← kind) then
      let value ← inner.expression
      pure (some value)
    else pure none
  let _ ← expect (.symbol .semicolon)
  pure (.print value start.line)

/-- An assertion. -/
def assertion : Rule σ (Command ν) := do
  let start ← advance
  let (condition, message) ← parenthesized do
    let condition ← inner.expression
    if ← accept (.symbol .comma) then
      let message ← inner.expression
      pure (condition, some message)
    else pure (condition, none)
  let _ ← expect (.symbol .semicolon)
  pure (.assert condition message start.line)

/-- The target that an expression before `=` is, or why it is none. A target may not
stand in parentheses. -/
def targetOf (parenthesized : Bool) (e : Expr ν) : Except Fault (Target ν) :=
  match e.target? with
  | some target => if parenthesized then .error (.invalidTarget "Parenthesized") else .ok target
  | none => .error (.invalidTarget e.label)

/-- An assignment, or an expression for its effect. What stands before `=` is read
as an expression and then taken as a target; a fault in it is reported where `=`
was the token in hand. -/
def assignment : Rule σ (Command ν) := do
  let start ← peek
  let e ← inner.expression
  let here ← position
  if ← accept (.symbol .assign) then
    match targetOf (start.kind = .symbol .openParen) e with
    | .error fault => fail ⟨fault, here⟩
    | .ok target =>
      let value ← inner.expression
      let _ ← expect (.symbol .semicolon)
      pure (.assign (some target) value start.line)
  else
    let _ ← expect (.symbol .semicolon)
    pure (.assign none e start.line)

variable [Scoping σ ν]

/-! ### Bodies -/

/-- The body of a conditional or a loop: a block in braces with a scope of its own,
or one command. -/
def body : Rule σ (Command ν) := do
  if (← kind) = .symbol .openCurly then
    let start ← advance
    let block ← inScope (code inner)
    let _ ← expect (.symbol .closeCurly)
    pure (.block { block with line := start.line })
  else inner.command

/-! ### Declarations -/

/-- A declared name with its initial value, if it has one. The name is declared
before the value is read, which may refer to it. -/
def declarator (constant : Bool) (nullability : Nullability) :
    Rule σ (ν × Option (Command ν)) := do
  let name ← expect .name
  let v ← declare name constant nullability
  if ← accept (.symbol .assign) then
    let value ← inner.expression
    pure (v, some (.assign (some (.var v name.line)) value name.line))
  else pure (v, none)

/-- Takes `var`, which must follow `final`. -/
def varAfter (isFinal : Bool) : Rule σ Unit :=
  if isFinal then discard (expect (.keyword .varWord)) else pure ()

/-- Takes the mark of variables that may hold null, if it is there. -/
def nullability : Rule σ Nullability := do
  if ← accept (.symbol .nullable) then pure .nullable else pure .safe

/-- A declaration. -/
def declaration : Rule σ (Command ν) := do
  let start ← advance
  let isFinal : Bool := start.kind = .keyword .finalWord
  varAfter isFinal
  let nullability ← nullability
  let declarators ← commaSeparated (declarator inner isFinal nullability)
  let _ ← expect (.symbol .semicolon)
  pure (.block ⟨declarators.filterMap Prod.snd, declarators.map Prod.fst, start.line⟩)

/-! ### Conditionals and loops -/

/-- A conditional. An `else` belongs to the nearest one that has none. -/
def conditional : Rule σ (Command ν) := do
  let start ← advance
  let condition ← parenthesized inner.expression
  let thenBody ← body inner
  if ← accept (.keyword .elseWord) then
    let elseBody ← body inner
    pure (.cond condition thenBody (some elseBody) start.line)
  else pure (.cond condition thenBody none start.line)

/-- A loop that tests before each round. -/
def whileLoop : Rule σ (Command ν) := do
  let start ← advance
  let condition ← parenthesized inner.expression
  let body ← body inner
  pure (.whileDo condition body start.line)

/-- A loop that tests after each round. -/
def doWhileLoop : Rule σ (Command ν) := do
  let start ← advance
  let body ← body inner
  let _ ← expect (.keyword .whileWord)
  let condition ← parenthesized inner.expression
  let _ ← expect (.symbol .semicolon)
  pure (.doWhile body condition start.line)

/-- A round for each value of a list. -/
def forLoop : Rule σ (Command ν) := do
  let start ← advance
  let (name, iterable) ← loopHeader inner
  let (v, body) ← withLoopVariable name (body inner)
  pure (.each v iterable body start.line)

/-! ### Choosing -/

/-- The rule for a form of command. -/
def commandOf : CommandForm → Rule σ (Command ν)
  | .declaration => declaration inner
  | .print => print inner
  | .assertion => assertion inner
  | .conditional => conditional inner
  | .whileLoop => whileLoop inner
  | .doWhileLoop => doWhileLoop inner
  | .forLoop => forLoop inner
  | .assignment => assignment inner

/-- A command, of the form that its first token opens. -/
def anyCommand : Rule σ (Command ν) := do
  let tables ← dispatch
  let first ← kind
  match tables.command first with
  | some form => commandOf inner form
  | none => if tables.startsExpression first then assignment inner else unexpected

end Scriptlet.Grammar
