import Scriptlet.Grammar.Command

/-!
# Trees without the lines of operators

A node keeps the line of one of its tokens, but for the nodes of operators and subscripts: they
are stamped with the line that the source has reached when the operator is taken, and sources
differ in what they count as reached. Two trees are the same but for these stamps if they are
equal once the stamps are struck out.

## What is proved

* `Grammar.targetOf_unstamped` — what may be assigned to does not depend on the stamps.
-/

namespace Scriptlet

variable {ν : Type}

mutual

/-- Strikes out the lines of operators and subscripts in an expression. -/
def Expr.unstamped : Expr ν → Expr ν
  | .const value line => .const value line
  | .binary op left right _ => .binary op left.unstamped right.unstamped 0
  | .unary op operand _ => .unary op operand.unstamped 0
  | .call function argument line => .call function argument.unstamped line
  | .var v line => .var v line
  | .index base subscript _ => .index base.unstamped subscript.unstamped 0
  | .list elements line => .list (Expr.unstampedElements elements) line
  | .map entries line => .map (Expr.unstampedEntries entries) line

/-- Strikes out the lines of operators and subscripts in an element of a list. -/
def Element.unstamped : Element ν → Element ν
  | .single value => .single value.unstamped
  | .spread value => .spread value.unstamped
  | .cond condition thenElement none line =>
    .cond condition.unstamped thenElement.unstamped none line
  | .cond condition thenElement (some elseElement) line =>
    .cond condition.unstamped thenElement.unstamped (some elseElement.unstamped) line
  | .each v iterable element line => .each v iterable.unstamped element.unstamped line

/-- Strikes out the lines of operators and subscripts in each element. -/
def Expr.unstampedElements : List (Element ν) → List (Element ν)
  | [] => []
  | element :: rest => element.unstamped :: Expr.unstampedElements rest

/-- Strikes out the lines of operators and subscripts in each entry of a map. -/
def Expr.unstampedEntries : List (Expr ν × Expr ν) → List (Expr ν × Expr ν)
  | [] => []
  | (key, value) :: rest => (key.unstamped, value.unstamped) :: Expr.unstampedEntries rest

end

/-- Strikes out the lines of operators and subscripts in a target. -/
def Target.unstamped : Target ν → Target ν
  | .var v line => .var v line
  | .index base subscript _ => .index base.unstamped subscript.unstamped 0

mutual

/-- Strikes out the lines of operators and subscripts in a command. -/
def Command.unstamped : Command ν → Command ν
  | .block b => .block b.unstamped
  | .assign target value line => .assign (target.map Target.unstamped) value.unstamped line
  | .print value line => .print (value.map Expr.unstamped) line
  | .assert condition message line =>
    .assert condition.unstamped (message.map Expr.unstamped) line
  | .cond condition thenBody none line =>
    .cond condition.unstamped thenBody.unstamped none line
  | .cond condition thenBody (some elseBody) line =>
    .cond condition.unstamped thenBody.unstamped (some elseBody.unstamped) line
  | .whileDo condition body line => .whileDo condition.unstamped body.unstamped line
  | .doWhile body condition line => .doWhile body.unstamped condition.unstamped line
  | .each v iterable body line => .each v iterable.unstamped body.unstamped line

/-- Strikes out the lines of operators and subscripts in a block. -/
def Block.unstamped : Block ν → Block ν
  | ⟨body, declares, line⟩ => ⟨Block.unstampedAll body, declares, line⟩

/-- Strikes out the lines of operators and subscripts in each command. -/
def Block.unstampedAll : List (Command ν) → List (Command ν)
  | [] => []
  | c :: rest => c.unstamped :: Block.unstampedAll rest

end

/-! ### Lists -/

theorem Expr.unstampedElements_eq_map (es : List (Element ν)) :
    unstampedElements es = es.map Element.unstamped := by
  induction es with
  | nil => rfl
  | cons e es ih => rw [unstampedElements, ih, List.map_cons]

theorem Expr.unstampedEntries_eq_map (es : List (Expr ν × Expr ν)) :
    unstampedEntries es = es.map (Prod.map unstamped unstamped) := by
  induction es with
  | nil => rfl
  | cons e es ih => rw [unstampedEntries, ih, List.map_cons, Prod.map]

theorem Block.unstampedAll_eq_map (cs : List (Command ν)) :
    unstampedAll cs = cs.map Command.unstamped := by
  induction cs with
  | nil => rfl
  | cons c cs ih => rw [unstampedAll, ih, List.map_cons]

theorem Expr.unstamped_list (es : List (Element ν)) (line : Nat) :
    (list es line).unstamped = .list (es.map Element.unstamped) line := by
  rw [unstamped, unstampedElements_eq_map]

theorem Expr.unstamped_map (es : List (Expr ν × Expr ν)) (line : Nat) :
    (map es line).unstamped = .map (es.map (Prod.map unstamped unstamped)) line := by
  rw [unstamped, unstampedEntries_eq_map]

theorem Block.unstamped_eq (b : Block ν) :
    b.unstamped = ⟨b.body.map Command.unstamped, b.declares, b.line⟩ := by
  obtain ⟨body, declares, line⟩ := b
  rw [unstamped, unstampedAll_eq_map]

theorem Command.unstamped_block (b : Block ν) : (block b).unstamped = .block b.unstamped := by
  rw [unstamped]

/-! ### Targets -/

theorem Expr.label_unstamped (e : Expr ν) : e.unstamped.label = e.label := by
  cases e <;> rfl

theorem Expr.target?_unstamped (e : Expr ν) :
    e.unstamped.target? = e.target?.map Target.unstamped := by
  cases e <;> rfl

/-- What may be assigned to does not depend on the stamps. -/
theorem Grammar.targetOf_unstamped (parenthesized : Bool) (e : Expr ν) :
    targetOf parenthesized e.unstamped = (targetOf parenthesized e).map Target.unstamped := by
  unfold targetOf
  rw [Expr.target?_unstamped, Expr.label_unstamped]
  cases e.target? with
  | none => rfl
  | some target => cases parenthesized <;> rfl

end Scriptlet
