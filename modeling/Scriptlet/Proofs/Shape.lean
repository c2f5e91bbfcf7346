import Scriptlet.Proofs.Mention
import Scriptlet.Proofs.Relabel
import Scriptlet.Tree.Printer

/-!
# The shape of trees

What a tree of variables is like as a text: what its printed form mentions, and how deep
that is nested. Not every tree can be written down; one that has a shape can. Every
subscript of such a tree is on a place, no conditional could take an `else` that is not
its own inside a list, and every block in braces is a body.

## The model

`Command.mentions` is what the printed form of a tree says: each variable as a mention,
each declared name with its number among the names of its declaration, and the body of a
conditional in braces where the printer puts them. No lines are kept.

`Command.depth` counts the expressions, elements and commands that are open at once in
the printed form, where every operator stands in parentheses.
-/

namespace Scriptlet

/-! ### Trees without lines -/

/-- No line. -/
def unline (_ : Nat) : Nat := 0

/-- A variable without its line. -/
def Variable.unlined (v : Variable) : Variable := { v with line := 0 }

/-- A mention without its line. -/
def Mention.unlined (m : Mention) : Mention := { m with line := 0 }

/-- The mention of a variable where it is used. -/
def Variable.used (v : Variable) : Mention := ⟨v.name, 0, false, .safe, 0⟩

/-! ### What is mentioned -/

/-- The names of a declaration with the first values that its commands give them,
numbered in order. -/
def Block.declarators (body : List (Command Variable)) (constant : Bool)
    (nullability : Nullability) : Nat → List Variable → List Declarator
  | _, [] => []
  | number, v :: vs =>
    (⟨v.name, 0, constant, nullability, number⟩,
      (body.findSome? (Command.initialValue? v)).map (Expr.relabel Variable.used unline)) ::
        Block.declarators body constant nullability (number + 1) vs

mutual

/-- What the printed form of a command mentions. -/
def Command.mentions : Command Variable → Command Mention
  | .block ⟨body, [], _⟩ => .block ⟨Block.mentionsAll body, [], 0⟩
  | .block ⟨body, v :: vs, _⟩ =>
    .block (.ofDeclarators (Block.declarators body v.constant v.nullability 0 (v :: vs)) 0)
  | .assign none a _ => .assign none (a.relabel Variable.used unline) 0
  | .assign (some t) a _ =>
    .assign (some (t.relabel Variable.used unline)) (a.relabel Variable.used unline) 0
  | .print none _ => .print none 0
  | .print (some a) _ => .print (some (a.relabel Variable.used unline)) 0
  | .assert a none _ => .assert (a.relabel Variable.used unline) none 0
  | .assert a (some b) _ =>
    .assert (a.relabel Variable.used unline) (some (b.relabel Variable.used unline)) 0
  | .cond a b none _ => .cond (a.relabel Variable.used unline) b.mentions none 0
  | .cond a b (some c) _ =>
    .cond (a.relabel Variable.used unline)
      (if b.hasDanglingIf then .block ⟨[b.mentions], [], 0⟩ else b.mentions) (some c.mentions) 0
  | .whileDo a b _ => .whileDo (a.relabel Variable.used unline) b.mentions 0
  | .doWhile b a _ => .doWhile b.mentions (a.relabel Variable.used unline) 0
  | .each v a b _ => .each v.used (a.relabel Variable.used unline) b.mentions 0

/-- What the printed form of commands mentions. -/
def Block.mentionsAll : List (Command Variable) → List (Command Mention)
  | [] => []
  | c :: cs => c.mentions :: Block.mentionsAll cs

end

/-! ### Nesting -/

mutual

/-- How many constructs are open at once in an expression. -/
def Expr.depth : Expr Variable → Nat
  | .const .. | .var .. => 0
  | .binary _ a b _ => max a.depth b.depth + 1
  | .unary _ a _ | .call _ a _ => a.depth + 1
  | .index a b _ => max a.depth (b.depth + 1)
  | .list es _ => Expr.depthOfElements es
  | .map es _ => Expr.depthOfEntries es

/-- How many constructs are open at once in an element. -/
def Element.depth : Element Variable → Nat
  | .single a | .spread a => a.depth + 2
  | .cond c a none _ => max (c.depth + 1) a.depth + 1
  | .cond c a (some b) _ => max (c.depth + 1) (max a.depth b.depth) + 1
  | .each _ a e _ => max (a.depth + 1) e.depth + 1

/-- The greatest depth of an element. -/
def Expr.depthOfElements : List (Element Variable) → Nat
  | [] => 0
  | e :: es => max e.depth (Expr.depthOfElements es)

/-- The greatest depth of an entry. -/
def Expr.depthOfEntries : List (Expr Variable × Expr Variable) → Nat
  | [] => 0
  | (a, b) :: es => max (max (a.depth + 1) (b.depth + 1)) (Expr.depthOfEntries es)

end

/-- How many constructs are open at once in the value of a name, if it has one. -/
def Variable.depthDeclared (body : List (Command Variable)) (v : Variable) : Nat :=
  match body.findSome? (Command.initialValue? v) with
  | some value => value.depth + 1
  | none => 0

/-- The greatest depth of a value of a declaration. -/
def Block.depthOfDeclared (body : List (Command Variable)) : List Variable → Nat
  | [] => 0
  | v :: vs => max (v.depthDeclared body) (Block.depthOfDeclared body vs)

/-- How many constructs are open at once in an expression that stands as a command. -/
def Expr.depthAlone (e : Expr Variable) : Nat :=
  match e with
  | .map .. => e.depth + 1
  | _ => e.depth

mutual

/-- How many constructs are open at once in a command. -/
def Command.depth : Command Variable → Nat
  | .block ⟨body, [], _⟩ => Block.depthOfAll body
  | .block ⟨body, v :: vs, _⟩ => Block.depthOfDeclared body (v :: vs) + 1
  | .assign none a _ => a.depthAlone + 2
  | .assign (some t) a _ => max (t.toExpr.depth + 1) (a.depth + 1) + 1
  | .print none _ => 1
  | .print (some a) _ | .assert a none _ => a.depth + 2
  | .assert a (some b) _ => max (a.depth + 1) (b.depth + 1) + 1
  | .cond a b none _ | .whileDo a b _ | .each _ a b _ => max (a.depth + 1) b.depth + 1
  | .cond a b (some c) _ => max (a.depth + 1) (max b.depth c.depth) + 1
  | .doWhile b a _ => max b.depth (a.depth + 1) + 1

/-- The greatest depth of a command. -/
def Block.depthOfAll : List (Command Variable) → Nat
  | [] => 0
  | c :: cs => max c.depth (Block.depthOfAll cs)

end

/-! ### Trees that can be written down -/

section

variable {ν : Type}

/-- An `else` written after the element would belong to a conditional inside it. -/
def Element.hasDanglingIf : Element ν → Bool
  | .cond _ _ none _ => true
  | .cond _ _ (some elseElement) _ => elseElement.hasDanglingIf
  | .each _ _ element _ => element.hasDanglingIf
  | _ => false

mutual

/-- Every subscript is on a place, and every `else` of a list is its conditional's own. -/
def Expr.Shaped : Expr ν → Prop
  | .const .. | .var .. => True
  | .binary _ a b _ => a.Shaped ∧ b.Shaped
  | .unary _ a _ | .call _ a _ => a.Shaped
  | .index a b _ => a.target?.isSome = true ∧ a.Shaped ∧ b.Shaped
  | .list es _ => Expr.ShapedElements es
  | .map es _ => Expr.ShapedEntries es

/-- Every subscript is on a place, and every `else` is its conditional's own. -/
def Element.Shaped : Element ν → Prop
  | .single a | .spread a => a.Shaped
  | .cond c a none _ => c.Shaped ∧ a.Shaped
  | .cond c a (some b) _ => c.Shaped ∧ a.Shaped ∧ a.hasDanglingIf = false ∧ b.Shaped
  | .each _ a e _ => a.Shaped ∧ e.Shaped

/-- Each element has a shape. -/
def Expr.ShapedElements : List (Element ν) → Prop
  | [] => True
  | e :: es => e.Shaped ∧ Expr.ShapedElements es

/-- Each entry has a shape. -/
def Expr.ShapedEntries : List (Expr ν × Expr ν) → Prop
  | [] => True
  | (a, b) :: es => a.Shaped ∧ b.Shaped ∧ Expr.ShapedEntries es

end

mutual

/-- The expressions of a command have a shape, and blocks that declare nothing are
bodies. -/
def Command.Shaped (isBody : Bool) : Command ν → Prop
  | .block ⟨body, declares, _⟩ =>
    (declares = [] → isBody = true) ∧ Block.ShapedAll body
  | .assign none a _ | .print (some a) _ | .assert a none _ => a.Shaped
  | .assign (some t) a _ => t.toExpr.Shaped ∧ a.Shaped
  | .print none _ => True
  | .assert a (some b) _ => a.Shaped ∧ b.Shaped
  | .cond a b none _ | .whileDo a b _ | .doWhile b a _ | .each _ a b _ =>
    a.Shaped ∧ b.Shaped true
  | .cond a b (some c) _ => a.Shaped ∧ b.Shaped true ∧ c.Shaped true

/-- Each command has a shape. -/
def Block.ShapedAll : List (Command ν) → Prop
  | [] => True
  | c :: cs => c.Shaped false ∧ Block.ShapedAll cs

end

end

end Scriptlet
