import Scriptlet.Text.Characters
import Scriptlet.Text.Notation
import Scriptlet.Tree.Basic
import Scriptlet.Variable

/-!
# Outlines of trees

An outline shows every field of every node of a tree, one to a line. It is built in
two steps: the tree is turned into an `Outline`, which knows records, wrapped
values, lists and plain words, and that is laid out in lines.
-/

namespace Scriptlet

open Text (indented hang closedWith)

/-- A value to be shown field by field. -/
inductive Outline where
  /-- A word. -/
  | atom (text : String)
  /-- A value wrapped in a name. -/
  | wrapped (name : String) (item : Outline)
  /-- Named fields. -/
  | record (name : String) (fields : List (String × Outline))
  /-- A list. -/
  | items (list : List Outline)

namespace Outline

mutual

/-- The lines of an outline. -/
def lines : Outline → List String
  | atom text => [text]
  | wrapped name item => (name ++ "(") :: indented (closedWith "," item.lines) ++ [")"]
  | record name fields => (name ++ " \x7b") :: indented (fieldLines fields) ++ ["\x7d"]
  | items [] => ["[]"]
  | items (item :: rest) => "[" :: indented (itemLines (item :: rest)) ++ ["]"]

/-- The lines of fields, each with its name before it and a comma after it. -/
def fieldLines : List (String × Outline) → List String
  | [] => []
  | (name, value) :: rest =>
    closedWith "," (hang (name ++ ":") value.lines) ++ fieldLines rest

/-- The lines of list items, each with a comma after it. -/
def itemLines : List Outline → List String
  | [] => []
  | item :: rest => closedWith "," item.lines ++ itemLines rest

end

/-- The text of an outline. -/
def render (o : Outline) : String := Text.separated "\n" o.lines

/-! ### Words -/

/-- A number. -/
def ofNat (n : Nat) : Outline := .atom n.repr

/-- A truth value. -/
def ofBool (b : Bool) : Outline := .atom (if b then "true" else "false")

/-- A character that would not show as a sign of its own: a blank other than the space, one
with no shape or none that the standard knows, or one drawn onto its neighbour. -/
def isHidden (c : Char) : Bool :=
  (Text.isBlank c && c ≠ ' ') || Text.isInvisible c || Text.isUnassigned c || Text.isExtending c

/-- A character of a quoted text: the six that have a letter are written with it,
another that would not show by its code. -/
def quotedChar (c : Char) : List Char :=
  match Text.Quoted.letter? c with
  | some l => ['\\', l]
  | none =>
    if isHidden c then "\\u\x7b".toList ++ Nat.toDigits 16 c.toNat ++ ['\x7d'] else [c]

/-- A text in quotes. -/
def ofText (s : String) : Outline :=
  .atom (String.ofList ('"' :: s.toList.flatMap quotedChar ++ ['"']))

/-- A value that may be missing. -/
def ofOption : Option Outline → Outline
  | none => .atom "None"
  | some o => .wrapped "Some" o

end Outline

/-! ### Leaves -/

/-- The outline of a variable. -/
def Variable.outline (v : Variable) : Outline :=
  .record "Variable"
    [("name", .ofText v.name), ("line", .ofNat v.line), ("constant", .ofBool v.constant),
      ("kind", .atom v.nullability.label), ("slot", .ofNat v.slot)]

/-- The outline of a literal. -/
def Literal.outline : Literal → Outline
  | null => .atom "Null"
  | bool b => .wrapped "Bool" (.ofBool b)
  | number n => .wrapped "Number" (.atom (Text.Decimal.spelling n))
  | text s => .wrapped "Text" (.ofText s)

/-! ### Trees -/

mutual

/-- The outline of an expression. -/
def Expr.outline : Expr Variable → Outline
  | .const value line =>
    .wrapped "Const" (.record "ConstExpr" [("value", value.outline), ("line", .ofNat line)])
  | .binary op left right line =>
    .wrapped "Binary" (.record "BinaryExpr"
      [("left", left.outline), ("operator", .atom op.label), ("right", right.outline),
        ("line", .ofNat line)])
  | .unary op operand line =>
    .wrapped "Unary" (.record "UnaryExpr"
      [("operator", .atom op.label), ("operand", operand.outline), ("line", .ofNat line)])
  | .call function argument line =>
    .wrapped "Function" (.record "FunctionExpr"
      [("function", .atom function.label), ("argument", argument.outline),
        ("line", .ofNat line)])
  | .var v line =>
    .wrapped "Variable" (.record "VariableExpr" [("variable", v.outline), ("line", .ofNat line)])
  | .index base subscript line =>
    .wrapped "Index" (.record "IndexExpr"
      [("base", base.outline), ("index", subscript.outline), ("line", .ofNat line)])
  | .list elements line =>
    .wrapped "List" (.record "ListExpr"
      [("elements", .items (Expr.outlineElements elements)), ("line", .ofNat line)])
  | .map entries line =>
    .wrapped "Map" (.record "MapExpr"
      [("entries", .items (Expr.outlineEntries entries)), ("line", .ofNat line)])

/-- The outline of an element of a list. -/
def Element.outline : Element Variable → Outline
  | .single value => .wrapped "Single" value.outline
  | .spread value => .wrapped "Spread" value.outline
  | .cond condition thenElement none line =>
    .wrapped "If" (.record "ListIf"
      [("condition", condition.outline), ("then_element", thenElement.outline),
        ("else_element", .ofOption none), ("line", .ofNat line)])
  | .cond condition thenElement (some elseElement) line =>
    .wrapped "If" (.record "ListIf"
      [("condition", condition.outline), ("then_element", thenElement.outline),
        ("else_element", .ofOption (some elseElement.outline)), ("line", .ofNat line)])
  | .each v iterable element line =>
    .wrapped "For" (.record "ListFor"
      [("variable", v.outline), ("iterable", iterable.outline), ("element", element.outline),
        ("line", .ofNat line)])

/-- The outline of each element. -/
def Expr.outlineElements : List (Element Variable) → List Outline
  | [] => []
  | element :: rest => element.outline :: Expr.outlineElements rest

/-- The outline of each entry of a map. -/
def Expr.outlineEntries : List (Expr Variable × Expr Variable) → List Outline
  | [] => []
  | (key, value) :: rest =>
    .record "MapEntry" [("key", key.outline), ("value", value.outline)] ::
      Expr.outlineEntries rest

end

/-- The outline of a target: that of the expression. -/
def Target.outline (t : Target Variable) : Outline := t.toExpr.outline

mutual

/-- The outline of a command. -/
def Command.outline : Command Variable → Outline
  | .block b => .wrapped "Block" b.outline
  | .assign target value line =>
    .wrapped "Assign" (.record "AssignCommand"
      [("target", .ofOption (target.map Target.outline)), ("value", value.outline),
        ("line", .ofNat line)])
  | .print value line =>
    .wrapped "Print" (.record "PrintCommand"
      [("value", .ofOption (value.map Expr.outline)), ("line", .ofNat line)])
  | .assert condition message line =>
    .wrapped "Assert" (.record "AssertCommand"
      [("condition", condition.outline), ("message", .ofOption (message.map Expr.outline)),
        ("line", .ofNat line)])
  | .cond condition thenBody none line =>
    .wrapped "If" (.record "IfCommand"
      [("condition", condition.outline), ("then_body", thenBody.outline),
        ("else_body", .ofOption none), ("line", .ofNat line)])
  | .cond condition thenBody (some elseBody) line =>
    .wrapped "If" (.record "IfCommand"
      [("condition", condition.outline), ("then_body", thenBody.outline),
        ("else_body", .ofOption (some elseBody.outline)), ("line", .ofNat line)])
  | .whileDo condition body line =>
    .wrapped "While" (.record "WhileCommand"
      [("condition", condition.outline), ("body", body.outline), ("line", .ofNat line)])
  | .doWhile body condition line =>
    .wrapped "DoWhile" (.record "DoWhileCommand"
      [("body", body.outline), ("condition", condition.outline), ("line", .ofNat line)])
  | .each v iterable body line =>
    .wrapped "For" (.record "ForCommand"
      [("variable", v.outline), ("iterable", iterable.outline), ("body", body.outline),
        ("line", .ofNat line)])

/-- The outline of a block. -/
def Block.outline : Block Variable → Outline
  | ⟨body, declares, line⟩ =>
    .record "BlockCommand"
      [("body", .items (Block.outlineAll body)),
        ("declares", .items (declares.map Variable.outline)), ("line", .ofNat line)]

/-- The outline of each command. -/
def Block.outlineAll : List (Command Variable) → List Outline
  | [] => []
  | c :: rest => c.outline :: Block.outlineAll rest

end

end Scriptlet
