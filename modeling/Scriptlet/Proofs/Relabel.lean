import Scriptlet.Tree.Basic

/-!
# Trees with other labels

Two trees may differ only in what they keep of variables, or only in lines. Changing
both, by a function each, is `relabel`; what two trees have in common is then that some
relabelling makes them equal.

## What is proved

* `Block.relabel_relabel` — relabelling twice is relabelling once.
-/

namespace Scriptlet

variable {ν μ κ : Type}

section

variable (g : ν → μ) (h : Nat → Nat)

mutual

/-- Changes what an expression keeps of variables, and its lines. -/
def Expr.relabel : Expr ν → Expr μ
  | .const value line => .const value (h line)
  | .binary op left right line => .binary op left.relabel right.relabel (h line)
  | .unary op operand line => .unary op operand.relabel (h line)
  | .call function argument line => .call function argument.relabel (h line)
  | .var v line => .var (g v) (h line)
  | .index base subscript line => .index base.relabel subscript.relabel (h line)
  | .list elements line => .list (Expr.relabelElements elements) (h line)
  | .map entries line => .map (Expr.relabelEntries entries) (h line)

/-- Changes what an element of a list keeps of variables, and its lines. -/
def Element.relabel : Element ν → Element μ
  | .single value => .single value.relabel
  | .spread value => .spread value.relabel
  | .cond condition thenElement none line =>
    .cond condition.relabel thenElement.relabel none (h line)
  | .cond condition thenElement (some elseElement) line =>
    .cond condition.relabel thenElement.relabel (some elseElement.relabel) (h line)
  | .each v iterable element line => .each (g v) iterable.relabel element.relabel (h line)

/-- Relabels each element. -/
def Expr.relabelElements : List (Element ν) → List (Element μ)
  | [] => []
  | element :: rest => element.relabel :: Expr.relabelElements rest

/-- Relabels each entry of a map. -/
def Expr.relabelEntries : List (Expr ν × Expr ν) → List (Expr μ × Expr μ)
  | [] => []
  | (key, value) :: rest => (key.relabel, value.relabel) :: Expr.relabelEntries rest

end

/-- Changes what a target keeps of variables, and its lines. -/
def Target.relabel : Target ν → Target μ
  | .var v line => .var (g v) (h line)
  | .index base subscript line => .index (base.relabel g h) (subscript.relabel g h) (h line)

mutual

/-- Changes what a command keeps of variables, and its lines. -/
def Command.relabel : Command ν → Command μ
  | .block b => .block b.relabel
  | .assign none value line => .assign none (value.relabel g h) (h line)
  | .assign (some target) value line =>
    .assign (some (target.relabel g h)) (value.relabel g h) (h line)
  | .print none line => .print none (h line)
  | .print (some value) line => .print (some (value.relabel g h)) (h line)
  | .assert condition none line => .assert (condition.relabel g h) none (h line)
  | .assert condition (some message) line =>
    .assert (condition.relabel g h) (some (message.relabel g h)) (h line)
  | .cond condition thenBody none line =>
    .cond (condition.relabel g h) thenBody.relabel none (h line)
  | .cond condition thenBody (some elseBody) line =>
    .cond (condition.relabel g h) thenBody.relabel (some elseBody.relabel) (h line)
  | .whileDo condition body line => .whileDo (condition.relabel g h) body.relabel (h line)
  | .doWhile body condition line => .doWhile body.relabel (condition.relabel g h) (h line)
  | .each v iterable body line => .each (g v) (iterable.relabel g h) body.relabel (h line)

/-- Changes what a block keeps of variables, and its lines. -/
def Block.relabel : Block ν → Block μ
  | ⟨body, declares, line⟩ => ⟨Block.relabelAll body, declares.map g, h line⟩

/-- Relabels each command. -/
def Block.relabelAll : List (Command ν) → List (Command μ)
  | [] => []
  | c :: rest => c.relabel :: Block.relabelAll rest

end

end

/-! ### Relabelling twice -/

section

variable (g : ν → μ) (h : Nat → Nat) (g' : μ → κ) (h' : Nat → Nat)

mutual

@[simp] theorem Expr.relabel_relabel :
    (e : Expr ν) → (e.relabel g h).relabel g' h' = e.relabel (g' ∘ g) (h' ∘ h)
  | .const .. | .var .. => rfl
  | .binary _ a b _ | .index a b _ => by
    simp only [Expr.relabel, Expr.relabel_relabel a, Expr.relabel_relabel b, Function.comp_apply]
  | .unary _ a _ | .call _ a _ => by
    simp only [Expr.relabel, Expr.relabel_relabel a, Function.comp_apply]
  | .list es _ => by
    simp only [Expr.relabel, Expr.relabelElements_relabelElements es, Function.comp_apply]
  | .map es _ => by
    simp only [Expr.relabel, Expr.relabelEntries_relabelEntries es, Function.comp_apply]

@[simp] theorem Element.relabel_relabel :
    (e : Element ν) → (e.relabel g h).relabel g' h' = e.relabel (g' ∘ g) (h' ∘ h)
  | .single a | .spread a => by simp only [Element.relabel, Expr.relabel_relabel a]
  | .cond c a none _ => by
    simp only [Element.relabel, Expr.relabel_relabel c, Element.relabel_relabel a,
      Function.comp_apply]
  | .cond c a (some b) _ => by
    simp only [Element.relabel, Expr.relabel_relabel c, Element.relabel_relabel a,
      Element.relabel_relabel b, Function.comp_apply]
  | .each _ a e _ => by
    simp only [Element.relabel, Expr.relabel_relabel a, Element.relabel_relabel e,
      Function.comp_apply]

@[simp] theorem Expr.relabelElements_relabelElements :
    (es : List (Element ν)) → Expr.relabelElements g' h' (Expr.relabelElements g h es) =
      Expr.relabelElements (g' ∘ g) (h' ∘ h) es
  | [] => rfl
  | e :: es => by
    simp only [Expr.relabelElements, Element.relabel_relabel e,
      Expr.relabelElements_relabelElements es]

@[simp] theorem Expr.relabelEntries_relabelEntries :
    (es : List (Expr ν × Expr ν)) → Expr.relabelEntries g' h' (Expr.relabelEntries g h es) =
      Expr.relabelEntries (g' ∘ g) (h' ∘ h) es
  | [] => rfl
  | (a, b) :: es => by
    simp only [Expr.relabelEntries, Expr.relabel_relabel a, Expr.relabel_relabel b,
      Expr.relabelEntries_relabelEntries es]

end

@[simp] theorem Target.relabel_relabel (t : Target ν) :
    (t.relabel g h).relabel g' h' = t.relabel (g' ∘ g) (h' ∘ h) := by
  cases t <;> simp [Target.relabel]

mutual

@[simp] theorem Command.relabel_relabel :
    (c : Command ν) → (c.relabel g h).relabel g' h' = c.relabel (g' ∘ g) (h' ∘ h)
  | .block b => by simp only [Command.relabel, Block.relabel_relabel b]
  | .assign none _ _ | .assign (some _) _ _ | .print none _ | .print (some _) _
  | .assert _ none _ | .assert _ (some _) _ => by simp [Command.relabel]
  | .cond _ a none _ => by simp [Command.relabel, Command.relabel_relabel a]
  | .cond _ a (some b) _ => by
    simp [Command.relabel, Command.relabel_relabel a, Command.relabel_relabel b]
  | .whileDo _ a _ | .doWhile a _ _ | .each _ _ a _ => by
    simp [Command.relabel, Command.relabel_relabel a]

@[simp] theorem Block.relabel_relabel :
    (b : Block ν) → (b.relabel g h).relabel g' h' = b.relabel (g' ∘ g) (h' ∘ h)
  | ⟨body, _, _⟩ => by simp [Block.relabel, Block.relabelAll_relabelAll body]

@[simp] theorem Block.relabelAll_relabelAll :
    (cs : List (Command ν)) → Block.relabelAll g' h' (Block.relabelAll g h cs) =
      Block.relabelAll (g' ∘ g) (h' ∘ h) cs
  | [] => rfl
  | c :: cs => by
    simp only [Block.relabelAll, Command.relabel_relabel c, Block.relabelAll_relabelAll cs]

end

end

/-! ### Relabelling and the shape of trees -/

section

variable {g : ν → μ} {h : Nat → Nat}

theorem Expr.target?_relabel (e : Expr ν) :
    (e.relabel g h).target? = e.target?.map (Target.relabel g h) := by
  cases e <;> rfl

theorem Target.toExpr_relabel (t : Target ν) :
    (t.relabel g h).toExpr = t.toExpr.relabel g h := by
  cases t <;> rfl

theorem Command.isBraced_relabel (c : Command ν) : (c.relabel g h).isBraced = c.isBraced := by
  cases c with
  | block b =>
    obtain ⟨body, _ | ⟨v, vs⟩, line⟩ := b <;> rfl
  | assign t | print t | assert _ t | cond _ _ t => cases t <;> rfl
  | whileDo | doWhile | each => rfl

theorem Command.hasDanglingIf_relabel :
    (c : Command ν) → (c.relabel g h).hasDanglingIf = c.hasDanglingIf
  | .cond _ _ (some c) _ | .whileDo _ c _ | .each _ _ c _ => Command.hasDanglingIf_relabel c
  | .cond _ _ none _ | .block _ | .assign none _ _ | .assign (some _) _ _ | .print none _
  | .print (some _) _ | .assert _ none _ | .assert _ (some _) _ | .doWhile .. => rfl

end

end Scriptlet
