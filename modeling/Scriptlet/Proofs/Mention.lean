import Scriptlet.Grammar.Rule
import Scriptlet.Tree.Basic

/-!
# Names that are mentioned, and what they mean

Before names are resolved, a tree keeps of a variable only what the program says where
it mentions it: a `Mention`. Such a tree is resolved with a table of names by walking it
in the order of the program text. A use of a name is looked up, a declaration enters its
names into the innermost scope, each before its own initial value is resolved, what a
loop runs over is resolved before its variable exists, and braced bodies, loops and
comprehensions open scopes of their own.

Resolving works with any table that has the operations of `Scoping`, as the rules of the
grammar do.

## What is proved

* `Block.resolveDeclaration_ofDeclarators` — a declaration is resolved name by name.
-/

namespace Scriptlet

/-- What a program says of a variable where it mentions it. -/
structure Mention where
  /-- The name. -/
  name : String
  /-- The line of the name. -/
  line : Nat
  /-- Whether it is declared here as `final`. -/
  constant : Bool
  /-- Whether it is declared here as one that may hold null. -/
  nullability : Nullability
  /-- A number that tells the names of one declaration apart. -/
  number : Nat
  deriving DecidableEq

/-- The mention of a name that a token uses. -/
def Mention.ofToken (t : Token) : Mention := ⟨t.value, t.line, false, .safe, 0⟩

/-- Computations with a table of names, which may fail with a diagnostic. -/
abbrev Resolving (σ α : Type) : Type := StateT σ (Except Diagnostic) α

variable {σ ν α : Type}

/-! ### Mentions -/

section

variable [Scoping σ ν] (file : String)

namespace Mention

/-- Where the name stands. -/
def position (m : Mention) : Position := ⟨m.line, file⟩

/-- The variable that the name means. -/
def resolve (m : Mention) : Resolving σ ν := fun s =>
  (Scoping.resolve s m.name (m.position file)).map (·, s)

/-- Declares the name. -/
def declare (m : Mention) : Resolving σ ν := fun s =>
  Scoping.declare s m.name m.constant m.nullability (m.position file)

/-- Declares the name as that of a loop. -/
def declareLoop (m : Mention) : Resolving σ ν := fun s =>
  Scoping.declareLoop s m.name (m.position file)

end Mention

/-- A computation in a scope of its own. -/
def Resolving.inScope (c : Resolving σ α) : Resolving σ α := do
  modify Scoping.enter
  let a ← c
  modify Scoping.leave
  pure a

end

/-! ### Trees -/

section

variable [Scoping σ ν] (file : String)

mutual

/-- Resolves the names of an expression. -/
def Expr.resolve : Expr Mention → Resolving σ (Expr ν)
  | .const value line => pure (.const value line)
  | .binary op left right line => do
    let left ← left.resolve
    let right ← right.resolve
    pure (.binary op left right line)
  | .unary op operand line => do
    let operand ← operand.resolve
    pure (.unary op operand line)
  | .call function argument line => do
    let argument ← argument.resolve
    pure (.call function argument line)
  | .var m line => do
    let v ← m.resolve file
    pure (.var v line)
  | .index base subscript line => do
    let base ← base.resolve
    let subscript ← subscript.resolve
    pure (.index base subscript line)
  | .list elements line => do
    let elements ← Expr.resolveElements elements
    pure (.list elements line)
  | .map entries line => do
    let entries ← Expr.resolveEntries entries
    pure (.map entries line)

/-- Resolves the names of an element of a list. -/
def Element.resolve : Element Mention → Resolving σ (Element ν)
  | .single value => do
    let value ← value.resolve
    pure (.single value)
  | .spread value => do
    let value ← value.resolve
    pure (.spread value)
  | .cond condition thenElement none line => do
    let condition ← condition.resolve
    let thenElement ← thenElement.resolve
    pure (.cond condition thenElement none line)
  | .cond condition thenElement (some elseElement) line => do
    let condition ← condition.resolve
    let thenElement ← thenElement.resolve
    let elseElement ← elseElement.resolve
    pure (.cond condition thenElement (some elseElement) line)
  | .each m iterable element line => do
    let iterable ← iterable.resolve
    let (v, element) ← Resolving.inScope do
      let v ← m.declareLoop file
      let element ← element.resolve
      pure (v, element)
    pure (.each v iterable element line)

/-- Resolves the names of each element. -/
def Expr.resolveElements : List (Element Mention) → Resolving σ (List (Element ν))
  | [] => pure []
  | element :: rest => do
    let element ← element.resolve
    let rest ← Expr.resolveElements rest
    pure (element :: rest)

/-- Resolves the names of each entry of a map. -/
def Expr.resolveEntries :
    List (Expr Mention × Expr Mention) → Resolving σ (List (Expr ν × Expr ν))
  | [] => pure []
  | (key, value) :: rest => do
    let key ← key.resolve
    let value ← value.resolve
    let rest ← Expr.resolveEntries rest
    pure ((key, value) :: rest)

end

/-- Resolves the names of a target. -/
def Target.resolve : Target Mention → Resolving σ (Target ν)
  | .var m line => do
    let v ← m.resolve file
    pure (.var v line)
  | .index base subscript line => do
    let base ← base.resolve file
    let subscript ← subscript.resolve file
    pure (.index base subscript line)

/-- Declares names that get no initial value. -/
def Block.declareAll : List Mention → Resolving σ (List (ν × Option (Command ν)))
  | [] => pure []
  | m :: rest => do
    let v ← m.declare file
    let rest ← Block.declareAll rest
    pure ((v, none) :: rest)

mutual

/-- Resolves the names of a command. -/
def Command.resolve : Command Mention → Resolving σ (Command ν)
  | .block b => do
    let b ← b.resolve
    pure (.block b)
  | .assign none value line => do
    let value ← value.resolve file
    pure (.assign none value line)
  | .assign (some target) value line => do
    let target ← target.resolve file
    let value ← value.resolve file
    pure (.assign (some target) value line)
  | .print none line => pure (.print none line)
  | .print (some value) line => do
    let value ← value.resolve file
    pure (.print (some value) line)
  | .assert condition none line => do
    let condition ← condition.resolve file
    pure (.assert condition none line)
  | .assert condition (some message) line => do
    let condition ← condition.resolve file
    let message ← message.resolve file
    pure (.assert condition (some message) line)
  | .cond condition thenBody none line => do
    let condition ← condition.resolve file
    let thenBody ← thenBody.resolve
    pure (.cond condition thenBody none line)
  | .cond condition thenBody (some elseBody) line => do
    let condition ← condition.resolve file
    let thenBody ← thenBody.resolve
    let elseBody ← elseBody.resolve
    pure (.cond condition thenBody (some elseBody) line)
  | .whileDo condition body line => do
    let condition ← condition.resolve file
    let body ← body.resolve
    pure (.whileDo condition body line)
  | .doWhile body condition line => do
    let body ← body.resolve
    let condition ← condition.resolve file
    pure (.doWhile body condition line)
  | .each m iterable body line => do
    let iterable ← iterable.resolve file
    let (v, body) ← Resolving.inScope do
      let v ← m.declareLoop file
      let body ← body.resolve
      pure (v, body)
    pure (.each v iterable body line)

/-- Resolves the names of a block: a declaration, or commands in a scope of their own. -/
def Block.resolve : Block Mention → Resolving σ (Block ν)
  | ⟨body, [], line⟩ => do
    let body ← Resolving.inScope (Block.resolveAll body)
    pure ⟨body, [], line⟩
  | ⟨body, m :: declares, line⟩ => do
    let declarators ← Block.resolveDeclaration (m :: declares) body
    pure ⟨declarators.filterMap Prod.snd, declarators.map Prod.fst, line⟩

/-- Resolves the names of commands in order. -/
def Block.resolveAll : List (Command Mention) → Resolving σ (List (Command ν))
  | [] => pure []
  | c :: rest => do
    let c ← c.resolve
    let rest ← Block.resolveAll rest
    pure (c :: rest)

/-- Resolves a declaration: its names in order, and the assignments of initial values.
The names up to the one that the next assignment is for get none. -/
def Block.resolveDeclaration (declares : List Mention) :
    List (Command Mention) → Resolving σ (List (ν × Option (Command ν)))
  | [] => Block.declareAll file declares
  | .assign (some (.var m line)) value assignLine :: rest => do
    let before ← Block.declareAll file (declares.takeWhile (·.number ≠ m.number))
    let v ← m.declare file
    let value ← value.resolve file
    let after ← Block.resolveDeclaration (declares.dropWhile (·.number ≠ m.number)).tail rest
    pure (before ++ (v, some (.assign (some (.var v line)) value assignLine)) :: after)
  | _ :: rest => Block.resolveDeclaration declares rest

end

end

/-! ### Declarations, name by name -/

/-- A name of a declaration, with the initial value it gets there. -/
abbrev Declarator : Type := Mention × Option (Expr Mention)

/-- The assignment of the initial value. -/
def Declarator.assignment? (d : Declarator) : Option (Command Mention) :=
  d.2.map fun value => .assign (some (.var d.1 d.1.line)) value d.1.line

/-- The block that a declaration is. -/
def Block.ofDeclarators (ds : List Declarator) (line : Nat) : Block Mention :=
  ⟨ds.filterMap Declarator.assignment?, ds.map Prod.fst, line⟩

section

variable [Scoping σ ν] (file : String)

/-- Declares a name, and then resolves its initial value. -/
def Declarator.resolve (d : Declarator) : Resolving σ (ν × Option (Command ν)) := do
  let v ← d.1.declare file
  match d.2 with
  | none => pure (v, none)
  | some value => do
    let value ← value.resolve file
    pure (v, some (.assign (some (.var v d.1.line)) value d.1.line))

/-- Resolves the names of a declaration one by one. -/
def Declarator.resolveAll : List Declarator → Resolving σ (List (ν × Option (Command ν)))
  | [] => pure []
  | d :: ds => do
    let d ← d.resolve file
    let ds ← Declarator.resolveAll ds
    pure (d :: ds)

/-- A first name that the next assignment is not for gets no initial value. -/
theorem Block.resolveDeclaration_cons_of_ne {m : Mention} {ms : List Mention}
    {ds : List Declarator} (h : ∀ d ∈ ds, d.1.number ≠ m.number) :
    (Block.resolveDeclaration file (m :: ms) (ds.filterMap Declarator.assignment?) :
      Resolving σ (List (ν × Option (Command ν)))) = (do
        let v ← m.declare file
        let rest ← Block.resolveDeclaration file ms (ds.filterMap Declarator.assignment?)
        pure ((v, none) :: rest)) := by
  induction ds with
  | nil => rfl
  | cons d ds ih =>
    obtain ⟨w, _ | value⟩ := d
    · exact ih fun d hd => h d (List.mem_cons_of_mem _ hd)
    · have hw : m.number ≠ w.number := (h _ List.mem_cons_self).symm
      simp [Declarator.assignment?, Block.resolveDeclaration, Block.declareAll, hw]

/-- A declaration is resolved name by name: each is declared, and then its initial value
is resolved. -/
theorem Block.resolveDeclaration_ofDeclarators {ds : List Declarator}
    (h : (ds.map fun d => d.1.number).Nodup) :
    (Block.resolveDeclaration file (ds.map Prod.fst) (ds.filterMap Declarator.assignment?) :
      Resolving σ (List (ν × Option (Command ν)))) = Declarator.resolveAll file ds := by
  induction ds with
  | nil => rfl
  | cons d ds ih =>
    obtain ⟨hd, hds⟩ := List.nodup_cons.1 h
    obtain ⟨m, _ | value⟩ := d
    · have hne : ∀ d ∈ ds, d.1.number ≠ m.number := fun d hmem he =>
        hd (List.mem_map.2 ⟨d, hmem, he⟩)
      have hf : List.filterMap Declarator.assignment? ((m, none) :: ds) =
          ds.filterMap Declarator.assignment? := rfl
      rw [hf, List.map_cons, Block.resolveDeclaration_cons_of_ne file hne, ih hds]
      simp [Declarator.resolveAll, Declarator.resolve]
    · simp [Declarator.assignment?, Block.resolveDeclaration, Block.declareAll, ih hds,
        Declarator.resolveAll, Declarator.resolve]

end

end Scriptlet
