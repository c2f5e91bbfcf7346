import Scriptlet.Proofs.Acceptance
import Scriptlet.Proofs.Shape

/-!
# Lines decide nothing

Lines are recorded in trees and tables, but nothing hangs on them. Names are resolved alike
wherever they stand, and a tree is printed alike whatever lines are on it.

## The model

`Resolving.Unlines c c' g` says that `c'`, from a table without lines, does what `c` does
from the table with them: it fails if `c` fails, and gives the same but for lines if `c`
gives something. What "the same but for lines" is for a result is said by `g`.

## What is proved

* `SymbolTable.declare_unlined` and those beside it — requests to a table without lines.
* `Block.unlinesAll`, `Block.resolveAll_of_unlined` — resolving commands without lines.
* `Block.render_unlined` — printing a program without lines.
-/

namespace Scriptlet

/-! ### Tables -/

namespace SymbolTable

/-- A table without lines. -/
def unlined (t : SymbolTable) : SymbolTable where
  mode := t.mode
  innermost := t.innermost.map Variable.unlined
  outer := t.outer.map (List.map Variable.unlined)
  declared := t.declared.map Variable.unlined

variable {t : SymbolTable} {name : String}

theorem enter_unlined : t.unlined.enter = t.enter.unlined := by
  obtain ⟨mode, innermost, outer, declared⟩ := t
  cases mode <;> rfl

theorem leave_unlined : t.unlined.leave = t.leave.unlined := by
  obtain ⟨mode, innermost, outer, declared⟩ := t
  cases mode <;> cases outer <;> rfl

theorem find?_unlined (frame : Frame) :
    Frame.find? (frame.map Variable.unlined) name = (frame.find? name).map Variable.unlined := by
  unfold Frame.find?
  rw [List.find?_map]
  rfl

theorem frames_unlined : t.unlined.frames = t.frames.map (List.map Variable.unlined) := rfl

theorem lookup?_unlined : t.unlined.lookup? name = (t.lookup? name).map Variable.unlined := by
  unfold lookup?
  rw [frames_unlined, List.findSome?_map, List.map_findSome?]
  congr 1
  funext frame
  exact find?_unlined frame

theorem declare_unlined {constant : Bool} {nullability : Nullability} {position : Position}
    {position' : Position} (h : position'.line = 0) :
    (t.unlined.declare name constant nullability position').toOption =
      (t.declare name constant nullability position).toOption.map
        fun x => (x.1.unlined, x.2.unlined) := by
  unfold declare
  rw [show t.unlined.innermost = t.innermost.map Variable.unlined from rfl, find?_unlined]
  cases t.innermost.find? name with
  | some v => rfl
  | none => simp [Except.toOption, Variable.unlined, unlined, size, h]

theorem declareLoop_unlined {position : Position} {position' : Position}
    (h : position'.line = 0) :
    (t.unlined.declareLoop name position').toOption =
      (t.declareLoop name position).toOption.map fun x => (x.1.unlined, x.2.unlined) := by
  unfold declareLoop
  rw [show t.unlined.mode = t.mode from rfl, lookup?_unlined]
  cases t.mode with
  | lexical => exact declare_unlined h
  | flat =>
    cases t.lookup? name with
    | none => exact declare_unlined h
    | some v =>
      cases hc : v.constant <;> simp [Variable.unlined, hc, Except.toOption]

end SymbolTable

/-! ### Resolving -/

/-- From a table without lines the second computation does what the first does from the
table with them. -/
def Resolving.Unlines {α β : Type} (c : Resolving SymbolTable α) (c' : Resolving SymbolTable β)
    (g : α → β) : Prop :=
  ∀ s : SymbolTable,
    (c' s.unlined).toOption = (c s).toOption.map fun x => (g x.1, x.2.unlined)

namespace Resolving.Unlines

variable {α α' β β' : Type} {c : Resolving SymbolTable α} {c' : Resolving SymbolTable α'}
  {f : α → Resolving SymbolTable β} {f' : α' → Resolving SymbolTable β'} {g : α → α'}
  {g' : β → β'} {a : α} {a' : α'} {file file' : String} {m : Mention}

theorem pure (h : a' = g a) : Unlines (Pure.pure a) (Pure.pure a') g := by
  intro s
  rw [h]
  rfl

theorem bind (hc : Unlines c c' g) (hf : ∀ a, Unlines (f a) (f' (g a)) g') :
    Unlines (c >>= f) (c' >>= f') g' := by
  intro s
  have hs := hc s
  cases h : c s with
  | error d =>
    rw [h] at hs
    cases h' : c' s.unlined with
    | error d' => rw [bind_error h, bind_error h']; rfl
    | ok x =>
      rw [h'] at hs
      cases hs
  | ok x =>
    rw [h] at hs
    cases h' : c' s.unlined with
    | error d' =>
      rw [h'] at hs
      cases hs
    | ok x' =>
      rw [h'] at hs
      cases hs
      rw [bind_ok h, bind_ok h']
      exact hf x.1 x.2

theorem inScope (hc : Unlines c c' g) : Unlines (inScope c) (inScope c') g := by
  have henter : Unlines (modify Scoping.enter) (modify Scoping.enter) (id : Unit → Unit) :=
    fun _ => congrArg (fun s => some ((), s)) SymbolTable.enter_unlined
  have hleave : Unlines (modify Scoping.leave) (modify Scoping.leave) (id : Unit → Unit) :=
    fun _ => congrArg (fun s => some ((), s)) SymbolTable.leave_unlined
  exact bind henter fun _ => bind hc fun _ => bind hleave fun _ => pure rfl

theorem resolve : Unlines (m.resolve file) (m.unlined.resolve file') Variable.unlined := by
  intro s
  have hl : s.unlined.lookup? m.name = (s.lookup? m.name).map Variable.unlined :=
    SymbolTable.lookup?_unlined
  change (Except.map _ (s.unlined.resolve m.name _)).toOption =
    (Except.map _ (s.resolve m.name _)).toOption.map _
  unfold SymbolTable.resolve
  rw [hl]
  cases s.lookup? m.name <;> rfl

theorem declare : Unlines (m.declare file) (m.unlined.declare file') Variable.unlined :=
  fun _ => SymbolTable.declare_unlined rfl

theorem declareLoop :
    Unlines (m.declareLoop file) (m.unlined.declareLoop file') Variable.unlined :=
  fun _ => SymbolTable.declareLoop_unlined rfl

/-- The variable of a loop and the phrase that it is there for. -/
theorem loop (hc : Unlines c c' g) : Unlines
    (Resolving.inScope do
      let v ← m.declareLoop file
      let a ← c
      Pure.pure (v, a))
    (Resolving.inScope do
      let v ← m.unlined.declareLoop file'
      let a ← c'
      Pure.pure (v, a)) (Prod.map Variable.unlined g) :=
  inScope (bind declareLoop fun _ => bind hc fun _ => pure rfl)

end Resolving.Unlines

section

open Resolving.Unlines

variable (file file' : String)

mutual

/-- The names of an expression are resolved alike without lines. -/
theorem Expr.unlines : (e : Expr Mention) →
    Resolving.Unlines (e.resolve file) ((e.relabel Mention.unlined unline).resolve file')
      (Expr.relabel Variable.unlined unline)
  | .const .. => pure rfl
  | .binary _ a b _ | .index a b _ =>
    bind (Expr.unlines a) fun _ => bind (Expr.unlines b) fun _ => pure rfl
  | .unary _ a _ | .call _ a _ => bind (Expr.unlines a) fun _ => pure rfl
  | .var _ _ => bind resolve fun _ => pure rfl
  | .list es _ => bind (Expr.unlinesElements es) fun _ => pure rfl
  | .map es _ => bind (Expr.unlinesEntries es) fun _ => pure rfl

/-- The names of an element are resolved alike without lines. -/
theorem Element.unlines : (e : Element Mention) →
    Resolving.Unlines (e.resolve file) ((e.relabel Mention.unlined unline).resolve file')
      (Element.relabel Variable.unlined unline)
  | .single a | .spread a => bind (Expr.unlines a) fun _ => pure rfl
  | .cond c a none _ => bind (Expr.unlines c) fun _ => bind (Element.unlines a) fun _ => pure rfl
  | .cond c a (some b) _ =>
    bind (Expr.unlines c) fun _ => bind (Element.unlines a) fun _ =>
      bind (Element.unlines b) fun _ => pure rfl
  | .each _ a e _ =>
    bind (Expr.unlines a) fun _ => bind (loop (Element.unlines e)) fun _ => pure rfl

theorem Expr.unlinesElements : (es : List (Element Mention)) →
    Resolving.Unlines (Expr.resolveElements file es)
      (Expr.resolveElements file' (Expr.relabelElements Mention.unlined unline es))
      (Expr.relabelElements Variable.unlined unline)
  | [] => pure rfl
  | e :: es => bind (Element.unlines e) fun _ => bind (Expr.unlinesElements es) fun _ => pure rfl

theorem Expr.unlinesEntries : (es : List (Expr Mention × Expr Mention)) →
    Resolving.Unlines (Expr.resolveEntries file es)
      (Expr.resolveEntries file' (Expr.relabelEntries Mention.unlined unline es))
      (Expr.relabelEntries Variable.unlined unline)
  | [] => pure rfl
  | (a, b) :: es =>
    bind (Expr.unlines a) fun _ => bind (Expr.unlines b) fun _ =>
      bind (Expr.unlinesEntries es) fun _ => pure rfl

end

theorem Target.unlines : (t : Target Mention) →
    Resolving.Unlines (t.resolve file) ((t.relabel Mention.unlined unline).resolve file')
      (Target.relabel Variable.unlined unline)
  | .var _ _ => bind Resolving.Unlines.resolve fun _ => pure rfl
  | .index a b _ =>
    bind (Expr.unlines file file' a) fun _ => bind (Expr.unlines file file' b) fun _ => pure rfl

/-- A declared name without lines, with the assignment of its initial value. -/
def Variable.unlinedDeclared (d : Variable × Option (Command Variable)) :
    Variable × Option (Command Variable) :=
  (d.1.unlined, d.2.map (Command.relabel Variable.unlined unline))

theorem Block.unlinesDeclared : (ms : List Mention) →
    Resolving.Unlines (Block.declareAll file ms)
      (Block.declareAll file' (ms.map Mention.unlined)) (List.map Variable.unlinedDeclared)
  | [] => pure rfl
  | _ :: ms => bind declare fun _ => bind (Block.unlinesDeclared ms) fun _ => pure rfl

mutual

/-- The names of a command are resolved alike without lines. -/
theorem Command.unlines : (c : Command Mention) →
    Resolving.Unlines (c.resolve file) ((c.relabel Mention.unlined unline).resolve file')
      (Command.relabel Variable.unlined unline)
  | .block b => bind (Block.unlines b) fun _ => pure rfl
  | .assign none a _ | .print (some a) _ | .assert a none _ =>
    bind (Expr.unlines file file' a) fun _ => pure rfl
  | .assign (some t) a _ =>
    bind (Target.unlines file file' t) fun _ => bind (Expr.unlines file file' a) fun _ => pure rfl
  | .print none _ => pure rfl
  | .assert a (some b) _ =>
    bind (Expr.unlines file file' a) fun _ => bind (Expr.unlines file file' b) fun _ => pure rfl
  | .cond a b none _ | .whileDo a b _ =>
    bind (Expr.unlines file file' a) fun _ => bind (Command.unlines b) fun _ => pure rfl
  | .cond a b (some c) _ =>
    bind (Expr.unlines file file' a) fun _ => bind (Command.unlines b) fun _ =>
      bind (Command.unlines c) fun _ => pure rfl
  | .doWhile b a _ =>
    bind (Command.unlines b) fun _ => bind (Expr.unlines file file' a) fun _ => pure rfl
  | .each _ a b _ =>
    bind (Expr.unlines file file' a) fun _ => bind (loop (Command.unlines b)) fun _ => pure rfl

theorem Block.unlines : (b : Block Mention) →
    Resolving.Unlines (b.resolve file) ((b.relabel Mention.unlined unline).resolve file')
      (Block.relabel Variable.unlined unline)
  | ⟨body, [], _⟩ => bind (inScope (Block.unlinesAll body)) fun _ => pure rfl
  | ⟨body, m :: ms, line⟩ =>
    bind (Block.unlinesDeclaration (m :: ms) body) fun ds =>
      pure (Block.relabel_declaration ds line).symm

/-- The names of commands are resolved alike without lines. -/
theorem Block.unlinesAll : (cs : List (Command Mention)) →
    Resolving.Unlines (Block.resolveAll file cs)
      (Block.resolveAll file' (Block.relabelAll Mention.unlined unline cs))
      (Block.relabelAll Variable.unlined unline)
  | [] => pure rfl
  | c :: cs => bind (Command.unlines c) fun _ => bind (Block.unlinesAll cs) fun _ => pure rfl

theorem Block.unlinesDeclaration (ms : List Mention) : (cs : List (Command Mention)) →
    Resolving.Unlines (Block.resolveDeclaration file ms cs)
      (Block.resolveDeclaration file' (ms.map Mention.unlined)
        (Block.relabelAll Mention.unlined unline cs)) (List.map Variable.unlinedDeclared)
  | [] => Block.unlinesDeclared file file' ms
  | .assign (some (.var m _)) a _ :: cs => by
    have hbefore : (ms.map Mention.unlined).takeWhile (·.number ≠ m.unlined.number) =
        (ms.takeWhile (·.number ≠ m.number)).map Mention.unlined := List.takeWhile_map ..
    have hafter : ((ms.map Mention.unlined).dropWhile (·.number ≠ m.unlined.number)).tail =
        (ms.dropWhile (·.number ≠ m.number)).tail.map Mention.unlined := by
      rw [List.map_tail]
      exact congrArg List.tail (List.dropWhile_map ..)
    simp only [Block.relabelAll, Command.relabel, Target.relabel, Block.resolveDeclaration]
    rw [hbefore, hafter]
    refine bind (Block.unlinesDeclared file file' _) fun before => bind declare fun v =>
      bind (Expr.unlines file file' a) fun value => bind (Block.unlinesDeclaration _ cs)
        fun after => pure ?_
    rw [List.map_append]
    rfl
  | .assign none _ _ :: cs | .assign (some (.index ..)) _ _ :: cs | .block _ :: cs
  | .print none _ :: cs | .print (some _) _ :: cs | .assert _ none _ :: cs
  | .assert _ (some _) _ :: cs | .cond _ _ none _ :: cs | .cond _ _ (some _) _ :: cs
  | .whileDo .. :: cs | .doWhile .. :: cs | .each .. :: cs => Block.unlinesDeclaration ms cs

end

end

/-- Commands that differ in lines only are resolved to commands that differ in lines only. -/
theorem Block.resolveAll_of_unlined {file : String} {cs xs : List (Command Mention)}
    {body : List (Command Variable)} {s s' t : SymbolTable}
    (h : Block.resolveAll file cs s = .ok (body, s')) (ht : t.unlined = s.unlined)
    (hxs : Block.relabelAll Mention.unlined unline xs = Block.relabelAll Mention.unlined unline cs)
    (file' : String) :
    ∃ body' t', Block.resolveAll file' xs t = .ok (body', t') ∧
      Block.relabelAll Variable.unlined unline body' =
        Block.relabelAll Variable.unlined unline body ∧ t'.unlined = s'.unlined := by
  have hs := Block.unlinesAll file file' cs s
  have hx := Block.unlinesAll file' file' xs t
  rw [hxs, ht, hs, h] at hx
  cases hr : Block.resolveAll file' xs t with
  | error d =>
    rw [hr] at hx
    cases hx
  | ok x =>
    rw [hr] at hx
    obtain ⟨hbody, ht'⟩ := Prod.mk.inj (Option.some.inj hx)
    exact ⟨x.1, x.2, rfl, hbody.symm, ht'.symm⟩

/-! ### Printing -/

mutual

/-- An expression is printed alike without lines. -/
theorem Expr.render_unlined :
    (e : Expr Variable) → (e.relabel Variable.unlined unline).render = e.render
  | .const .. | .var .. => rfl
  | .binary _ a b _ | .index a b _ => by
    simp only [Expr.relabel, Expr.render, Expr.render_unlined a, Expr.render_unlined b]
  | .unary _ a _ | .call _ a _ => by simp only [Expr.relabel, Expr.render, Expr.render_unlined a]
  | .list es _ => by simp only [Expr.relabel, Expr.render, Expr.renderElements_unlined es]
  | .map es _ => by simp only [Expr.relabel, Expr.render, Expr.renderEntries_unlined es]

theorem Element.render_unlined :
    (e : Element Variable) → (e.relabel Variable.unlined unline).render = e.render
  | .single a | .spread a => by
    simp only [Element.relabel, Element.render, Expr.render_unlined a]
  | .cond c a none _ => by
    simp only [Element.relabel, Element.render, Expr.render_unlined c, Element.render_unlined a]
  | .cond c a (some b) _ => by
    simp only [Element.relabel, Element.render, Expr.render_unlined c, Element.render_unlined a,
      Element.render_unlined b]
  | .each _ a e _ => by
    simp only [Element.relabel, Element.render, Expr.render_unlined a, Element.render_unlined e,
      Variable.unlined]

theorem Expr.renderElements_unlined : (es : List (Element Variable)) →
    Expr.renderElements (Expr.relabelElements Variable.unlined unline es) =
      Expr.renderElements es
  | [] => rfl
  | e :: es => by
    simp only [Expr.relabelElements, Expr.renderElements, Element.render_unlined e,
      Expr.renderElements_unlined es]

theorem Expr.renderEntries_unlined : (es : List (Expr Variable × Expr Variable)) →
    Expr.renderEntries (Expr.relabelEntries Variable.unlined unline es) = Expr.renderEntries es
  | [] => rfl
  | (a, b) :: es => by
    simp only [Expr.relabelEntries, Expr.renderEntries, Expr.render_unlined a,
      Expr.render_unlined b, Expr.renderEntries_unlined es]

end

theorem Expr.renderAlone_unlined (e : Expr Variable) :
    (e.relabel Variable.unlined unline).renderAlone = e.renderAlone := by
  cases e with
  | map es => exact congrArg (fun s => "(" ++ s ++ ")") (Expr.render_unlined (.map es _))
  | const | binary | unary | call | var | index | list => exact Expr.render_unlined _

theorem Target.render_unlined (t : Target Variable) :
    (t.relabel Variable.unlined unline).toExpr.render = t.toExpr.render := by
  rw [Target.toExpr_relabel, Expr.render_unlined]

theorem Command.initialValue?_unlined (v : Variable) (c : Command Variable) :
    Command.initialValue? v.unlined (c.relabel Variable.unlined unline) =
      (Command.initialValue? v c).map (Expr.relabel Variable.unlined unline) := by
  cases c with
  | assign t a =>
    rcases t with _ | ⟨w, _⟩ | _
    · rfl
    · by_cases hw : w.slot = v.slot <;>
        simp [Command.relabel, Target.relabel, Command.initialValue?, Variable.unlined, hw]
    · rfl
  | print t | assert _ t | cond _ _ t => cases t <;> rfl
  | block | whileDo | doWhile | each => rfl

theorem Variable.renderDeclared_unlined (body : List (Command Variable)) (v : Variable) :
    v.unlined.renderDeclared (Block.relabelAll Variable.unlined unline body) =
      v.renderDeclared body := by
  have hv : (Block.relabelAll Variable.unlined unline body).findSome?
        (Command.initialValue? v.unlined) =
      (body.findSome? (Command.initialValue? v)).map (Expr.relabel Variable.unlined unline) := by
    rw [Block.relabelAll_eq_map, List.findSome?_map, List.map_findSome?]
    congr 1
    funext c
    exact Command.initialValue?_unlined v c
  unfold Variable.renderDeclared
  rw [hv]
  cases body.findSome? (Command.initialValue? v) with
  | none => rfl
  | some value => exact congrArg (v.name ++ " = " ++ ·) (Expr.render_unlined value)

theorem Block.renderDeclaration_unlined (body : List (Command Variable)) (vs : List Variable) :
    Block.renderDeclaration (Block.relabelAll Variable.unlined unline body)
      (vs.map Variable.unlined) = Block.renderDeclaration body vs := by
  have hhead : Block.declarationHead (vs.map Variable.unlined) = Block.declarationHead vs := by
    cases vs <;> rfl
  unfold Block.renderDeclaration
  rw [hhead, List.map_map]
  congr 4
  funext v
  exact Variable.renderDeclared_unlined body v

theorem Command.underHeader_unlined (header : String) (c : Command Variable) (inBraces : Bool)
    (lines : List String) :
    Command.underHeader header (c.relabel Variable.unlined unline) inBraces lines =
      Command.underHeader header c inBraces lines := by
  unfold Command.underHeader
  rw [Command.isBraced_relabel]

mutual

theorem Command.lines_unlined :
    (c : Command Variable) → (c.relabel Variable.unlined unline).lines = c.lines
  | .block ⟨body, [], _⟩ => congrArg Text.braced (Block.linesOf_unlined body)
  | .block ⟨body, v :: vs, _⟩ =>
    congrArg (fun s => [s]) (Block.renderDeclaration_unlined body (v :: vs))
  | .assign none a _ => by
    simp only [Command.relabel, Command.lines, Expr.renderAlone_unlined]
  | .assign (some t) a _ => by
    simp only [Command.relabel, Command.lines, Expr.render_unlined, Target.render_unlined]
  | .print none _ => rfl
  | .print (some a) _ | .assert a none _ | .assert a (some b) _ => by
    simp only [Command.relabel, Command.lines, Expr.render_unlined]
  | .cond a b none _ | .whileDo a b _ | .doWhile b a _ => by
    simp only [Command.relabel, Command.lines, Expr.render_unlined, Command.underHeader_unlined,
      Command.lines_unlined b]
  | .each v a b _ => by
    simp only [Command.relabel, Command.lines, Expr.render_unlined, Command.underHeader_unlined,
      Command.lines_unlined b, Variable.unlined]
  | .cond a b (some c) _ => by
    simp only [Command.relabel, Command.lines, Expr.render_unlined, Command.underHeader_unlined,
      Command.lines_unlined b, Command.lines_unlined c, Command.hasDanglingIf_relabel]

theorem Block.linesOf_unlined : (cs : List (Command Variable)) →
    Block.linesOf (Block.relabelAll Variable.unlined unline cs) = Block.linesOf cs
  | [] => rfl
  | c :: cs => by
    simp only [Block.relabelAll, Block.linesOf, Command.lines_unlined c, Block.linesOf_unlined cs]

end

/-- A program is printed alike without lines. -/
theorem Block.render_unlined (b : Block Variable) :
    (b.relabel Variable.unlined unline).render = b.render := by
  obtain ⟨body, declares, line⟩ := b
  exact congrArg Text.unlines (Block.linesOf_unlined body)

end Scriptlet
