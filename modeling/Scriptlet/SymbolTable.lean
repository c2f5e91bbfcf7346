import Scriptlet.Diagnostic
import Scriptlet.Variable

/-!
# The symbol table

Names are declared and resolved while a program is read. The table keeps every
variable ever declared, in the order of their slots, and the scopes that are open,
each a frame of the variables declared in it.

There are two modes. In flat mode there is one frame for the whole program, so
every name is global and can be declared once; a loop takes over a variable of its
name that already exists. In lexical mode braced bodies, loops and comprehensions
open frames of their own, a name is looked up from the innermost frame outward,
and a loop always declares its variable anew.

An operation that is refused gives a diagnostic and no table: the old one stands.
-/

namespace Scriptlet

/-- How declarations are scoped. -/
inductive ScopeMode where
  /-- One scope for the whole program. -/
  | flat
  /-- Bodies and loops open scopes of their own. -/
  | lexical
  deriving DecidableEq

/-- The name of a mode in a listing. -/
def ScopeMode.label : ScopeMode → String
  | .flat => "Flat"
  | .lexical => "Lexical"

/-- The variables declared in one scope, the latest first. -/
abbrev Frame := List Variable

/-- The variable of a name in a frame. -/
def Frame.find? (frame : Frame) (name : String) : Option Variable :=
  List.find? (fun v => v.name = name) frame

/-- The variables of a program, and the scopes that are open. -/
structure SymbolTable where
  /-- How declarations are scoped. -/
  mode : ScopeMode
  /-- The scope in which names are declared. -/
  innermost : Frame
  /-- The scopes around it, from the inside out. -/
  outer : List Frame
  /-- All variables declared so far, in the order of their slots. -/
  declared : List Variable

namespace SymbolTable

/-- The table of a program before its first declaration. -/
def empty (mode : ScopeMode) : SymbolTable := ⟨mode, [], [], []⟩

/-- The open scopes, from the inside out. -/
def frames (t : SymbolTable) : List Frame := t.innermost :: t.outer

/-- How many scopes are open, the global one included. -/
def depth (t : SymbolTable) : Nat := t.frames.length

/-- How many variables have been declared. -/
def size (t : SymbolTable) : Nat := t.declared.length

/-- Opens a scope, in lexical mode. -/
def enter (t : SymbolTable) : SymbolTable :=
  match t.mode with
  | .flat => t
  | .lexical => { t with innermost := [], outer := t.innermost :: t.outer }

/-- Closes the innermost scope, in lexical mode. The global one is never closed. -/
def leave (t : SymbolTable) : SymbolTable :=
  match t.mode, t.outer with
  | .lexical, frame :: rest => { t with innermost := frame, outer := rest }
  | _, _ => t

/-- Leaving a scope undoes entering it. -/
@[simp] theorem leave_enter (t : SymbolTable) : t.enter.leave = t := by
  obtain ⟨mode, innermost, outer, declared⟩ := t
  cases mode
  · cases outer <;> rfl
  · rfl

/-- The variable that a name means: that of the innermost scope that has one. -/
def lookup? (t : SymbolTable) (name : String) : Option Variable :=
  t.frames.findSome? fun frame => frame.find? name

/-- Declares a name in the innermost scope, which may not have it yet. -/
def declare (t : SymbolTable) (name : String) (constant : Bool) (nullability : Nullability)
    (position : Position) : Except Diagnostic (Variable × SymbolTable) :=
  match t.innermost.find? name with
  | some _ => .error ⟨.duplicateDeclaration name, position⟩
  | none =>
    let v : Variable := ⟨name, position.line, constant, nullability, t.size⟩
    .ok (v, { t with innermost := v :: t.innermost, declared := t.declared ++ [v] })

/-- Declares the variable of a loop or a comprehension. In flat mode a variable of
that name is taken over, unless it is constant. -/
def declareLoop (t : SymbolTable) (name : String) (position : Position) :
    Except Diagnostic (Variable × SymbolTable) :=
  match t.mode, t.lookup? name with
  | .flat, some v =>
    if v.constant then .error ⟨.duplicateDeclaration name, position⟩ else .ok (v, t)
  | _, _ => t.declare name false .nullable position

/-- The variable that a name means, which must be declared. -/
def resolve (t : SymbolTable) (name : String) (position : Position) :
    Except Diagnostic Variable :=
  match t.lookup? name with
  | some v => .ok v
  | none => .error ⟨.undeclaredName name, position⟩

end SymbolTable

end Scriptlet
