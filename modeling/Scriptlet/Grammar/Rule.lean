import Scriptlet.Grammar.Dispatch
import Scriptlet.SymbolTable
import Scriptlet.Token.Source

/-!
# Grammar rules

A `Parser` is a state of reading: the token in hand, the source of those to come,
the names known so far, the dispatch tables and the number of constructs that are
open. A `Rule` reads a phrase from it. It gives the phrase or a diagnostic, and the
parser afterwards in either case, so nothing that was read is forgotten when a rule
fails.

## The model

Rules know nothing of how names are kept. They work on any type of table with the
operations of `Scoping`, and put into the tree whatever those give for a variable.
The symbol table is one such type.

Rules that repeat something (`Rule.grow`, `Rule.collect`) are bounded by the number
of tokens that are left. A round that succeeds has read at least one of them, so the
bound is never what ends the repetition.
-/

namespace Scriptlet

/-- Tables of names: scopes are entered and left, names are declared and resolved.
What is known of a variable is a `ν`. -/
class Scoping (σ : Type) (ν : outParam Type) where
  /-- Opens a scope. -/
  enter : σ → σ
  /-- Closes the innermost scope. -/
  leave : σ → σ
  /-- Declares a name, constant or not, that may hold null or not. -/
  declare : σ → String → Bool → Nullability → Position → Except Diagnostic (ν × σ)
  /-- Declares the variable of a loop. -/
  declareLoop : σ → String → Position → Except Diagnostic (ν × σ)
  /-- Finds the variable that a name means. -/
  resolve : σ → String → Position → Except Diagnostic ν

instance : Scoping SymbolTable Variable where
  enter := SymbolTable.enter
  leave := SymbolTable.leave
  declare := SymbolTable.declare
  declareLoop := SymbolTable.declareLoop
  resolve := SymbolTable.resolve

/-- A state of reading. -/
structure Parser (σ : Type) where
  /-- The token in hand. -/
  lookahead : Token
  /-- Where further tokens come from. -/
  source : TokenSource
  /-- The name of the file that is read. -/
  file : String
  /-- The names known so far. -/
  symbols : σ
  /-- Which form each kind of token opens. -/
  dispatch : Dispatch
  /-- How many constructs are open. -/
  depth : Nat

/-- How many constructs may be open at once. -/
def maxDepth : Nat := 256

namespace Parser

variable {σ : Type}

/-- A parser at the start of a source, with its first token in hand. -/
def start (source : TokenSource) (file : String) (symbols : σ) (dispatch : Dispatch) : Parser σ :=
  ⟨source.next.1, source.next.2, file, symbols, dispatch, 0⟩

/-- Where the source has been read up to. -/
def position (p : Parser σ) : Position := ⟨p.source.line, p.file⟩

/-- The diagnostic for a token in hand that fits nowhere. -/
def unexpected (p : Parser σ) : Diagnostic :=
  match p.lookahead.kind with
  | .malformed => ⟨.invalidLexeme p.lookahead.value, p.position⟩
  | .cutShort | .endOfInput => ⟨.unexpectedEnd, p.position⟩
  | _ => ⟨.unexpectedLexeme p.lookahead.value, p.position⟩

/-- More rounds than any repetition can have: the tokens to come, the one in hand,
and one round that finds nothing. -/
def rounds (p : Parser σ) : Nat := p.source.pending.length + 2

end Parser

/-- Reads a phrase. -/
def Rule (σ α : Type) : Type := Parser σ → Except Diagnostic α × Parser σ

namespace Rule

variable {σ ν α β : Type}

instance : Monad (Rule σ) where
  pure a := fun p => (.ok a, p)
  bind r f := fun p =>
    match r p with
    | (.ok a, q) => f a q
    | (.error d, q) => (.error d, q)

theorem pure_apply (a : α) (p : Parser σ) : (pure a : Rule σ α) p = (.ok a, p) := rfl

/-- A rule that succeeds hands its phrase and its parser on. -/
theorem bind_apply_ok {r : Rule σ α} {f : α → Rule σ β} {p q : Parser σ} {a : α}
    (h : r p = (.ok a, q)) : (r >>= f) p = f a q := by
  simp only [bind, h]

/-- A rule that fails ends what it is part of. -/
theorem bind_apply_error {r : Rule σ α} {f : α → Rule σ β} {p q : Parser σ} {d : Diagnostic}
    (h : r p = (.error d, q)) : (r >>= f) p = (.error d, q) := by
  simp only [bind, h]

instance : LawfulMonad (Rule σ) :=
  LawfulMonad.mk' (Rule σ)
    (fun r => by
      funext p
      simp only [Functor.map]
      rcases r p with ⟨_ | _, _⟩ <;> rfl)
    (fun a f => rfl)
    (fun r f g => by
      funext p
      simp only [bind]
      rcases r p with ⟨_ | _, _⟩ <;> rfl)

/-! ### Looking -/

/-- The token in hand. -/
def peek : Rule σ Token := fun p => (.ok p.lookahead, p)

/-- The kind of the token in hand. -/
def kind : Rule σ TokenKind := fun p => (.ok p.lookahead.kind, p)

/-- The line that has been read up to. -/
def reached : Rule σ Nat := fun p => (.ok p.source.line, p)

/-- Where the source has been read up to. -/
def position : Rule σ Position := fun p => (.ok p.position, p)

/-- The dispatch tables. -/
def dispatch : Rule σ Dispatch := fun p => (.ok p.dispatch, p)

/-! ### Failing -/

/-- Fails. -/
def fail (d : Diagnostic) : Rule σ α := fun p => (.error d, p)

/-- Fails with a fault on a line of the file. -/
def failAt (fault : Fault) (line : Nat) : Rule σ α := fun p => (.error ⟨fault, line, p.file⟩, p)

/-- Fails because of the token in hand. -/
def unexpected : Rule σ α := fun p => (.error p.unexpected, p)

/-! ### Reading tokens -/

/-- Takes the token in hand, whatever it is. -/
def advance : Rule σ Token := fun p =>
  (.ok p.lookahead, { p with lookahead := p.source.next.1, source := p.source.next.2 })

/-- Takes the token in hand, which must be of this kind. -/
def expect (kind : TokenKind) : Rule σ Token := fun p =>
  if p.lookahead.kind = kind then advance p else unexpected p

/-- Takes the token in hand if it is of this kind, and tells whether it was. -/
def accept (kind : TokenKind) : Rule σ Bool := fun p =>
  if p.lookahead.kind = kind then (.ok true, (advance p).2) else (.ok false, p)

/-- A phrase in parentheses. -/
def parenthesized (r : Rule σ α) : Rule σ α := do
  let _ ← expect (.symbol .openParen)
  let a ← r
  let _ ← expect (.symbol .closeParen)
  pure a

/-! ### Repeating -/

/-- Lets a value grow as long as a step gives a new one, for at most so many
rounds. -/
def growWithin (step : α → Rule σ (Option α)) : Nat → α → Rule σ α
  | 0, a => pure a
  | n + 1, a => do
    match ← step a with
    | none => pure a
    | some b => growWithin step n b

/-- Lets a value grow as long as a step gives a new one. -/
def grow (step : α → Rule σ (Option α)) (a : α) : Rule σ α := fun p =>
  growWithin step p.rounds a p

/-- Collects items as long as there is one, for at most so many rounds. -/
def collectWithin (item : Rule σ (Option α)) : Nat → Rule σ (List α)
  | 0 => pure []
  | n + 1 => do
    match ← item with
    | none => pure []
    | some a => do
      let rest ← collectWithin item n
      pure (a :: rest)

/-- Collects items as long as there is one. -/
def collect (item : Rule σ (Option α)) : Rule σ (List α) := fun p =>
  collectWithin item p.rounds p

/-- One item, and further ones with a comma before each. -/
def commaSeparated (item : Rule σ α) : Rule σ (List α) := do
  let first ← item
  let rest ← collect do
    if ← accept (.symbol .comma) then
      let next ← item
      pure (some next)
    else pure none
  pure (first :: rest)

/-- Items with commas between them up to a closing symbol, which is not read. There
may be none. -/
def itemsUntil (close : Symbol) (item : Rule σ α) : Rule σ (List α) := do
  if (← kind) = .symbol close then pure [] else commaSeparated item

/-! ### Nesting -/

/-- Fails because too much is open. -/
def tooDeep : Rule σ α := fun p => (.error ⟨.tooDeep maxDepth, p.position⟩, p)

/-- Reads a phrase with one more construct open, if the limit allows one more. -/
def nested (r : Rule σ α) : Rule σ α := fun p =>
  if maxDepth ≤ p.depth then tooDeep p
  else
    match r { p with depth := p.depth + 1 } with
    | (result, q) => (result, { q with depth := q.depth - 1 })

/-! ### Names -/

variable [Scoping σ ν]

/-- Reads a phrase in a scope of its own. -/
def inScope (r : Rule σ α) : Rule σ α := fun p =>
  match r { p with symbols := Scoping.enter p.symbols } with
  | (result, q) => (result, { q with symbols := Scoping.leave q.symbols })

/-- Declares the variable that a token names. -/
def declare (name : Token) (constant : Bool) (nullability : Nullability) : Rule σ ν := fun p =>
  match Scoping.declare p.symbols name.value constant nullability ⟨name.line, p.file⟩ with
  | .ok (v, symbols) => (.ok v, { p with symbols })
  | .error d => (.error d, p)

/-- Declares the variable of a loop that a token names. -/
def declareLoop (name : Token) : Rule σ ν := fun p =>
  match Scoping.declareLoop p.symbols name.value ⟨name.line, p.file⟩ with
  | .ok (v, symbols) => (.ok v, { p with symbols })
  | .error d => (.error d, p)

/-- The variable that a token names. -/
def resolve (name : Token) : Rule σ ν := fun p =>
  (Scoping.resolve p.symbols name.value ⟨name.line, p.file⟩, p)

/-- Reads a phrase in a scope of its own that holds the variable of a loop. -/
def withLoopVariable (name : Token) (r : Rule σ α) : Rule σ (ν × α) := inScope do
  let v ← declareLoop name
  let a ← r
  pure (v, a)

end Rule

end Scriptlet
