import Scriptlet.Program
import Scriptlet.Proofs.Tape

/-!
# What holds of every rule

Many things hold of every rule of the grammar because they hold of its single steps and go
through from parts to wholes: that the levels that were opened are closed again, say, or
that only tokens that were taken matter. To prove such a thing it is enough to say what the
single steps do. This module walks the grammar once for all of them.

## The model

A `Rule.Law` is such a property. It is said of a rule together with a condition on what
the rule gives: when that holds the rule must have taken a token other than the mark of the
end. A law that has nothing to do with tokens ignores the condition. It is there for the
laws of repetitions, each round of which must take something.

## What is proved

* `Rule.Steps.law` — a law that goes through repetitions of any number of rounds.
* `Rule.Law.nonterminal` — a law holds of every rule, whatever the dispatch tables.
-/

namespace Scriptlet

variable {σ ν : Type} [Scoping σ ν]

/-- A property of rules, each with a condition under which the rule has taken a token. It
holds of the single steps and goes through from parts to wholes. -/
structure Rule.Steps (P : (α : Type) → Rule σ α → (α → Prop) → Prop) : Prop where
  /-- Less may be asked. -/
  mono {α : Type} {r : Rule σ α} {t u : α → Prop} : P α r t → (∀ a, u a → t a) → P α r u
  pure {α : Type} {a : α} {t : α → Prop} : ¬t a → P α (pure a) t
  /-- What follows must take a token only where the first part has taken none. -/
  bind {α β : Type} {r : Rule σ α} {f : α → Rule σ β} {t : α → Prop} {u : β → Prop} :
    P α r t → (∀ a, P β (f a) fun b => u b ∧ ¬ t a) → P β (r >>= f) u
  peek : P Token peek fun _ => False
  kind : P TokenKind kind fun _ => False
  reached : P Nat reached fun _ => False
  position : P Position position fun _ => False
  dispatch : P Dispatch dispatch fun _ => False
  fail {α : Type} (d : Diagnostic) : P α (fail d) fun _ => True
  failAt {α : Type} (fault : Fault) (line : Nat) : P α (failAt fault line) fun _ => True
  unexpected {α : Type} : P α unexpected fun _ => True
  tooDeep {α : Type} : P α tooDeep fun _ => True
  advance : P Token advance fun token => token.kind ≠ .endOfInput
  expect (k : TokenKind) : P Token (expect k) fun _ => k ≠ .endOfInput
  accept (k : TokenKind) : P Bool (accept k) fun taken => taken = true ∧ k ≠ .endOfInput
  nested {α : Type} {r : Rule σ α} {t : α → Prop} : P α r t → P α (nested r) t
  inScope {α : Type} {r : Rule σ α} {t : α → Prop} : P α r t → P α (inScope r) t
  declare (name : Token) (constant : Bool) (nullability : Nullability) :
    P ν (declare name constant nullability) fun _ => False
  declareLoop (name : Token) : P ν (declareLoop name) fun _ => False
  resolve (name : Token) : P ν (resolve name) fun _ => False

/-- A property of rules that goes through repetitions too. Each round that goes on must
take a token. -/
structure Rule.Law (P : (α : Type) → Rule σ α → (α → Prop) → Prop) : Prop extends
    Rule.Steps P where
  grow {α : Type} {step : α → Rule σ (Option α)} (a : α) :
    (∀ a, P (Option α) (step a) fun next => next.isSome) → P α (grow step a) fun _ => False

namespace Rule

variable {P : (α : Type) → Rule σ α → (α → Prop) → Prop} {α β : Type}

namespace Steps

/-- Whatever is asked of the rest, if the first part has taken a token. -/
theorem bind_taken (hP : Steps P) {r : Rule σ α} {f : α → Rule σ β} {u : β → Prop}
    (hr : P α r fun _ => True) (hf : ∀ a, P β (f a) fun _ => False) : P β (r >>= f) u :=
  hP.bind hr fun a => hP.mono (hf a) fun _ h => h.2 trivial

/-- What is asked is asked of the rest, if nothing is known of the first part. -/
theorem bind_untaken (hP : Steps P) {r : Rule σ α} {f : α → Rule σ β} {u : β → Prop}
    (hr : P α r fun _ => False) (hf : ∀ a, P β (f a) u) : P β (r >>= f) u :=
  hP.bind hr fun a => hP.mono (hf a) fun _ h => h.1

theorem weaken (hP : Steps P) {r : Rule σ α} {t : α → Prop} (hr : P α r t) :
    P α r fun _ => False := hP.mono hr fun _ h => h.elim

theorem pure_untaken (hP : Steps P) (a : α) : P α (Pure.pure a) fun _ => False := hP.pure id

theorem growWithin (hP : Steps P) {step : α → Rule σ (Option α)}
    (hs : ∀ a, P (Option α) (step a) fun _ => False) (n : Nat) (a : α) :
    P α (growWithin step n a) fun _ => False := by
  induction n generalizing a with
  | zero => exact hP.pure_untaken a
  | succ n ih =>
    refine hP.bind_untaken (hs a) fun next => ?_
    cases next with
    | none => exact hP.pure_untaken a
    | some b => exact ih b

/-- A law that does not depend on how the number of rounds is chosen. -/
theorem law (hP : Steps P) (rounds : ∀ {α : Type} {r : Nat → Rule σ α},
    (∀ n, P α (r n) fun _ => False) → P α (fun p => r p.rounds p) fun _ => False) : Law P where
  toSteps := hP
  grow a hs := rounds fun n => hP.growWithin (fun a => hP.weaken (hs a)) n a

/-! ### Reading tokens and lists -/

theorem expect_symbol (hP : Steps P) (s : Symbol) :
    P Token (Rule.expect (.symbol s)) fun _ => True :=
  hP.mono (hP.expect _) fun _ _ => nofun

theorem expect_keyword (hP : Steps P) (k : Keyword) :
    P Token (Rule.expect (.keyword k)) fun _ => True :=
  hP.mono (hP.expect _) fun _ _ => nofun

theorem expect_name (hP : Steps P) : P Token (Rule.expect .name) fun _ => True :=
  hP.mono (hP.expect _) fun _ _ => nofun

/-- Whatever is asked of what follows an optional token, where it is there. -/
theorem accept_bind (hP : Steps P) {k : TokenKind} {f : Bool → Rule σ α} {u : α → Prop}
    (ht : P α (f true) fun _ => False) (hf : P α (f false) u)
    (hk : k ≠ .endOfInput := by simp) : P α (Rule.accept k >>= f) u := by
  refine hP.bind (hP.accept k) fun taken => ?_
  cases taken with
  | true => exact hP.mono ht fun _ h => h.2 ⟨rfl, hk⟩
  | false => exact hP.mono hf fun _ h => h.1

theorem parenthesized (hP : Steps P) {r : Rule σ α} (hr : P α r fun _ => False) :
    P α (Rule.parenthesized r) fun _ => True := by
  refine hP.bind_taken (hP.expect_symbol .openParen) fun _ => ?_
  refine hP.bind_untaken hr fun a => ?_
  exact hP.bind_untaken (hP.weaken (hP.expect_symbol .closeParen)) fun _ => hP.pure_untaken a

theorem withLoopVariable (hP : Steps P) (name : Token) {r : Rule σ α}
    (hr : P α r fun _ => True) : P (ν × α) (Rule.withLoopVariable name r) fun _ => True := by
  refine hP.inScope (hP.bind_untaken (hP.declareLoop name) fun v => ?_)
  exact hP.bind_taken hr fun a => hP.pure_untaken (v, a)

theorem operator (hP : Steps P) : P Nat Grammar.operator fun _ => False :=
  hP.bind_untaken (hP.weaken hP.advance) fun _ => hP.reached

end Steps

namespace Law

theorem pushing (hP : Law P) {item : Rule σ (Option α)}
    (hi : P (Option α) item fun next => next.isSome) (items : List α) :
    P (Option (List α)) (Rule.pushing item items) fun next => next.isSome := by
  refine hP.bind hi fun next => ?_
  cases next with
  | none => exact hP.pure fun h => Bool.false_ne_true h.1
  | some a => exact hP.pure fun h => h.2 rfl

/-- Collecting items is letting a list of them grow. -/
theorem collect (hP : Law P) {item : Rule σ (Option α)}
    (hi : P (Option α) item fun next => next.isSome) :
    P (List α) (Rule.collect item) fun _ => False := by
  rw [collect_eq_grow]
  exact hP.grow [] (hP.pushing hi)

theorem afterComma (hP : Law P) {item : Rule σ α} (hi : P α item fun _ => True) :
    P (Option α) (Rule.afterComma item) fun next => next.isSome := by
  refine hP.accept_bind ?_ (hP.pure nofun)
  exact hP.bind_untaken (hP.weaken hi) fun next => hP.pure_untaken (some next)

theorem commaSeparated (hP : Law P) {item : Rule σ α} (hi : P α item fun _ => True) :
    P (List α) (Rule.commaSeparated item) fun _ => True := by
  refine hP.bind_taken hi fun first => ?_
  refine hP.bind_untaken (hP.collect (hP.afterComma hi)) fun rest => ?_
  exact hP.pure_untaken (first :: rest)

theorem itemsUntil (hP : Law P) (close : Symbol) {item : Rule σ α}
    (hi : P α item fun _ => True) : P (List α) (Rule.itemsUntil close item) fun _ => False := by
  refine hP.bind_untaken hP.kind fun kind => ?_
  split
  · exact hP.pure_untaken []
  · exact hP.weaken (hP.commaSeparated hi)

/-! ### Expressions -/

section

variable {op? : TokenKind → Option BinaryOp} {operand : Rule σ (Expr ν)}

/-- An operation has taken a token if there is one. -/
theorem operation? (hP : Law P) (ho : P (Expr ν) operand fun _ => True) (left : Expr ν) :
    P (Option (Expr ν)) (Grammar.operation? op? operand left) fun next => next.isSome := by
  refine hP.bind_untaken hP.kind fun kind => ?_
  split
  · exact hP.pure nofun
  · refine hP.bind_untaken hP.operator fun line => ?_
    exact hP.bind_taken ho fun right => hP.pure_untaken _

theorem chain (hP : Law P) (ho : P (Expr ν) operand fun _ => True) :
    P (Expr ν) (Grammar.chain op? operand) fun _ => True :=
  hP.bind_taken ho fun first => hP.grow first fun left => hP.operation? ho left

theorem pair (hP : Law P) (ho : P (Expr ν) operand fun _ => True) :
    P (Expr ν) (Grammar.pair op? operand) fun _ => True := by
  refine hP.bind_taken ho fun left => ?_
  refine hP.bind_untaken (hP.weaken (hP.operation? ho left)) fun next => ?_
  cases next with
  | none => exact hP.pure_untaken left
  | some e => exact hP.pure_untaken e

end

/-- The law holds of the rules for the phrases inside a phrase. -/
structure Holds (P : (α : Type) → Rule σ α → (α → Prop) → Prop) (inner : Inner σ ν) : Prop where
  expression : P (Expr ν) inner.expression fun _ => True
  element : P (Element ν) inner.element fun _ => True
  command : P (Command ν) inner.command fun _ => True

variable {inner : Inner σ ν}

theorem constant (hP : Law P) : P (Expr ν) Grammar.constant fun _ => True := by
  refine hP.bind hP.advance fun token => ?_
  cases h : Literal.ofToken token with
  | error fault => exact hP.mono (hP.failAt fault token.line) fun _ _ => trivial
  | ok value =>
    refine hP.mono (hP.pure (t := fun _ => ¬token.kind ≠ .endOfInput) fun hend => hend ?_)
      fun _ hu => hu.2
    intro hk
    simp [Literal.ofToken, hk] at h

theorem call (hP : Law P) (hi : Holds P inner) :
    P (Expr ν) (Grammar.call inner) fun _ => True := by
  refine hP.bind_untaken (hP.weaken hP.advance) fun token => ?_
  split
  · exact hP.failAt _ token.line
  · exact hP.bind_taken (hP.parenthesized (hP.weaken hi.expression)) fun argument =>
      hP.pure_untaken _

theorem subscript? (hP : Law P) (hi : Holds P inner) (base : Expr ν) :
    P (Option (Expr ν)) (Grammar.subscript? inner base) fun next => next.isSome := by
  refine hP.bind_untaken hP.kind fun kind => ?_
  split
  · refine hP.bind_untaken hP.operator fun line => ?_
    refine hP.bind_taken hi.expression fun subscript => ?_
    refine hP.bind_untaken (hP.weaken (hP.expect_symbol .closeBracket)) fun _ => ?_
    exact hP.pure_untaken _
  · exact hP.pure nofun

theorem list (hP : Law P) (hi : Holds P inner) :
    P (Expr ν) (Grammar.list inner) fun _ => True := by
  refine hP.bind_taken (hP.expect_symbol .openBracket) fun start => ?_
  refine hP.bind_untaken (hP.itemsUntil .closeBracket hi.element) fun elements => ?_
  refine hP.bind_untaken (hP.weaken (hP.expect_symbol .closeBracket)) fun _ => ?_
  exact hP.pure_untaken _

theorem entry (hP : Law P) (hi : Holds P inner) :
    P (Expr ν × Expr ν) (Grammar.entry inner) fun _ => True := by
  refine hP.bind_taken hi.expression fun key => ?_
  refine hP.bind_untaken (hP.weaken (hP.expect_symbol .colon)) fun _ => ?_
  exact hP.bind_untaken (hP.weaken hi.expression) fun value => hP.pure_untaken (key, value)

theorem map (hP : Law P) (hi : Holds P inner) :
    P (Expr ν) (Grammar.map inner) fun _ => True := by
  refine hP.bind_taken (hP.expect_symbol .openCurly) fun start => ?_
  refine hP.bind_untaken (hP.itemsUntil .closeCurly (hP.entry hi)) fun entries => ?_
  refine hP.bind_untaken (hP.weaken (hP.expect_symbol .closeCurly)) fun _ => ?_
  exact hP.pure_untaken _

theorem loopHeader (hP : Law P) (hi : Holds P inner) :
    P (Token × Expr ν) (Grammar.loopHeader inner) fun _ => True := by
  refine hP.parenthesized (hP.bind_untaken (hP.weaken hP.expect_name) fun name => ?_)
  refine hP.bind_untaken (hP.weaken (hP.expect_keyword .inWord)) fun _ => ?_
  exact hP.bind_untaken (hP.weaken hi.expression) fun iterable => hP.pure_untaken (name, iterable)

theorem place (hP : Law P) (hi : Holds P inner) :
    P (Expr ν) (Grammar.place inner) fun _ => True := by
  refine hP.bind_taken hP.expect_name fun name => ?_
  refine hP.bind_untaken (hP.resolve name) fun v => ?_
  exact hP.grow _ fun base => hP.subscript? hi base

theorem operandOf (hP : Law P) (hi : Holds P inner) (form : OperandForm) :
    P (Expr ν) (Grammar.operandOf inner form) fun _ => True := by
  cases form with
  | constant => exact hP.constant
  | call => exact hP.call hi
  | place => exact hP.place hi
  | list => exact hP.list hi
  | map => exact hP.map hi

theorem operand (hP : Law P) (hi : Holds P inner) :
    P (Expr ν) (Grammar.operand inner) fun _ => True := by
  refine hP.bind_untaken hP.dispatch fun tables => hP.bind_untaken hP.kind fun kind => ?_
  split
  · exact hP.operandOf hi _
  · exact hP.unexpected

theorem primary (hP : Law P) (hi : Holds P inner) :
    P (Expr ν) (Grammar.primary inner) fun _ => True := by
  refine hP.bind_untaken hP.kind fun kind => ?_
  split
  · exact hP.parenthesized (hP.weaken hi.expression)
  · exact hP.operand hi

theorem factor (hP : Law P) (hi : Holds P inner) :
    P (Expr ν) (Grammar.factor inner) fun _ => True := by
  rw [Grammar.factor_eq]
  refine hP.bind_taken (hP.primary hi) fun value => hP.bind_untaken hP.kind fun kind => ?_
  split
  · exact hP.pure_untaken value
  · exact hP.bind_untaken hP.operator fun line => hP.pure_untaken _

theorem signed (hP : Law P) (hi : Holds P inner) :
    P (Expr ν) (Grammar.signed inner) fun _ => True := by
  refine hP.bind_untaken hP.kind fun kind => ?_
  split
  · exact hP.factor hi
  · refine hP.bind_untaken hP.operator fun line => ?_
    exact hP.bind_taken (hP.factor hi) fun operand => hP.pure_untaken _

theorem product (hP : Law P) (hi : Holds P inner) :
    P (Expr ν) (Grammar.product inner) fun _ => True := hP.chain (hP.signed hi)

theorem sum (hP : Law P) (hi : Holds P inner) :
    P (Expr ν) (Grammar.sum inner) fun _ => True := hP.chain (hP.product hi)

theorem comparison (hP : Law P) (hi : Holds P inner) :
    P (Expr ν) (Grammar.comparison inner) fun _ => True := hP.pair (hP.sum hi)

theorem condition (hP : Law P) (hi : Holds P inner) :
    P (Expr ν) (Grammar.condition inner) fun _ => True := hP.chain (hP.comparison hi)

theorem fallback (hP : Law P) (hi : Holds P inner) :
    P (Expr ν) (Grammar.fallback inner) fun _ => True := hP.pair (hP.condition hi)

theorem clause (hP : Law P) (hi : Holds P inner) :
    P (Element ν) (Grammar.clause inner) fun _ => True := by
  refine hP.bind_untaken hP.kind fun kind => ?_
  split
  · refine hP.bind_untaken (hP.weaken hP.advance) fun _ => ?_
    exact hP.bind_taken hi.expression fun value => hP.pure_untaken _
  · refine hP.bind_untaken (hP.weaken hP.advance) fun start => ?_
    refine hP.bind_taken (hP.parenthesized (hP.weaken hi.expression)) fun condition => ?_
    refine hP.bind_untaken (hP.weaken hi.element) fun thenElement => ?_
    refine hP.accept_bind ?_ (hP.pure_untaken _)
    exact hP.bind_untaken (hP.weaken hi.element) fun elseElement => hP.pure_untaken _
  · refine hP.bind_untaken (hP.weaken hP.advance) fun start => ?_
    refine hP.bind_taken (hP.loopHeader hi) fun header => ?_
    refine hP.bind_untaken (hP.weaken (hP.withLoopVariable header.1 hi.element)) fun x => ?_
    exact hP.pure_untaken _
  · exact hP.bind_taken hi.expression fun value => hP.pure_untaken _

/-! ### Commands -/

theorem command? (hP : Law P) (hi : Holds P inner) :
    P (Option (Command ν)) (Grammar.command? inner) fun next => next.isSome := by
  refine hP.bind_untaken hP.dispatch fun tables => hP.bind_untaken hP.kind fun kind => ?_
  split
  · exact hP.bind_taken hi.command fun command => hP.pure_untaken _
  · exact hP.pure nofun

theorem code (hP : Law P) (hi : Holds P inner) :
    P (Block ν) (Grammar.code inner) fun _ => False := by
  refine hP.bind_untaken (hP.weaken hP.peek) fun start => ?_
  exact hP.bind_untaken (hP.collect (hP.command? hi)) fun body => hP.pure_untaken _

theorem print (hP : Law P) (hi : Holds P inner) :
    P (Command ν) (Grammar.print inner) fun _ => True := by
  refine hP.bind_untaken (hP.weaken hP.advance) fun start => ?_
  refine hP.bind_taken (hP.parenthesized ?_) fun value => ?_
  · refine hP.bind_untaken hP.dispatch fun tables => hP.bind_untaken hP.kind fun kind => ?_
    split
    · exact hP.bind_untaken (hP.weaken hi.expression) fun value => hP.pure_untaken _
    · exact hP.pure_untaken none
  · refine hP.bind_untaken (hP.weaken (hP.expect_symbol .semicolon)) fun _ => ?_
    exact hP.pure_untaken _

theorem assertion (hP : Law P) (hi : Holds P inner) :
    P (Command ν) (Grammar.assertion inner) fun _ => True := by
  refine hP.bind_untaken (hP.weaken hP.advance) fun start => ?_
  refine hP.bind_taken (hP.parenthesized ?_) fun x => ?_
  · refine hP.bind_untaken (hP.weaken hi.expression) fun condition => ?_
    refine hP.accept_bind ?_ (hP.pure_untaken _)
    exact hP.bind_untaken (hP.weaken hi.expression) fun message => hP.pure_untaken _
  · refine hP.bind_untaken (hP.weaken (hP.expect_symbol .semicolon)) fun _ => ?_
    exact hP.pure_untaken _

theorem assignment (hP : Law P) (hi : Holds P inner) :
    P (Command ν) (Grammar.assignment inner) fun _ => True := by
  refine hP.bind_untaken (hP.weaken hP.peek) fun start => ?_
  refine hP.bind_taken hi.expression fun e => hP.bind_untaken hP.position fun here => ?_
  have stop : P Token (Rule.expect (.symbol .semicolon)) fun _ => False :=
    hP.weaken (hP.expect_symbol .semicolon)
  refine hP.accept_bind ?_ ?_
  · rw [if_pos rfl]
    split
    · exact hP.weaken (hP.fail _)
    · refine hP.bind_untaken (hP.weaken hi.expression) fun value => ?_
      exact hP.bind_untaken stop fun _ => hP.pure_untaken _
  · exact hP.bind_untaken stop fun _ => hP.pure_untaken _

theorem body (hP : Law P) (hi : Holds P inner) :
    P (Command ν) (Grammar.body inner) fun _ => True := by
  refine hP.bind_untaken hP.kind fun kind => ?_
  split
  · refine hP.bind_untaken (hP.weaken hP.advance) fun start => ?_
    refine hP.bind_untaken (hP.inScope (hP.code hi)) fun block => ?_
    exact hP.bind_taken (hP.expect_symbol .closeCurly) fun _ => hP.pure_untaken _
  · exact hi.command

theorem declarator (hP : Law P) (hi : Holds P inner) (constant : Bool)
    (nullability : Nullability) :
    P (ν × Option (Command ν)) (Grammar.declarator inner constant nullability)
      fun _ => True := by
  refine hP.bind_taken hP.expect_name fun name => ?_
  refine hP.bind_untaken (hP.declare name constant nullability) fun v => ?_
  refine hP.accept_bind ?_ (hP.pure_untaken _)
  exact hP.bind_untaken (hP.weaken hi.expression) fun value => hP.pure_untaken _

theorem varAfter (hP : Law P) (isFinal : Bool) :
    P Unit (Grammar.varAfter isFinal) fun _ => False := by
  cases isFinal with
  | false => exact hP.pure_untaken ()
  | true => exact hP.bind_untaken (hP.weaken (hP.expect_keyword .varWord)) fun _ =>
      hP.pure_untaken ()

theorem nullability (hP : Law P) : P Nullability Grammar.nullability fun _ => False :=
  hP.accept_bind (hP.pure_untaken _) (hP.pure_untaken _)

theorem declaration (hP : Law P) (hi : Holds P inner) :
    P (Command ν) (Grammar.declaration inner) fun _ => True := by
  refine hP.bind_untaken (hP.weaken hP.advance) fun start => ?_
  refine hP.bind_untaken (hP.varAfter _) fun _ => hP.bind_untaken hP.nullability fun mark => ?_
  refine hP.bind_taken (hP.commaSeparated (hP.declarator hi _ mark)) fun declarators => ?_
  refine hP.bind_untaken (hP.weaken (hP.expect_symbol .semicolon)) fun _ => ?_
  exact hP.pure_untaken _

theorem conditional (hP : Law P) (hi : Holds P inner) :
    P (Command ν) (Grammar.conditional inner) fun _ => True := by
  refine hP.bind_untaken (hP.weaken hP.advance) fun start => ?_
  refine hP.bind_taken (hP.parenthesized (hP.weaken hi.expression)) fun condition => ?_
  refine hP.bind_untaken (hP.weaken (hP.body hi)) fun thenBody => ?_
  refine hP.accept_bind ?_ (hP.pure_untaken _)
  exact hP.bind_untaken (hP.weaken (hP.body hi)) fun elseBody => hP.pure_untaken _

theorem whileLoop (hP : Law P) (hi : Holds P inner) :
    P (Command ν) (Grammar.whileLoop inner) fun _ => True := by
  refine hP.bind_untaken (hP.weaken hP.advance) fun start => ?_
  refine hP.bind_taken (hP.parenthesized (hP.weaken hi.expression)) fun condition => ?_
  exact hP.bind_untaken (hP.weaken (hP.body hi)) fun body => hP.pure_untaken _

theorem doWhileLoop (hP : Law P) (hi : Holds P inner) :
    P (Command ν) (Grammar.doWhileLoop inner) fun _ => True := by
  refine hP.bind_untaken (hP.weaken hP.advance) fun start => ?_
  refine hP.bind_taken (hP.body hi) fun body => ?_
  refine hP.bind_untaken (hP.weaken (hP.expect_keyword .whileWord)) fun _ => ?_
  refine hP.bind_untaken (hP.weaken (hP.parenthesized (hP.weaken hi.expression))) fun c => ?_
  refine hP.bind_untaken (hP.weaken (hP.expect_symbol .semicolon)) fun _ => ?_
  exact hP.pure_untaken _

theorem forLoop (hP : Law P) (hi : Holds P inner) :
    P (Command ν) (Grammar.forLoop inner) fun _ => True := by
  refine hP.bind_untaken (hP.weaken hP.advance) fun start => ?_
  refine hP.bind_taken (hP.loopHeader hi) fun header => ?_
  refine hP.bind_untaken (hP.weaken (hP.withLoopVariable header.1 (hP.body hi))) fun x => ?_
  exact hP.pure_untaken _

theorem commandOf (hP : Law P) (hi : Holds P inner) (form : CommandForm) :
    P (Command ν) (Grammar.commandOf inner form) fun _ => True := by
  cases form with
  | declaration => exact hP.declaration hi
  | print => exact hP.print hi
  | assertion => exact hP.assertion hi
  | conditional => exact hP.conditional hi
  | whileLoop => exact hP.whileLoop hi
  | doWhileLoop => exact hP.doWhileLoop hi
  | forLoop => exact hP.forLoop hi
  | assignment => exact hP.assignment hi

theorem anyCommand (hP : Law P) (hi : Holds P inner) :
    P (Command ν) (Grammar.anyCommand inner) fun _ => True := by
  refine hP.bind_untaken hP.dispatch fun tables => hP.bind_untaken hP.kind fun first => ?_
  split
  next form _ => exact hP.commandOf hi form
  next =>
    split
    · exact hP.assignment hi
    · exact hP.unexpected

/-! ### The grammar as a whole -/

/-- The law holds with any number of levels to go. -/
theorem within (hP : Law P) (n : Nat) : Holds P (Inner.within n : Inner σ ν) := by
  induction n with
  | zero => exact ⟨hP.tooDeep, hP.tooDeep, hP.tooDeep⟩
  | succ n ih => exact ⟨hP.nested (hP.fallback ih), hP.nested (hP.clause ih),
      hP.nested (hP.anyCommand ih)⟩

theorem mapped (hP : Law P) {β : Type} {r : Rule σ α} {t : Prop} (g : α → β)
    (hr : P α r fun _ => t) : P β (g <$> r) fun _ => t := by
  rw [← bind_pure_comp]
  exact hP.bind hr fun a => hP.pure fun h => h.2 h.1

/-- The law holds of every rule of the grammar, whatever the dispatch tables. All but code
take a token. -/
theorem nonterminal (hP : Law P) (N : Nonterminal) :
    P (Phrase ν) N.rule fun _ => N ≠ .code := by
  have hi : Holds P (Inner.full : Inner σ ν) := hP.within maxDepth
  have taken {α : Type} {r : Rule σ α} (g : α → Phrase ν) (hr : P α r fun _ => True) :
      P (Phrase ν) (g <$> r) fun _ => N ≠ .code :=
    hP.mono (hP.mapped g hr) fun _ _ => trivial
  cases N with
  | expression => exact taken _ hi.expression
  | condition => exact taken _ (hP.condition hi)
  | comparison => exact taken _ (hP.comparison hi)
  | sum => exact taken _ (hP.sum hi)
  | product => exact taken _ (hP.product hi)
  | signed => exact taken _ (hP.signed hi)
  | factor => exact taken _ (hP.factor hi)
  | operand => exact taken _ (hP.operand hi)
  | operandOf form => exact taken _ (hP.operandOf hi form)
  | element => exact taken _ hi.element
  | command => exact taken _ hi.command
  | body => exact taken _ (hP.body hi)
  | commandOf form => exact taken _ (hP.commandOf hi form)
  | code => exact hP.mono (hP.mapped _ (hP.code hi)) fun _ h => h rfl

/-- The law holds of reading a program. -/
theorem program (hP : Law P) : P (Block ν) Grammar.program fun _ => False := by
  refine hP.bind_untaken (hP.code (hP.within maxDepth)) fun block => ?_
  exact hP.bind_untaken (hP.weaken (hP.expect .endOfInput)) fun _ => hP.pure_untaken block

end Law

end Rule

end Scriptlet
