import Scriptlet.Proofs.Limit

/-!
# A rule is what it is made of

The rules for what stands inside a phrase are parameters of the rules of the grammar. If two
versions of them are related, by a relation of rules that goes through from parts to wholes, the
rules that are made of them are related as well. This module walks the grammar once for all such
relations.

## The model

A `Rule.Congruence` is such a relation. It relates each single step to itself. Levels are not
opened by the rules themselves but around them, so nothing is asked about that.

## What is proved

* `Rule.Congruence.ruleOver` — the relation goes through from what stands inside phrases to every
  rule.
-/

namespace Scriptlet

variable {σ ν : Type} [Scoping σ ν]

/-- The rule of a nonterminal, made of rules for the phrases inside it. -/
def Nonterminal.ruleOver (inner : Inner σ ν) : Nonterminal → Rule σ (Phrase ν)
  | expression => Phrase.expression <$> inner.expression
  | condition => Phrase.expression <$> Grammar.condition inner
  | comparison => Phrase.expression <$> Grammar.comparison inner
  | sum => Phrase.expression <$> Grammar.sum inner
  | product => Phrase.expression <$> Grammar.product inner
  | signed => Phrase.expression <$> Grammar.signed inner
  | factor => Phrase.expression <$> Grammar.factor inner
  | operand => Phrase.expression <$> Grammar.operand inner
  | operandOf form => Phrase.expression <$> Grammar.operandOf inner form
  | element => Phrase.element <$> inner.element
  | command => Phrase.command <$> inner.command
  | body => Phrase.command <$> Grammar.body inner
  | commandOf form => Phrase.command <$> Grammar.commandOf inner form
  | code => Phrase.code <$> Grammar.code inner

theorem Nonterminal.ruleOver_full (N : Nonterminal) :
    N.ruleOver (Inner.full : Inner σ ν) = N.rule := by
  cases N <;> rfl

namespace Rule

/-- A relation of rules that goes through from parts to wholes. -/
structure Congruence (R : (α : Type) → Rule σ α → Rule σ α → Prop) : Prop where
  single {α : Type} {r : Rule σ α} : Single r → R α r r
  bind {α β : Type} {r r' : Rule σ α} {f f' : α → Rule σ β} :
    R α r r' → (∀ a, R β (f a) (f' a)) → R β (r >>= f) (r' >>= f')
  inScope {α : Type} {r r' : Rule σ α} : R α r r' → R α (inScope r) (inScope r')
  rounds {α : Type} {r r' : Nat → Rule σ α} :
    (∀ n, R α (r n) (r' n)) → R α (fun p => r p.rounds p) (fun p => r' p.rounds p)

namespace Congruence

variable {R : (α : Type) → Rule σ α → Rule σ α → Prop} {α β : Type} {r r' : Rule σ α}

/-! ### Repeating and reading tokens -/

theorem pure (hR : Congruence R) (a : α) : R α (Pure.pure a) (Pure.pure a) := hR.single (.pure a)

/-- What follows a single step. -/
theorem after (hR : Congruence R) {r : Rule σ α} (hr : Single r) {f f' : α → Rule σ β}
    (hf : ∀ a, R β (f a) (f' a)) : R β (r >>= f) (r >>= f') :=
  hR.bind (hR.single hr) hf

theorem growWithin (hR : Congruence R) {step step' : α → Rule σ (Option α)}
    (hs : ∀ a, R (Option α) (step a) (step' a)) (n : Nat) (a : α) :
    R α (Rule.growWithin step n a) (Rule.growWithin step' n a) := by
  induction n generalizing a with
  | zero => exact hR.pure a
  | succ n ih =>
    refine hR.bind (hs a) fun next => ?_
    cases next with
    | none => exact hR.pure a
    | some b => exact ih b

theorem grow (hR : Congruence R) {step step' : α → Rule σ (Option α)}
    (hs : ∀ a, R (Option α) (step a) (step' a)) (a : α) :
    R α (Rule.grow step a) (Rule.grow step' a) :=
  hR.rounds fun n => hR.growWithin hs n a

theorem pushing (hR : Congruence R) {item item' : Rule σ (Option α)}
    (hi : R (Option α) item item') (items : List α) :
    R (Option (List α)) (Rule.pushing item items) (Rule.pushing item' items) := by
  refine hR.bind hi fun next => ?_
  cases next with
  | none => exact hR.pure none
  | some a => exact hR.pure (some (items ++ [a]))

theorem collect (hR : Congruence R) {item item' : Rule σ (Option α)}
    (hi : R (Option α) item item') : R (List α) (Rule.collect item) (Rule.collect item') := by
  rw [collect_eq_grow, collect_eq_grow]
  exact hR.grow (hR.pushing hi) []

theorem parenthesized (hR : Congruence R) (hr : R α r r') :
    R α (Rule.parenthesized r) (Rule.parenthesized r') := by
  refine hR.after (.expect _) fun _ => hR.bind hr fun a => ?_
  exact hR.after (.expect _) fun _ => hR.pure a

theorem commaSeparated (hR : Congruence R) (hr : R α r r') :
    R (List α) (Rule.commaSeparated r) (Rule.commaSeparated r') := by
  refine hR.bind hr fun first => hR.bind (hR.collect ?_) fun rest => hR.pure _
  refine hR.after (.accept _) fun comma => ?_
  split
  · exact hR.bind hr fun next => hR.pure _
  · exact hR.pure none

theorem itemsUntil (hR : Congruence R) (close : Symbol) (hr : R α r r') :
    R (List α) (Rule.itemsUntil close r) (Rule.itemsUntil close r') := by
  refine hR.after .kind fun kind => ?_
  split
  · exact hR.pure []
  · exact hR.commaSeparated hr

theorem operator (hR : Congruence R) : R Nat Grammar.operator Grammar.operator :=
  hR.after .advance fun _ => hR.single .reached

theorem withLoopVariable (hR : Congruence R) (name : Token) (hr : R α r r') :
    R (ν × α) (Rule.withLoopVariable name r) (Rule.withLoopVariable name r') :=
  hR.inScope (hR.after (.declareLoop name) fun v => hR.bind hr fun a => hR.pure (v, a))

theorem mapped (hR : Congruence R) (g : α → β) (hr : R α r r') : R β (g <$> r) (g <$> r') := by
  rw [← bind_pure_comp, ← bind_pure_comp]
  exact hR.bind hr fun a => hR.pure (g a)

/-! ### Expressions -/

section

variable {op? : TokenKind → Option BinaryOp} {operand operand' : Rule σ (Expr ν)}

theorem operation? (hR : Congruence R) (ho : R (Expr ν) operand operand') (left : Expr ν) :
    R (Option (Expr ν)) (Grammar.operation? op? operand left)
      (Grammar.operation? op? operand' left) := by
  refine hR.after .kind fun kind => ?_
  split
  · exact hR.pure none
  · exact hR.bind hR.operator fun line => hR.bind ho fun right => hR.pure _

theorem chain (hR : Congruence R) (ho : R (Expr ν) operand operand') :
    R (Expr ν) (Grammar.chain op? operand) (Grammar.chain op? operand') :=
  hR.bind ho fun first => hR.grow (fun left => hR.operation? ho left) first

theorem pair (hR : Congruence R) (ho : R (Expr ν) operand operand') :
    R (Expr ν) (Grammar.pair op? operand) (Grammar.pair op? operand') := by
  refine hR.bind ho fun left => hR.bind (hR.operation? ho left) fun next => ?_
  split
  · exact hR.pure left
  · exact hR.pure _

end

/-- Two versions of the rules for the phrases inside a phrase are related. -/
structure Relates (R : (α : Type) → Rule σ α → Rule σ α → Prop) (inner inner' : Inner σ ν) :
    Prop where
  expression : R (Expr ν) inner.expression inner'.expression
  element : R (Element ν) inner.element inner'.element
  command : R (Command ν) inner.command inner'.command

variable {inner inner' : Inner σ ν}

theorem constant (hR : Congruence R) : R (Expr ν) Grammar.constant Grammar.constant := by
  refine hR.after .advance fun token => ?_
  split
  · exact hR.pure _
  · exact hR.single (.failAt _ _)

theorem call (hR : Congruence R) (hi : Relates R inner inner') :
    R (Expr ν) (Grammar.call inner) (Grammar.call inner') := by
  refine hR.after .advance fun token => ?_
  split
  · exact hR.single (.failAt _ _)
  · exact hR.bind (hR.parenthesized hi.expression) fun argument => hR.pure _

theorem subscript? (hR : Congruence R) (hi : Relates R inner inner') (base : Expr ν) :
    R (Option (Expr ν)) (Grammar.subscript? inner base) (Grammar.subscript? inner' base) := by
  refine hR.after .kind fun kind => ?_
  split
  · refine hR.bind hR.operator fun line => hR.bind hi.expression fun subscript => ?_
    exact hR.after (.expect _) fun _ => hR.pure _
  · exact hR.pure none

theorem list (hR : Congruence R) (hi : Relates R inner inner') :
    R (Expr ν) (Grammar.list inner) (Grammar.list inner') := by
  refine hR.after (.expect _) fun start => ?_
  refine hR.bind (hR.itemsUntil .closeBracket hi.element) fun elements => ?_
  exact hR.after (.expect _) fun _ => hR.pure _

theorem entry (hR : Congruence R) (hi : Relates R inner inner') :
    R (Expr ν × Expr ν) (Grammar.entry inner) (Grammar.entry inner') := by
  refine hR.bind hi.expression fun key => hR.after (.expect _) fun _ => ?_
  exact hR.bind hi.expression fun value => hR.pure (key, value)

theorem map (hR : Congruence R) (hi : Relates R inner inner') :
    R (Expr ν) (Grammar.map inner) (Grammar.map inner') := by
  refine hR.after (.expect _) fun start => ?_
  refine hR.bind (hR.itemsUntil .closeCurly (hR.entry hi)) fun entries => ?_
  exact hR.after (.expect _) fun _ => hR.pure _

theorem loopHeader (hR : Congruence R) (hi : Relates R inner inner') :
    R (Token × Expr ν) (Grammar.loopHeader inner) (Grammar.loopHeader inner') := by
  refine hR.parenthesized (hR.after (.expect _) fun name => hR.after (.expect _) fun _ => ?_)
  exact hR.bind hi.expression fun iterable => hR.pure (name, iterable)

theorem place (hR : Congruence R) (hi : Relates R inner inner') :
    R (Expr ν) (Grammar.place inner) (Grammar.place inner') := by
  refine hR.after (.expect _) fun name => hR.after (.resolve name) fun v => ?_
  exact hR.grow (fun base => hR.subscript? hi base) _

theorem operandOf (hR : Congruence R) (hi : Relates R inner inner') (form : OperandForm) :
    R (Expr ν) (Grammar.operandOf inner form) (Grammar.operandOf inner' form) := by
  cases form with
  | constant => exact hR.constant
  | call => exact hR.call hi
  | place => exact hR.place hi
  | list => exact hR.list hi
  | map => exact hR.map hi

theorem operand (hR : Congruence R) (hi : Relates R inner inner') :
    R (Expr ν) (Grammar.operand inner) (Grammar.operand inner') := by
  refine hR.after .dispatch fun tables => hR.after .kind fun kind => ?_
  split
  · exact hR.operandOf hi _
  · exact hR.single .unexpected

theorem primary (hR : Congruence R) (hi : Relates R inner inner') :
    R (Expr ν) (Grammar.primary inner) (Grammar.primary inner') := by
  refine hR.after .kind fun kind => ?_
  split
  · exact hR.parenthesized hi.expression
  · exact hR.operand hi

theorem factor (hR : Congruence R) (hi : Relates R inner inner') :
    R (Expr ν) (Grammar.factor inner) (Grammar.factor inner') := by
  rw [Grammar.factor_eq, Grammar.factor_eq]
  refine hR.bind (hR.primary hi) fun value => hR.after .kind fun kind => ?_
  split
  · exact hR.pure value
  · exact hR.bind hR.operator fun line => hR.pure _

theorem signed (hR : Congruence R) (hi : Relates R inner inner') :
    R (Expr ν) (Grammar.signed inner) (Grammar.signed inner') := by
  refine hR.after .kind fun kind => ?_
  split
  · exact hR.factor hi
  · exact hR.bind hR.operator fun line => hR.bind (hR.factor hi) fun operand => hR.pure _

theorem product (hR : Congruence R) (hi : Relates R inner inner') :
    R (Expr ν) (Grammar.product inner) (Grammar.product inner') := hR.chain (hR.signed hi)

theorem sum (hR : Congruence R) (hi : Relates R inner inner') :
    R (Expr ν) (Grammar.sum inner) (Grammar.sum inner') := hR.chain (hR.product hi)

theorem comparison (hR : Congruence R) (hi : Relates R inner inner') :
    R (Expr ν) (Grammar.comparison inner) (Grammar.comparison inner') := hR.pair (hR.sum hi)

theorem condition (hR : Congruence R) (hi : Relates R inner inner') :
    R (Expr ν) (Grammar.condition inner) (Grammar.condition inner') := hR.chain (hR.comparison hi)

theorem fallback (hR : Congruence R) (hi : Relates R inner inner') :
    R (Expr ν) (Grammar.fallback inner) (Grammar.fallback inner') := hR.pair (hR.condition hi)

theorem clause (hR : Congruence R) (hi : Relates R inner inner') :
    R (Element ν) (Grammar.clause inner) (Grammar.clause inner') := by
  refine hR.after .kind fun kind => ?_
  split
  · exact hR.after .advance fun _ => hR.bind hi.expression fun value => hR.pure _
  · refine hR.after .advance fun start => ?_
    refine hR.bind (hR.parenthesized hi.expression) fun condition => ?_
    refine hR.bind hi.element fun thenElement => hR.after (.accept _) fun otherwise => ?_
    split
    · exact hR.bind hi.element fun elseElement => hR.pure _
    · exact hR.pure _
  · refine hR.after .advance fun start => hR.bind (hR.loopHeader hi) fun header => ?_
    exact hR.bind (hR.withLoopVariable header.1 hi.element) fun x => hR.pure _
  · exact hR.bind hi.expression fun value => hR.pure _

/-! ### Commands -/

theorem code (hR : Congruence R) (hi : Relates R inner inner') :
    R (Block ν) (Grammar.code inner) (Grammar.code inner') := by
  refine hR.after .peek fun start => hR.bind (hR.collect ?_) fun body => hR.pure _
  refine hR.after .dispatch fun tables => hR.after .kind fun kind => ?_
  split
  · exact hR.bind hi.command fun command => hR.pure _
  · exact hR.pure none

theorem print (hR : Congruence R) (hi : Relates R inner inner') :
    R (Command ν) (Grammar.print inner) (Grammar.print inner') := by
  refine hR.after .advance fun start => hR.bind (hR.parenthesized ?_) fun value => ?_
  · refine hR.after .dispatch fun tables => hR.after .kind fun kind => ?_
    split
    · exact hR.bind hi.expression fun value => hR.pure _
    · exact hR.pure none
  · exact hR.after (.expect _) fun _ => hR.pure _

theorem assertion (hR : Congruence R) (hi : Relates R inner inner') :
    R (Command ν) (Grammar.assertion inner) (Grammar.assertion inner') := by
  refine hR.after .advance fun start => hR.bind (hR.parenthesized ?_) fun x => ?_
  · refine hR.bind hi.expression fun condition => hR.after (.accept _) fun comma => ?_
    split
    · exact hR.bind hi.expression fun message => hR.pure _
    · exact hR.pure _
  · exact hR.after (.expect _) fun _ => hR.pure _

theorem assignment (hR : Congruence R) (hi : Relates R inner inner') :
    R (Command ν) (Grammar.assignment inner) (Grammar.assignment inner') := by
  refine hR.after .peek fun start => hR.bind hi.expression fun e => ?_
  refine hR.after .position fun here => hR.after (.accept _) fun assigned => ?_
  split
  · split
    · exact hR.single (.fail _)
    · refine hR.bind hi.expression fun value => ?_
      exact hR.after (.expect _) fun _ => hR.pure _
  · exact hR.after (.expect _) fun _ => hR.pure _

theorem body (hR : Congruence R) (hi : Relates R inner inner') :
    R (Command ν) (Grammar.body inner) (Grammar.body inner') := by
  refine hR.after .kind fun kind => ?_
  split
  · refine hR.after .advance fun start => hR.bind (hR.inScope (hR.code hi)) fun block => ?_
    exact hR.after (.expect _) fun _ => hR.pure _
  · exact hi.command

theorem declarator (hR : Congruence R) (hi : Relates R inner inner') (constant : Bool)
    (nullability : Nullability) :
    R (ν × Option (Command ν)) (Grammar.declarator inner constant nullability)
      (Grammar.declarator inner' constant nullability) := by
  refine hR.after (.expect _) fun name => ?_
  refine hR.after (.declare name constant nullability) fun v => ?_
  refine hR.after (.accept _) fun assigned => ?_
  split
  · exact hR.bind hi.expression fun value => hR.pure _
  · exact hR.pure _

theorem declaration (hR : Congruence R) (hi : Relates R inner inner') :
    R (Command ν) (Grammar.declaration inner) (Grammar.declaration inner') := by
  have varAfter (isFinal : Bool) :
      R Unit (Grammar.varAfter isFinal) (Grammar.varAfter isFinal) := by
    cases isFinal with
    | false => exact hR.pure ()
    | true => exact hR.after (.expect _) fun _ => hR.pure ()
  have nullability : R Nullability Grammar.nullability Grammar.nullability := by
    refine hR.after (.accept _) fun mark => ?_
    split
    · exact hR.pure _
    · exact hR.pure _
  refine hR.after .advance fun start => hR.bind (varAfter _) fun _ => ?_
  refine hR.bind nullability fun mark => ?_
  refine hR.bind (hR.commaSeparated (hR.declarator hi _ mark)) fun declarators => ?_
  exact hR.after (.expect _) fun _ => hR.pure _

theorem conditional (hR : Congruence R) (hi : Relates R inner inner') :
    R (Command ν) (Grammar.conditional inner) (Grammar.conditional inner') := by
  refine hR.after .advance fun start => ?_
  refine hR.bind (hR.parenthesized hi.expression) fun condition => ?_
  refine hR.bind (hR.body hi) fun thenBody => hR.after (.accept _) fun otherwise => ?_
  split
  · exact hR.bind (hR.body hi) fun elseBody => hR.pure _
  · exact hR.pure _

theorem whileLoop (hR : Congruence R) (hi : Relates R inner inner') :
    R (Command ν) (Grammar.whileLoop inner) (Grammar.whileLoop inner') := by
  refine hR.after .advance fun start => ?_
  refine hR.bind (hR.parenthesized hi.expression) fun condition => ?_
  exact hR.bind (hR.body hi) fun body => hR.pure _

theorem doWhileLoop (hR : Congruence R) (hi : Relates R inner inner') :
    R (Command ν) (Grammar.doWhileLoop inner) (Grammar.doWhileLoop inner') := by
  refine hR.after .advance fun start => hR.bind (hR.body hi) fun body => ?_
  refine hR.after (.expect _) fun _ => ?_
  refine hR.bind (hR.parenthesized hi.expression) fun condition => ?_
  exact hR.after (.expect _) fun _ => hR.pure _

theorem forLoop (hR : Congruence R) (hi : Relates R inner inner') :
    R (Command ν) (Grammar.forLoop inner) (Grammar.forLoop inner') := by
  refine hR.after .advance fun start => hR.bind (hR.loopHeader hi) fun header => ?_
  exact hR.bind (hR.withLoopVariable header.1 (hR.body hi)) fun x => hR.pure _

theorem commandOf (hR : Congruence R) (hi : Relates R inner inner') (form : CommandForm) :
    R (Command ν) (Grammar.commandOf inner form) (Grammar.commandOf inner' form) := by
  cases form with
  | declaration => exact hR.declaration hi
  | print => exact hR.print hi
  | assertion => exact hR.assertion hi
  | conditional => exact hR.conditional hi
  | whileLoop => exact hR.whileLoop hi
  | doWhileLoop => exact hR.doWhileLoop hi
  | forLoop => exact hR.forLoop hi
  | assignment => exact hR.assignment hi

theorem anyCommand (hR : Congruence R) (hi : Relates R inner inner') :
    R (Command ν) (Grammar.anyCommand inner) (Grammar.anyCommand inner') := by
  refine hR.after .dispatch fun tables => hR.after .kind fun first => ?_
  split
  · exact hR.commandOf hi _
  · split
    · exact hR.assignment hi
    · exact hR.single .unexpected

/-! ### The grammar as a whole -/

/-- Related versions of the rules for the phrases inside a phrase make related rules. -/
theorem ruleOver (hR : Congruence R) (hi : Relates R inner inner') (N : Nonterminal) :
    R (Phrase ν) (N.ruleOver inner) (N.ruleOver inner') := by
  cases N with
  | expression => exact hR.mapped _ hi.expression
  | condition => exact hR.mapped _ (hR.condition hi)
  | comparison => exact hR.mapped _ (hR.comparison hi)
  | sum => exact hR.mapped _ (hR.sum hi)
  | product => exact hR.mapped _ (hR.product hi)
  | signed => exact hR.mapped _ (hR.signed hi)
  | factor => exact hR.mapped _ (hR.factor hi)
  | operand => exact hR.mapped _ (hR.operand hi)
  | operandOf form => exact hR.mapped _ (hR.operandOf hi form)
  | element => exact hR.mapped _ hi.element
  | command => exact hR.mapped _ hi.command
  | body => exact hR.mapped _ (hR.body hi)
  | commandOf form => exact hR.mapped _ (hR.commandOf hi form)
  | code => exact hR.mapped _ (hR.code hi)

end Congruence

end Rule

end Scriptlet
