import Scriptlet.Grammar.Command

/-!
# The grammar as a whole

The rules for phrases are tied together here. A phrase inside a phrase is read one
level deeper, and the number of levels is limited, so the rules at each level are
built from those one level below: `Inner.within n` reads expressions, list elements
and commands with at most `n` levels to go. With no level to go a phrase fails as it
does at the limit, so from any parser `Inner.within maxDepth` is deep enough.

A `Nonterminal` names a rule of the grammar, and a `Phrase` is what it reads.
-/

namespace Scriptlet

variable {σ ν : Type}

section

variable [Scoping σ ν]

/-- The rules for phrases inside a phrase, with so many levels to go. -/
def Inner.within : Nat → Inner σ ν
  | 0 => ⟨Rule.tooDeep, Rule.tooDeep, Rule.tooDeep⟩
  | n + 1 =>
    let deeper := Inner.within n
    ⟨Rule.nested (Grammar.fallback deeper), Rule.nested (Grammar.clause deeper),
      Rule.nested (Grammar.anyCommand deeper)⟩

/-- The rules for phrases inside a phrase, with all levels to go. -/
def Inner.full : Inner σ ν := Inner.within maxDepth

end

/-- What a rule of the grammar reads. -/
inductive Phrase (ν : Type) where
  /-- An expression. -/
  | expression (e : Expr ν)
  /-- An element of a list. -/
  | element (e : Element ν)
  /-- A command. -/
  | command (c : Command ν)
  /-- Commands in order. -/
  | code (b : Block ν)

/-- The rules of the grammar. -/
inductive Nonterminal where
  /-- An expression, one level deeper. -/
  | expression
  /-- An expression without `??`. -/
  | condition
  /-- An expression without `&&` and `||` either. -/
  | comparison
  /-- Products added and subtracted. -/
  | sum
  /-- Factors multiplied and divided. -/
  | product
  /-- A factor, with at most one operator before it. -/
  | signed
  /-- An operand, with at most one operator after it. -/
  | factor
  /-- An operand, of the form that its first token opens. -/
  | operand
  /-- A form of operand, read without looking it up. -/
  | operandOf (form : OperandForm)
  /-- An element of a list, one level deeper. -/
  | element
  /-- A command, one level deeper. -/
  | command
  /-- The body of a conditional or a loop. -/
  | body
  /-- A form of command, read without looking it up. -/
  | commandOf (form : CommandForm)
  /-- Commands, as long as one can start. -/
  | code
  deriving DecidableEq

/-- The rule of a nonterminal. -/
def Nonterminal.rule [Scoping σ ν] : Nonterminal → Rule σ (Phrase ν)
  | expression => Phrase.expression <$> Inner.full.expression
  | condition => Phrase.expression <$> Grammar.condition Inner.full
  | comparison => Phrase.expression <$> Grammar.comparison Inner.full
  | sum => Phrase.expression <$> Grammar.sum Inner.full
  | product => Phrase.expression <$> Grammar.product Inner.full
  | signed => Phrase.expression <$> Grammar.signed Inner.full
  | factor => Phrase.expression <$> Grammar.factor Inner.full
  | operand => Phrase.expression <$> Grammar.operand Inner.full
  | operandOf form => Phrase.expression <$> Grammar.operandOf Inner.full form
  | element => Phrase.element <$> Inner.full.element
  | command => Phrase.command <$> Inner.full.command
  | body => Phrase.command <$> Grammar.body Inner.full
  | commandOf form => Phrase.command <$> Grammar.commandOf Inner.full form
  | code => Phrase.code <$> Grammar.code Inner.full

end Scriptlet
