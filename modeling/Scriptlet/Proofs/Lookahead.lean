import Scriptlet.Proofs.Derivation

/-!
# What one token decides

The rules of the grammar are read with one token of lookahead, so they can be read only
if that token tells what to do. It does: the phrases of a category start with certain
tokens, and after a phrase certain others would be taken as a part of it.

## What is proved

* `Derives.progress` — a phrase takes at least one token for each part that it has.
* `Derives.starts_kind` — a phrase starts with a token that its category can start with.
* `Level.goesOn_operand` — an operator of a level does not go on with its operands.
* `Derives.place_of_target` — what stands before `=` may be read as any expression.
-/

namespace Scriptlet

/-! ### What a phrase starts with -/

/-- The kinds of tokens that a phrase of a rank can start with. -/
def Rank.starts : Rank → TokenKind → Bool
  | place, kind => kind = .name
  | operand, kind => (Dispatch.standardOperand? kind).isSome
  | primary, kind | factor, kind =>
    kind = .symbol .openParen || (Dispatch.standardOperand? kind).isSome
  | signed, kind | level _, kind | expression, kind => Dispatch.standard.startsExpression kind

/-- The kinds of tokens that a phrase of a category can start with, if it has a token. -/
def Category.starts : Category → TokenKind → Bool
  | expr rank, kind => rank.starts kind
  | element, kind | elements, kind =>
    kind = .symbol .spread || kind = .keyword .ifWord || kind = .keyword .forWord ||
      Dispatch.standard.startsExpression kind
  | entries, kind => Dispatch.standard.startsExpression kind
  | declarator .., kind | declarators .., kind => kind = .name
  | command, kind | body, kind => Dispatch.standard.startsCommand kind
  | operations _, _ | subscripts, _ | code, _ => true

theorem standardOperand?_of_ofToken {t : Token} {value : Literal}
    (h : Literal.ofToken t = .ok value) :
    Dispatch.standardOperand? t.kind = some .constant := by
  unfold Literal.ofToken at h
  split at h <;> simp_all [Dispatch.standardOperand?]

theorem standardOperand?_of_ofKind? {kind : TokenKind} {function : Builtin}
    (h : Builtin.ofKind? kind = some function) :
    Dispatch.standardOperand? kind = some .call := by
  unfold Builtin.ofKind? at h
  split at h <;> simp_all [Dispatch.standardOperand?, Builtin.ofKind?]

theorem startsExpression_of_operand {kind : TokenKind}
    (h : kind = .symbol .openParen ∨ (Dispatch.standardOperand? kind).isSome) :
    Dispatch.standard.startsExpression kind = true := by
  rcases h with h | h <;> simp [Dispatch.startsExpression, Dispatch.standard, h]

theorem startsCommand_of_expression {kind : TokenKind}
    (h : Dispatch.standard.startsExpression kind = true) :
    Dispatch.standard.startsCommand kind = true := by
  rw [Dispatch.startsCommand, h, Bool.or_true]

/-- No form of command is looked up by what an expression can start with. -/
theorem Dispatch.command_of_startsExpression {kind : TokenKind}
    (h : Dispatch.standard.startsExpression kind = true) :
    Dispatch.standard.command kind = none := by
  simp only [Dispatch.standard]
  unfold Dispatch.standardCommand?
  split
  all_goals first | rfl | cases h

/-- A phrase starts with a token that its category can start with. -/
theorem Derives.starts_kind {N k i x r} (h : Derives N k i x r) : N.starts i.kind = true := by
  induction h with
  | @level l _ _ _ _ _ _ _ left h chains ih _ => cases l <;> exact ih
  | unsigned h ih =>
    simp only [Category.starts, Rank.starts, Bool.or_eq_true, decide_eq_true_eq] at ih ⊢
    exact startsExpression_of_operand ih
  | signed head h ih => simp [Category.starts, Rank.starts, Dispatch.startsExpression, head]
  | primary h ih =>
    simp only [Category.starts, Rank.starts, Bool.or_eq_true] at ih ⊢
    exact .inr ih
  | constant head =>
    simp [Category.starts, Rank.starts, Tape.kind, standardOperand?_of_ofToken head]
  | call head opens h closes ih =>
    simp [Category.starts, Rank.starts, standardOperand?_of_ofKind? head]
  | place h ih =>
    simp only [Category.starts, Rank.starts, decide_eq_true_eq] at ih ⊢
    rw [ih]
    rfl
  | single h ih =>
    simp only [Category.starts, Rank.starts] at ih ⊢
    simp [ih]
  | @declaration constant marked k i m m' ds r final head mark h stop ih =>
    unfold Tape.Optional at final
    cases constant
    · simp only [Bool.false_eq_true, if_false] at final
      rw [final] at head
      rw [head]
      rfl
    · simp only [if_true] at final
      rw [final.1]
      rfl
  | effect h stop ih => exact startsCommand_of_expression ih
  | assignment h isTarget assign h' stop ih _ =>
    simp only [Category.starts, Rank.starts, decide_eq_true_eq] at ih ⊢
    rw [ih]
    rfl
  | elementIf head | elementIfElse head | elementFor head | spread head =>
    simp [Category.starts, head]
  | named name | declarator name | initialized name =>
    simpa [Category.starts, Rank.starts] using name
  | parenthesized head | emptyList head | list head | emptyMap head | map head | printLine head
  | print head | assert head | assertMessage head | conditional head | conditionalElse head
  | whileLoop head | doWhileLoop head | forLoop head | braced head =>
    rw [head]
    rfl
  | operation | noOperation | subscript | noSubscript | code | noCode => rfl
  | expression h ih | factor h ih | lastElement h ih | elements h comma rest ih _
  | lastEntry h colon h' ih _ | entries h colon h' comma rest ih _ _ | lastDeclarator h ih
  | declarators h comma rest ih _ | unbraced head h ih => exact ih
  | postfixed h mark ih => exact ih

/-- No phrase starts with a token that its category cannot start with. -/
theorem Derives.kind_ne {N k i x r} {kind : TokenKind} (h : Derives N k i x r)
    (hkind : N.starts kind = false) : i.kind ≠ kind := by
  rintro rfl
  rw [h.starts_kind] at hkind
  cases hkind

/-! ### What a phrase takes -/

/-- How many parts a phrase has at least, each of which takes a token. -/
def Category.size : (N : Category) → N.Tree → Nat
  | operations _, ops => ops.length
  | subscripts, subs => subs.length
  | elements, es => es.length
  | entries, es => es.length
  | declarators .., ds => ds.length
  | code, cs => cs.length
  | expr _, _ | element, _ | declarator .., _ | command, _ | body, _ => 1

namespace Tape

variable {i m : Tape}

theorem unread_symbol {s : Symbol} (h : i.kind = .symbol s) : i.unread = i.next.unread + 1 :=
  unread_next (by simp [h])

theorem unread_keyword {k : Keyword} (h : i.kind = .keyword k) : i.unread = i.next.unread + 1 :=
  unread_next (by simp [h])

theorem unread_name (h : i.kind = .name) : i.unread = i.next.unread + 1 :=
  unread_next (by simp [h])

/-- A token that stands for something is not the mark of the end. -/
theorem unread_some {α : Type} {f : TokenKind → Option α} {a : α} (h : f i.kind = some a)
    (hf : f .endOfInput = none) : i.unread = i.next.unread + 1 :=
  unread_next fun he => by simp [he, hf] at h

theorem unread_optional {k : TokenKind} {taken : Bool} (h : i.Optional k taken m)
    (hk : k ≠ .endOfInput) : m.unread ≤ i.unread := by
  unfold Optional at h
  split at h
  · have hi := unread_next (i := i) (by rwa [h.1])
    rw [h.2]
    omega
  · exact Nat.le_of_eq (congrArg unread h)

end Tape

theorem Level.op?_endOfInput (l : Level) : l.op? .endOfInput = none := by
  cases l <;> rfl

/-- A phrase takes at least one token for each part that it has. -/
theorem Derives.progress {N k i x r} (h : Derives N k i x r) :
    r.unread + N.size x ≤ i.unread := by
  induction h with
  | expression h ih => exact ih
  | level left h chains ihl ih =>
    simp only [Category.size] at *
    omega
  | @operation l _ _ _ _ _ _ _ _ head right h ihr ih =>
    have hi := Tape.unread_some head l.op?_endOfInput
    simp only [Category.size, List.length_cons] at *
    omega
  | signed head h ih =>
    have hi := Tape.unread_some head rfl
    simp only [Category.size] at *
    omega
  | postfixed h mark ih =>
    have hm := Tape.unread_some mark rfl
    simp only [Category.size] at *
    omega
  | constant head =>
    have hi := Tape.unread_some (standardOperand?_of_ofToken head) rfl
    simp only [Category.size]
    omega
  | call head opens h closes ih =>
    have hi := Tape.unread_some head rfl
    grind [Category.size, Tape.unread_symbol]
  | declaration final head mark h stop ih =>
    have hi := Tape.unread_optional final (by simp)
    have hm := Tape.unread_optional mark (by simp)
    grind [Category.size, Tape.unread_symbol, Tape.unread_keyword]
  | _ => grind [Category.size, Tape.unread_symbol, Tape.unread_keyword, Tape.unread_name]

/-! ### What would be read on -/

/-- A level and those that bind tighter. -/
def Level.upwards : Level → List Level
  | .fallback => [.fallback, .logical, .relational, .additive, .multiplicative]
  | .logical => [.logical, .relational, .additive, .multiplicative]
  | .relational => [.relational, .additive, .multiplicative]
  | .additive => [.additive, .multiplicative]
  | .multiplicative => [.multiplicative]

/-- The kinds of tokens that would be taken as a part of a phrase that stands before
them. -/
def Rank.goesOn : Rank → TokenKind → Bool
  | place, kind | operand, kind | primary, kind => kind = .symbol .openBracket
  | factor, kind | signed, kind => kind = .symbol .openBracket || (UnaryOp.after? kind).isSome
  | level l, kind =>
    kind = .symbol .openBracket || (UnaryOp.after? kind).isSome ||
      l.upwards.any fun l => (l.op? kind).isSome
  | expression, kind =>
    kind = .symbol .openBracket || (UnaryOp.after? kind).isSome ||
      Level.fallback.upwards.any fun l => (l.op? kind).isSome

/-- The kinds of tokens that would be taken as a part of a phrase of a category. An
`else` is left out: whether it belongs to a phrase is part of the grammar. -/
def Category.goesOn : Category → TokenKind → Bool
  | expr rank, kind => rank.goesOn kind
  | operations l, kind => (Rank.level l).goesOn kind
  | subscripts, kind => kind = .symbol .openBracket
  | element, kind => Rank.expression.goesOn kind
  | elements, kind | entries, kind => kind = .symbol .comma || Rank.expression.goesOn kind
  | declarator .., kind => kind = .symbol .assign || Rank.expression.goesOn kind
  | declarators .., kind =>
    kind = .symbol .comma || kind = .symbol .assign || Rank.expression.goesOn kind
  | command, _ | body, _ => false
  | code, kind => Dispatch.standard.startsCommand kind

/-- An operand of a level goes on with what operators of the level do not. -/
theorem Level.goesOn_level (l : Level) (kind : TokenKind) :
    (Rank.level l).goesOn kind = ((l.op? kind).isSome || l.operand.goesOn kind) := by
  rw [Bool.eq_iff_iff]
  cases l <;> simp only [Rank.goesOn, Level.upwards, Level.operand, List.any_cons, List.any_nil,
    Bool.or_false, Bool.or_eq_true]
  all_goals grind

/-- An operator of a level does not go on with its operands. -/
theorem Level.goesOn_operand {l : Level} {kind : TokenKind} {op : BinaryOp}
    (h : l.op? kind = some op) : l.operand.goesOn kind = false := by
  cases kind with
  | symbol s => cases l <;> cases s <;> first | rfl | cases h
  | keyword k => cases l <;> rfl
  | _ => cases l <;> cases h

/-- Behind an operand there is an operation, or nothing of the level. -/
theorem Derives.operations_cases {l : Level} {k i ops r} (h : Derives (.operations l) k i ops r) :
    (∃ op, l.op? i.kind = some op) ∨ i = r := by
  cases h with
  | noOperation => exact .inr rfl
  | operation head => exact .inl ⟨_, head⟩

/-- Behind an operand of a level there is nothing that would be taken as a part of it. -/
theorem Derives.goesOn_operand {l : Level} {k i ops r} (h : Derives (.operations l) k i ops r)
    (hr : (Rank.level l).goesOn r.kind = false) : l.operand.goesOn i.kind = false := by
  rcases h.operations_cases with ⟨op, hop⟩ | rfl
  · exact Level.goesOn_operand hop
  · rw [Level.goesOn_level, Bool.or_eq_false_iff] at hr
    exact hr.2

theorem before?_of_starts {kind : TokenKind} (h : Rank.factor.starts kind = true) :
    UnaryOp.before? kind = none := by
  unfold UnaryOp.before?
  split
  all_goals first | rfl | cases h

theorem after?_symbol {kind : TokenKind} {op : UnaryOp} (h : UnaryOp.after? kind = some op) :
    kind ≠ .symbol .openBracket := by
  rintro rfl
  cases h

/-! ### What an assignment starts with -/

theorem Expr.target?_operated {ν : Type} (o : BinaryOp × Expr ν × Nat)
    (ops : List (BinaryOp × Expr ν × Nat)) (e : Expr ν) :
    (e.operated (o :: ops)).target? = none := by
  induction ops generalizing e o with
  | nil => rfl
  | cons o' ops ih => exact ih o' (.binary o.1 e o.2.1 o.2.2)

/-- If the phrase is an expression that can be assigned to and is not in parentheses, it
is a place. -/
def Category.PlaceIfTarget (k : Nat) (i r : Tape) : (N : Category) → N.Tree → Prop
  | expr _, e => e.target? ≠ none → i.kind ≠ .symbol .openParen →
    ∃ k', k' ≤ k ∧ Derives (.expr .place) k' i e r
  | _, _ => True

theorem Derives.placeIfTarget {N k i x r} (h : Derives N k i x r) :
    N.PlaceIfTarget k i r x := by
  induction h with
  | expression h ih =>
    intro he hi
    obtain ⟨k', hk, hd⟩ := ih he hi
    exact ⟨k', Nat.le_succ_of_le hk, hd⟩
  | level left h chains ih _ =>
    intro he hi
    cases h with
    | noOperation =>
      obtain ⟨k', hk, hd⟩ := ih he hi
      exact ⟨k', Nat.le_trans hk (Nat.le_max_left _ _), hd⟩
    | operation => exact absurd (Expr.target?_operated _ _ _) he
  | unsigned h ih | factor h ih | primary h ih => exact ih
  | place h ih => exact fun _ _ => ⟨_, Nat.le_refl _, h⟩
  | named head h ih => exact fun _ _ => ⟨_, Nat.le_refl _, .named head h⟩
  | parenthesized hopen => exact fun _ hi => absurd hopen hi
  | signed | postfixed | constant | call | emptyList | list | emptyMap | map =>
    exact fun he => absurd rfl he
  | _ => trivial

/-- An expression that can be assigned to and is not in parentheses is a place, which is
one level less deep. -/
theorem Derives.place_of_target {k i e r} {target : Target Mention}
    (h : Derives (.expr .expression) k i e r) (he : e.target? = some target)
    (hi : i.kind ≠ .symbol .openParen) : ∃ k', k' + 1 ≤ k ∧ Derives (.expr .place) k' i e r := by
  cases h with
  | expression h =>
    obtain ⟨k', hk, hd⟩ := h.placeIfTarget (by simp [he]) hi
    exact ⟨k', Nat.succ_le_succ hk, hd⟩

theorem Derives.level_of_operand {l : Level} {k i e r} (h : Derives (.expr l.operand) k i e r) :
    Derives (.expr (.level l)) k i e r := by
  have hl := Derives.level h .noOperation (.inr (Nat.zero_le 1))
  rwa [Nat.max_zero] at hl

/-- A primary is an expression, one level deeper. -/
theorem Derives.expression_of_primary {k i x r} (h : Derives (.expr .primary) k i x r) :
    Derives (.expr .expression) (k + 1) i x r := by
  have hm : Derives (.expr Level.multiplicative.operand) k i x r := .unsigned (.factor h)
  have ha : Derives (.expr Level.additive.operand) k i x r := hm.level_of_operand
  have hr : Derives (.expr Level.relational.operand) k i x r := ha.level_of_operand
  have hl : Derives (.expr Level.logical.operand) k i x r := hr.level_of_operand
  have hf : Derives (.expr Level.fallback.operand) k i x r := hl.level_of_operand
  exact .expression hf.level_of_operand

/-- A place is an expression, one level deeper. -/
theorem Derives.expression_of_place {k i e r} (h : Derives (.expr .place) k i e r) :
    Derives (.expr .expression) (k + 1) i e r :=
  .expression_of_primary (.primary (.place h))

end Scriptlet
