import Scriptlet.Program
import Scriptlet.Proofs.Lookahead
import Scriptlet.Proofs.Resolution

/-!
# What is derived is read

A phrase that the grammar derives is read by the rule of its category, if no token
follows that the rule would take as a part of it. What the rule gives is the tree of the
derivation with its names resolved, or the diagnostic of the first name that cannot be.
Only the limit on nesting comes in between: a phrase that is nested deeper than the rule
has levels to go is too deep, unless a name fails before.

## The model

`Rule.Meets r n k p m c` says that with `n` levels to go `r` reads at `p` up to `m` and
gives what the computation `c` gives, if `k` is at most `n`; and that if it is not, `r`
fails with the diagnostic of `c` or because of the limit.

## What is proved

* `Inner.complete_within` — expressions, elements and commands, at any number of levels.
* `Grammar.program_meets` — programs.
-/

namespace Scriptlet

variable {σ ν α β γ : Type}

/-- With `n` levels to go, the rule reads a phrase nested `k` deep up to `m`, and gives
what the computation does. -/
def Rule.Meets (r : Rule σ α) (n k : Nat) (p : Parser σ) (m : Tape) (c : Resolving σ α) : Prop :=
  p.dispatch = .standard → p.depth + n = maxDepth →
    (n < k ∧ ∃ position q, r p = (.error ⟨.tooDeep maxDepth, position⟩, q)) ∨
    (∃ d q, c p.symbols = .error d ∧ r p = (.error d, q)) ∨
    k ≤ n ∧ ∃ a s, c p.symbols = .ok (a, s) ∧ r p = (.ok a, p.moved m s)

namespace Rule.Meets

variable {r : Rule σ α} {f : α → Rule σ β} {n k k' : Nat} {p : Parser σ} {m m' : Tape}
  {c : Resolving σ α} {g : α → Resolving σ β} {d : Resolving σ β}

theorem pure (a : α) : Meets (pure a) n 0 p p.tape (pure a) :=
  fun _ _ => .inr (.inr ⟨Nat.zero_le n, a, p.symbols, rfl, rfl⟩)

/-- A phrase and what follows it. What follows may depend on what the phrase is. -/
theorem bind_of_ok (h : r.Meets n k p m c)
    (hf : ∀ a s, c p.symbols = .ok (a, s) → (f a).Meets n k' (p.moved m s) m' (g a)) :
    (r >>= f).Meets n (max k k') p m' (c >>= g) := by
  intro hp hn
  rcases h hp hn with ⟨hk, position, q, hr⟩ | ⟨d, q, hc, hr⟩ | ⟨hk, a, s, hc, hr⟩
  · exact .inl ⟨Nat.lt_of_lt_of_le hk (Nat.le_max_left k k'), position, q, bind_apply_error hr⟩
  · exact .inr (.inl ⟨d, q, Resolving.bind_error hc, bind_apply_error hr⟩)
  · rw [bind_apply_ok hr, Resolving.bind_ok hc]
    rcases hf a s hc hp hn with ⟨hk', h⟩ | h | ⟨hk', h⟩
    · exact .inl ⟨Nat.lt_of_lt_of_le hk' (Nat.le_max_right k k'), h⟩
    · exact .inr (.inl h)
    · exact .inr (.inr ⟨Nat.max_le.2 ⟨hk, hk'⟩, h⟩)

theorem bind (h : r.Meets n k p m c) (hf : ∀ a s, (f a).Meets n k' (p.moved m s) m' (g a)) :
    (r >>= f).Meets n (max k k') p m' (c >>= g) :=
  h.bind_of_ok fun a s _ => hf a s

/-- The last phrase in a phrase. -/
theorem last (h : r.Meets n k p m c) (hf : ∀ a s, (f a).Meets n 0 (p.moved m s) m' (g a)) :
    (r >>= f).Meets n k p m' (c >>= g) := by
  have hb := h.bind hf
  rwa [Nat.max_zero] at hb

/-- A phrase after a name or a header. -/
theorem first (h : r.Meets n 0 p m c) (hf : ∀ a s, (f a).Meets n k (p.moved m s) m' (g a)) :
    (r >>= f).Meets n k p m' (c >>= g) := by
  have hb := h.bind hf
  rwa [Nat.zero_max] at hb

theorem map (φ : α → β) (h : r.Meets n k p m c) :
    (r >>= fun a => Pure.pure (φ a)).Meets n k p m (φ <$> c) := by
  rw [map_eq_pure_bind]
  exact h.last fun a s => .pure (φ a)

/-! ### Looking and reading tokens -/

variable {kind : TokenKind}

theorem kind_bind {f : TokenKind → Rule σ β} (h : (f p.tape.kind).Meets n k p m d) :
    (Rule.kind >>= f).Meets n k p m d := h

theorem peek_bind {f : Token → Rule σ β} (h : (f p.tape.hand.token).Meets n k p m d) :
    (peek >>= f).Meets n k p m d := h

theorem position_bind {f : Position → Rule σ β} (h : (f p.position).Meets n k p m d) :
    (position >>= f).Meets n k p m d := h

theorem dispatch_bind {f : Dispatch → Rule σ β} (h : (f .standard).Meets n k p m d) :
    (dispatch >>= f).Meets n k p m d := by
  intro hp hn
  have hd : (dispatch >>= f) p = f .standard p := by
    rw [← hp]
    rfl
  rw [hd]
  exact h hp hn

/-- What reads a token first is what is read behind it. -/
theorem of_step {r r' : Rule σ α} (h : r'.Meets n k (p.moved p.tape.next p.symbols) m c)
    (hr : r p = r' (p.moved p.tape.next p.symbols)) : r.Meets n k p m c := by
  intro hp hn
  rw [hr]
  exact h hp hn

theorem advance_bind {f : Token → Rule σ β}
    (h : (f p.tape.hand.token).Meets n k (p.moved p.tape.next p.symbols) m d) :
    (advance >>= f).Meets n k p m d :=
  h.of_step (bind_apply_ok (advance_eq p))

theorem operator_bind {f : Nat → Rule σ β}
    (h : (f p.tape.next.hand.reached).Meets n k (p.moved p.tape.next p.symbols) m d) :
    (Grammar.operator >>= f).Meets n k p m d :=
  h.of_step (bind_apply_ok (Grammar.operator_eq p))

theorem expect_bind {f : Token → Rule σ β} (hk : p.tape.kind = kind)
    (h : (f p.tape.hand.token).Meets n k (p.moved p.tape.next p.symbols) m d) :
    (expect kind >>= f).Meets n k p m d :=
  h.of_step (bind_apply_ok (expect_eq_of_kind hk))

theorem accept_bind {f : Bool → Rule σ β} (hk : p.tape.kind = kind)
    (h : (f true).Meets n k (p.moved p.tape.next p.symbols) m d) :
    (accept kind >>= f).Meets n k p m d :=
  h.of_step (bind_apply_ok (accept_eq_of_kind hk))

theorem skip_bind {f : Bool → Rule σ β} (hk : p.tape.kind ≠ kind)
    (h : (f false).Meets n k p m d) : (accept kind >>= f).Meets n k p m d := by
  intro hp hn
  rw [bind_apply_ok (accept_eq_of_kind_ne hk)]
  exact h hp hn

theorem parenthesized (hopen : p.tape.kind = .symbol .openParen)
    (h : r.Meets n k (p.moved p.tape.next p.symbols) m c)
    (hclose : m.kind = .symbol .closeParen) : (parenthesized r).Meets n k p m.next c := by
  refine .expect_bind hopen ?_
  rw [← bind_pure c]
  exact h.last fun a s => .expect_bind hclose (.pure a)

/-! ### Nesting and names -/

theorem tooDeep : (tooDeep : Rule σ α).Meets 0 (k + 1) p m c :=
  fun _ _ => .inl ⟨Nat.succ_pos k, p.position, p, rfl⟩

theorem nested (h : r.Meets n k { p with depth := p.depth + 1 } m c) :
    (nested r).Meets (n + 1) (k + 1) p m c := by
  intro hp hn
  have hd : ¬maxDepth ≤ p.depth := by omega
  unfold Rule.nested
  rw [if_neg hd]
  have h' := h hp (by simp only; omega)
  rcases h' with ⟨hk, position, q, hr⟩ | ⟨d, q, hc, hr⟩ | ⟨hk, a, s, hc, hr⟩
  · exact .inl ⟨Nat.succ_lt_succ hk, position, _, by rw [hr]⟩
  · exact .inr (.inl ⟨d, _, hc, by rw [hr]⟩)
  · refine .inr (.inr ⟨Nat.succ_le_succ hk, a, s, hc, ?_⟩)
    rw [hr]
    rfl

variable [Scoping σ ν]

theorem inScope (h : r.Meets n k { p with symbols := Scoping.enter p.symbols } m c) :
    (inScope r).Meets n k p m (Resolving.inScope c) := by
  intro hp hn
  unfold Rule.inScope
  rw [Resolving.inScope_apply]
  rcases h hp hn with ⟨hk, position, q, hr⟩ | ⟨d, q, hc, hr⟩ | ⟨hk, a, s, hc, hr⟩
  · exact .inl ⟨hk, position, _, by rw [hr]⟩
  · exact .inr (.inl ⟨d, { q with symbols := Scoping.leave q.symbols }, by rw [hc]; rfl,
      by rw [hr]⟩)
  · exact .inr (.inr ⟨hk, a, Scoping.leave s, by rw [hc]; rfl, by rw [hr]; rfl⟩)

theorem resolve (t : Token) :
    (resolve t).Meets n 0 p p.tape ((Mention.ofToken t).resolve p.file) := by
  intro _ _
  cases h : Scoping.resolve p.symbols t.value ⟨t.line, p.file⟩ with
  | ok v =>
    refine .inr (.inr ⟨Nat.zero_le n, v, p.symbols, ?_, ?_⟩)
    · exact congrArg (Except.map (·, p.symbols)) h
    · unfold Rule.resolve
      rw [h]
      rfl
  | error d =>
    refine .inr (.inl ⟨d, p, ?_, ?_⟩)
    · exact congrArg (Except.map (·, p.symbols)) h
    · unfold Rule.resolve
      rw [h]

omit [Scoping σ ν] in
theorem keeping (ask : σ → String → Except Diagnostic (α × σ)) :
    (keeping ask).Meets n 0 p p.tape fun s => ask s p.file := by
  intro _ _
  cases h : ask p.symbols p.file with
  | ok x => exact .inr (.inr ⟨Nat.zero_le n, x.1, x.2, h, keeping_eq_of_ok h⟩)
  | error d => exact .inr (.inl ⟨d, p, h, keeping_eq_of_error h⟩)

theorem declare (t : Token) (constant : Bool) (nullability : Nullability) (number : Nat) :
    (declare t constant nullability).Meets n 0 p p.tape
      ((Mention.declaredBy t constant nullability number).declare p.file) := by
  rw [declare_eq]
  exact keeping _

theorem declareLoop (t : Token) :
    (declareLoop t).Meets n 0 p p.tape ((Mention.ofToken t).declareLoop p.file) := by
  rw [declareLoop_eq]
  exact keeping _

theorem withLoopVariable {t : Token} (h : ∀ s, r.Meets n k (p.moved p.tape s) m c) :
    (withLoopVariable t r).Meets n k p m (Resolving.inScope do
      let v ← (Mention.ofToken t).declareLoop p.file
      let a ← c
      Pure.pure (v, a)) :=
  .inScope (.first (.declareLoop t) fun v s => (h s).last fun a _ => .pure (v, a))

end Rule.Meets

/-! ### The rules of the categories -/

/-- Items with commas between them that stand between `i` and `r` are read by the rule for an
item, if there are more rounds than tokens behind the first item. -/
def Rule.ReadsItems (item : Rule σ α) (n k : Nat) (i r : Tape)
    (cs : String → Resolving σ (List α)) : Prop :=
  ∀ p, p.tape = i → ∀ rounds : Parser σ → Nat,
    (∀ q, q.tape.unread < i.unread → q.tape.unread < rounds q) →
    (separated item rounds).Meets n k p r (cs p.file)

namespace Rule.ReadsItems

variable {item : Rule σ α} {n k k' : Nat} {i m r : Tape} {c : String → Resolving σ α}
  {cs : String → Resolving σ (List α)}

/-- A last item, with no comma behind it. -/
theorem last (h : ∀ p, p.tape = i → item.Meets n k p r (c p.file))
    (hr : r.kind ≠ .symbol .comma) : item.ReadsItems n k i r (fun file => do
      let a ← c file
      let as ← pure []
      pure (a :: as)) := by
  rintro p rfl rounds -
  refine (h p rfl).last fun a s => .last (m := r) ?_ fun as s' => .pure _
  have hnone (rounds : Nat) :
      (collectWithin (afterComma item) rounds).Meets n 0 (p.moved r s) r (pure []) := by
    cases rounds with
    | zero => exact .pure []
    | succ rounds =>
      rw [collectWithin_afterComma]
      exact .skip_bind hr (.pure [])
  exact hnone (rounds (p.moved r s))

/-- An item, and further ones behind a comma. -/
theorem cons (hm : m.unread < i.unread) (h : ∀ p, p.tape = i → item.Meets n k p m (c p.file))
    (hcomma : m.kind = .symbol .comma) (hrest : item.ReadsItems n k' m.next r cs) :
    item.ReadsItems n (max k k') i r (fun file => do
      let a ← c file
      let as ← cs file
      pure (a :: as)) := by
  rintro p rfl rounds hrounds
  refine (h p rfl).bind fun a s => .last (m := r) ?_ fun as s' => .pure _
  obtain ⟨f, hf, hlt⟩ := Tape.exists_rounds (hrounds (p.moved m s) hm) hcomma
  have hsome : (collectWithin (afterComma item) (rounds (p.moved m s))).Meets n k'
      (p.moved m s) r (cs p.file) := by
    rw [hf, collectWithin_afterComma]
    exact .accept_bind hcomma (hrest (p.moved m.next s) rfl _ fun q hq => hlt q.tape hq)
  exact hsome

theorem itemsUntil {close : Symbol} {p : Parser σ} (h : item.ReadsItems n k i m cs)
    (hp : p.tape = i) (hclose : i.kind ≠ .symbol close) :
    (itemsUntil close item).Meets n k p m (cs p.file) := by
  refine .kind_bind ?_
  rw [hp, if_neg hclose]
  exact h p hp _ fun q _ => q.unread_lt_rounds

end Rule.ReadsItems

theorem Rule.Meets.itemsUntil_none {item : Rule σ α} {n : Nat} {p : Parser σ} {close : Symbol}
    (hclose : p.tape.kind = .symbol close) :
    (itemsUntil close item).Meets n 0 p p.tape (Pure.pure []) := by
  refine .kind_bind ?_
  rw [if_pos hclose]
  exact .pure []

section

variable [Scoping σ ν]

/-- The rule that reads the phrases of a rank. -/
def Rank.rule (inner : Inner σ ν) : Rank → Rule σ (Expr ν)
  | expression => inner.expression
  | level .fallback => Grammar.fallback inner
  | level .logical => Grammar.condition inner
  | level .relational => Grammar.comparison inner
  | level .additive => Grammar.sum inner
  | level .multiplicative => Grammar.product inner
  | signed => Grammar.signed inner
  | factor => Grammar.factor inner
  | primary => Grammar.primary inner
  | operand => Grammar.operand inner
  | place => Grammar.place inner

/-- The rule of a category reads the phrase `x` that stands between `i` and `r`. A
category of repeated parts is read by the rounds that take them, if there are enough. -/
def Category.Complete (inner : Inner σ ν) (n k : Nat) (i r : Tape) : (N : Category) → N.Tree → Prop
  | expr rank, x => ∀ p, p.tape = i → (rank.rule inner).Meets n k p r (x.resolve p.file)
  | operations l, x => ∀ p, p.tape = i → ∀ rounds left, x.length ≤ rounds →
    (Rule.growWithin (Grammar.operation? l.op? (l.operand.rule inner)) rounds left).Meets n k p r
      (left.operated <$> Expr.resolveOperations p.file x)
  | subscripts, x => ∀ p, p.tape = i → ∀ rounds base, x.length ≤ rounds →
    (Rule.growWithin (Grammar.subscript? inner) rounds base).Meets n k p r
      (base.subscripted <$> Expr.resolveSubscripts p.file x)
  | element, x => ∀ p, p.tape = i → inner.element.Meets n k p r (x.resolve p.file)
  | elements, x => inner.element.ReadsItems n k i r fun file => Expr.resolveElements file x
  | entries, x => (Grammar.entry inner).ReadsItems n k i r fun file => Expr.resolveEntries file x
  | declarator constant nullability _, x => ∀ p, p.tape = i →
    (Grammar.declarator inner constant nullability).Meets n k p r (x.resolve p.file)
  | declarators constant nullability _, x =>
    (Grammar.declarator inner constant nullability).ReadsItems n k i r fun file =>
      Declarator.resolveAll file x
  | command, x => ∀ p, p.tape = i → inner.command.Meets n k p r (x.resolve p.file)
  | body, x => ∀ p, p.tape = i → (Grammar.body inner).Meets n k p r (x.resolve p.file)
  | code, x => ∀ p, p.tape = i → ∀ rounds, i.unread < rounds →
    (Rule.collectWithin (Grammar.command? inner) rounds).Meets n k p r
      (Block.resolveAll p.file x)

/-- The rules for phrases inside a phrase read what is derived. -/
structure Inner.Complete (inner : Inner σ ν) (n : Nat) : Prop where
  /-- Expressions. -/
  expression {k i x r} (h : Derives (.expr .expression) k i x r)
    (hr : Rank.expression.goesOn r.kind = false) :
    (Category.expr .expression).Complete inner n k i r x
  /-- Elements of lists. -/
  element {k i x r} (h : Derives .element k i x r) (hr : Rank.expression.goesOn r.kind = false) :
    Category.element.Complete inner n k i r x
  /-- Commands. -/
  command {k i x r} (h : Derives .command k i x r) : Category.command.Complete inner n k i r x

end

namespace Grammar

variable [Scoping σ ν] {inner : Inner σ ν} {n k k' : Nat} {i m r : Tape}

/-! ### Operators -/

theorem noOperation_complete {l : Level} (hr : l.op? i.kind = none) :
    (Category.operations l).Complete inner n 0 i i [] := by
  rintro p rfl rounds left -
  cases rounds with
  | zero => exact .pure left
  | succ rounds =>
    unfold Rule.growWithin operation?
    rw [bind_assoc]
    refine .kind_bind ?_
    simp only [hr, pure_bind]
    exact .pure left

theorem operation_complete {l : Level} {op : BinaryOp} {e : Expr Mention}
    {ops : List (BinaryOp × Expr Mention × Nat)} (hop : l.op? i.kind = some op)
    (hright : (Category.expr l.operand).Complete inner n k i.next m e)
    (h : (Category.operations l).Complete inner n k' m r ops) :
    (Category.operations l).Complete inner n (max k k') i r
      ((op, e, i.next.hand.reached) :: ops) := by
  rintro p rfl rounds left hlen
  obtain _ | rounds := rounds
  · exact absurd hlen (Nat.not_succ_le_zero _)
  unfold Rule.growWithin operation?
  rw [bind_assoc]
  refine .kind_bind ?_
  simp only [hop, bind_assoc, pure_bind]
  have hc : (left.operated <$> Expr.resolveOperations p.file
      ((op, e, p.tape.next.hand.reached) :: ops) : Resolving σ (Expr ν)) = (do
        let right ← e.resolve p.file
        (Expr.binary op left right p.tape.next.hand.reached).operated <$>
          Expr.resolveOperations p.file ops) := by
    simp [Expr.resolveOperations]
  rw [hc]
  refine .operator_bind (.bind (hright _ rfl) fun right s => ?_)
  exact h _ rfl rounds _ (Nat.le_of_succ_le_succ hlen)

/-- How many rounds take the operations of a level. -/
def levelRounds (l : Level) (p : Parser σ) : Nat := if l.chains then p.rounds else 1

theorem level_eq (l : Level) (inner : Inner σ ν) :
    (Rank.level l).rule inner = (do
      let operand := l.operand.rule inner
      let e ← operand
      fun p => Rule.growWithin (operation? l.op? operand) (levelRounds l p) e p) := by
  cases l with
  | fallback | relational => exact pair_eq _ _
  | logical | additive | multiplicative => rfl

theorem level_complete {l : Level} {e : Expr Mention}
    {ops : List (BinaryOp × Expr Mention × Nat)}
    (hleft : (Category.expr l.operand).Complete inner n k i m e)
    (h : (Category.operations l).Complete inner n k' m r ops)
    (hchains : l.chains = true ∨ ops.length ≤ 1) (hlen : ops.length ≤ m.unread) :
    (Category.expr (.level l)).Complete inner n (max k k') i r (e.operated ops) := by
  rintro p rfl
  rw [level_eq, Expr.resolve_operated]
  refine .bind (hleft p rfl) fun t s => ?_
  have hrounds : ops.length ≤ levelRounds l (p.moved m s) := by
    unfold levelRounds
    split
    · have hm := m.unread_le
      rw [Parser.rounds_eq, Parser.tape_moved]
      omega
    next hl => exact hchains.resolve_left hl
  rw [← map_eq_pure_bind]
  exact h (p.moved m s) rfl _ t hrounds

/-! ### Operands -/

/-- An operand is read by the rule for its form. -/
theorem operand_meets {form : OperandForm} {p : Parser σ} {c : Resolving σ (Expr ν)}
    (hform : Dispatch.standard.operand p.tape.kind = some form)
    (h : (operandOf inner form).Meets n k p r c) : (operand inner).Meets n k p r c := by
  refine .dispatch_bind (.kind_bind ?_)
  simp only [hform]
  exact h

theorem constant_complete {value : Literal} (hhead : Literal.ofToken i.hand.token = .ok value) :
    (Category.expr .operand).Complete inner n 0 i i.next (.const value i.hand.token.line) := by
  rintro p rfl
  refine operand_meets (standardOperand?_of_ofToken hhead) (.advance_bind ?_)
  simp only [hhead]
  exact .pure _

theorem call_complete {function : Builtin} {e : Expr Mention}
    (hhead : Builtin.ofKind? i.kind = some function)
    (hopen : i.next.kind = .symbol .openParen)
    (h : (Category.expr .expression).Complete inner n k i.next.next m e)
    (hclose : m.kind = .symbol .closeParen) :
    (Category.expr .operand).Complete inner n k i m.next (.call function e i.hand.token.line) := by
  rintro p rfl
  refine operand_meets (standardOperand?_of_ofKind? hhead) (.advance_bind ?_)
  have hfunction : Builtin.ofKind? p.tape.hand.token.kind = some function := hhead
  simp only [hfunction]
  exact .last (.parenthesized hopen (h _ rfl) hclose) fun t s => .pure _

theorem noSubscript_complete (hr : i.kind ≠ .symbol .openBracket) :
    Category.subscripts.Complete inner n 0 i i [] := by
  rintro p rfl rounds base -
  cases rounds with
  | zero => exact .pure base
  | succ rounds =>
    unfold Rule.growWithin subscript?
    rw [bind_assoc]
    refine .kind_bind ?_
    rw [if_neg hr, pure_bind]
    exact .pure base

theorem subscript_complete {e : Expr Mention} {subs : List (Expr Mention × Nat)}
    (hopen : i.kind = .symbol .openBracket)
    (h : (Category.expr .expression).Complete inner n k i.next m e)
    (hclose : m.kind = .symbol .closeBracket)
    (hrest : Category.subscripts.Complete inner n k' m.next r subs) :
    Category.subscripts.Complete inner n (max k k') i r
      ((e, i.next.hand.reached) :: subs) := by
  rintro p rfl rounds base hlen
  obtain _ | rounds := rounds
  · exact absurd hlen (Nat.not_succ_le_zero _)
  unfold Rule.growWithin subscript?
  rw [bind_assoc]
  refine .kind_bind ?_
  rw [if_pos hopen]
  simp only [bind_assoc, pure_bind]
  have hc : (base.subscripted <$> Expr.resolveSubscripts p.file
      ((e, p.tape.next.hand.reached) :: subs) : Resolving σ (Expr ν)) = (do
        let t ← e.resolve p.file
        (Expr.index base t p.tape.next.hand.reached).subscripted <$>
          Expr.resolveSubscripts p.file subs) := by
    simp [Expr.resolveSubscripts]
  rw [hc]
  refine .operator_bind (.bind (h _ rfl) fun t s => .expect_bind hclose ?_)
  exact hrest _ rfl rounds _ (Nat.le_of_succ_le_succ hlen)

theorem named_complete {subs : List (Expr Mention × Nat)} (hhead : i.kind = .name)
    (h : Category.subscripts.Complete inner n k i.next r subs)
    (hlen : subs.length ≤ i.next.unread) :
    (Category.expr .place).Complete inner n k i r
      ((Expr.var (.ofToken i.hand.token) i.hand.token.line).subscripted subs) := by
  rintro p rfl
  rw [Expr.resolve_subscripted]
  have hc : (do
      let e ← (Expr.var (.ofToken p.tape.hand.token) p.tape.hand.token.line).resolve p.file
      let subs ← Expr.resolveSubscripts p.file subs
      pure (e.subscripted subs) : Resolving σ (Expr ν)) = (do
        let v ← (Mention.ofToken p.tape.hand.token).resolve p.file
        (Expr.var v p.tape.hand.token.line).subscripted <$>
          Expr.resolveSubscripts p.file subs) := by
    simp [Expr.resolve]
  rw [hc]
  refine .expect_bind hhead (.first (.resolve _) fun v s => ?_)
  refine h ((p.moved p.tape.next p.symbols).moved p.tape.next s) rfl _ _ ?_
  have hm := p.tape.next.unread_le
  rw [Parser.rounds_eq]
  simp only [Parser.moved_moved, Parser.tape_moved]
  omega

theorem place_complete {e : Expr Mention} (hhead : i.kind = .name)
    (h : (Category.expr .place).Complete inner n k i r e) :
    (Category.expr .operand).Complete inner n k i r e := by
  rintro p rfl
  have hform : Dispatch.standard.operand p.tape.kind = some .place := by
    rw [hhead]
    rfl
  exact operand_meets hform (h p rfl)

theorem primary_complete {e : Expr Mention} (hhead : i.kind ≠ .symbol .openParen)
    (h : (Category.expr .operand).Complete inner n k i r e) :
    (Category.expr .primary).Complete inner n k i r e := by
  rintro p rfl
  refine .kind_bind ?_
  rw [if_neg hhead]
  exact h p rfl

theorem parenthesized_complete {e : Expr Mention} (hopen : i.kind = .symbol .openParen)
    (h : (Category.expr .expression).Complete inner n k i.next m e)
    (hclose : m.kind = .symbol .closeParen) :
    (Category.expr .primary).Complete inner n k i m.next e := by
  rintro p rfl
  refine .kind_bind ?_
  rw [if_pos hopen]
  exact .parenthesized hopen (h _ rfl) hclose

theorem factor_complete {e : Expr Mention} (hr : UnaryOp.after? r.kind = none)
    (h : (Category.expr .primary).Complete inner n k i r e) :
    (Category.expr .factor).Complete inner n k i r e := by
  rintro p rfl
  rw [Rank.rule, factor_eq, ← bind_pure (e.resolve p.file)]
  refine .last (h p rfl) fun t s => .kind_bind ?_
  simp only [Parser.tape_moved, hr]
  exact .pure t

theorem postfixed_complete {e : Expr Mention} {op : UnaryOp}
    (h : (Category.expr .primary).Complete inner n k i m e)
    (hmark : UnaryOp.after? m.kind = some op) :
    (Category.expr .factor).Complete inner n k i m.next (.unary op e m.next.hand.reached) := by
  rintro p rfl
  rw [Rank.rule, factor_eq]
  refine .last (h p rfl) fun t s => .kind_bind ?_
  simp only [Parser.tape_moved, hmark]
  exact .operator_bind (.pure _)

theorem unsigned_complete {e : Expr Mention} (hhead : UnaryOp.before? i.kind = none)
    (h : (Category.expr .factor).Complete inner n k i r e) :
    (Category.expr .signed).Complete inner n k i r e := by
  rintro p rfl
  refine .kind_bind ?_
  simp only [hhead]
  exact h p rfl

theorem signed_complete {e : Expr Mention} {op : UnaryOp}
    (hhead : UnaryOp.before? i.kind = some op)
    (h : (Category.expr .factor).Complete inner n k i.next r e) :
    (Category.expr .signed).Complete inner n k i r (.unary op e i.next.hand.reached) := by
  rintro p rfl
  refine .kind_bind ?_
  simp only [hhead]
  exact .operator_bind (.last (h _ rfl) fun t s => .pure _)

/-! ### Lists and maps -/

/-- An operand that is items between an opening symbol and a closing one. -/
theorem bracketed_meets {form : OperandForm} {start close : Symbol} {item : Rule σ α}
    {f : Token → List α → Expr ν} {p : Parser σ} {cs : Resolving σ (List α)}
    (hform : Dispatch.standard.operand (.symbol start) = some form)
    (hrule : operandOf inner form = do
      let token ← Rule.expect (.symbol start)
      let as ← Rule.itemsUntil close item
      let _ ← Rule.expect (.symbol close)
      pure (f token as))
    (hstart : p.tape.kind = .symbol start)
    (h : (Rule.itemsUntil close item).Meets n k (p.moved p.tape.next p.symbols) m cs)
    (hclose : m.kind = .symbol close) :
    (operand inner).Meets n k p m.next (do
      let as ← cs
      pure (f p.tape.hand.token as)) := by
  refine operand_meets (hstart ▸ hform) ?_
  rw [hrule]
  refine .expect_bind hstart (.last h fun as s => ?_)
  exact .expect_bind hclose (.pure _)

theorem emptyList_complete (hopen : i.kind = .symbol .openBracket)
    (hclose : i.next.kind = .symbol .closeBracket) :
    (Category.expr .operand).Complete inner n 0 i i.next.next (.list [] i.hand.token.line) := by
  rintro p rfl
  exact bracketed_meets rfl rfl hopen (.itemsUntil_none hclose) hclose

theorem list_complete {es : List (Element Mention)} (hopen : i.kind = .symbol .openBracket)
    (hhead : i.next.kind ≠ .symbol .closeBracket)
    (h : Category.elements.Complete inner n k i.next m es)
    (hclose : m.kind = .symbol .closeBracket) :
    (Category.expr .operand).Complete inner n k i m.next (.list es i.hand.token.line) := by
  rintro p rfl
  simp only [Category.Complete] at h
  exact bracketed_meets rfl rfl hopen (h.itemsUntil rfl hhead) hclose

theorem emptyMap_complete (hopen : i.kind = .symbol .openCurly)
    (hclose : i.next.kind = .symbol .closeCurly) :
    (Category.expr .operand).Complete inner n 0 i i.next.next (.map [] i.hand.token.line) := by
  rintro p rfl
  exact bracketed_meets rfl rfl hopen (.itemsUntil_none hclose) hclose

theorem map_complete {es : List (Expr Mention × Expr Mention)}
    (hopen : i.kind = .symbol .openCurly) (hhead : i.next.kind ≠ .symbol .closeCurly)
    (h : Category.entries.Complete inner n k i.next m es)
    (hclose : m.kind = .symbol .closeCurly) :
    (Category.expr .operand).Complete inner n k i m.next (.map es i.hand.token.line) := by
  rintro p rfl
  simp only [Category.Complete] at h
  exact bracketed_meets rfl rfl hopen (h.itemsUntil rfl hhead) hclose

theorem lastElement_complete {e : Element Mention} (hr : r.kind ≠ .symbol .comma)
    (h : Category.element.Complete inner n k i r e) :
    Category.elements.Complete inner n k i r [e] :=
  .last (c := fun file => e.resolve file) h hr

theorem elements_complete {e : Element Mention} {es : List (Element Mention)}
    (hm : m.unread < i.unread) (h : Category.element.Complete inner n k i m e)
    (hcomma : m.kind = .symbol .comma)
    (hrest : Category.elements.Complete inner n k' m.next r es) :
    Category.elements.Complete inner n (max k k') i r (e :: es) := by
  simp only [Category.Complete] at hrest ⊢
  exact .cons (c := fun file => e.resolve file) hm h hcomma hrest

theorem entry_meets {key value : Expr Mention}
    (h : (Category.expr .expression).Complete inner n k i m key)
    (hcolon : m.kind = .symbol .colon)
    (h' : (Category.expr .expression).Complete inner n k' m.next r value) (p : Parser σ)
    (hp : p.tape = i) :
    (entry inner).Meets n (max k k') p r (Expr.resolveEntry p.file (key, value)) :=
  .bind (h p hp) fun _ _ => .expect_bind hcolon (.last (h' _ rfl) fun _ _ => .pure _)

theorem lastEntry_complete {key value : Expr Mention} (hr : r.kind ≠ .symbol .comma)
    (h : (Category.expr .expression).Complete inner n k i m key)
    (hcolon : m.kind = .symbol .colon)
    (h' : (Category.expr .expression).Complete inner n k' m.next r value) :
    Category.entries.Complete inner n (max k k') i r [(key, value)] := by
  simp only [Category.Complete, Expr.resolveEntries_cons]
  exact .last (c := fun file => Expr.resolveEntry file (key, value)) (entry_meets h hcolon h') hr

theorem entries_complete {key value : Expr Mention} {es : List (Expr Mention × Expr Mention)}
    {m' : Tape} {k'' : Nat} (hm : m'.unread < i.unread)
    (h : (Category.expr .expression).Complete inner n k i m key)
    (hcolon : m.kind = .symbol .colon)
    (h' : (Category.expr .expression).Complete inner n k' m.next m' value)
    (hcomma : m'.kind = .symbol .comma)
    (hrest : Category.entries.Complete inner n k'' m'.next r es) :
    Category.entries.Complete inner n (max (max k k') k'') i r ((key, value) :: es) := by
  simp only [Category.Complete, Expr.resolveEntries_cons]
  exact .cons (c := fun file => Expr.resolveEntry file (key, value)) hm (entry_meets h hcolon h')
    hcomma hrest

/-! ### Declarations -/

theorem declarator_complete {constant : Bool} {nullability : Nullability} {number : Nat}
    (hname : i.kind = .name) (hr : i.next.kind ≠ .symbol .assign) :
    (Category.declarator constant nullability number).Complete inner n 0 i i.next
      (.declaredBy i.hand.token constant nullability number, none) := by
  rintro p rfl
  refine .expect_bind hname (.first (.declare _ constant nullability number) fun v s => ?_)
  exact .skip_bind hr (.pure _)

theorem initialized_complete {constant : Bool} {nullability : Nullability} {number : Nat}
    {e : Expr Mention} (hname : i.kind = .name) (hassign : i.next.kind = .symbol .assign)
    (h : (Category.expr .expression).Complete inner n k i.next.next r e) :
    (Category.declarator constant nullability number).Complete inner n k i r
      (.declaredBy i.hand.token constant nullability number, some e) := by
  rintro p rfl
  refine .expect_bind hname (.first (.declare _ constant nullability number) fun v s => ?_)
  exact .accept_bind hassign (.last (h _ rfl) fun t s => .pure _)

theorem lastDeclarator_complete {constant : Bool} {nullability : Nullability} {number : Nat}
    {d : Declarator} (hr : r.kind ≠ .symbol .comma)
    (h : (Category.declarator constant nullability number).Complete inner n k i r d) :
    (Category.declarators constant nullability number).Complete inner n k i r [d] :=
  .last (c := fun file => d.resolve file) h hr

theorem declarators_complete {constant : Bool} {nullability : Nullability} {number number' : Nat}
    {d : Declarator} {ds : List Declarator} (hm : m.unread < i.unread)
    (h : (Category.declarator constant nullability number).Complete inner n k i m d)
    (hcomma : m.kind = .symbol .comma)
    (hrest : (Category.declarators constant nullability number').Complete inner n k' m.next r ds) :
    (Category.declarators constant nullability number).Complete inner n (max k k') i r
      (d :: ds) := by
  simp only [Category.Complete] at hrest ⊢
  exact .cons (c := fun file => d.resolve file) hm h hcomma hrest

/-! ### Commands in order, and bodies -/

theorem noCode_complete (hr : Dispatch.standard.startsCommand i.kind = false) :
    Category.code.Complete inner n 0 i i [] := by
  rintro p rfl rounds hrounds
  obtain _ | rounds := rounds
  · exact absurd hrounds (Nat.not_lt_zero _)
  rw [collectWithin_command?]
  refine .dispatch_bind (.kind_bind ?_)
  rw [hr, if_neg Bool.false_ne_true]
  exact .pure []

theorem code_complete {c : Command Mention} {cs : List (Command Mention)}
    (hhead : Dispatch.standard.startsCommand i.kind = true) (hm : m.unread < i.unread)
    (h : Category.command.Complete inner n k i m c)
    (hrest : Category.code.Complete inner n k' m r cs) :
    Category.code.Complete inner n (max k k') i r (c :: cs) := by
  rintro p rfl rounds hrounds
  obtain _ | rounds := rounds
  · exact absurd hrounds (Nat.not_lt_zero _)
  rw [collectWithin_command?]
  refine .dispatch_bind (.kind_bind ?_)
  rw [hhead, if_pos rfl]
  refine .bind (h p rfl) fun t s => ?_
  exact .last (hrest _ rfl rounds (by omega)) fun ts s => .pure _

theorem code_meets {cs : List (Command Mention)} {p : Parser σ}
    (h : Category.code.Complete inner n k p.tape r cs) :
    (code inner).Meets n k p r
      ((fun cs => ⟨cs, [], p.tape.hand.token.line⟩) <$> Block.resolveAll p.file cs) := by
  rw [map_eq_pure_bind]
  exact .peek_bind (.last (h p rfl p.rounds p.unread_lt_rounds) fun cs s => .pure _)

theorem braced_complete {cs : List (Command Mention)} (hopen : i.kind = .symbol .openCurly)
    (h : Category.code.Complete inner n k i.next m cs)
    (hclose : m.kind = .symbol .closeCurly) :
    Category.body.Complete inner n k i m.next (.block ⟨cs, [], i.hand.token.line⟩) := by
  rintro p rfl
  refine .kind_bind ?_
  rw [if_pos hopen]
  refine .advance_bind ?_
  have hc : ((Command.block ⟨cs, [], p.tape.hand.token.line⟩).resolve p.file :
      Resolving σ (Command ν)) = (do
        let b : Block ν ← Resolving.inScope
          ((fun cs => ⟨cs, [], p.tape.next.hand.token.line⟩) <$> Block.resolveAll p.file cs)
        pure (.block { b with line := p.tape.hand.token.line })) := by
    simp [Command.resolve, Block.resolve, Resolving.inScope_map]
  rw [hc]
  exact .last (.inScope (code_meets h)) fun b s => .expect_bind hclose (.pure _)

theorem unbraced_complete {c : Command Mention} (hhead : i.kind ≠ .symbol .openCurly)
    (h : Category.command.Complete inner n k i r c) : Category.body.Complete inner n k i r c := by
  rintro p rfl
  refine .kind_bind ?_
  rw [if_neg hhead]
  exact h p rfl

/-! ### Derivations -/

/-- Every phrase that is derived is read by the rule of its category. -/
theorem derived_complete (hi : inner.Complete n) {N x} (h : Derives N k i x r)
    (hr : N.goesOn r.kind = false) : N.Complete inner n k i r x := by
  induction h with
  | expression h => exact hi.expression (.expression h) hr
  | level left h chains ihl ih =>
    have hlen := h.progress
    exact level_complete (ihl (h.goesOn_operand hr)) (ih hr) chains (Nat.le_of_add_left_le hlen)
  | noOperation =>
    rw [Category.goesOn, Level.goesOn_level, Bool.or_eq_false_iff] at hr
    exact noOperation_complete (by simpa using hr.1)
  | operation head right h ihr ih =>
    exact operation_complete head (ihr (h.goesOn_operand hr)) (ih hr)
  | unsigned h ih => exact unsigned_complete (before?_of_starts h.starts_kind) (ih hr)
  | signed head h ih => exact signed_complete head (ih hr)
  | factor h ih =>
    simp only [Category.goesOn, Rank.goesOn, Bool.or_eq_false_iff] at hr
    exact factor_complete (by simpa using hr.2) (ih hr.1)
  | postfixed h mark ih =>
    exact postfixed_complete (ih (decide_eq_false (after?_symbol mark))) mark
  | primary h ih => exact primary_complete (h.kind_ne rfl) (ih hr)
  | parenthesized opens h closes ih =>
    exact parenthesized_complete opens (ih (by rw [closes]; rfl)) closes
  | constant head => exact constant_complete head
  | call head opens h closes ih =>
    exact call_complete head opens (ih (by rw [closes]; rfl)) closes
  | place h ih => exact place_complete (of_decide_eq_true h.starts_kind) (ih hr)
  | emptyList opens closes => exact emptyList_complete opens closes
  | list opens h closes ih =>
    exact list_complete opens (h.kind_ne rfl) (ih (by rw [closes]; rfl)) closes
  | emptyMap opens closes => exact emptyMap_complete opens closes
  | map opens h closes ih =>
    exact map_complete opens (h.kind_ne rfl) (ih (by rw [closes]; rfl)) closes
  | named head h ih =>
    exact named_complete head (ih hr) (Nat.le_of_add_left_le h.progress)
  | noSubscript => exact noSubscript_complete (of_decide_eq_false hr)
  | subscript opens h closes rest ih ih' =>
    exact subscript_complete opens (ih (by rw [closes]; rfl)) closes (ih' hr)
  | lastElement h ih =>
    simp only [Category.goesOn, Bool.or_eq_false_iff, decide_eq_false_iff_not] at hr
    exact lastElement_complete hr.1 (ih hr.2)
  | elements h comma rest ih ih' =>
    exact elements_complete h.progress (ih (by rw [comma]; rfl)) comma (ih' hr)
  | lastEntry h colon h' ih ih' =>
    simp only [Category.goesOn, Bool.or_eq_false_iff, decide_eq_false_iff_not] at hr
    exact lastEntry_complete hr.1 (ih (by rw [colon]; rfl)) colon (ih' hr.2)
  | entries h colon h' comma rest ih ih' ih'' =>
    refine entries_complete ?_ (ih (by rw [colon]; rfl)) colon (ih' (by rw [comma]; rfl)) comma
      (ih'' hr)
    have hk := h.progress
    have hv := h'.progress
    have hc := Tape.unread_symbol colon
    simp only [Category.size] at hk hv
    omega
  | declarator name =>
    simp only [Category.goesOn, Bool.or_eq_false_iff, decide_eq_false_iff_not] at hr
    exact declarator_complete name hr.1
  | initialized name assign h ih =>
    simp only [Category.goesOn, Bool.or_eq_false_iff] at hr
    exact initialized_complete name assign (ih hr.2)
  | lastDeclarator h ih =>
    simp only [Category.goesOn, Bool.or_eq_false_iff, decide_eq_false_iff_not] at hr
    refine lastDeclarator_complete hr.1.1 (ih ?_)
    simp only [Category.goesOn, Bool.or_eq_false_iff, decide_eq_false_iff_not]
    exact ⟨hr.1.2, hr.2⟩
  | declarators h comma rest ih ih' =>
    exact declarators_complete h.progress (ih (by rw [comma]; rfl)) comma (ih' hr)
  | braced opens h closes ih => exact braced_complete opens (ih (by rw [closes]; rfl)) closes
  | unbraced head h ih => exact unbraced_complete head (ih rfl)
  | noCode => exact noCode_complete hr
  | code h rest ih ih' => exact code_complete h.starts_kind h.progress (ih rfl) (ih' hr)
  | single h => exact hi.element (.single h) hr
  | spread head h => exact hi.element (.spread head h) hr
  | elementIf head opens h closes h' noElse =>
    exact hi.element (.elementIf head opens h closes h' noElse) hr
  | elementIfElse head opens h closes h' hasElse h'' =>
    exact hi.element (.elementIfElse head opens h closes h' hasElse h'') hr
  | elementFor head opens name separator h closes h' =>
    exact hi.element (.elementFor head opens name separator h closes h') hr
  | declaration final head mark h stop => exact hi.command (.declaration final head mark h stop)
  | printLine head opens closes stop => exact hi.command (.printLine head opens closes stop)
  | print head opens h closes stop => exact hi.command (.print head opens h closes stop)
  | assert head opens h closes stop => exact hi.command (.assert head opens h closes stop)
  | assertMessage head opens h comma h' closes stop =>
    exact hi.command (.assertMessage head opens h comma h' closes stop)
  | conditional head opens h closes h' noElse =>
    exact hi.command (.conditional head opens h closes h' noElse)
  | conditionalElse head opens h closes h' hasElse h'' =>
    exact hi.command (.conditionalElse head opens h closes h' hasElse h'')
  | whileLoop head opens h closes h' => exact hi.command (.whileLoop head opens h closes h')
  | doWhileLoop head h separator opens h' closes stop =>
    exact hi.command (.doWhileLoop head h separator opens h' closes stop)
  | forLoop head opens name separator h closes h' =>
    exact hi.command (.forLoop head opens name separator h closes h')
  | effect h stop => exact hi.command (.effect h stop)
  | assignment h isTarget assign h' stop =>
    exact hi.command (.assignment h isTarget assign h' stop)

theorem expression_meets (hi : inner.Complete n) {e : Expr Mention} {p : Parser σ}
    (h : Derives (.expr .expression) k p.tape e r) (hr : Rank.expression.goesOn r.kind = false) :
    inner.expression.Meets n k p r (e.resolve p.file) :=
  hi.expression h hr p rfl

theorem parenthesized_meets (hi : inner.Complete n) {e : Expr Mention} {p : Parser σ}
    (hopen : p.tape.kind = .symbol .openParen)
    (h : Derives (.expr .expression) k p.tape.next e m) (hclose : m.kind = .symbol .closeParen) :
    (Rule.parenthesized inner.expression).Meets n k p m.next (e.resolve p.file) :=
  .parenthesized hopen (hi.expression h (by rw [hclose]; rfl) _ rfl) hclose

/-! ### Elements of lists -/

theorem loopHeader_bind (hi : inner.Complete n) {f : Token × Expr ν → Rule σ β}
    {g : Expr ν → Resolving σ β} {e : Expr Mention} {p : Parser σ}
    (hopen : p.tape.kind = .symbol .openParen) (hname : p.tape.next.kind = .name)
    (hin : p.tape.next.next.kind = .keyword .inWord)
    (h : Derives (.expr .expression) k p.tape.next.next.next e m)
    (hclose : m.kind = .symbol .closeParen)
    (hf : ∀ t s, (f (p.tape.next.hand.token, t)).Meets n k' (p.moved m.next s) r (g t)) :
    (loopHeader inner >>= f).Meets n (max k k') p r (do
      let t ← e.resolve p.file
      g t) := by
  have hheader : (loopHeader inner).Meets n k p m.next
      ((fun t => (p.tape.next.hand.token, t)) <$> e.resolve p.file) := by
    rw [map_eq_pure_bind]
    refine .parenthesized hopen (.expect_bind hname (.expect_bind hin ?_)) hclose
    exact .last (hi.expression h (by rw [hclose]; rfl) _ rfl) fun t s => .pure _
  have hc : (do
      let t ← e.resolve p.file
      g t) = (do
      let x ← (fun t => (p.tape.next.hand.token, t)) <$> e.resolve p.file
      g x.2) := by
    simp
  rw [hc]
  refine hheader.bind_of_ok (g := fun x => g x.2) fun x s hx => ?_
  rw [map_eq_pure_bind, Resolving.bind_pure_eq_ok] at hx
  obtain ⟨t, -, rfl⟩ := hx
  exact hf t s

theorem clause_complete (hi : inner.Complete n) {e : Element Mention} {p : Parser σ}
    (h : Derives .element (k + 1) p.tape e r) (hr : Rank.expression.goesOn r.kind = false) :
    (clause inner).Meets n k p r (e.resolve p.file) := by
  refine .kind_bind ?_
  cases h with
  | single h =>
    split
    next hhead => exact absurd hhead (h.kind_ne rfl)
    next hhead => exact absurd hhead (h.kind_ne rfl)
    next hhead => exact absurd hhead (h.kind_ne rfl)
    · exact .last (expression_meets hi h hr) fun t s => .pure _
  | spread head h =>
    rw [head]
    exact .advance_bind (.last (hi.expression h hr _ rfl) fun t s => .pure _)
  | elementIf head opens h closes h' noElse =>
    rw [head]
    refine .advance_bind (.bind (parenthesized_meets hi opens h closes) fun c s => ?_)
    refine .last (hi.element h' hr _ rfl) fun e s => .skip_bind noElse (.pure _)
  | elementIfElse head opens h closes h' hasElse h'' =>
    rw [head]
    refine .advance_bind (.bind (parenthesized_meets hi opens h closes) fun c s => ?_)
    refine .bind (hi.element h' (by rw [hasElse]; rfl) _ rfl) fun e s => ?_
    exact .accept_bind hasElse (.last (hi.element h'' hr _ rfl) fun e' s => .pure _)
  | elementFor head opens name separator h closes h' =>
    rw [head]
    refine .advance_bind (loopHeader_bind hi opens name separator h closes fun c s => ?_)
    exact .last (.withLoopVariable fun s' => hi.element h' hr _ rfl) fun x s => .pure _

/-! ### Commands -/

theorem body_meets (hi : inner.Complete n) {b : Command Mention} {p : Parser σ}
    (h : Derives .body k p.tape b r) : (body inner).Meets n k p r (b.resolve p.file) :=
  derived_complete hi h rfl p rfl

omit [Scoping σ ν] in
/-- A command that is a keyword, something in parentheses and a semicolon. -/
theorem statement_meets {item : Rule σ α} {f : Token → α → Command ν} {c : Resolving σ α}
    {p : Parser σ} (hopen : p.tape.next.kind = .symbol .openParen)
    (h : item.Meets n k (p.moved p.tape.next.next p.symbols) m c)
    (hclose : m.kind = .symbol .closeParen) (hstop : m.next.kind = .symbol .semicolon) :
    (do
      let start ← Rule.advance
      let a ← Rule.parenthesized item
      let _ ← Rule.expect (.symbol .semicolon)
      pure (f start a) : Rule σ (Command ν)).Meets n k p m.next.next (do
        let a ← c
        pure (f p.tape.hand.token a)) := by
  refine .advance_bind (.last (.parenthesized hopen h hclose) fun a s => ?_)
  exact .expect_bind hstop (.pure _)

theorem print_meets (hi : inner.Complete n) {e : Expr Mention} {p : Parser σ}
    (hopen : p.tape.next.kind = .symbol .openParen)
    (h : Derives (.expr .expression) k p.tape.next.next e m)
    (hclose : m.kind = .symbol .closeParen) (hstop : m.next.kind = .symbol .semicolon) :
    (print inner).Meets n k p m.next.next
      ((Command.print (some e) p.tape.hand.token.line).resolve p.file) := by
  have hc : ((Command.print (some e) p.tape.hand.token.line).resolve p.file :
      Resolving σ (Command ν)) = (do
        let value ← some <$> e.resolve p.file
        pure (.print value p.tape.hand.token.line)) := by
    simp [Command.resolve]
  rw [hc, map_eq_pure_bind]
  refine statement_meets hopen (.dispatch_bind (.kind_bind ?_)) hclose hstop
  have hs : Dispatch.standard.startsExpression p.tape.next.next.kind = true := h.starts_kind
  simp only [Parser.tape_moved, hs, if_true]
  exact .last (hi.expression h (by rw [hclose]; rfl) _ rfl) fun t s => .pure _

theorem printLine_meets {p : Parser σ} (hopen : p.tape.next.kind = .symbol .openParen)
    (hclose : p.tape.next.next.kind = .symbol .closeParen)
    (hstop : p.tape.next.next.next.kind = .symbol .semicolon) :
    (print inner).Meets n 0 p p.tape.next.next.next.next
      ((Command.print none p.tape.hand.token.line).resolve p.file) := by
  have hc : ((Command.print none p.tape.hand.token.line).resolve p.file :
      Resolving σ (Command ν)) = (do
        let value ← pure none
        pure (.print value p.tape.hand.token.line)) := by
    simp [Command.resolve]
  rw [hc]
  refine statement_meets (m := p.tape.next.next) hopen (.dispatch_bind (.kind_bind ?_)) hclose hstop
  have hs : Dispatch.standard.startsExpression p.tape.next.next.kind = false := by
    rw [hclose]
    rfl
  simp only [Parser.tape_moved, hs, Bool.false_eq_true, if_false]
  exact .pure none

theorem assert_meets (hi : inner.Complete n) {e : Expr Mention} {p : Parser σ}
    (hopen : p.tape.next.kind = .symbol .openParen)
    (h : Derives (.expr .expression) k p.tape.next.next e m)
    (hclose : m.kind = .symbol .closeParen) (hstop : m.next.kind = .symbol .semicolon) :
    (assertion inner).Meets n k p m.next.next
      ((Command.assert e none p.tape.hand.token.line).resolve p.file) := by
  have hc : ((Command.assert e none p.tape.hand.token.line).resolve p.file :
      Resolving σ (Command ν)) = (do
        let x : Expr ν × Option (Expr ν) ← (fun c => (c, none)) <$> e.resolve p.file
        pure (.assert x.1 x.2 p.tape.hand.token.line)) := by
    simp [Command.resolve]
  rw [hc, map_eq_pure_bind]
  refine statement_meets hopen (.last (hi.expression h ?_ _ rfl) fun c s => .skip_bind ?_ (.pure _))
    hclose hstop
  · rw [hclose]
    rfl
  · rw [Parser.tape_moved, hclose]
    simp

theorem assertMessage_meets (hi : inner.Complete n) {e e' : Expr Mention} {p : Parser σ}
    {m' : Tape} (hopen : p.tape.next.kind = .symbol .openParen)
    (h : Derives (.expr .expression) k p.tape.next.next e m) (hcomma : m.kind = .symbol .comma)
    (h' : Derives (.expr .expression) k' m.next e' m')
    (hclose : m'.kind = .symbol .closeParen) (hstop : m'.next.kind = .symbol .semicolon) :
    (assertion inner).Meets n (max k k') p m'.next.next
      ((Command.assert e (some e') p.tape.hand.token.line).resolve p.file) := by
  have hc : ((Command.assert e (some e') p.tape.hand.token.line).resolve p.file :
      Resolving σ (Command ν)) = (do
        let x ← e.resolve p.file >>= fun c => (fun e => (c, some e)) <$> e'.resolve p.file
        pure (.assert x.1 x.2 p.tape.hand.token.line)) := by
    simp [Command.resolve]
  rw [hc]
  refine statement_meets hopen (.bind (hi.expression h ?_ _ rfl) fun c s => .accept_bind hcomma ?_)
    hclose hstop
  · rw [hcomma]
    rfl
  · rw [map_eq_pure_bind]
    exact .last (hi.expression h' (by rw [hclose]; rfl) _ rfl) fun e s => .pure _

theorem conditional_meets (hi : inner.Complete n) {c : Expr Mention} {b : Command Mention}
    {p : Parser σ} (hopen : p.tape.next.kind = .symbol .openParen)
    (h : Derives (.expr .expression) k p.tape.next.next c m)
    (hclose : m.kind = .symbol .closeParen) (h' : Derives .body k' m.next b r)
    (helse : r.kind ≠ .keyword .elseWord) :
    (conditional inner).Meets n (max k k') p r
      ((Command.cond c b none p.tape.hand.token.line).resolve p.file) :=
  .advance_bind (.bind (parenthesized_meets hi hopen h hclose) fun _ _ =>
    .last (body_meets hi h') fun _ _ => .skip_bind helse (.pure _))

theorem conditionalElse_meets (hi : inner.Complete n) {c : Expr Mention}
    {b b' : Command Mention} {m' : Tape} {k'' : Nat} {p : Parser σ}
    (hopen : p.tape.next.kind = .symbol .openParen)
    (h : Derives (.expr .expression) k p.tape.next.next c m)
    (hclose : m.kind = .symbol .closeParen) (h' : Derives .body k' m.next b m')
    (helse : m'.kind = .keyword .elseWord) (h'' : Derives .body k'' m'.next b' r) :
    (conditional inner).Meets n (max k (max k' k'')) p r
      ((Command.cond c b (some b') p.tape.hand.token.line).resolve p.file) :=
  .advance_bind (.bind (parenthesized_meets hi hopen h hclose) fun _ _ =>
    .bind (body_meets hi h') fun _ _ =>
      .accept_bind helse (.last (body_meets hi h'') fun _ _ => .pure _))

theorem whileLoop_meets (hi : inner.Complete n) {c : Expr Mention} {b : Command Mention}
    {p : Parser σ} (hopen : p.tape.next.kind = .symbol .openParen)
    (h : Derives (.expr .expression) k p.tape.next.next c m)
    (hclose : m.kind = .symbol .closeParen) (h' : Derives .body k' m.next b r) :
    (whileLoop inner).Meets n (max k k') p r
      ((Command.whileDo c b p.tape.hand.token.line).resolve p.file) :=
  .advance_bind (.bind (parenthesized_meets hi hopen h hclose) fun _ _ =>
    .last (body_meets hi h') fun _ _ => .pure _)

theorem doWhileLoop_meets (hi : inner.Complete n) {b : Command Mention} {c : Expr Mention}
    {m' : Tape} {p : Parser σ} (h : Derives .body k p.tape.next b m)
    (hwhile : m.kind = .keyword .whileWord) (hopen : m.next.kind = .symbol .openParen)
    (h' : Derives (.expr .expression) k' m.next.next c m')
    (hclose : m'.kind = .symbol .closeParen) (hstop : m'.next.kind = .symbol .semicolon) :
    (doWhileLoop inner).Meets n (max k k') p m'.next.next
      ((Command.doWhile b c p.tape.hand.token.line).resolve p.file) :=
  .advance_bind (.bind (body_meets hi h) fun _ _ => .expect_bind hwhile
    (.last (parenthesized_meets hi hopen h' hclose) fun _ _ => .expect_bind hstop (.pure _)))

theorem forLoop_meets (hi : inner.Complete n) {c : Expr Mention} {b : Command Mention}
    {p : Parser σ} (hopen : p.tape.next.kind = .symbol .openParen)
    (hname : p.tape.next.next.kind = .name)
    (hin : p.tape.next.next.next.kind = .keyword .inWord)
    (h : Derives (.expr .expression) k p.tape.next.next.next.next c m)
    (hclose : m.kind = .symbol .closeParen) (h' : Derives .body k' m.next b r) :
    (forLoop inner).Meets n (max k k') p r
      ((Command.each (.ofToken p.tape.next.next.hand.token) c b
        p.tape.hand.token.line).resolve p.file) :=
  .advance_bind (loopHeader_bind hi hopen hname hin h hclose fun _ _ =>
    .last (.withLoopVariable fun _ => body_meets hi h') fun _ _ => .pure _)

/-! ### Declarations and assignments -/

theorem varAfter_bind {constant : Bool} {i : Tape} {f : Unit → Rule σ β} {c : Resolving σ β}
    {p : Parser σ} (hfinal : i.Optional (.keyword .finalWord) constant m)
    (hvar : m.kind = .keyword .varWord) (hp : p.tape = i.next)
    (h : (f ()).Meets n k (p.moved m.next p.symbols) r c) :
    (varAfter constant >>= f).Meets n k p r c := by
  cases constant
  · have hm : m = i := hfinal
    rw [hm, ← hp, Parser.moved_self] at h
    exact h
  · have hm : m = p.tape := hfinal.2.trans hp.symm
    rw [hm] at h hvar
    have hv : varAfter true p = (.ok (), p.moved p.tape.next p.symbols) :=
      Rule.bind_apply_ok (Rule.expect_eq_of_kind hvar)
    exact h.of_step (Rule.bind_apply_ok hv)

theorem nullability_bind {marked : Bool} {f : Nullability → Rule σ β} {c : Resolving σ β}
    {p : Parser σ} (hmark : p.tape.Optional (.symbol .nullable) marked m) (hm : m.kind = .name)
    (h : (f (.ofMark marked)).Meets n k (p.moved m p.symbols) r c) :
    (nullability >>= f).Meets n k p r c := by
  unfold nullability
  rw [bind_assoc]
  cases marked
  · have hi : m = p.tape := hmark
    subst hi
    exact .skip_bind (by simp [hm]) h
  · obtain ⟨hi, rfl⟩ := hmark
    exact .accept_bind hi h

theorem declaration_meets (hi : inner.Complete n) {constant marked : Bool} {m' : Tape}
    {ds : List Declarator} {p : Parser σ}
    (hfinal : p.tape.Optional (.keyword .finalWord) constant m)
    (hvar : m.kind = .keyword .varWord) (hmark : m.next.Optional (.symbol .nullable) marked m')
    (h : Derives (.declarators constant (.ofMark marked) 0) k m' ds r)
    (hstop : r.kind = .symbol .semicolon) :
    (declaration inner).Meets n k p r.next
      ((Command.block (.ofDeclarators ds p.tape.hand.token.line)).resolve p.file) := by
  have hc : ((Command.block (.ofDeclarators ds p.tape.hand.token.line)).resolve p.file :
      Resolving σ (Command ν)) = (do
        let ds ← Declarator.resolveAll p.file ds
        pure (.block ⟨ds.filterMap Prod.snd, ds.map Prod.fst, p.tape.hand.token.line⟩)) := by
    simp [Command.resolve, h.resolve_ofDeclarators]
  have hconstant : decide (p.tape.hand.token.kind = .keyword .finalWord) = constant := by
    cases constant
    · have hm : m = p.tape := hfinal
      subst hm
      exact decide_eq_false fun hf => by cases hvar.symm.trans hf
    · exact decide_eq_true hfinal.1
  rw [hc]
  refine .advance_bind ?_
  rw [hconstant]
  refine varAfter_bind hfinal hvar rfl (nullability_bind hmark (of_decide_eq_true h.starts_kind) ?_)
  refine .last (derived_complete hi h (by rw [hstop]; rfl) _ rfl Parser.rounds
    fun q _ => q.unread_lt_rounds) fun ds s => ?_
  exact .expect_bind hstop (.pure _)

theorem targetOf_eq {parenthesized : Bool} {e : Expr ν} {target : Target ν}
    (hp : parenthesized = false) (he : e.target? = some target) :
    targetOf parenthesized e = .ok target := by
  rw [targetOf, hp, he]
  rfl

theorem assignment_meets (hi : inner.Complete n) {e e' : Expr Mention} {target : Target Mention}
    {m' : Tape} {p : Parser σ} (h : Derives (.expr .place) k p.tape e m)
    (htarget : e.target? = some target) (hassign : m.kind = .symbol .assign)
    (h' : Derives (.expr .expression) k' m.next e' m') (hstop : m'.kind = .symbol .semicolon) :
    (assignment inner).Meets n (max (k + 1) k') p m'.next
      ((Command.assign (some target) e' p.tape.hand.token.line).resolve p.file) := by
  rw [Command.resolve_assign p.file htarget]
  refine .peek_bind (.bind_of_ok (hi.expression h.expression_of_place ?_ p rfl) fun t s ht => ?_)
  · rw [hassign]
    rfl
  · obtain ⟨target', rfl⟩ := Expr.exists_target p.file ht htarget
    have hhead : decide (p.tape.hand.token.kind = .symbol .openParen) = false :=
      decide_eq_false fun ho => by cases ho.symm.trans (of_decide_eq_true h.starts_kind)
    refine .position_bind (.accept_bind hassign ?_)
    rw [if_pos rfl, targetOf_eq hhead (Target.target?_toExpr target'), Target.target?_toExpr]
    exact .last (hi.expression h' (by rw [hstop]; rfl) _ rfl) fun t s =>
      .expect_bind hstop (.pure _)

theorem effect_meets (hi : inner.Complete n) {e : Expr Mention} {p : Parser σ}
    (h : Derives (.expr .expression) k p.tape e m) (hstop : m.kind = .symbol .semicolon) :
    (assignment inner).Meets n k p m.next
      ((Command.assign none e p.tape.hand.token.line).resolve p.file) := by
  refine .peek_bind (.last (hi.expression h (by rw [hstop]; rfl) p rfl) fun t s => ?_)
  refine .position_bind (.skip_bind ?_ (.expect_bind hstop (.pure _)))
  rw [Parser.tape_moved, hstop]
  simp

/-! ### Choosing -/

/-- A command that no keyword opens is an assignment. -/
theorem anyCommand_assignment {c : Resolving σ (Command ν)} {p : Parser σ}
    (hhead : Dispatch.standard.startsExpression p.tape.kind = true)
    (h : (assignment inner).Meets n k p r c) : (anyCommand inner).Meets n k p r c := by
  refine .dispatch_bind (.kind_bind ?_)
  simp only [Dispatch.command_of_startsExpression hhead, hhead, if_true]
  exact h

theorem anyCommand_form {c : Resolving σ (Command ν)} {p : Parser σ} (form : CommandForm)
    (hhead : Dispatch.standard.command p.tape.kind = some form)
    (h : (commandOf inner form).Meets n k p r c) : (anyCommand inner).Meets n k p r c := by
  refine .dispatch_bind (.kind_bind ?_)
  simp only [hhead]
  exact h

theorem anyCommand_complete (hi : inner.Complete n) {c : Command Mention} {p : Parser σ}
    (h : Derives .command (k + 1) p.tape c r) :
    (anyCommand inner).Meets n k p r (c.resolve p.file) := by
  cases h with
  | declaration final head mark h stop =>
    refine anyCommand_form .declaration ?_ (declaration_meets hi final head mark h stop)
    unfold Tape.Optional at final
    split at final
    · rw [final.1]
      rfl
    · rw [← final, head]
      rfl
  | printLine head opens closes stop =>
    exact anyCommand_form .print (by rw [head]; rfl) (printLine_meets opens closes stop)
  | print head opens h closes stop =>
    exact anyCommand_form .print (by rw [head]; rfl) (print_meets hi opens h closes stop)
  | assert head opens h closes stop =>
    exact anyCommand_form .assertion (by rw [head]; rfl) (assert_meets hi opens h closes stop)
  | assertMessage head opens h comma h' closes stop =>
    exact anyCommand_form .assertion (by rw [head]; rfl)
      (assertMessage_meets hi opens h comma h' closes stop)
  | conditional head opens h closes h' noElse =>
    exact anyCommand_form .conditional (by rw [head]; rfl)
      (conditional_meets hi opens h closes h' noElse)
  | conditionalElse head opens h closes h' hasElse h'' =>
    exact anyCommand_form .conditional (by rw [head]; rfl)
      (conditionalElse_meets hi opens h closes h' hasElse h'')
  | whileLoop head opens h closes h' =>
    exact anyCommand_form .whileLoop (by rw [head]; rfl) (whileLoop_meets hi opens h closes h')
  | doWhileLoop head h separator opens h' closes stop =>
    exact anyCommand_form .doWhileLoop (by rw [head]; rfl)
      (doWhileLoop_meets hi h separator opens h' closes stop)
  | forLoop head opens name separator h closes h' =>
    exact anyCommand_form .forLoop (by rw [head]; rfl)
      (forLoop_meets hi opens name separator h closes h')
  | effect h stop => exact anyCommand_assignment h.starts_kind (effect_meets hi h stop)
  | assignment h isTarget assign h' stop =>
    refine anyCommand_assignment ?_ (assignment_meets hi h isTarget assign h' stop)
    exact h.expression_of_place.starts_kind

end Grammar

section

variable [Scoping σ ν]

/-! ### Any number of levels -/

/-- Expressions, elements and commands that are derived are read, with any number of
levels to go. -/
theorem Inner.complete_within (n : Nat) : (Inner.within n : Inner σ ν).Complete n := by
  induction n with
  | zero =>
    refine ⟨fun h _ p _ => ?_, fun h _ p _ => ?_, fun h p _ => ?_⟩
    all_goals cases h <;> exact .tooDeep
  | succ n ih =>
    refine ⟨?_, ?_, ?_⟩
    · rintro k i x r h hr p rfl
      cases h with
      | expression h => exact .nested (Grammar.derived_complete ih h hr _ rfl)
    · rintro k i x r h hr p rfl
      obtain ⟨k, rfl⟩ : ∃ k', k = k' + 1 := by cases h <;> exact ⟨_, rfl⟩
      exact .nested (Grammar.clause_complete ih h hr)
    · rintro k i x r h p rfl
      obtain ⟨k, rfl⟩ : ∃ k', k = k' + 1 := by cases h <;> exact ⟨_, rfl⟩
      exact .nested (Grammar.anyCommand_complete ih h)

/-- A program that is derived up to the end of the input is read. -/
theorem Grammar.program_meets {p : Parser σ} {k : Nat} {cs : List (Command Mention)} {r : Tape}
    (h : Derives .code k p.tape cs r) (hr : r.kind = .endOfInput) :
    (Grammar.program : Rule σ (Block ν)).Meets maxDepth k p r.next
      ((fun cs => ⟨cs, [], p.tape.hand.token.line⟩) <$> Block.resolveAll p.file cs) := by
  have hc : Category.code.Complete (Inner.full : Inner σ ν) maxDepth k p.tape r cs :=
    Grammar.derived_complete (Inner.complete_within maxDepth) h (by rw [hr]; rfl)
  rw [← bind_pure ((fun cs => _) <$> _)]
  exact .last (Grammar.code_meets hc) fun b s => .expect_bind hr (.pure b)

end

end Scriptlet
