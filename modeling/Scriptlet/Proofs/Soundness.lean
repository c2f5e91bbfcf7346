import Scriptlet.Program
import Scriptlet.Proofs.Lookahead
import Scriptlet.Proofs.Resolution

/-!
# What the rules read is derived

Each rule of the grammar reads phrases of a category. What it reads is derived by the
grammar, and what it gives is the tree of the derivation with its names resolved, from
the table that the rule started with to the one that it leaves. The number of levels
that the rule has to go bounds the nesting of the phrase.

## The model

`Rule.Gives r p Q` says that `Q` holds of whatever `r` reads at the parser `p`, together
with the tape and the table left behind. It says nothing if `r` fails. The dispatch
tables are those of the language.

## What is proved

* `Inner.sound_within` — expressions, elements and commands, at any number of levels.
* `Grammar.program_gives` — programs.
-/

namespace Scriptlet

variable {σ ν α β : Type}

/-- Whatever the rule reads, `Q` holds of it and of the tape and the table it leaves. -/
def Rule.Gives (r : Rule σ α) (p : Parser σ) (Q : α → Tape → σ → Prop) : Prop :=
  p.dispatch = .standard → ∀ a q, r p = (.ok a, q) → ∃ m s, q = p.moved m s ∧ Q a m s

namespace Rule.Gives

variable {r : Rule σ α} {f : α → Rule σ β} {p : Parser σ} {a : α} {k : TokenKind}
  {Q R : α → Tape → σ → Prop} {S : β → Tape → σ → Prop}

theorem mono (h : Gives r p Q) (hQ : ∀ a m s, Q a m s → R a m s) : Gives r p R := by
  intro hp a q hr
  obtain ⟨m, s, hq, ha⟩ := h hp a q hr
  exact ⟨m, s, hq, hQ a m s ha⟩

theorem pure (h : Q a p.tape p.symbols) : Gives (pure a) p Q := by
  intro _ b q hr
  cases hr
  exact ⟨p.tape, p.symbols, rfl, h⟩

theorem bind (h : Gives r p Q) (hf : ∀ a m s, Q a m s → Gives (f a) (p.moved m s) S) :
    Gives (r >>= f) p S := by
  intro hp b q hb
  rcases hr : r p with ⟨a | d, q'⟩
  · rw [bind_apply_error hr] at hb
    cases hb
  · rw [bind_apply_ok hr] at hb
    obtain ⟨m, s, rfl, ha⟩ := h hp _ q' hr
    exact hf _ m s ha hp b q hb

/-! ### Failing -/

theorem of_error {d : Diagnostic} {q : Parser σ} (h : r p = (.error d, q)) : Gives r p Q := by
  intro _ a q' hr
  rw [h] at hr
  cases hr

theorem failAt {fault : Fault} {line : Nat} : Gives (failAt fault line) p Q := of_error rfl

theorem fail {d : Diagnostic} : Gives (fail d) p Q := of_error rfl

theorem unexpected : Gives unexpected p Q := of_error rfl

theorem tooDeep : Gives tooDeep p Q := of_error rfl

/-! ### Looking and reading tokens -/

variable {g : Token → Rule σ β} {b : Bool → Rule σ β}

theorem peek_bind (h : Gives (g p.tape.hand.token) p S) : Gives (peek >>= g) p S := h

theorem kind_bind {g : TokenKind → Rule σ β} (h : Gives (g p.tape.kind) p S) :
    Gives (kind >>= g) p S := h

theorem position_bind {g : Position → Rule σ β} (h : Gives (g p.position) p S) :
    Gives (position >>= g) p S := h

theorem dispatch_bind {g : Dispatch → Rule σ β} (h : Gives (g .standard) p S) :
    Gives (dispatch >>= g) p S := by
  intro hp b q hb
  exact h hp b q (by rwa [← hp])

theorem advance_bind (h : Gives (g p.tape.hand.token) (p.moved p.tape.next p.symbols) S) :
    Gives (advance >>= g) p S := by
  intro hp b q hb
  rw [bind_apply_ok (advance_eq p)] at hb
  exact h hp b q hb

theorem operator_bind {g : Nat → Rule σ β}
    (h : Gives (g p.tape.next.hand.reached) (p.moved p.tape.next p.symbols) S) :
    Gives (Grammar.operator >>= g) p S := by
  intro hp b q hb
  rw [bind_apply_ok (Grammar.operator_eq p)] at hb
  exact h hp b q hb

theorem expect_bind
    (h : p.tape.kind = k → Gives (g p.tape.hand.token) (p.moved p.tape.next p.symbols) S) :
    Gives (expect k >>= g) p S := by
  intro hp b q hb
  by_cases hk : p.tape.kind = k
  · rw [bind_apply_ok (expect_eq_of_kind hk)] at hb
    exact h hk hp b q hb
  · rw [bind_apply_error (expect_eq_of_kind_ne hk)] at hb
    cases hb

theorem accept_bind
    (h : p.tape.kind = k → Gives (b true) (p.moved p.tape.next p.symbols) S)
    (h' : p.tape.kind ≠ k → Gives (b false) p S) : Gives (accept k >>= b) p S := by
  intro hp c q hc
  by_cases hk : p.tape.kind = k
  · rw [bind_apply_ok (accept_eq_of_kind hk)] at hc
    exact h hk hp c q hc
  · rw [bind_apply_ok (accept_eq_of_kind_ne hk)] at hc
    exact h' hk hp c q hc

theorem parenthesized (h : Gives r (p.moved p.tape.next p.symbols) Q) :
    Gives (parenthesized r) p fun a r s =>
      p.tape.kind = .symbol .openParen ∧
        ∃ m, Q a m s ∧ m.kind = .symbol .closeParen ∧ r = m.next := by
  refine .expect_bind fun hopen => .bind h fun a m s ha => .expect_bind fun hclose => .pure ?_
  exact ⟨hopen, m, ha, hclose, rfl⟩

/-! ### Items with commas between them -/

section

variable {item : Rule σ α} {I : Nat → Parser σ → α → Tape → σ → Prop}
  {L : Nat → Parser σ → List α → Tape → σ → Prop}

/-- Items are given if the rounds behind the first one are. -/
theorem separated {rounds : Parser σ → Nat} (hI : ∀ j p, item.Gives p (I j p))
    (last : ∀ j p a m s, I j p a m s → L j p [a] m s)
    (cons : ∀ j p a m s as m' s', I j p a m s → m.kind = .symbol .comma →
      L (j + 1) (p.moved m.next s) as m' s' → L j p (a :: as) m' s') (j : Nat)
    (hrounds : ∀ q, (collectWithin (afterComma item) (rounds q)).Gives q fun as m s =>
      (as = [] ∧ m = q.tape ∧ s = q.symbols) ∨
        (q.tape.kind = .symbol .comma ∧ L (j + 1) (q.moved q.tape.next q.symbols) as m s)) :
    (Rule.separated item rounds).Gives p (L j p) := by
  refine .bind (hI j p) fun a m s ha => ?_
  refine .bind (hrounds (p.moved m s)) fun as m' s' has => .pure ?_
  rcases has with ⟨rfl, rfl, rfl⟩ | ⟨hcomma, has⟩
  · exact last _ _ _ _ _ ha
  · exact cons _ _ _ _ _ _ _ _ ha hcomma has

/-- The rounds that take a comma and an item. -/
theorem collectWithin_comma (hI : ∀ j p, item.Gives p (I j p))
    (last : ∀ j p a m s, I j p a m s → L j p [a] m s)
    (cons : ∀ j p a m s as m' s', I j p a m s → m.kind = .symbol .comma →
      L (j + 1) (p.moved m.next s) as m' s' → L j p (a :: as) m' s') (rounds j : Nat) :
    (collectWithin (afterComma item) rounds).Gives p fun as m s =>
      (as = [] ∧ m = p.tape ∧ s = p.symbols) ∨
        (p.tape.kind = .symbol .comma ∧ L j (p.moved p.tape.next p.symbols) as m s) := by
  induction rounds generalizing p j with
  | zero => exact .pure (.inl ⟨rfl, rfl, rfl⟩)
  | succ rounds ih =>
    rw [collectWithin_afterComma]
    refine .accept_bind (fun hcomma => ?_) fun _ => .pure (.inl ⟨rfl, rfl, rfl⟩)
    rw [if_pos rfl]
    exact (separated hI last cons j fun q => ih (j + 1)).mono fun as m s has => .inr ⟨hcomma, has⟩

theorem commaSeparated (hI : ∀ j p, item.Gives p (I j p))
    (last : ∀ j p a m s, I j p a m s → L j p [a] m s)
    (cons : ∀ j p a m s as m' s', I j p a m s → m.kind = .symbol .comma →
      L (j + 1) (p.moved m.next s) as m' s' → L j p (a :: as) m' s') (j : Nat) :
    (commaSeparated item).Gives p (L j p) :=
  separated hI last cons j fun q => collectWithin_comma hI last cons q.rounds (j + 1)

end

theorem itemsUntil {close : Symbol} {item : Rule σ α} {L : List α → Tape → σ → Prop}
    (h : (Rule.commaSeparated item).Gives p L) :
    (itemsUntil close item).Gives p fun as m s =>
      (as = [] ∧ m = p.tape ∧ s = p.symbols) ∨ L as m s := by
  refine .kind_bind ?_
  split
  · exact .pure (.inl ⟨rfl, rfl, rfl⟩)
  · exact h.mono fun as m s has => .inr has

/-! ### Nesting and names -/

theorem nested (h : Gives r { p with depth := p.depth + 1 } Q) : Gives (nested r) p Q := by
  intro hp a q hr
  unfold Rule.nested at hr
  split at hr
  · cases hr
  · rcases hq : r { p with depth := p.depth + 1 } with ⟨b, q'⟩
    rw [hq] at hr
    cases hr
    obtain ⟨m, s, rfl, ha⟩ := h hp a q' hq
    exact ⟨m, s, rfl, ha⟩

variable [Scoping σ ν]

theorem inScope (h : Gives r { p with symbols := Scoping.enter p.symbols } Q) :
    Gives (inScope r) p fun a m s => ∃ s', Q a m s' ∧ s = Scoping.leave s' := by
  intro hp a q hr
  unfold Rule.inScope at hr
  rcases hq : r { p with symbols := Scoping.enter p.symbols } with ⟨b, q'⟩
  rw [hq] at hr
  cases hr
  obtain ⟨m, s, rfl, ha⟩ := h hp a q' hq
  exact ⟨m, _, rfl, s, ha, rfl⟩

theorem resolve (t : Token) : Gives (resolve t) p fun v m s =>
    (Mention.ofToken t).resolve p.file p.symbols = .ok (v, p.symbols) ∧
      m = p.tape ∧ s = p.symbols := by
  intro _ v q hr
  obtain ⟨hv, rfl⟩ := Prod.mk.inj hr
  refine ⟨p.tape, p.symbols, rfl, ?_, rfl, rfl⟩
  exact (congrArg (Except.map (·, p.symbols)) hv).trans rfl

omit [Scoping σ ν] in
theorem keeping (ask : σ → String → Except Diagnostic (α × σ)) : Gives (keeping ask) p
    fun a m s => ask p.symbols p.file = .ok (a, s) ∧ m = p.tape := by
  intro _ a q hr
  cases h : ask p.symbols p.file with
  | error d =>
    rw [keeping_eq_of_error h] at hr
    cases hr
  | ok x =>
    rw [keeping_eq_of_ok h] at hr
    cases hr
    exact ⟨p.tape, x.2, rfl, rfl, rfl⟩

theorem declare (t : Token) (constant : Bool) (nullability : Nullability) (number : Nat) :
    Gives (declare t constant nullability) p fun v m s =>
      (Mention.declaredBy t constant nullability number).declare p.file p.symbols = .ok (v, s) ∧
        m = p.tape := by
  rw [declare_eq]
  exact keeping _

theorem declareLoop (t : Token) :
    Gives (declareLoop t) p fun v m s =>
      (Mention.ofToken t).declareLoop p.file p.symbols = .ok (v, s) ∧ m = p.tape := by
  rw [declareLoop_eq]
  exact keeping _

theorem withLoopVariable {t : Token} {P : σ → α → Tape → σ → Prop}
    (h : ∀ s, Gives r (p.moved p.tape s) (P s)) :
    Gives (withLoopVariable t r) p fun x m s => ∃ s₁ s₂,
      (Mention.ofToken t).declareLoop p.file (Scoping.enter p.symbols) = .ok (x.1, s₁) ∧
        P s₁ x.2 m s₂ ∧ s = Scoping.leave s₂ := by
  refine (inScope (Q := fun x m s => ∃ s₁,
    (Mention.ofToken t).declareLoop p.file (Scoping.enter p.symbols) = .ok (x.1, s₁) ∧
      P s₁ x.2 m s) ?_).mono ?_
  · refine .bind (declareLoop t) ?_
    rintro v m s ⟨hv, rfl⟩
    exact .bind (h s) fun a m s' ha => .pure ⟨s, hv, ha⟩
  · rintro x m s ⟨s₂, ⟨s₁, hv, ha⟩, rfl⟩
    exact ⟨s₁, s₂, hv, ha, rfl⟩

end Rule.Gives

/-! ### Phrases -/

section

variable [Scoping σ ν]

/-- A phrase of the category, nested at most `n` deep, stands on the tape up to `m`.
With its names resolved from the table of the parser on it is `t`, and `s` is the table
then. -/
def Category.Read (N : Category) (n : Nat) (p : Parser σ) (t : N.Resolved ν) (m : Tape)
    (s : σ) : Prop :=
  ∃ k x, k ≤ n ∧ Derives N k p.tape x m ∧ N.resolve p.file x p.symbols = .ok (t, s)

/-- The rules for phrases inside a phrase read what is derived. -/
structure Inner.Sound (inner : Inner σ ν) (n : Nat) : Prop where
  /-- Expressions. -/
  expression (p : Parser σ) : inner.expression.Gives p ((Category.expr .expression).Read n p)
  /-- Elements of lists. -/
  element (p : Parser σ) : inner.element.Gives p (Category.element.Read n p)
  /-- Commands. -/
  command (p : Parser σ) : inner.command.Gives p (Category.command.Read n p)

end

namespace Grammar

open Rule.Gives Resolving

variable [Scoping σ ν] {inner : Inner σ ν} {n : Nat} (p : Parser σ)

/-! ### Operators -/

/-- The rounds that take operations. -/
theorem operations_gives {l : Level} {operand : Rule σ (Expr ν)}
    (h : ∀ p, operand.Gives p ((Category.expr l.operand).Read n p)) (rounds : Nat)
    (left : Expr ν) :
    (Rule.growWithin (operation? l.op? operand) rounds left).Gives p fun t m s =>
      ∃ k x ops, k ≤ n ∧ Derives (.operations l) k p.tape x m ∧ x.length ≤ rounds ∧
        Expr.resolveOperations p.file x p.symbols = .ok (ops, s) ∧ t = left.operated ops := by
  induction rounds generalizing p left with
  | zero => exact .pure ⟨0, [], [], Nat.zero_le n, .noOperation, Nat.le_refl _, rfl, rfl⟩
  | succ rounds ih =>
    unfold Rule.growWithin operation?
    rw [bind_assoc]
    refine .kind_bind ?_
    split
    · rw [pure_bind]
      exact .pure ⟨0, [], [], Nat.zero_le n, .noOperation, Nat.zero_le _, rfl, rfl⟩
    next op hop =>
      rw [bind_assoc]
      refine .operator_bind ?_
      rw [bind_assoc]
      refine .bind (h _) ?_
      rintro right m s ⟨k, x, hk, hd, hr⟩
      rw [pure_bind]
      refine (ih _ _).mono ?_
      rintro t m' s' ⟨k', xs, ops, hk', hds, hlen, hrs, rfl⟩
      refine ⟨_, _, (op, right, _) :: ops, Nat.max_le.2 ⟨hk, hk'⟩, .operation hop hd hds,
        Nat.succ_le_succ hlen, ?_, rfl⟩
      exact bind_eq_ok.2 ⟨_, _, hr, bind_eq_ok.2 ⟨_, _, hrs, rfl⟩⟩

/-- Operands of a level with operations on them. -/
theorem level_gives {l : Level} {operand : Rule σ (Expr ν)}
    (h : ∀ p, operand.Gives p ((Category.expr l.operand).Read n p)) (rounds : Parser σ → Nat)
    (hrounds : l.chains = true ∨ ∀ p, rounds p = 1) :
    (operand >>= fun e => fun p => Rule.growWithin (operation? l.op? operand) (rounds p) e p).Gives
      p ((Category.expr (.level l)).Read n p) := by
  refine .bind (h p) ?_
  rintro e m s ⟨k, x, hk, hd, hr⟩
  refine mono (operations_gives _ h (rounds _) e) ?_
  rintro t m' s' ⟨k', xs, ops, hk', hds, hlen, hrs, rfl⟩
  refine ⟨_, _, Nat.max_le.2 ⟨hk, hk'⟩, .level hd hds (hrounds.imp_right fun h1 => ?_), ?_⟩
  · rwa [h1] at hlen
  · exact (congrFun (Expr.resolve_operated _ _ _) _).trans
      (bind_eq_ok.2 ⟨_, _, hr, bind_eq_ok.2 ⟨_, _, hrs, rfl⟩⟩)

theorem chain_gives {l : Level} {operand : Rule σ (Expr ν)} (hl : l.chains = true)
    (h : ∀ p, operand.Gives p ((Category.expr l.operand).Read n p)) :
    (chain l.op? operand).Gives p ((Category.expr (.level l)).Read n p) :=
  level_gives p h Parser.rounds (.inl hl)

theorem pair_gives {l : Level} {operand : Rule σ (Expr ν)}
    (h : ∀ p, operand.Gives p ((Category.expr l.operand).Read n p)) :
    (pair l.op? operand).Gives p ((Category.expr (.level l)).Read n p) := by
  rw [pair_eq]
  exact level_gives p h (fun _ => 1) (.inr fun _ => rfl)

/-! ### Operands -/

theorem constant_gives :
    (constant : Rule σ (Expr ν)).Gives p ((Category.expr .operand).Read n p) := by
  refine .advance_bind ?_
  split
  next value hv => exact .pure ⟨0, _, Nat.zero_le n, .constant hv, rfl⟩
  · exact .failAt

theorem call_gives (hi : inner.Sound n) :
    (call inner).Gives p ((Category.expr .operand).Read n p) := by
  refine .advance_bind ?_
  split
  · exact .failAt
  next function hf =>
    refine .bind (.parenthesized (hi.expression _)) ?_
    rintro e _ s ⟨hopen, m, ⟨k, x, hk, hd, hr⟩, hclose, rfl⟩
    exact .pure ⟨k, _, hk, .call hf hopen hd hclose, bind_eq_ok.2 ⟨_, _, hr, rfl⟩⟩

/-- The rounds that take subscripts. -/
theorem subscripts_gives (hi : inner.Sound n) (rounds : Nat) (base : Expr ν) :
    (Rule.growWithin (subscript? inner) rounds base).Gives p fun t m s =>
      ∃ subs, Category.subscripts.Read n p subs m s ∧ t = base.subscripted subs := by
  induction rounds generalizing p base with
  | zero => exact .pure ⟨[], ⟨0, [], Nat.zero_le n, .noSubscript, rfl⟩, rfl⟩
  | succ rounds ih =>
    unfold Rule.growWithin subscript?
    rw [bind_assoc]
    refine .kind_bind ?_
    split
    next hopen =>
      rw [bind_assoc]
      refine .operator_bind ?_
      rw [bind_assoc]
      refine .bind (hi.expression _) ?_
      rintro e m s ⟨k, x, hk, hd, hr⟩
      rw [bind_assoc]
      refine .expect_bind fun hclose => ?_
      rw [pure_bind]
      refine (ih _ _).mono ?_
      rintro t m' s' ⟨subs, ⟨k', xs, hk', hds, hrs⟩, rfl⟩
      refine ⟨(e, _) :: subs, ⟨_, _, Nat.max_le.2 ⟨hk, hk'⟩, .subscript hopen hd hclose hds, ?_⟩,
        rfl⟩
      exact bind_eq_ok.2 ⟨_, _, hr, bind_eq_ok.2 ⟨_, _, hrs, rfl⟩⟩
    · rw [pure_bind]
      exact .pure ⟨[], ⟨0, [], Nat.zero_le n, .noSubscript, rfl⟩, rfl⟩

theorem place_gives (hi : inner.Sound n) :
    (place inner).Gives p ((Category.expr .place).Read n p) := by
  refine .expect_bind fun hname => ?_
  refine .bind (Rule.Gives.resolve p.tape.hand.token) ?_
  rintro v m s ⟨hv, rfl, rfl⟩
  refine mono (subscripts_gives _ hi _ _) ?_
  rintro t m s ⟨subs, ⟨k, x, hk, hd, hr⟩, rfl⟩
  refine ⟨k, _, hk, .named hname hd, ?_⟩
  refine (congrFun (Expr.resolve_subscripted _ _ _) _).trans ?_
  exact bind_eq_ok.2 ⟨_, _, bind_eq_ok.2 ⟨_, _, hv, rfl⟩, bind_eq_ok.2 ⟨_, _, hr, rfl⟩⟩

theorem list_gives (hi : inner.Sound n) :
    (list inner).Gives p ((Category.expr .operand).Read n p) := by
  refine .expect_bind fun hopen => ?_
  refine .bind (.itemsUntil (.commaSeparated (I := fun _ => Category.element.Read n)
    (L := fun _ => Category.elements.Read n) (fun _ => hi.element) ?_ ?_ 0)) ?_
  · rintro - q e m s ⟨k, x, hk, hd, hr⟩
    exact ⟨k, [x], hk, .lastElement hd, bind_eq_ok.2 ⟨_, _, hr, rfl⟩⟩
  · rintro - q e m s es m' s' ⟨k, x, hk, hd, hr⟩ hcomma ⟨k', xs, hk', hds, hrs⟩
    exact ⟨_, x :: xs, Nat.max_le.2 ⟨hk, hk'⟩, .elements hd hcomma hds,
      bind_eq_ok.2 ⟨_, _, hr, bind_eq_ok.2 ⟨_, _, hrs, rfl⟩⟩⟩
  · rintro es m s (⟨rfl, rfl, rfl⟩ | ⟨k, xs, hk, hd, hr⟩)
    · refine .expect_bind fun hclose => .pure ?_
      exact ⟨0, _, Nat.zero_le n, .emptyList hopen hclose, rfl⟩
    · refine .expect_bind fun hclose => .pure ?_
      exact ⟨k, _, hk, .list hopen hd hclose, bind_eq_ok.2 ⟨_, _, hr, rfl⟩⟩

/-- Both expressions of an entry of a map. -/
theorem entry_gives (hi : inner.Sound n) :
    (entry inner).Gives p fun e m s => ∃ m' s',
      (Category.expr .expression).Read n p e.1 m' s' ∧ m'.kind = .symbol .colon ∧
      (Category.expr .expression).Read n (p.moved m'.next s') e.2 m s := by
  refine .bind (hi.expression p) ?_
  intro key m s hkey
  refine .expect_bind fun hcolon => .bind (hi.expression _) ?_
  intro value m' s' hvalue
  exact .pure ⟨m, s, hkey, hcolon, hvalue⟩

theorem map_gives (hi : inner.Sound n) :
    (map inner).Gives p ((Category.expr .operand).Read n p) := by
  refine .expect_bind fun hopen => ?_
  refine .bind (.itemsUntil (.commaSeparated
    (L := fun _ => Category.entries.Read n) (fun _ q => entry_gives q hi) ?_ ?_ 0)) ?_
  · rintro - q e m s ⟨m', s', ⟨k, key, hk, hd, hr⟩, hcolon, k', value, hk', hd', hr'⟩
    exact ⟨_, [(key, value)], Nat.max_le.2 ⟨hk, hk'⟩, .lastEntry hd hcolon hd',
      bind_eq_ok.2 ⟨_, _, hr, bind_eq_ok.2 ⟨_, _, hr', rfl⟩⟩⟩
  · rintro - q e m s es m'' s'' ⟨m', s', ⟨k, key, hk, hd, hr⟩, hcolon, k', value, hk', hd', hr'⟩
      hcomma ⟨k'', xs, hk'', hds, hrs⟩
    exact ⟨_, (key, value) :: xs, Nat.max_le.2 ⟨Nat.max_le.2 ⟨hk, hk'⟩, hk''⟩,
      .entries hd hcolon hd' hcomma hds, bind_eq_ok.2 ⟨_, _, hr,
        bind_eq_ok.2 ⟨_, _, hr', bind_eq_ok.2 ⟨_, _, hrs, rfl⟩⟩⟩⟩
  · rintro es m s (⟨rfl, rfl, rfl⟩ | ⟨k, xs, hk, hd, hr⟩)
    · refine .expect_bind fun hclose => .pure ?_
      exact ⟨0, _, Nat.zero_le n, .emptyMap hopen hclose, rfl⟩
    · refine .expect_bind fun hclose => .pure ?_
      exact ⟨k, _, hk, .map hopen hd hclose, bind_eq_ok.2 ⟨_, _, hr, rfl⟩⟩

theorem operand_gives (hi : inner.Sound n) :
    (operand inner).Gives p ((Category.expr .operand).Read n p) := by
  refine .dispatch_bind (.kind_bind ?_)
  split
  next form _ =>
    cases form with
    | constant => exact constant_gives p
    | call => exact call_gives p hi
    | list => exact list_gives p hi
    | map => exact map_gives p hi
    | place =>
      refine (place_gives p hi).mono ?_
      rintro t m s ⟨k, x, hk, hd, hr⟩
      exact ⟨k, x, hk, .place hd, hr⟩
  · exact .unexpected

/-! ### The levels -/

theorem primary_gives (hi : inner.Sound n) :
    (primary inner).Gives p ((Category.expr .primary).Read n p) := by
  refine .kind_bind ?_
  split
  next hopen =>
    refine (Rule.Gives.parenthesized (hi.expression _)).mono ?_
    rintro t _ s ⟨-, m, ⟨k, x, hk, hd, hr⟩, hclose, rfl⟩
    exact ⟨k, x, hk, .parenthesized hopen hd hclose, hr⟩
  · refine (operand_gives p hi).mono ?_
    rintro t m s ⟨k, x, hk, hd, hr⟩
    exact ⟨k, x, hk, .primary hd, hr⟩

theorem factor_gives (hi : inner.Sound n) :
    (factor inner).Gives p ((Category.expr .factor).Read n p) := by
  rw [factor_eq]
  refine .bind (primary_gives p hi) ?_
  rintro t m s ⟨k, x, hk, hd, hr⟩
  refine .kind_bind ?_
  split
  · exact .pure ⟨k, x, hk, .factor hd, hr⟩
  next op hop =>
    refine .operator_bind (.pure ?_)
    exact ⟨k, _, hk, .postfixed hd hop, bind_eq_ok.2 ⟨_, _, hr, rfl⟩⟩

theorem signed_gives (hi : inner.Sound n) :
    (signed inner).Gives p ((Category.expr .signed).Read n p) := by
  refine .kind_bind ?_
  split
  · refine (factor_gives p hi).mono ?_
    rintro t m s ⟨k, x, hk, hd, hr⟩
    exact ⟨k, x, hk, .unsigned hd, hr⟩
  next op hop =>
    refine .operator_bind (.bind (factor_gives _ hi) ?_)
    rintro t m s ⟨k, x, hk, hd, hr⟩
    exact .pure ⟨k, _, hk, .signed hop hd, bind_eq_ok.2 ⟨_, _, hr, rfl⟩⟩

theorem fallback_gives (hi : inner.Sound n) :
    (fallback inner).Gives p ((Category.expr (.level .fallback)).Read n p) := by
  have product (p : Parser σ) :
      (product inner).Gives p ((Category.expr (.level .multiplicative)).Read n p) :=
    chain_gives (l := .multiplicative) p rfl fun p => signed_gives p hi
  have sum (p : Parser σ) :
      (sum inner).Gives p ((Category.expr (.level .additive)).Read n p) :=
    chain_gives (l := .additive) p rfl product
  have comparison (p : Parser σ) :
      (comparison inner).Gives p ((Category.expr (.level .relational)).Read n p) :=
    pair_gives (l := .relational) p sum
  have condition (p : Parser σ) :
      (condition inner).Gives p ((Category.expr (.level .logical)).Read n p) :=
    chain_gives (l := .logical) p rfl comparison
  exact pair_gives (l := .fallback) p condition

/-! ### Elements of lists -/

theorem loopHeader_gives (hi : inner.Sound n) :
    (loopHeader inner).Gives p fun x r s =>
      p.tape.kind = .symbol .openParen ∧ p.tape.next.kind = .name ∧
        p.tape.next.next.kind = .keyword .inWord ∧ x.1 = p.tape.next.hand.token ∧
        ∃ m, (Category.expr .expression).Read n
            (p.moved p.tape.next.next.next p.symbols) x.2 m s ∧
          m.kind = .symbol .closeParen ∧ r = m.next := by
  refine (Rule.Gives.parenthesized (Q := fun x m s => p.tape.next.kind = .name ∧
    p.tape.next.next.kind = .keyword .inWord ∧ x.1 = p.tape.next.hand.token ∧
    (Category.expr .expression).Read n (p.moved p.tape.next.next.next p.symbols) x.2 m s)
    ?_).mono ?_
  · refine .expect_bind fun hname => .expect_bind fun hin => .bind (hi.expression _) ?_
    exact fun e m s he => .pure ⟨hname, hin, rfl, he⟩
  · rintro x _ s ⟨hopen, m, ⟨hname, hin, hx, he⟩, hclose, rfl⟩
    exact ⟨hopen, hname, hin, hx, m, he, hclose, rfl⟩

theorem clause_gives (hi : inner.Sound n) :
    (clause inner).Gives p (Category.element.Read (n + 1) p) := by
  refine .kind_bind ?_
  split
  next hhead =>
    refine .advance_bind (.bind (hi.expression _) ?_)
    rintro e m s ⟨k, x, hk, hd, hr⟩
    exact .pure ⟨k + 1, _, Nat.succ_le_succ hk, .spread hhead hd, bind_eq_ok.2 ⟨_, _, hr, rfl⟩⟩
  next hhead =>
    refine .advance_bind (.bind (.parenthesized (hi.expression _)) ?_)
    rintro c _ s ⟨hopen, m, ⟨k, x, hk, hd, hr⟩, hclose, rfl⟩
    refine .bind (hi.element _) ?_
    rintro e m' s' ⟨k', x', hk', hd', hr'⟩
    refine .accept_bind (fun helse => ?_) fun helse => ?_
    · refine .bind (hi.element _) ?_
      rintro e' m'' s'' ⟨k'', x'', hk'', hd'', hr''⟩
      refine .pure ⟨_, _, Nat.succ_le_succ (Nat.max_le.2 ⟨hk, Nat.max_le.2 ⟨hk', hk''⟩⟩),
        .elementIfElse hhead hopen hd hclose hd' helse hd'', ?_⟩
      exact bind_eq_ok.2 ⟨_, _, hr, bind_eq_ok.2 ⟨_, _, hr', bind_eq_ok.2 ⟨_, _, hr'', rfl⟩⟩⟩
    · refine .pure ⟨_, _, Nat.succ_le_succ (Nat.max_le.2 ⟨hk, hk'⟩),
        .elementIf hhead hopen hd hclose hd' helse, ?_⟩
      exact bind_eq_ok.2 ⟨_, _, hr, bind_eq_ok.2 ⟨_, _, hr', rfl⟩⟩
  next hhead =>
    refine .advance_bind (.bind (loopHeader_gives _ hi) ?_)
    rintro ⟨name, c⟩ _ s ⟨hopen, hname, hin, rfl, m, ⟨k, x, hk, hd, hr⟩, hclose, rfl⟩
    refine .bind (.withLoopVariable fun s' => hi.element _) ?_
    rintro ⟨v, e⟩ m' _ ⟨s₁, s₂, hv, ⟨k', x', hk', hd', hr'⟩, rfl⟩
    refine .pure ⟨_, _, Nat.succ_le_succ (Nat.max_le.2 ⟨hk, hk'⟩),
      .elementFor hhead hopen hname hin hd hclose hd', ?_⟩
    exact Element.resolve_each_eq_ok.2 ⟨_, _, _, _, _, _, hr, hv, hr', rfl, rfl⟩
  · refine .bind (hi.expression _) ?_
    rintro e m s ⟨k, x, hk, hd, hr⟩
    exact .pure ⟨k + 1, _, Nat.succ_le_succ hk, .single hd, bind_eq_ok.2 ⟨_, _, hr, rfl⟩⟩

/-! ### Commands -/

/-- The rounds that take commands. -/
theorem commands_gives (hi : inner.Sound n) (rounds : Nat) :
    (Rule.collectWithin (command? inner) rounds).Gives p (Category.code.Read n p) := by
  induction rounds generalizing p with
  | zero => exact .pure ⟨0, [], Nat.zero_le n, .noCode, rfl⟩
  | succ rounds ih =>
    rw [collectWithin_command?]
    refine .dispatch_bind (.kind_bind ?_)
    split
    · refine .bind (hi.command _) ?_
      rintro c m s ⟨k, x, hk, hd, hr⟩
      refine .bind (ih _) ?_
      rintro cs m' s' ⟨k', xs, hk', hds, hrs⟩
      exact .pure ⟨_, x :: xs, Nat.max_le.2 ⟨hk, hk'⟩, .code hd hds,
        bind_eq_ok.2 ⟨_, _, hr, bind_eq_ok.2 ⟨_, _, hrs, rfl⟩⟩⟩
    · exact .pure ⟨0, [], Nat.zero_le n, .noCode, rfl⟩

theorem code_gives (hi : inner.Sound n) :
    (code inner).Gives p fun b m s => ∃ cs, Category.code.Read n p cs m s ∧
      b = ⟨cs, [], p.tape.hand.token.line⟩ :=
  .peek_bind (.bind (commands_gives p hi _) fun cs _ _ hcs => .pure ⟨cs, hcs, rfl⟩)

theorem body_gives (hi : inner.Sound n) :
    (body inner).Gives p (Category.body.Read n p) := by
  refine .kind_bind ?_
  split
  next hopen =>
    refine .advance_bind (.bind (.inScope (code_gives _ hi)) ?_)
    rintro b m _ ⟨s, ⟨cs, ⟨k, xs, hk, hd, hr⟩, rfl⟩, rfl⟩
    refine .expect_bind fun hclose => .pure ?_
    exact ⟨k, _, hk, .braced hopen hd hclose,
      Command.resolve_braces_eq_ok.2 ⟨_, _, hr, rfl, rfl⟩⟩
  next hopen =>
    refine (hi.command p).mono ?_
    rintro c m s ⟨k, x, hk, hd, hr⟩
    exact ⟨k, x, hk, .unbraced hopen hd, hr⟩

theorem print_gives (hi : inner.Sound n) (hhead : p.tape.kind = .keyword .printWord) :
    (print inner).Gives p (Category.command.Read (n + 1) p) := by
  refine .advance_bind (.bind (.parenthesized (Q := fun e m s =>
    (e = none ∧ m = p.tape.next.next ∧ s = p.symbols) ∨
      ∃ e', e = some e' ∧
        (Category.expr .expression).Read n (p.moved p.tape.next.next p.symbols) e' m s) ?_) ?_)
  · refine .dispatch_bind (.kind_bind ?_)
    split
    · exact .bind (hi.expression _) fun e m s he => .pure (.inr ⟨e, rfl, he⟩)
    · exact .pure (.inl ⟨rfl, rfl, rfl⟩)
  · rintro e _ s ⟨hopen, m, ⟨rfl, rfl, rfl⟩ | ⟨e', rfl, k, x, hk, hd, hr⟩, hclose, rfl⟩
    · refine .expect_bind fun hstop => .pure ?_
      exact ⟨1, _, Nat.le_add_left 1 n, .printLine hhead hopen hclose hstop, rfl⟩
    · refine .expect_bind fun hstop => .pure ?_
      exact ⟨k + 1, _, Nat.succ_le_succ hk, .print hhead hopen hd hclose hstop,
        bind_eq_ok.2 ⟨_, _, hr, rfl⟩⟩

theorem assertion_gives (hi : inner.Sound n) (hhead : p.tape.kind = .keyword .assertWord) :
    (assertion inner).Gives p (Category.command.Read (n + 1) p) := by
  refine .advance_bind (.bind (.parenthesized (Q := fun x r s => ∃ m s',
    (Category.expr .expression).Read n (p.moved p.tape.next.next p.symbols) x.1 m s' ∧
      ((x.2 = none ∧ r = m ∧ s = s') ∨ ∃ e, x.2 = some e ∧ m.kind = .symbol .comma ∧
        (Category.expr .expression).Read n (p.moved m.next s') e r s)) ?_) ?_)
  · refine .bind (hi.expression _) fun c m s hc => ?_
    refine .accept_bind (fun hcomma => ?_) fun _ => .pure ⟨m, s, hc, .inl ⟨rfl, rfl, rfl⟩⟩
    exact .bind (hi.expression _) fun e m' s' he =>
      .pure ⟨m, s, hc, .inr ⟨e, rfl, hcomma, he⟩⟩
  · rintro ⟨c, e⟩ _ s ⟨hopen, r, ⟨m, s', ⟨k, x, hk, hd, hr⟩, he⟩, hclose, rfl⟩
    rcases he with ⟨rfl, rfl, rfl⟩ | ⟨e', rfl, hcomma, k', x', hk', hd', hr'⟩
    · refine .expect_bind fun hstop => .pure ?_
      exact ⟨k + 1, _, Nat.succ_le_succ hk, .assert hhead hopen hd hclose hstop,
        bind_eq_ok.2 ⟨_, _, hr, rfl⟩⟩
    · refine .expect_bind fun hstop => .pure ?_
      exact ⟨_, _, Nat.succ_le_succ (Nat.max_le.2 ⟨hk, hk'⟩),
        .assertMessage hhead hopen hd hcomma hd' hclose hstop,
        bind_eq_ok.2 ⟨_, _, hr, bind_eq_ok.2 ⟨_, _, hr', rfl⟩⟩⟩

theorem conditional_gives (hi : inner.Sound n) (hhead : p.tape.kind = .keyword .ifWord) :
    (conditional inner).Gives p (Category.command.Read (n + 1) p) := by
  refine .advance_bind (.bind (.parenthesized (hi.expression _)) ?_)
  rintro c _ s ⟨hopen, m, ⟨k, x, hk, hd, hr⟩, hclose, rfl⟩
  refine .bind (body_gives _ hi) ?_
  rintro b m' s' ⟨k', x', hk', hd', hr'⟩
  refine .accept_bind (fun helse => ?_) fun helse => ?_
  · refine .bind (body_gives _ hi) ?_
    rintro b' m'' s'' ⟨k'', x'', hk'', hd'', hr''⟩
    refine .pure ⟨_, _, Nat.succ_le_succ (Nat.max_le.2 ⟨hk, Nat.max_le.2 ⟨hk', hk''⟩⟩),
      .conditionalElse hhead hopen hd hclose hd' helse hd'', ?_⟩
    exact bind_eq_ok.2 ⟨_, _, hr, bind_eq_ok.2 ⟨_, _, hr', bind_eq_ok.2 ⟨_, _, hr'', rfl⟩⟩⟩
  · refine .pure ⟨_, _, Nat.succ_le_succ (Nat.max_le.2 ⟨hk, hk'⟩),
      .conditional hhead hopen hd hclose hd' helse, ?_⟩
    exact bind_eq_ok.2 ⟨_, _, hr, bind_eq_ok.2 ⟨_, _, hr', rfl⟩⟩

theorem whileLoop_gives (hi : inner.Sound n) (hhead : p.tape.kind = .keyword .whileWord) :
    (whileLoop inner).Gives p (Category.command.Read (n + 1) p) := by
  refine .advance_bind (.bind (.parenthesized (hi.expression _)) ?_)
  rintro c _ s ⟨hopen, m, ⟨k, x, hk, hd, hr⟩, hclose, rfl⟩
  refine .bind (body_gives _ hi) ?_
  rintro b m' s' ⟨k', x', hk', hd', hr'⟩
  exact .pure ⟨_, _, Nat.succ_le_succ (Nat.max_le.2 ⟨hk, hk'⟩),
    .whileLoop hhead hopen hd hclose hd',
    bind_eq_ok.2 ⟨_, _, hr, bind_eq_ok.2 ⟨_, _, hr', rfl⟩⟩⟩

theorem doWhileLoop_gives (hi : inner.Sound n) (hhead : p.tape.kind = .keyword .doWord) :
    (doWhileLoop inner).Gives p (Category.command.Read (n + 1) p) := by
  refine .advance_bind (.bind (body_gives _ hi) ?_)
  rintro b m s ⟨k, x, hk, hd, hr⟩
  refine .expect_bind fun hwhile => .bind (.parenthesized (hi.expression _)) ?_
  rintro c _ s' ⟨hopen, m', ⟨k', x', hk', hd', hr'⟩, hclose, rfl⟩
  refine .expect_bind fun hstop => .pure ?_
  exact ⟨_, _, Nat.succ_le_succ (Nat.max_le.2 ⟨hk, hk'⟩),
    .doWhileLoop hhead hd hwhile hopen hd' hclose hstop,
    bind_eq_ok.2 ⟨_, _, hr, bind_eq_ok.2 ⟨_, _, hr', rfl⟩⟩⟩

theorem forLoop_gives (hi : inner.Sound n) (hhead : p.tape.kind = .keyword .forWord) :
    (forLoop inner).Gives p (Category.command.Read (n + 1) p) := by
  refine .advance_bind (.bind (loopHeader_gives _ hi) ?_)
  rintro ⟨name, c⟩ _ s ⟨hopen, hname, hin, rfl, m, ⟨k, x, hk, hd, hr⟩, hclose, rfl⟩
  refine .bind (.withLoopVariable fun s' => body_gives _ hi) ?_
  rintro ⟨v, b⟩ m' _ ⟨s₁, s₂, hv, ⟨k', x', hk', hd', hr'⟩, rfl⟩
  refine .pure ⟨_, _, Nat.succ_le_succ (Nat.max_le.2 ⟨hk, hk'⟩),
    .forLoop hhead hopen hname hin hd hclose hd', ?_⟩
  exact Command.resolve_each_eq_ok.2 ⟨_, _, _, _, _, _, hr, hv, hr', rfl, rfl⟩

/-! ### Declarations -/

theorem declarator_gives (hi : inner.Sound n) (constant : Bool) (nullability : Nullability)
    (number : Nat) :
    (declarator inner constant nullability).Gives p
      ((Category.declarator constant nullability number).Read n p) := by
  refine .expect_bind fun hname => .bind (.declare _ constant nullability number) ?_
  rintro v m s ⟨hv, rfl⟩
  refine .accept_bind (fun hassign => ?_) fun _ => ?_
  · refine .bind (hi.expression _) ?_
    rintro e m s' ⟨k, x, hk, hd, hr⟩
    exact .pure ⟨k, _, hk, .initialized hname hassign hd,
      bind_eq_ok.2 ⟨_, _, hv, bind_eq_ok.2 ⟨_, _, hr, rfl⟩⟩⟩
  · exact .pure ⟨0, _, Nat.zero_le n, .declarator hname, bind_eq_ok.2 ⟨_, _, hv, rfl⟩⟩

theorem declarators_gives (hi : inner.Sound n) (constant : Bool) (nullability : Nullability) :
    (Rule.commaSeparated (declarator inner constant nullability)).Gives p
      ((Category.declarators constant nullability 0).Read n p) := by
  refine .commaSeparated (I := fun j => (Category.declarator constant nullability j).Read n)
    (L := fun j => (Category.declarators constant nullability j).Read n)
    (fun j q => declarator_gives q hi constant nullability j) ?_ ?_ 0
  · rintro j q d m s ⟨k, x, hk, hd, hr⟩
    exact ⟨k, [x], hk, .lastDeclarator hd, bind_eq_ok.2 ⟨_, _, hr, rfl⟩⟩
  · rintro j q d m s ds m' s' ⟨k, x, hk, hd, hr⟩ hcomma ⟨k', xs, hk', hds, hrs⟩
    exact ⟨_, x :: xs, Nat.max_le.2 ⟨hk, hk'⟩, .declarators hd hcomma hds,
      bind_eq_ok.2 ⟨_, _, hr, bind_eq_ok.2 ⟨_, _, hrs, rfl⟩⟩⟩

theorem varAfter_gives {i : Tape} (hp : p.tape = i.next)
    (hhead : i.kind = .keyword .finalWord ∨ i.kind = .keyword .varWord) :
    (varAfter (i.kind = .keyword .finalWord) : Rule σ Unit).Gives p fun _ m s =>
      s = p.symbols ∧ ∃ m', i.Optional (.keyword .finalWord) (i.kind = .keyword .finalWord) m' ∧
        m'.kind = .keyword .varWord ∧ m = m'.next := by
  rcases hhead with h | h
  · simp only [h, decide_true]
    refine .expect_bind fun hvar => .pure ⟨rfl, i.next, ⟨h, rfl⟩, ?_, ?_⟩
    · rwa [hp] at hvar
    · rw [← hp]
      rfl
  · simp only [h, reduceCtorEq, TokenKind.keyword.injEq, decide_false]
    exact .pure ⟨rfl, i, rfl, h, hp⟩

theorem nullability_gives :
    (nullability : Rule σ Nullability).Gives p fun a m s => s = p.symbols ∧
      ∃ marked, p.tape.Optional (.symbol .nullable) marked m ∧ a = .ofMark marked := by
  refine .accept_bind (fun hmark => ?_) fun _ => ?_
  · exact .pure ⟨rfl, true, ⟨hmark, rfl⟩, rfl⟩
  · exact .pure ⟨rfl, false, rfl, rfl⟩

theorem declaration_gives (hi : inner.Sound n)
    (hhead : p.tape.kind = .keyword .finalWord ∨ p.tape.kind = .keyword .varWord) :
    (declaration inner).Gives p (Category.command.Read (n + 1) p) := by
  refine .advance_bind (.bind (varAfter_gives (i := p.tape) _ rfl hhead) ?_)
  rintro - _ _ ⟨rfl, m, hfinal, hvar, rfl⟩
  refine .bind (nullability_gives _) ?_
  rintro _ m' _ ⟨rfl, marked, hmark, rfl⟩
  refine .bind (declarators_gives _ hi _ _) ?_
  rintro ds r s ⟨k, xs, hk, hd, hr⟩
  refine .expect_bind fun hstop => .pure ?_
  exact ⟨k + 1, _, Nat.succ_le_succ hk, .declaration hfinal hvar hmark hd hstop,
    hd.resolve_declaration_eq_ok.2 ⟨_, hr, rfl⟩⟩

/-! ### Assignments -/

theorem targetOf_eq_ok {parenthesized : Bool} {e : Expr ν} {target : Target ν}
    (h : targetOf parenthesized e = .ok target) :
    parenthesized = false ∧ e.target? = some target := by
  unfold targetOf at h
  cases parenthesized <;> split at h <;> simp_all

theorem assignment_gives (hi : inner.Sound n) :
    (assignment inner).Gives p (Category.command.Read (n + 1) p) := by
  refine .peek_bind (.bind (hi.expression _) ?_)
  rintro t m s ⟨k, x, hk, hd, hr⟩
  refine .position_bind (.accept_bind (fun hassign => ?_) fun _ => ?_)
  · rw [if_pos rfl]
    split
    · exact .fail
    next target htarget =>
      obtain ⟨hopen, ht⟩ := targetOf_eq_ok htarget
      obtain ⟨target', ht'⟩ : ∃ target', x.target? = some target' := by
        rw [← Option.ne_none_iff_exists']
        intro hx
        simp [Expr.target?_resolve _ hr hx] at ht
      obtain ⟨k', hk', hplace⟩ := hd.place_of_target ht' (of_decide_eq_false hopen)
      refine .bind (hi.expression _) ?_
      rintro e m' s' ⟨k'', x', hk'', hd', hr'⟩
      refine .expect_bind fun hstop => .pure ⟨_, _,
        Nat.succ_le_succ (Nat.max_le.2 ⟨Nat.le_trans hk' hk, hk''⟩),
        .assignment hplace ht' hassign hd' hstop, ?_⟩
      exact bind_eq_ok.2 ⟨_, _, Target.resolve_ok _ hr ht' ht, bind_eq_ok.2 ⟨_, _, hr', rfl⟩⟩
  · refine .expect_bind fun hstop => .pure ?_
    exact ⟨k + 1, _, Nat.succ_le_succ hk, .effect hd hstop, bind_eq_ok.2 ⟨_, _, hr, rfl⟩⟩

/-! ### Choosing -/

theorem anyCommand_gives (hi : inner.Sound n) :
    (anyCommand inner).Gives p (Category.command.Read (n + 1) p) := by
  refine .dispatch_bind (.kind_bind ?_)
  split
  next form hform =>
    simp only [Dispatch.standard] at hform
    unfold Dispatch.standardCommand? at hform
    split at hform <;> cases hform
    next hhead => exact declaration_gives p hi (.inl hhead)
    next hhead => exact declaration_gives p hi (.inr hhead)
    next hhead => exact print_gives p hi hhead
    next hhead => exact assertion_gives p hi hhead
    next hhead => exact conditional_gives p hi hhead
    next hhead => exact whileLoop_gives p hi hhead
    next hhead => exact doWhileLoop_gives p hi hhead
    next hhead => exact forLoop_gives p hi hhead
  · split
    · exact assignment_gives p hi
    · exact .unexpected

end Grammar

section

variable [Scoping σ ν]

/-! ### Any number of levels -/

/-- Expressions, elements and commands read with `n` levels to go are derived, and nested
at most `n` deep. -/
theorem Inner.sound_within (n : Nat) : (Inner.within n : Inner σ ν).Sound n := by
  induction n with
  | zero => exact ⟨fun _ => .tooDeep, fun _ => .tooDeep, fun _ => .tooDeep⟩
  | succ n ih =>
    refine ⟨fun p => Rule.Gives.nested (r := Grammar.fallback _) ?_,
      fun p => Rule.Gives.nested (r := Grammar.clause _) (Grammar.clause_gives _ ih),
      fun p => Rule.Gives.nested (r := Grammar.anyCommand _) (Grammar.anyCommand_gives _ ih)⟩
    refine (Grammar.fallback_gives _ ih).mono ?_
    rintro t m s ⟨k, x, hk, hd, hr⟩
    exact ⟨k + 1, x, Nat.succ_le_succ hk, .expression hd, hr⟩

/-- A program that is read is derived up to the end of the input. -/
theorem Grammar.program_gives (p : Parser σ) :
    (Grammar.program : Rule σ (Block ν)).Gives p fun b m s => ∃ cs r,
      Category.code.Read maxDepth p cs r s ∧ r.kind = .endOfInput ∧ m = r.next ∧
        b = ⟨cs, [], p.tape.hand.token.line⟩ := by
  refine .bind (Grammar.code_gives p (Inner.sound_within maxDepth)) ?_
  rintro _ m s ⟨cs, hcs, rfl⟩
  exact .expect_bind fun hend => .pure ⟨cs, m, hcs, hend, rfl, rfl⟩

end

end Scriptlet
