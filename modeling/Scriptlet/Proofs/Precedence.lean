import Mathlib.Data.List.Induction
import Scriptlet.Proofs.Completeness
import Scriptlet.Proofs.Reading
import Scriptlet.Proofs.Targets

/-!
# Operators and their precedence

The rules for expressions are stacked, one for each level of operators, and no rule sees
more than its own. What they make of a row of operands is said here without them: an
operator-precedence parser takes the operators one after the other, and puts each into the
tree of what stands before it.

An operator climbs down the right edge of that tree, past the operators that bind looser.
Where it stops, what is below becomes its left operand. If it stops at an operator of its own
level, and the level is one on which operators do not chain, it fits nowhere.

## The model

`Expr.byPrecedence` is that parser. It gives the tree of the operators that it took, and the
operators that it left, from the first that fits nowhere. `Expr.climb b` is the same parser
kept to operators that bind at least as tightly as `b`, and `Rule.Climbs r b` says that the
rule `r` does what it does. The operands are atoms: literals, and names that are known.

## What is proved

* `Grammar.fallback_climbs` — the rules of the levels, stacked, do what the operator-precedence
  parser does.
* `Expr.byPrecedence_legal` — an operator fits nowhere exactly if it is a second `??`, or a
  comparison with no `&&`, `||` or `??` between it and the comparison before it.
* `Grammar.command_of_operations` — a row of operands as a command.
-/

namespace Scriptlet

variable {σ ν : Type}

/-! ### The operator-precedence parser -/

/-- An operator with its right operand and the line of its node. -/
abbrev Operation (ν : Type) : Type := BinaryOp × Expr ν × Nat

/-- How tightly the operators of a level bind. -/
def Level.tightness : Level → Nat
  | fallback => 0
  | logical => 1
  | relational => 2
  | additive => 3
  | multiplicative => 4

theorem Level.tightness_inj {l l' : Level} : l.tightness = l'.tightness ↔ l = l' := by
  cases l <;> cases l' <;> simp [tightness]

/-- How tightly an operation binds. -/
def Operation.tightness (o : Operation ν) : Nat := o.1.level.tightness

namespace Expr

/-- The tree with an operation put into its right edge: below the operators that bind looser,
and above the rest. Nothing, if that would be above an operator of the same level and the
level does not chain. -/
def extended (o : Operation ν) : Expr ν → Option (Expr ν)
  | binary op left right line =>
    if op.level.tightness < o.tightness then
      (right.extended o).map fun right => binary op left right line
    else if op.level = o.1.level ∧ o.1.level.chains = false then none
    else some (binary o.1 (binary op left right line) o.2.1 o.2.2)
  | e => some (binary o.1 e o.2.1 o.2.2)

/-- The tree of an operand and the operations behind it, and those that are left, from the
first that fits nowhere. -/
def byPrecedence : Expr ν → List (Operation ν) → Expr ν × List (Operation ν)
  | e, [] => (e, [])
  | e, o :: ops =>
    match e.extended o with
    | none => (e, o :: ops)
    | some e => e.byPrecedence ops

/-- The tree of an operand and the operations behind it up to the first that binds looser
than `b`, and those that are left. -/
def climb (b : Nat) : Expr ν → List (Operation ν) → Expr ν × List (Operation ν)
  | e, [] => (e, [])
  | e, o :: ops =>
    if b ≤ o.tightness then
      match e.extended o with
      | none => (e, o :: ops)
      | some e => e.climb b ops
    else (e, o :: ops)

theorem climb_zero (e : Expr ν) (ops : List (Operation ν)) :
    e.climb 0 ops = e.byPrecedence ops := by
  induction ops generalizing e with
  | nil => rfl
  | cons o ops ih =>
    simp only [climb, byPrecedence, Nat.zero_le, if_true]
    cases e.extended o with
    | none => rfl
    | some e => exact ih e

/-- An operation that is looser or fits nowhere is left, with all behind it. -/
theorem climb_stop {b : Nat} {e : Expr ν} {ops : List (Operation ν)}
    (h : ∀ o ∈ ops.head?, b ≤ o.tightness → e.extended o = none) : e.climb b ops = (e, ops) := by
  cases ops with
  | nil => rfl
  | cons o ops =>
    unfold climb
    split
    next hb => rw [h o rfl hb]
    · rfl

/-- The first operation that is left is looser or fits nowhere. -/
theorem extended_of_climb (b : Nat) (e : Expr ν) (ops : List (Operation ν)) :
    ∀ o ∈ (e.climb b ops).2.head?, b ≤ o.tightness → (e.climb b ops).1.extended o = none := by
  induction ops generalizing e with
  | nil => nofun
  | cons o ops ih =>
    unfold climb
    by_cases hb : b ≤ o.tightness
    · rw [if_pos hb]
      cases he : e.extended o with
      | none =>
        rintro _ ⟨⟩ -
        exact he
      | some e => exact ih e
    · rw [if_neg hb]
      rintro _ ⟨⟩ h
      exact absurd h hb

/-- What fits nowhere in a right operand fits nowhere in the tree. -/
theorem extended_of_climb_operand {b : Nat} {op : BinaryOp} (hop : op.level.tightness = b)
    (left e : Expr ν) (line : Nat) (ops : List (Operation ν)) :
    ∀ o ∈ (e.climb (b + 1) ops).2.head?, b + 1 ≤ o.tightness →
      (binary op left (e.climb (b + 1) ops).1 line).extended o = none := by
  intro o ho hb
  rw [extended, if_pos (by omega), extended_of_climb (b + 1) e ops o ho hb, Option.map_none]

/-- What is left is the end of what was there. -/
theorem climb_suffix (b : Nat) (e : Expr ν) (ops : List (Operation ν)) :
    (e.climb b ops).2 <:+ ops := by
  induction ops generalizing e with
  | nil => exact List.suffix_refl []
  | cons o ops ih =>
    unfold climb
    split
    · split
      · exact List.suffix_refl _
      next e' _ => exact (ih e').trans (List.suffix_cons o ops)
    · exact List.suffix_refl _

/-- The tighter operations may be put into the operand first. -/
theorem climb_operand (b : Nat) (e : Expr ν) (ops : List (Operation ν)) :
    e.climb b ops = (e.climb (b + 1) ops).1.climb b (e.climb (b + 1) ops).2 := by
  induction ops generalizing e with
  | nil => rfl
  | cons o ops ih =>
    by_cases hb : b + 1 ≤ o.tightness
    · simp only [climb, hb, Nat.le_of_succ_le hb, if_true]
      cases he : e.extended o with
      | none => simp only [climb, Nat.le_of_succ_le hb, he, if_true]
      | some e' => exact ih e'
    · simp only [climb, hb, if_false]

/-- So they may be put into the right operand of an operator that is looser. -/
theorem climb_binary {b : Nat} {op : BinaryOp} (hop : op.level.tightness = b) (left e : Expr ν)
    (line : Nat) (ops : List (Operation ν)) :
    (binary op left e line).climb b ops =
      (binary op left (e.climb (b + 1) ops).1 line).climb b (e.climb (b + 1) ops).2 := by
  induction ops generalizing e with
  | nil => rfl
  | cons o ops ih =>
    by_cases hb : b + 1 ≤ o.tightness
    · have hop' : op.level.tightness < o.tightness := by omega
      simp only [climb, extended, hb, hop', Nat.le_of_succ_le hb, if_true]
      cases he : e.extended o with
      | none =>
        simp only [Option.map_none, climb, extended, hop', Nat.le_of_succ_le hb, he, if_true]
      | some e' => exact ih e'
    · have hclimb : e.climb (b + 1) (o :: ops) = (e, o :: ops) := by
        rw [climb, if_neg hb]
      rw [hclimb]

/-- No operator at the root binds looser than `b`. -/
def Tight (b : Nat) : Expr ν → Prop
  | binary op _ _ _ => b ≤ op.level.tightness
  | _ => True

/-- Above what binds tighter an operation becomes the root. -/
theorem extended_of_tight {e : Expr ν} {o : Operation ν} (he : e.Tight o.tightness)
    (ho : o.1.level.chains = true ∨ e.Tight (o.tightness + 1)) :
    e.extended o = some (binary o.1 e o.2.1 o.2.2) := by
  cases e with
  | binary op left right line =>
    have hop : o.tightness ≤ op.level.tightness := he
    have hlevel : ¬(op.level = o.1.level ∧ o.1.level.chains = false) := by
      rintro ⟨heq, hchains⟩
      rcases ho with ho | ho
      · rw [hchains] at ho
        cases ho
      · have hlt : o.tightness < op.level.tightness := ho
        exact Nat.ne_of_gt hlt (congrArg Level.tightness heq)
    rw [extended, if_neg (Nat.not_lt.2 hop), if_neg hlevel]
  | _ => rfl

/-- So an operator of the loosest level takes all that is tighter as its right operand. -/
theorem climb_operator {e : Expr ν} {o : Operation ν} (he : e.Tight o.tightness)
    (ho : o.1.level.chains = true ∨ e.Tight (o.tightness + 1)) (ops : List (Operation ν)) :
    e.climb o.tightness (o :: ops) =
      (binary o.1 e (o.2.1.climb (o.tightness + 1) ops).1 o.2.2).climb o.tightness
        (o.2.1.climb (o.tightness + 1) ops).2 := by
  have hop : o.1.level.tightness = o.tightness := rfl
  rw [climb, if_pos (Nat.le_refl _), extended_of_tight he ho]
  exact climb_binary hop e o.2.1 o.2.2 ops

theorem tight_of_extended {b : Nat} {e e' : Expr ν} {o : Operation ν} (he : e.Tight b)
    (ho : b ≤ o.tightness) (h : e.extended o = some e') : e'.Tight b := by
  cases e with
  | binary op left right line =>
    unfold extended at h
    split at h
    · obtain ⟨right', -, rfl⟩ := Option.map_eq_some_iff.1 h
      exact he
    · split at h
      · cases h
      · cases h
        exact ho
  | _ =>
    cases h
    exact ho

theorem tight_of_climb {b : Nat} {e : Expr ν} (he : e.Tight b) (ops : List (Operation ν)) :
    (e.climb b ops).1.Tight b := by
  induction ops generalizing e with
  | nil => exact he
  | cons o ops ih =>
    unfold climb
    split
    next hb =>
      split
      · exact he
      next e' he' => exact ih (tight_of_extended he hb he')
    · exact he

theorem Tight.of_succ {b : Nat} {e : Expr ν} (h : e.Tight (b + 1)) : e.Tight b := by
  cases e with
  | binary => exact Nat.le_of_succ_le h
  | _ => trivial

end Expr

/-! ### Which operators fit -/

namespace BinaryOp

/-- There is at most one `??`, and no comparison follows another without `&&`, `||` or `??`
between them. -/
def Legal (ops : List BinaryOp) : Prop :=
  ops.count .ifNull ≤ 1 ∧
  ∀ before o between o' after, ops = before ++ o :: between ++ o' :: after →
    o.level = .relational → o'.level = .relational →
    ∃ op ∈ between, op = .and ∨ op = .or ∨ op = .ifNull

/-- An operator of the level has only tighter ones behind it. -/
def Exposed (l : Level) (ops : List BinaryOp) : Prop :=
  ∃ before o between, ops = before ++ o :: between ∧ o.level = l ∧
    ∀ op ∈ between, l.tightness < op.level.tightness

theorem exposed_append {l : Level} {ops : List BinaryOp} {o : BinaryOp} :
    Exposed l (ops ++ [o]) ↔
      o.level = l ∨ Exposed l ops ∧ l.tightness < o.level.tightness := by
  constructor
  · rintro ⟨before, o', between, h, hl, hall⟩
    rcases List.eq_nil_or_concat' between with rfl | ⟨between, o'', rfl⟩
    · obtain ⟨-, h⟩ := List.append_inj' h rfl
      cases h
      exact .inl hl
    · rw [← List.cons_append, ← List.append_assoc] at h
      obtain ⟨hops, ho⟩ := List.append_inj' h rfl
      obtain rfl := List.singleton_inj.1 ho
      subst hops
      refine .inr ⟨⟨before, o', between, rfl, hl, fun op hop => hall op ?_⟩, hall _ ?_⟩
      · exact List.mem_append_left _ hop
      · exact List.mem_append_right _ (List.mem_singleton_self _)
  · rintro (rfl | ⟨⟨before, o', between, rfl, hl, hall⟩, hlt⟩)
    · exact ⟨ops, o, [], rfl, rfl, nofun⟩
    · refine ⟨before, o', between ++ [o], by simp, hl, fun op hop => ?_⟩
      rcases List.mem_append.1 hop with hop | hop
      · exact hall op hop
      · rwa [List.mem_singleton.1 hop]

theorem not_exposed_nil {l : Level} : ¬Exposed l [] := by
  rintro ⟨before, o, between, h, -⟩
  simp at h

/-- If an operator of the level has no looser one behind it, one of them has only tighter ones
behind it. -/
theorem exposed_of_le {l : Level} {before : List BinaryOp} {o : BinaryOp} (ho : o.level = l)
    (between : List BinaryOp) (h : ∀ op ∈ between, l.tightness ≤ op.level.tightness) :
    Exposed l (before ++ o :: between) := by
  induction between using List.reverseRecOn with
  | nil => exact ⟨before, o, [], rfl, ho, nofun⟩
  | append_singleton between op ih =>
    rw [← List.cons_append, ← List.append_assoc, exposed_append]
    by_cases hop : op.level = l
    · exact .inl hop
    · refine .inr ⟨ih fun op' hop' => h op' (List.mem_append_left _ hop'), ?_⟩
      refine Nat.lt_of_le_of_ne (h op (List.mem_append_right _ (List.mem_singleton_self _))) ?_
      exact fun heq => hop (Level.tightness_inj.1 heq.symm)

theorem exposed_fallback {ops : List BinaryOp} : Exposed .fallback ops ↔ .ifNull ∈ ops := by
  constructor
  · rintro ⟨before, o, between, rfl, ho, -⟩
    have : o = .ifNull := by cases o <;> first | rfl | cases ho
    simp [this]
  · intro h
    obtain ⟨before, between, rfl⟩ := List.append_of_mem h
    exact exposed_of_le rfl between fun _ _ => Nat.zero_le _

theorem Legal.of_append {ops ops' : List BinaryOp} (h : Legal (ops ++ ops')) : Legal ops := by
  obtain ⟨hcount, hbetween⟩ := h
  refine ⟨?_, ?_⟩
  · rw [List.count_append] at hcount
    exact Nat.le_of_add_right_le hcount
  · rintro before o between o' after rfl
    exact hbetween before o between o' (after ++ ops') (by simp)

/-- An operator of a level that does not chain is not behind an exposed one of the level. -/
theorem Legal.not_exposed {ops : List BinaryOp} {o : BinaryOp} (h : Legal (ops ++ [o])) :
    ¬(o.level.chains = false ∧ Exposed o.level ops) := by
  obtain ⟨hcount, hbetween⟩ := h
  rintro ⟨hchains, hexposed⟩
  cases hl : o.level with
  | fallback =>
    rw [hl, exposed_fallback] at hexposed
    have ho : o = .ifNull := by cases o <;> first | rfl | cases hl
    have hpos := List.count_pos_iff.2 hexposed
    rw [ho, List.count_append, List.count_singleton_self] at hcount
    omega
  | relational =>
    rw [hl] at hexposed
    obtain ⟨before, o', between, rfl, ho', hall⟩ := hexposed
    obtain ⟨op, hop, hloose⟩ := hbetween before o' between o [] rfl ho' hl
    have htight := hall op hop
    rcases hloose with rfl | rfl | rfl <;> exact absurd htight (by decide)
  | logical | additive | multiplicative =>
    rw [hl] at hchains
    cases hchains

/-- An operator that is not behind an exposed one of its level, or whose level chains, fits. -/
theorem Legal.append {ops : List BinaryOp} {o : BinaryOp} (h : Legal ops)
    (ho : ¬(o.level.chains = false ∧ Exposed o.level ops)) : Legal (ops ++ [o]) := by
  obtain ⟨hcount, hbetween⟩ := h
  refine ⟨?_, fun before o₁ between o₂ after hsplit h₁ h₂ => ?_⟩
  · rw [List.count_append, List.count_singleton]
    split
    next heq =>
      obtain rfl := eq_of_beq heq
      have hnone : .ifNull ∉ ops := fun h => ho ⟨rfl, exposed_fallback.2 h⟩
      exact Nat.le_of_eq (by rw [List.count_eq_zero.2 hnone])
    · exact hcount
  · rcases List.eq_nil_or_concat' after with rfl | ⟨after, o₃, rfl⟩
    · obtain ⟨hops, heq⟩ := List.append_inj' hsplit rfl
      obtain rfl := List.singleton_inj.1 heq
      subst hops
      -- With nothing looser between the two, some comparison is exposed behind the first.
      by_contra hnone
      refine ho ⟨by rw [h₂]; rfl, ?_⟩
      rw [h₂]
      refine exposed_of_le h₁ between fun op hop => ?_
      by_contra hlt
      exact hnone ⟨op, hop, by cases op <;> simp_all [level, Level.tightness]⟩
    · rw [← List.cons_append, ← List.append_assoc] at hsplit
      exact hbetween before o₁ between o₂ after (List.append_inj' hsplit rfl).1 h₁ h₂

theorem legal_nil : Legal [] := ⟨Nat.zero_le 1, fun before o between o' after h => by simp at h⟩

end BinaryOp

namespace Expr

/-- The levels of the operators on the right edge of a tree, from the root on. -/
def edge : Expr ν → List Level
  | binary op _ right _ => op.level :: right.edge
  | _ => []

/-- The levels on the right edge are those of the exposed operators, and each binds tighter than
those above it. -/
structure EdgeOf (e : Expr ν) (ops : List BinaryOp) : Prop where
  /-- Each operator binds tighter than those above it. -/
  tighter : e.edge.Pairwise fun l l' => l.tightness < l'.tightness
  /-- The levels are those of the exposed operators. -/
  mem_iff (l : Level) : l ∈ e.edge ↔ BinaryOp.Exposed l ops

/-- An operand without operators. -/
theorem EdgeOf.of_nil {e : Expr ν} (h : e.edge = []) : e.EdgeOf [] where
  tighter := h ▸ .nil
  mem_iff l := by
    rw [h]
    exact iff_of_false List.not_mem_nil BinaryOp.not_exposed_nil

/-- An operation fits nowhere if its level is on the edge and does not chain. -/
theorem extended_eq_none {e : Expr ν} {o : Operation ν}
    (he : e.edge.Pairwise fun l l' => l.tightness < l'.tightness) :
    e.extended o = none ↔ o.1.level.chains = false ∧ o.1.level ∈ e.edge := by
  induction e using Expr.edge.induct with
  | case1 op left right line ih =>
    rw [edge, List.pairwise_cons] at he
    unfold extended
    split
    next hlt =>
      have hne : o.1.level ≠ op.level := fun h => by
        unfold Operation.tightness at hlt
        rw [h] at hlt
        exact Nat.lt_irrefl _ hlt
      rw [Option.map_eq_none_iff, ih he.2, edge, List.mem_cons]
      simp only [hne, false_or]
    next hlt =>
      split
      next h => simp [h.1, h.2, edge]
      next h =>
        simp only [reduceCtorEq, false_iff]
        rintro ⟨hchains, hmem⟩
        rcases List.mem_cons.1 hmem with heq | hmem
        · exact h ⟨heq.symm, hchains⟩
        · exact hlt (he.1 _ hmem)
  | case2 e hnode =>
    cases e with
    | binary op left right line => exact absurd rfl (hnode op left right line)
    | _ => simp [extended, edge]

/-- An operation that is put into a tree goes below the operators that bind looser, and takes
the rest off the edge. -/
theorem edge_of_extended {e e' : Expr ν} {o : Operation ν}
    (he : e.edge.Pairwise fun l l' => l.tightness < l'.tightness) (hatom : o.2.1.edge = [])
    (h : e.extended o = some e') :
    e'.edge = e.edge.filter (fun l => l.tightness < o.tightness) ++ [o.1.level] := by
  induction e using Expr.edge.induct generalizing e' with
  | case1 op left right line ih =>
    rw [edge, List.pairwise_cons] at he
    unfold extended at h
    split at h
    next hlt =>
      obtain ⟨right', hright, rfl⟩ := Option.map_eq_some_iff.1 h
      simp only [edge, ih he.2 hright, List.filter_cons, hlt, decide_true, if_true,
        List.cons_append]
    next hlt =>
      have hright : right.edge.filter (fun l => l.tightness < o.tightness) = [] :=
        List.filter_eq_nil_iff.2 fun l hl => by
          have hop := he.1 l hl
          simp only [decide_eq_true_eq]
          omega
      split at h
      · cases h
      · cases h
        simp only [edge, hatom, List.filter_cons, hlt, decide_false, hright, Bool.false_eq_true,
          if_false, List.nil_append]
  | case2 e hnode =>
    cases e with
    | binary op left right line => exact absurd rfl (hnode op left right line)
    | _ =>
      cases h
      simp [edge, hatom]

theorem EdgeOf.extended {e e' : Expr ν} {ops : List BinaryOp} {o : Operation ν}
    (he : e.EdgeOf ops) (hatom : o.2.1.edge = []) (h : e.extended o = some e') :
    e'.EdgeOf (ops ++ [o.1]) := by
  have hedge := edge_of_extended he.tighter hatom h
  constructor
  · rw [hedge, List.pairwise_append]
    refine ⟨he.tighter.filter _, List.pairwise_singleton _ _, fun l hl l' hl' => ?_⟩
    rw [List.mem_singleton.1 hl']
    exact of_decide_eq_true (List.mem_filter.1 hl).2
  · intro l
    rw [hedge, List.mem_append, List.mem_filter, List.mem_singleton, he.mem_iff,
      BinaryOp.exposed_append, or_comm, eq_comm, decide_eq_true_iff]
    rfl

/-- The operator-precedence parser takes operators as long as they are legal. -/
theorem byPrecedence_legal {e : Expr ν} {before : List BinaryOp} (ops : List (Operation ν))
    (he : e.EdgeOf before) (hbefore : BinaryOp.Legal before)
    (hatoms : ∀ o ∈ ops, o.2.1.edge = []) :
    ∃ taken, ops = taken ++ (e.byPrecedence ops).2 ∧
      BinaryOp.Legal (before ++ taken.map Prod.fst) ∧
      ∀ o ∈ (e.byPrecedence ops).2.head?,
        ¬BinaryOp.Legal (before ++ (taken ++ [o]).map Prod.fst) := by
  induction ops generalizing e before with
  | nil => exact ⟨[], rfl, by simpa using hbefore, nofun⟩
  | cons o ops ih =>
    unfold byPrecedence
    cases h : e.extended o with
    | none =>
      rw [extended_eq_none he.tighter, he.mem_iff] at h
      refine ⟨[], rfl, by simpa using hbefore, ?_⟩
      rintro _ ⟨⟩ hlegal
      exact hlegal.not_exposed h
    | some e' =>
      have hfits : ¬(o.1.level.chains = false ∧ BinaryOp.Exposed o.1.level before) := by
        rw [← he.mem_iff, ← extended_eq_none he.tighter, h]
        nofun
      obtain ⟨hatom, hatoms⟩ := List.forall_mem_cons.1 hatoms
      obtain ⟨taken, htaken, hlegal, hstop⟩ :=
        ih (he.extended hatom h) (hbefore.append hfits) hatoms
      refine ⟨o :: taken, congrArg (o :: ·) htaken, ?_, fun o' ho' => ?_⟩
      · simpa using hlegal
      · simpa using hstop o' ho'

end Expr
/-! ### Operands and operators on a tape -/

section

variable [Scoping σ ν]

/-- The token is an operand by itself: a literal, or a name that is known. -/
inductive Token.IsAtom (file : String) (s : σ) (t : Token) : Expr ν → Prop
  | literal {value} (h : Literal.ofToken t = .ok value) : IsAtom file s t (.const value t.line)
  | name {v} (h : t.kind = .name) (known : Scoping.resolve s t.value ⟨t.line, file⟩ = .ok v) :
    IsAtom file s t (.var v t.line)

/-- The readings from `i` up to `r` are operators, each with an atom behind it. -/
inductive Tape.Operations (file : String) (s : σ) : Tape → List (Operation ν) → Tape → Prop
  | none {i} : Operations file s i [] i
  | some {i op e ops r} (operator : i.kind = .symbol op.symbol)
    (operand : i.next.hand.token.IsAtom file s e) (rest : Operations file s i.next.next ops r) :
    Operations file s i ((op, e, i.next.hand.reached) :: ops) r

variable {file : String} {s : σ} {i m r : Tape} {e : Expr ν} {ops ops' : List (Operation ν)}

theorem Token.IsAtom.tight {t : Token} {b : Nat} (h : t.IsAtom file s e) : e.Tight b := by
  cases h <;> trivial

theorem Token.IsAtom.edge {t : Token} (h : t.IsAtom file s e) : e.edge = [] := by
  cases h <;> rfl

theorem Token.IsAtom.isSome {t : Token} (h : t.IsAtom file s e) :
    (Dispatch.standardOperand? t.kind).isSome := by
  cases h with
  | literal h => simp [standardOperand?_of_ofToken h]
  | name h => simp [h, Dispatch.standardOperand?]

namespace Tape.Operations

theorem append (h : i.Operations file s ops m) (h' : m.Operations file s ops' r) :
    i.Operations file s (ops ++ ops') r := by
  induction h with
  | none => exact h'
  | some operator operand rest ih => exact .some operator operand (ih h')

theorem edge (h : i.Operations file s ops r) : ∀ o ∈ ops, o.2.1.edge = [] := by
  induction h with
  | none => nofun
  | some operator operand rest ih => exact List.forall_mem_cons.2 ⟨operand.edge, ih⟩

/-- Each operation takes a token. -/
theorem length_le (h : i.Operations file s ops r) : ops.length ≤ i.unread := by
  induction h with
  | none => exact Nat.zero_le _
  | some operator operand rest ih =>
    have hi := Tape.unread_symbol operator
    obtain ⟨form, hform⟩ := Option.isSome_iff_exists.1 operand.isSome
    have hn := Tape.unread_some hform rfl
    simp only [List.length_cons]
    omega

/-- Behind an operand an operator stands, or what the operands end with. -/
theorem goesOn (h : i.Operations file s ops r) (hr : Rank.expression.goesOn r.kind = false) :
    Rank.signed.goesOn i.kind = false := by
  cases h with
  | none =>
    simp only [Rank.goesOn, Bool.or_eq_false_iff] at hr ⊢
    exact hr.1
  | @some _ op _ _ _ operator _ _ =>
    rw [operator]
    cases op <;> rfl

end Tape.Operations

theorem Level.op?_symbol_of_ne {l : Level} {op : BinaryOp} (h : op.level ≠ l) :
    l.op? (.symbol op.symbol) = none := by
  cases l <;> cases op <;> first | rfl | exact absurd rfl h

theorem Level.op?_of_goesOn (l : Level) {kind : TokenKind}
    (h : Rank.expression.goesOn kind = false) : l.op? kind = none := by
  simp only [Rank.goesOn, Level.upwards, List.any_cons, List.any_nil, Bool.or_eq_false_iff,
    Option.isSome_eq_false_iff, Option.isNone_iff_eq_none] at h
  cases l <;> tauto

/-! ### Rules on a row of operands -/

/-- The rule takes operations from `i` on, gives `a`, and leaves the rest of them up to `m`. -/
def Rule.Takes {α : Type} (r : Rule σ α) (p : Parser σ) (i : Tape) (ops : List (Operation ν))
    (m : Tape) (a : α) (rest : List (Operation ν)) : Prop :=
  ∃ taken m', ops = taken ++ rest ∧ i.Operations p.file p.symbols taken m' ∧
    m'.Operations p.file p.symbols rest m ∧ r p = (.ok a, p.moved m' p.symbols)

/-- The rule makes of a row of atoms what the operator-precedence parser makes of it with the
operators that bind at least as tightly as `b`. -/
def Rule.Climbs (r : Rule σ (Expr ν)) (b : Nat) : Prop :=
  ∀ (p : Parser σ) first ops m, p.dispatch = .standard →
    p.tape.hand.token.IsAtom p.file p.symbols first →
    p.tape.next.Operations p.file p.symbols ops m → Rank.expression.goesOn m.kind = false →
    r.Takes p p.tape.next ops m (first.climb b ops).1 (first.climb b ops).2

theorem Rule.Takes.pure {α : Type} {p : Parser σ} (a : α)
    (h : p.tape.Operations p.file p.symbols ops m) :
    (pure a : Rule σ α).Takes p p.tape ops m a ops :=
  ⟨[], p.tape, rfl, .none, h, rfl⟩

theorem Rule.Takes.bind {α β : Type} {r : Rule σ α} {f : α → Rule σ β} {p : Parser σ} {a : α}
    {b : β} {rest rest' : List (Operation ν)} (h : r.Takes p i ops m a rest)
    (hf : ∀ m', m'.Operations p.file p.symbols rest m →
      (f a).Takes (p.moved m' p.symbols) m' rest m b rest') :
    (r >>= f).Takes p i ops m b rest' := by
  obtain ⟨taken, m', rfl, htaken, hrest, hr⟩ := h
  obtain ⟨taken', m'', rfl, htaken', hrest', hr'⟩ := hf m' hrest
  exact ⟨taken ++ taken', m'', (List.append_assoc ..).symm, htaken.append htaken', hrest',
    (bind_apply_ok hr).trans hr'⟩

theorem Rule.kind_bind_apply {α : Type} (f : TokenKind → Rule σ α) (p : Parser σ) :
    (kind >>= f) p = f p.tape.kind p := rfl

theorem Rule.dispatch_bind_apply {α : Type} {p : Parser σ} (hp : p.dispatch = .standard)
    (f : Dispatch → Rule σ α) : (dispatch >>= f) p = f .standard p := by
  rw [← hp]
  rfl

namespace Grammar

variable {inner : Inner σ ν} {p : Parser σ}

/-- An atom is an operand. -/
theorem operand_of_atom (hp : p.dispatch = .standard)
    (h : p.tape.hand.token.IsAtom p.file p.symbols e)
    (hnext : Rank.operand.goesOn p.tape.next.kind = false) :
    operand inner p = (.ok e, p.moved p.tape.next p.symbols) := by
  unfold operand
  rw [Rule.dispatch_bind_apply hp, Rule.kind_bind_apply]
  cases h with
  | @literal value h =>
    have hform : Dispatch.standard.operand p.tape.kind = some .constant :=
      standardOperand?_of_ofToken h
    simp only [hform, operandOf]
    unfold constant
    rw [Rule.bind_apply_ok (Rule.advance_eq p), h]
    rfl
  | @name v h known =>
    have hform : Dispatch.standard.operand p.tape.kind = some .place := by
      rw [show p.tape.kind = _ from h]
      rfl
    have hresolve : (Rule.resolve p.tape.hand.token : Rule σ ν)
        (p.moved p.tape.next p.symbols) = (.ok v, p.moved p.tape.next p.symbols) :=
      congrArg (·, p.moved p.tape.next p.symbols) known
    simp only [hform, operandOf]
    unfold place
    rw [Rule.bind_apply_ok (Rule.expect_eq_of_kind h), Rule.bind_apply_ok hresolve]
    unfold Rule.grow Parser.rounds Rule.growWithin subscript?
    rw [bind_assoc, Rule.kind_bind_apply, Parser.tape_moved, if_neg (of_decide_eq_false hnext)]
    rfl

/-- An atom is all that a rule without binary operators takes of a row of them. -/
theorem signed_climbs : (signed inner).Climbs 5 := by
  intro p first ops m hp hfirst hops hm
  have hclimb : first.climb 5 ops = (first, ops) := by
    refine Expr.climb_stop fun o _ ho => absurd ho (Nat.not_le.2 ?_)
    unfold Operation.tightness
    cases o.1.level <;> decide
  have hnext := hops.goesOn hm
  simp only [Rank.goesOn, Bool.or_eq_false_iff] at hnext
  have hsome := hfirst.isSome
  have hstarts : Rank.factor.starts p.tape.kind = true := Bool.or_eq_true_iff.2 (.inr hsome)
  have hopen : p.tape.kind ≠ .symbol .openParen := fun hopen => by
    rw [show p.tape.hand.token.kind = _ from hopen] at hsome
    cases hsome
  refine ⟨[], _, ?_, .none, ?_, ?_⟩
  · rw [hclimb, List.nil_append]
  · rwa [hclimb]
  · have hprimary : primary inner p = (.ok first, p.moved p.tape.next p.symbols) := by
      unfold primary
      rw [Rule.kind_bind_apply, if_neg hopen, operand_of_atom hp hfirst hnext.1]
    have hafter : UnaryOp.after? p.tape.next.kind = none :=
      Option.isSome_eq_false_iff.1 hnext.2 |> Option.isNone_iff_eq_none.1
    unfold signed
    rw [Rule.kind_bind_apply, before?_of_starts hstarts, hclimb]
    simp only [factor_eq]
    rw [Rule.bind_apply_ok hprimary, Rule.kind_bind_apply, Parser.tape_moved, hafter]
    rfl

/-! ### The rules of the levels -/

variable {l : Level} {operand : Rule σ (Expr ν)} {left : Expr ν}

/-- Where no operator of the level stands, none is taken. -/
theorem operation?_of_ne (hops : p.tape.Operations p.file p.symbols ops m)
    (hm : Rank.expression.goesOn m.kind = false) (hl : ∀ o ∈ ops.head?, o.1.level ≠ l) :
    operation? l.op? operand left p = (.ok none, p) := by
  have hnone : l.op? p.tape.kind = none := by
    cases hops with
    | none => exact Level.op?_of_goesOn l hm
    | some operator => rw [operator, Level.op?_symbol_of_ne (hl _ rfl)]
  unfold operation?
  rw [Rule.kind_bind_apply, hnone]
  rfl

/-- An operator of the level is taken, with a right operand of the tighter ones. -/
theorem operation?_takes (ho : operand.Climbs (l.tightness + 1)) (hp : p.dispatch = .standard)
    {o : Operation ν} (hops : p.tape.Operations p.file p.symbols (o :: ops) m)
    (hm : Rank.expression.goesOn m.kind = false) (hl : o.1.level = l) :
    (operation? l.op? operand left).Takes p p.tape (o :: ops) m
      (some (.binary o.1 left (o.2.1.climb (l.tightness + 1) ops).1 o.2.2))
      (o.2.1.climb (l.tightness + 1) ops).2 := by
  subst hl
  cases hops with
  | @some _ op e _ _ operator hatom rest =>
    obtain ⟨taken, m', htaken, hoperations, hrest, hr⟩ :=
      ho (p.moved p.tape.next p.symbols) e ops m hp hatom rest hm
    refine ⟨_ :: taken, m', congrArg (_ :: ·) htaken, .some operator hatom hoperations, hrest, ?_⟩
    unfold operation?
    rw [Rule.kind_bind_apply, operator, BinaryOp.op?_symbol]
    exact (Rule.bind_apply_ok (operator_eq p)).trans (Rule.bind_apply_ok hr)

/-- A round takes an operation of the level, or ends the rounds. -/
theorem growWithin_round {rounds : Nat} (ho : operand.Climbs (l.tightness + 1))
    (hp : p.dispatch = .standard) (hops : p.tape.Operations p.file p.symbols ops m)
    (hm : Rank.expression.goesOn m.kind = false) (htight : left.Tight l.tightness)
    (hchains : l.chains = true ∨ left.Tight (l.tightness + 1))
    (hstop : ∀ o ∈ ops.head?, l.tightness + 1 ≤ o.tightness → left.extended o = none)
    (hround : ∀ o ops', ops = o :: ops' → o.1.level = l → ∀ m',
      m'.Operations p.file p.symbols (o.2.1.climb (l.tightness + 1) ops').2 m →
      let next := Expr.binary o.1 left (o.2.1.climb (l.tightness + 1) ops').1 o.2.2
      let rest := (o.2.1.climb (l.tightness + 1) ops').2
      (Rule.growWithin (operation? l.op? operand) rounds next).Takes (p.moved m' p.symbols) m'
        rest m (next.climb l.tightness rest).1 (next.climb l.tightness rest).2) :
    (Rule.growWithin (operation? l.op? operand) (rounds + 1) left).Takes p p.tape ops m
      (left.climb l.tightness ops).1 (left.climb l.tightness ops).2 := by
  by_cases hl : ∀ o ∈ ops.head?, o.1.level ≠ l
  · have hclimb : left.climb l.tightness ops = (left, ops) := by
      refine Expr.climb_stop fun o ho hle => hstop o ho (Nat.lt_of_le_of_ne hle fun heq => ?_)
      exact hl o ho (Level.tightness_inj.1 heq.symm)
    rw [hclimb]
    refine .bind (a := none) ⟨[], p.tape, rfl, .none, hops, operation?_of_ne hops hm hl⟩ ?_
    exact fun m' hrest => .pure (p := p.moved m' p.symbols) left hrest
  · obtain ⟨o, hhead, rfl⟩ : ∃ o ∈ ops.head?, o.1.level = l := by simpa using hl
    obtain ⟨ops, rfl⟩ : ∃ ops', ops = o :: ops' := List.head?_eq_some_iff.1 hhead
    have hclimb := Expr.climb_operator (o := o) htight hchains ops
    rw [show left.climb o.1.level.tightness (o :: ops) = _ from hclimb]
    exact .bind (operation?_takes ho hp hops hm rfl) (hround o ops rfl rfl)

/-- The rounds of a level that chains take all operations that bind as tightly as it. -/
theorem growWithin_takes (hchains : l.chains = true) (ho : operand.Climbs (l.tightness + 1))
    (rounds : Nat) (hp : p.dispatch = .standard)
    (hops : p.tape.Operations p.file p.symbols ops m) (hm : Rank.expression.goesOn m.kind = false)
    (htight : left.Tight l.tightness) (hrounds : ops.length < rounds)
    (hstop : ∀ o ∈ ops.head?, l.tightness + 1 ≤ o.tightness → left.extended o = none) :
    (Rule.growWithin (operation? l.op? operand) rounds left).Takes p p.tape ops m
      (left.climb l.tightness ops).1 (left.climb l.tightness ops).2 := by
  induction rounds generalizing p left ops with
  | zero => exact absurd hrounds (Nat.not_lt_zero _)
  | succ rounds ih =>
    refine growWithin_round ho hp hops hm htight (.inl hchains) hstop ?_
    rintro o ops' rfl hlevel m' hrest
    have hlength := (o.2.1.climb_suffix (l.tightness + 1) ops').length_le
    refine ih (p := p.moved m' p.symbols) hp hrest (Nat.le_of_eq (by rw [hlevel])) ?_ ?_
    · exact Nat.lt_of_le_of_lt hlength (Nat.lt_of_succ_lt_succ hrounds)
    · exact Expr.extended_of_climb_operand (by rw [hlevel]) _ _ _ _

/-- A level that chains. -/
theorem chain_climbs (hchains : l.chains = true) (ho : operand.Climbs (l.tightness + 1)) :
    (chain l.op? operand).Climbs l.tightness := by
  intro p first ops m hp hfirst hops hm
  rw [Expr.climb_operand]
  refine .bind (ho p first ops m hp hfirst hops hm) fun m' hrest => ?_
  refine growWithin_takes hchains ho _ (p := p.moved m' p.symbols) hp hrest hm ?_ ?_ ?_
  · exact (Expr.tight_of_climb hfirst.tight ops).of_succ
  · exact Nat.lt_of_le_of_lt hrest.length_le (Parser.unread_lt_rounds (p.moved m' p.symbols))
  · exact Expr.extended_of_climb _ _ _

/-- A level that does not chain has one round. A second operator of the level fits nowhere, and
is left like one that is looser. -/
theorem pair_climbs (hchains : l.chains = false) (ho : operand.Climbs (l.tightness + 1)) :
    (pair l.op? operand).Climbs l.tightness := by
  intro p first ops m hp hfirst hops hm
  rw [Expr.climb_operand, pair_eq]
  have htight := Expr.tight_of_climb (b := l.tightness + 1) hfirst.tight ops
  refine .bind (ho p first ops m hp hfirst hops hm) fun m' hrest => ?_
  refine growWithin_round (p := p.moved m' p.symbols) ho hp hrest hm htight.of_succ (.inr htight)
    (Expr.extended_of_climb _ _ _) ?_
  rintro o ops' - hlevel m'' hrest' next rest
  have hnext : next.climb l.tightness rest = (next, rest) := by
    refine Expr.climb_stop fun o' ho' hle => ?_
    by_cases heq : l.tightness = o'.tightness
    · have hlevel' : o.1.level = o'.1.level := hlevel.trans (Level.tightness_inj.1 heq)
      have hlt : ¬o.1.level.tightness < o'.tightness := by
        rw [hlevel, heq]
        exact Nat.lt_irrefl _
      rw [Expr.extended, if_neg hlt, if_pos ⟨hlevel', by rw [← hlevel', hlevel, hchains]⟩]
    · exact Expr.extended_of_climb_operand (by rw [hlevel]) _ _ _ _ o' ho'
        (Nat.lt_of_le_of_ne hle heq)
  rw [hnext]
  exact .pure (p := p.moved m'' p.symbols) next hrest'

/-- The rules of the levels, each with the operators that it and the tighter ones have. -/
theorem fallback_climbs : (fallback inner).Climbs 0 := by
  have hproduct : (product inner).Climbs 4 := chain_climbs (l := .multiplicative) rfl signed_climbs
  have hsum : (sum inner).Climbs 3 := chain_climbs (l := .additive) rfl hproduct
  have hcomparison : (comparison inner).Climbs 2 := pair_climbs (l := .relational) rfl hsum
  have hcondition : (condition inner).Climbs 1 := chain_climbs (l := .logical) rfl hcomparison
  exact pair_climbs (l := .fallback) rfl hcondition

/-! ### A row of operands as a command -/

/-- An atom opens an expression for its effect. -/
theorem anyCommand_of_atom (hp : p.dispatch = .standard)
    (h : p.tape.hand.token.IsAtom p.file p.symbols e) :
    anyCommand inner p = assignment inner p := by
  have hstarts : Dispatch.standard.startsExpression p.tape.kind = true :=
    startsExpression_of_operand (.inr h.isSome)
  unfold anyCommand
  rw [Rule.dispatch_bind_apply hp, Rule.kind_bind_apply]
  simp only [Dispatch.command_of_startsExpression hstarts, hstarts, if_true]

/-- A row of atoms is read with one more level. -/
theorem expression_takes {n : Nat} (hp : p.dispatch = .standard) (hdepth : p.depth < maxDepth)
    (he : p.tape.hand.token.IsAtom p.file p.symbols e)
    (hops : p.tape.next.Operations p.file p.symbols ops m)
    (hm : Rank.expression.goesOn m.kind = false) :
    (Inner.within (n + 1)).expression.Takes p p.tape.next ops m (e.byPrecedence ops).1
      (e.byPrecedence ops).2 := by
  have hclimbs : (fallback (Inner.within n : Inner σ ν)).Climbs 0 := fallback_climbs
  obtain ⟨taken, m', htaken, hoperations, hrest, hr⟩ :=
    hclimbs { p with depth := p.depth + 1 } e ops m hp he hops hm
  rw [Expr.climb_zero] at htaken hrest hr
  refine ⟨taken, m', htaken, hoperations, hrest, ?_⟩
  have hnested : (Inner.within (n + 1)).expression p =
      Rule.nested (fallback (Inner.within n)) p := rfl
  rw [hnested, Rule.nested_of_lt hdepth, hr]
  rfl

/-- A row of atoms with binary operators between them, up to a semicolon. If the operators are
legal, it is read as an expression for its effect, with the tree of the operator-precedence
parser. If not, the command fails at the first operator that is not. -/
theorem command_of_operations (hp : p.dispatch = .standard) (hdepth : p.depth + 2 ≤ maxDepth)
    (hfirst : p.tape.hand.token.IsAtom p.file p.symbols e)
    (hops : p.tape.next.Operations p.file p.symbols ops r) (hr : r.kind = .symbol .semicolon) :
    (BinaryOp.Legal (ops.map Prod.fst) ∧ ∃ t, e.byPrecedence ops = (t, []) ∧
      Inner.full.command p =
        (.ok (.assign none t p.tape.hand.token.line), p.moved r.next p.symbols)) ∨
    (¬BinaryOp.Legal (ops.map Prod.fst) ∧ ∃ t taken o rest m,
      e.byPrecedence ops = (t, o :: rest) ∧ ops = taken ++ o :: rest ∧
      BinaryOp.Legal (taken.map Prod.fst) ∧ ¬BinaryOp.Legal ((taken ++ [o]).map Prod.fst) ∧
      p.tape.next.Operations p.file p.symbols taken m ∧ m.kind = .symbol o.1.symbol ∧
      Inner.full.command p =
        (.error ⟨.unexpectedLexeme m.hand.token.value, m.hand.reached, p.file⟩,
          p.moved m p.symbols)) := by
  let q : Parser σ := { p with depth := p.depth + 1 }
  have hcommand : Inner.full.command p = ((assignment (Inner.within 255) q).1,
      { (assignment (Inner.within 255) q).2 with
        depth := (assignment (Inner.within 255) q).2.depth - 1 }) := by
    have hnested : Inner.full.command p = Rule.nested (anyCommand (Inner.within 255)) p := rfl
    have hany : anyCommand (Inner.within 255) q = assignment (Inner.within 255) q :=
      anyCommand_of_atom (p := q) hp hfirst
    rw [hnested, Rule.nested_of_lt (by omega), hany]
  have hm : Rank.expression.goesOn r.kind = false := by
    rw [hr]
    rfl
  obtain ⟨taken, m, htaken, hoperations, hrest, he⟩ :=
    expression_takes (n := 254) (p := q) hp (Nat.lt_of_succ_le hdepth) hfirst hops hm
  obtain ⟨taken', htaken', hlegal, hstop⟩ := Expr.byPrecedence_legal ops (.of_nil hfirst.edge)
    BinaryOp.legal_nil hops.edge
  obtain rfl : taken = taken' := List.append_cancel_right (htaken.symm.trans htaken')
  rw [List.nil_append] at hlegal
  rw [hcommand]
  generalize hresult : e.byPrecedence ops = result at *
  obtain ⟨t, rest⟩ := result
  cases hrest with
  | none =>
    refine .inl ⟨?_, t, rfl, ?_⟩
    · rw [htaken, List.append_nil]
      exact hlegal
    · rw [assignment_of_ne he (by simp [hr]), if_pos (by simpa using hr)]
      rfl
  | @some _ op _ rest _ operator operand hrest =>
    have hillegal := hstop _ rfl
    have hunexpected : (q.moved m q.symbols).unexpected =
        ⟨.unexpectedLexeme m.hand.token.value, m.hand.reached, p.file⟩ := by
      unfold Parser.unexpected
      rw [show (q.moved m q.symbols).lookahead.kind = _ from operator]
      rfl
    refine .inr ⟨fun h => hillegal ?_, t, taken, _, rest, m, rfl, htaken, hlegal, hillegal,
      hoperations, operator, ?_⟩
    · rw [htaken, List.append_cons, List.map_append] at h
      exact h.of_append
    · have hop : op.symbol ≠ .assign ∧ op.symbol ≠ .semicolon := by cases op <;> decide
      rw [assignment_of_ne he (by simp [operator, hop.1]),
        if_neg (by simp [operator, hop.2]), hunexpected]
      rfl

/-- The loosest operator takes all that is behind it as its right operand. -/
theorem command_of_operations_fallback :
    let a : Variable := ⟨"a", 1, false, .nullable, 0⟩
    let p : Parser SymbolTable := Parser.start (.ofTokens [⟨.name, "a", 1⟩,
      ⟨.symbol .ifNull, "??", 1⟩, ⟨.keyword .trueWord, "true", 2⟩, ⟨.symbol .and, "&&", 2⟩,
      ⟨.text, "t", 2⟩, ⟨.symbol .equals, "==", 3⟩, ⟨.keyword .nullWord, "null", 4⟩,
      ⟨.symbol .semicolon, ";", 4⟩]) "p" ⟨.lexical, [a], [], [a]⟩ .standard
    p.dispatch = .standard ∧ p.depth + 2 ≤ maxDepth ∧
    ∃ (e : Expr Variable) (ops : List (Operation Variable)) (r : Tape),
      p.tape.hand.token.IsAtom p.file p.symbols e ∧
      p.tape.next.Operations p.file p.symbols ops r ∧ r.kind = .symbol .semicolon ∧
      BinaryOp.Legal (ops.map Prod.fst) ∧
      Inner.full.command p = (.ok (.assign none (.binary .ifNull (.var a 1) (.binary .and
        (.const (.bool true) 2) (.binary .equal (.const (.text "t") 2) (.const .null 4) 4) 2) 2) 1),
        p.moved r.next p.symbols) := by
  intro a p
  have hfirst : p.tape.hand.token.IsAtom p.file p.symbols (.var a 1) := .name rfl rfl
  have hops : p.tape.next.Operations p.file p.symbols [(.ifNull, .const (.bool true) 2, 2),
      (.and, .const (.text "t") 2, 2), (.equal, .const .null 4, 4)]
      ⟨⟨⟨.symbol .semicolon, ";", 4⟩, 4⟩, [⟨.endAt 4, 4⟩]⟩ :=
    .some rfl (.literal rfl) (.some rfl (.literal rfl) (.some rfl (.literal rfl) .none))
  refine ⟨rfl, by decide, _, _, _, hfirst, hops, rfl, ?_⟩
  rcases command_of_operations rfl (by decide) hfirst hops rfl with
    ⟨hlegal, t, ht, hcommand⟩ | ⟨-, t, taken, o, rest, m, ht, -⟩
  · cases ht
    exact ⟨hlegal, hcommand⟩
  · cases ht

end Grammar

end

end Scriptlet
