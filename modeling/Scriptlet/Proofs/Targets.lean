import Scriptlet.Proofs.Completeness
import Scriptlet.Proofs.Limit
import Scriptlet.Proofs.Soundness

/-!
# What may stand before `=`

A command that starts with an expression is an assignment if `=` follows the expression.
The expression has been read by then, with all its operators and parentheses, and the tree
no longer tells whether it stood in parentheses. Two things decide whether it is a target:
what the tree is, and whether its first token is an opening parenthesis.

They decide it as the grammar does. A tree that can be assigned to comes from a place, or
from a place in parentheses, and from nothing else; and only what stands in parentheses
starts with one.

## What is proved

* `Derives.enclosed_of_target` — an expression that starts with a parenthesis and can be
  assigned to is a place in parentheses.
* `Inner.full_expression` — an expression that is read is read as it is derived.
* `Grammar.assignment_at_assign` — what an assignment makes of the expression before `=`.
-/

namespace Scriptlet

variable {σ ν : Type}

/-! ### Places in parentheses -/

/-- The readings from `i` up to `r` are a name with any number of subscripts. -/
def Tape.Place (i r : Tape) : Prop := ∃ k x, Derives (.expr .place) k i x r

/-- The readings from `i` up to `r` are a place in one or more pairs of parentheses. -/
inductive Tape.Enclosed : Tape → Tape → Prop
  /-- One pair. -/
  | once {i m} (opens : i.kind = .symbol .openParen) (h : i.next.Place m)
    (closes : m.kind = .symbol .closeParen) : Enclosed i m.next
  /-- One pair more. -/
  | again {i m} (opens : i.kind = .symbol .openParen) (h : Enclosed i.next m)
    (closes : m.kind = .symbol .closeParen) : Enclosed i m.next

theorem Tape.Place.kind {i r : Tape} (h : i.Place r) : i.kind = .name := by
  obtain ⟨k, x, hd⟩ := h
  exact of_decide_eq_true hd.starts_kind

theorem Tape.Enclosed.kind {i r : Tape} (h : i.Enclosed r) : i.kind = .symbol .openParen := by
  cases h <;> assumption

/-! ### Trees that can be assigned to -/

theorem Expr.target?_subscripted {e : Expr ν} (he : e.target? ≠ none)
    (subs : List (Expr ν × Nat)) : (e.subscripted subs).target? ≠ none := by
  induction subs generalizing e with
  | nil => exact he
  | cons s subs ih => exact ih (e := .index e s.1 s.2) (Option.some_ne_none _)

theorem Derives.target_of_place {k i x r} (h : Derives (.expr .place) k i x r) :
    x.target? ≠ none := by
  cases h with
  | named head h => exact Expr.target?_subscripted (by simp [Expr.target?]) _

/-- A place, in parentheses or not, is an expression that can be assigned to. -/
theorem Tape.Place.expression {i r : Tape} (h : i.Place r) :
    ∃ k x, Derives (.expr .expression) k i x r ∧ x.target? ≠ none := by
  obtain ⟨k, x, hd⟩ := h
  exact ⟨k + 1, x, hd.expression_of_place, hd.target_of_place⟩

theorem Tape.Enclosed.expression {i r : Tape} (h : i.Enclosed r) :
    ∃ k x, Derives (.expr .expression) k i x r ∧ x.target? ≠ none := by
  have around {i m : Tape} (opens : i.kind = .symbol .openParen)
      (h : ∃ k x, Derives (.expr .expression) k i.next x m ∧ x.target? ≠ none)
      (closes : m.kind = .symbol .closeParen) :
      ∃ k x, Derives (.expr .expression) k i x m.next ∧ x.target? ≠ none := by
    obtain ⟨k, x, hd, hx⟩ := h
    exact ⟨k + 1, x, (Derives.parenthesized opens hd closes).expression_of_primary, hx⟩
  induction h with
  | once opens h closes => exact around opens h.expression closes
  | again opens h closes ih => exact around opens ih closes

/-- If the phrase is an expression that can be assigned to and starts with a parenthesis,
it is a place in parentheses. -/
def Category.EnclosedIfTarget (i r : Tape) : (N : Category) → N.Tree → Prop
  | expr _, e => e.target? ≠ none → i.kind = .symbol .openParen → i.Enclosed r
  | _, _ => True

theorem Derives.enclosedIfTarget {N k i x r} (h : Derives N k i x r) :
    N.EnclosedIfTarget i r x := by
  induction h with
  | expression h ih | unsigned h ih | factor h ih | primary h ih => exact ih
  | level left h chains ih _ =>
    intro he hi
    cases h with
    | noOperation => exact ih he hi
    | operation => exact absurd (Expr.target?_operated _ _ _) he
  | @parenthesized k i e m opens h closes ih =>
    intro he _
    by_cases hi : i.next.kind = .symbol .openParen
    · exact .again opens (ih he hi) closes
    · obtain ⟨k', -, hd⟩ := h.placeIfTarget he hi
      exact .once opens ⟨k', _, hd⟩ closes
  | place h ih =>
    intro _ hi
    cases hi.symm.trans (Tape.Place.kind ⟨_, _, h⟩)
  | named head => exact fun _ hi => by cases hi.symm.trans head
  | signed | postfixed | constant | call | emptyList | list | emptyMap | map =>
    exact fun he => absurd rfl he
  | _ => trivial

/-- An expression that can be assigned to is a place, or a place in parentheses. -/
theorem Derives.place_or_enclosed {k i x r} (h : Derives (.expr .expression) k i x r)
    (hx : x.target? ≠ none) : i.Place r ∨ i.Enclosed r := by
  by_cases hi : i.kind = .symbol .openParen
  · exact .inr (h.enclosedIfTarget hx hi)
  · obtain ⟨k', -, hd⟩ := h.placeIfTarget hx hi
    exact .inl ⟨k', x, hd⟩

/-! ### Behind the expression -/

variable {p q : Parser σ} {e : Expr ν}

/-- What follows the `=` of an assignment to a target. -/
def Grammar.assigned (inner : Inner σ ν) (target : Target ν) (line : Nat) : Rule σ (Command ν) := do
  let value ← inner.expression
  let _ ← Rule.expect (.symbol .semicolon)
  pure (.assign (some target) value line)

/-- Once `=` follows an expression, the expression is taken as a target or refused, and nothing
behind the `=` has a say in it. -/
theorem Grammar.assignment_of_assign {inner : Inner σ ν} (he : inner.expression p = (.ok e, q))
    (hq : q.tape.kind = .symbol .assign) :
    Grammar.assignment inner p =
      match targetOf (p.tape.kind = .symbol .openParen) e with
      | .error fault => (.error ⟨fault, q.position⟩, q.moved q.tape.next q.symbols)
      | .ok target =>
        assigned inner target p.lookahead.line (q.moved q.tape.next q.symbols) := by
  have ha := Rule.accept_eq_of_kind hq
  unfold assignment
  rw [Rule.bind_apply_ok (show Rule.peek p = (.ok p.lookahead, p) from rfl),
    Rule.bind_apply_ok he, Rule.bind_apply_ok (show Rule.position q = (.ok q.position, q) from rfl),
    Rule.bind_apply_ok ha]
  change (match targetOf (p.tape.kind = .symbol .openParen) e with
    | .error fault => Rule.fail ⟨fault, q.position⟩
    | .ok target => assigned inner target p.lookahead.line : Rule σ (Command ν)) _ = _
  cases targetOf (p.tape.kind = .symbol .openParen) e <;> rfl

/-- Behind an expression for its effect a semicolon must stand. -/
theorem Grammar.assignment_of_ne {inner : Inner σ ν} (he : inner.expression p = (.ok e, q))
    (hq : q.tape.kind ≠ .symbol .assign) :
    assignment inner p =
      if q.tape.kind = .symbol .semicolon then
        (.ok (.assign none e p.tape.hand.token.line), q.moved q.tape.next q.symbols)
      else (.error q.unexpected, q) := by
  unfold assignment
  rw [Rule.bind_apply_ok (show Rule.peek p = (.ok p.lookahead, p) from rfl),
    Rule.bind_apply_ok he, Rule.bind_apply_ok (show Rule.position q = (.ok q.position, q) from rfl),
    Rule.bind_apply_ok (Rule.accept_eq_of_kind_ne hq), if_neg Bool.false_ne_true]
  split
  next h => exact Rule.bind_apply_ok (Rule.expect_eq_of_kind h)
  next h => exact Rule.bind_apply_error (Rule.expect_eq_of_kind_ne h)

theorem Expr.label_ne_parenthesized (e : Expr ν) : e.label ≠ "Parenthesized" := by
  cases e <;> simp [Expr.label]

/-! ### Reading an expression -/

variable [Scoping σ ν]

/-- An expression that is read is read as it is derived, wherever it is derived up to a token
that is no part of it. -/
theorem Inner.full_expression {k : Nat} {x : Expr Mention} {m : Tape} (hp : p.dispatch = .standard)
    (he : Inner.full.expression p = (.ok e, q)) (hd : Derives (.expr .expression) k p.tape x m)
    (hm : Rank.expression.goesOn m.kind = false) :
    ∃ s, x.resolve p.file p.symbols = .ok (e, s) := by
  -- A run that succeeds does the same with nothing open, where all levels are left.
  obtain ⟨ps, out, hps⟩ : ∃ ps out, (Inner.full : Inner σ ν).expression.Passes p ps out :=
    (Rule.Law.within (ν := ν) Rule.Law.passes maxDepth).expression p
  obtain rfl := hps.outcome_eq
  have hshallow := hps.shallower (Nat.zero_le p.depth) (by simp [he])
  rw [he] at hshallow
  rcases Grammar.expression_meets (Inner.complete_within (ν := ν) maxDepth)
    (p := { p with depth := 0 }) hd hm hp (Nat.zero_add maxDepth) with
    ⟨-, position, q', h⟩ | ⟨d, q', -, h⟩ | ⟨-, t, s, hc, h⟩
  all_goals
    obtain ⟨hr, -⟩ := Prod.mk.inj (hshallow.symm.trans h)
    cases hr
  exact ⟨s, hc⟩

/-! ### The assignment -/

/-- What an assignment makes of the expression before its `=`. It goes on with it as a target
if the readings that the expression took are a name with any number of subscripts. Otherwise it
fails with the position that had been read up to when `=` was the token in hand, and says that
it is in parentheses exactly if it is a place in parentheses, and else what expression it is. -/
theorem Grammar.assignment_at_assign (hp : p.dispatch = .standard)
    (he : Inner.full.expression p = (.ok e, q)) (hq : q.tape.kind = .symbol .assign) :
    (p.tape.Place q.tape ∧ ∃ target, e.target? = some target ∧
      assignment Inner.full p =
        assigned Inner.full target p.lookahead.line (q.moved q.tape.next q.symbols)) ∨
    (¬p.tape.Place q.tape ∧ ∃ description,
      assignment Inner.full p =
        (.error ⟨.invalidTarget description, q.position⟩, q.moved q.tape.next q.symbols) ∧
      (description = "Parenthesized" ↔ p.tape.Enclosed q.tape) ∧
      (¬p.tape.Enclosed q.tape → description = e.label)) := by
  have hgoes : Rank.expression.goesOn q.tape.kind = false := by
    rw [hq]
    rfl
  -- What can be assigned to as a derived tree can be assigned to as a tree that was read.
  have hderived (h : ∃ k x, Derives (.expr .expression) k p.tape x q.tape ∧ x.target? ≠ none) :
      ∃ target, e.target? = some target := by
    obtain ⟨k, x, hd, hx⟩ := h
    obtain ⟨s, hs⟩ := Inner.full_expression hp he hd hgoes
    obtain ⟨target, hx⟩ := Option.ne_none_iff_exists'.1 hx
    obtain ⟨target', rfl⟩ := Expr.exists_target p.file hs hx
    exact ⟨target', Target.target?_toExpr target'⟩
  rw [assignment_of_assign he hq]
  by_cases hplace : p.tape.Place q.tape
  · obtain ⟨target, ht⟩ := hderived hplace.expression
    have hopen : p.tape.kind ≠ .symbol .openParen := by simp [hplace.kind]
    exact .inl ⟨hplace, target, ht, by rw [targetOf_eq (decide_eq_false hopen) ht]⟩
  · refine .inr ⟨hplace, ?_⟩
    cases ht : e.target? with
    | none =>
      have henclosed : ¬p.tape.Enclosed q.tape := fun h => by
        obtain ⟨target, ht'⟩ := hderived h.expression
        cases ht.symm.trans ht'
      refine ⟨e.label, ?_, iff_of_false e.label_ne_parenthesized henclosed, fun _ => rfl⟩
      simp only [targetOf, ht]
    | some target =>
      -- The tree that was read is that of a derivation, which tells what it was read from.
      obtain ⟨m, s, rfl, k, x, -, hd, hs⟩ :=
        (Inner.sound_within (ν := ν) maxDepth).expression p hp e q he
      have hx : x.target? ≠ none := fun hx => by
        cases ht.symm.trans (Expr.target?_resolve p.file hs hx)
      have henclosed : p.tape.Enclosed m := (hd.place_or_enclosed hx).resolve_left hplace
      refine ⟨"Parenthesized", ?_, iff_of_true rfl henclosed, absurd henclosed⟩
      simp only [targetOf, ht, henclosed.kind, decide_true, if_true]

/-- A subscripted name in two pairs of parentheses, at the end of the input. -/
theorem Grammar.assignment_at_assign_enclosed :
    let table : SymbolTable :=
      ⟨.lexical, [⟨"a", 1, false, .safe, 0⟩], [], [⟨"a", 1, false, .safe, 0⟩]⟩
    let p := Parser.start (.ofText "((a[0]))\n=") "p" table .standard
    ∃ e q, Inner.full.expression p = (.ok e, q) ∧ q.tape.kind = .symbol .assign ∧
      ((p.tape.Place q.tape ∧ ∃ target, e.target? = some target ∧
        assignment Inner.full p =
          assigned Inner.full target p.lookahead.line (q.moved q.tape.next q.symbols)) ∨
      (¬p.tape.Place q.tape ∧ ∃ description,
        assignment Inner.full p =
          (.error ⟨.invalidTarget description, q.position⟩, q.moved q.tape.next q.symbols) ∧
        (description = "Parenthesized" ↔ p.tape.Enclosed q.tape) ∧
        (¬p.tape.Enclosed q.tape → description = e.label))) := by
  intro table p
  have hok : (Inner.full.expression p).1.isOk = true := by decide +kernel
  have hq : (Inner.full.expression p).2.tape.kind = .symbol .assign := by decide +kernel
  rcases h : Inner.full.expression p with ⟨d | e, q⟩
  · rw [h] at hok
    cases hok
  · rw [h] at hq
    exact ⟨e, q, rfl, hq, assignment_at_assign rfl h hq⟩

end Scriptlet
