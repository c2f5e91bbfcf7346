import Scriptlet.Proofs.Congruence

/-!
# Every rule gets on and comes to an end

A rule reads on by taking tokens, by repeating something, and by reading a phrase inside its
phrase. At the end of the input taking a token changes nothing, and the tables may send any token,
the mark of the end too, to any form of phrase. Still every rule comes to an end, and one that
succeeds has taken a token, unless it is the rule for code.

## The model

`Tape.tokenCount` counts the tokens that are left, wherever marks of the end stand among them.

The rules have bounds built in: a repetition has so many rounds, and there are so many levels. To
say that a rule ends by itself, both are taken away. `Rule.Loops` is repeating without a bound: it
relates a loop to what it comes to, if it comes to anything. `Inner.unrolled` is the recursion as
it is, each phrase read by the rules for what is inside it, unrolled so many times over rules that
may do anything at all. `Grammar.IsGrowth` and `Grammar.IsItem` list the repetitions of the
grammar.

## What is proved

* `Rule.Law.progresses` — no rule makes tokens more, and which rules make them less.
* `Rule.loops_grow` — a repetition each of whose rounds takes a token ends by itself.
* `Inner.full_eq_enclosing` — the rules inside a phrase are the same on every level.
* `Nonterminal.ruleOver_unrolled` — the recursion never gets below the limit.
* `Nonterminal.gets_on` — so every rule gets on and comes to an end.
-/

namespace Scriptlet

variable {σ ν α β : Type}

/-! ### Tokens that are left -/

/-- How many readings on a tape are no mark of the end. -/
def Tape.tokenCount (i : Tape) : Nat := i.readings.countP fun r => r.token.kind ≠ .endOfInput

namespace Tape

theorem tokenCount_le (i : Tape) : i.tokenCount ≤ i.coming.length + 1 := List.countP_le_length

/-- What is taken is counted, if it is no mark of the end. -/
theorem tokenCount_eq (i : Tape) :
    i.tokenCount = i.next.tokenCount + if i.kind = .endOfInput then 0 else 1 := by
  obtain ⟨hand, _ | ⟨r, rest⟩⟩ := i <;> by_cases hk : hand.token.kind = .endOfInput
  all_goals simp [tokenCount, readings, next, kind, Token.endAt, List.countP_cons, hk]

theorem tokenCount_next_le (i : Tape) : i.next.tokenCount ≤ i.tokenCount := by
  rw [i.tokenCount_eq]
  exact Nat.le_add_right _ _

theorem tokenCount_next_lt {i : Tape} (h : i.kind ≠ .endOfInput) :
    i.next.tokenCount < i.tokenCount := by
  rw [i.tokenCount_eq, if_neg h]
  exact Nat.lt_succ_self _

end Tape

namespace Rule

/-- The rule never leaves more tokens than there were, and leaves less where what it gives says
that it has taken one. -/
def Progresses (r : Rule σ α) (taken : α → Prop) : Prop :=
  ∀ p, (r p).2.tape.tokenCount ≤ p.tape.tokenCount ∧
    ∀ a, (r p).1 = .ok a → taken a → (r p).2.tape.tokenCount < p.tape.tokenCount

namespace Progresses

variable {r : Rule σ α} {f : α → Rule σ β} {taken : α → Prop} {u : β → Prop}

/-- A rule that takes no token. -/
theorem stay (h : ∀ p, (r p).2.tape = p.tape) (ht : ∀ p a, (r p).1 = .ok a → ¬ taken a) :
    Progresses r taken :=
  fun p => ⟨Nat.le_of_eq (congrArg Tape.tokenCount (h p)), fun a ha hta => absurd hta (ht p a ha)⟩

theorem bind (hr : Progresses r taken) (hf : ∀ a, Progresses (f a) fun b => u b ∧ ¬ taken a) :
    Progresses (r >>= f) u := by
  intro p
  obtain ⟨hle, hlt⟩ := hr p
  rcases hp : r p with ⟨d | a, q⟩
  · rw [hp] at hle
    rw [bind_apply_error hp]
    exact ⟨hle, nofun⟩
  · rw [hp] at hle hlt
    rw [bind_apply_ok hp]
    obtain ⟨hle', hlt'⟩ := hf a q
    refine ⟨Nat.le_trans hle' hle, fun b hb hu => ?_⟩
    by_cases ha : taken a
    · exact Nat.lt_of_le_of_lt hle' (hlt a rfl ha)
    · exact Nat.lt_of_lt_of_le (hlt' b hb ⟨hu, ha⟩) hle

theorem advance : Progresses (σ := σ) advance fun token => token.kind ≠ .endOfInput := by
  intro p
  rw [advance_eq]
  refine ⟨p.tape.tokenCount_next_le, fun a ha hk => Tape.tokenCount_next_lt ?_⟩
  cases ha
  exact hk

theorem expect (k : TokenKind) : Progresses (σ := σ) (expect k) fun _ => k ≠ .endOfInput := by
  intro p
  by_cases hk : p.tape.kind = k
  · rw [expect_eq_of_kind hk]
    exact ⟨p.tape.tokenCount_next_le, fun _ _ hne => Tape.tokenCount_next_lt (hk ▸ hne)⟩
  · rw [expect_eq_of_kind_ne hk]
    exact ⟨Nat.le_refl _, nofun⟩

theorem accept (k : TokenKind) :
    Progresses (σ := σ) (accept k) fun taken => taken = true ∧ k ≠ .endOfInput := by
  intro p
  by_cases hk : p.tape.kind = k
  · rw [accept_eq_of_kind hk]
    exact ⟨p.tape.tokenCount_next_le, fun _ _ hne => Tape.tokenCount_next_lt (hk ▸ hne.2)⟩
  · rw [accept_eq_of_kind_ne hk]
    refine ⟨Nat.le_refl _, fun a ha hne => ?_⟩
    cases ha
    exact absurd hne.1 Bool.false_ne_true

theorem nested (hr : Progresses r taken) : Progresses (nested r) taken := by
  intro p
  by_cases hd : maxDepth ≤ p.depth
  · rw [nested_of_le hd]
    exact ⟨Nat.le_refl _, nofun⟩
  · rw [nested_of_lt (Nat.lt_of_not_le hd)]
    exact hr { p with depth := p.depth + 1 }

variable [Scoping σ ν]

theorem inScope (hr : Progresses r taken) : Progresses (inScope r) taken :=
  fun p => hr { p with symbols := Scoping.enter p.symbols }

omit [Scoping σ ν] in
theorem keeping (ask : σ → String → Except Diagnostic (α × σ)) :
    Progresses (keeping ask) fun _ => False := by
  refine stay (fun p => ?_) fun _ _ _ => id
  cases h : ask p.symbols p.file with
  | error d => rw [keeping_eq_of_error h]
  | ok x =>
    rw [keeping_eq_of_ok h]
    rfl

end Progresses

variable [Scoping σ ν]

/-- No rule makes tokens more, and which rules make them less. -/
theorem Law.progresses : Law fun _ (r : Rule σ _) t => Progresses r t := by
  refine Steps.law ?_ fun hr p => hr p.rounds p
  constructor
  case mono => exact fun hr h p => ⟨(hr p).1, fun a ha hu => (hr p).2 a ha (h a hu)⟩
  case bind => exact .bind
  case advance => exact .advance
  case expect => exact .expect
  case accept => exact .accept
  case nested => exact .nested
  case inScope => exact .inScope
  case declare =>
    intro t constant nullability
    rw [declare_eq]
    exact .keeping _
  case declareLoop =>
    intro t
    rw [declareLoop_eq]
    exact .keeping _
  case pure => exact fun ha => .stay (fun _ => rfl) fun _ b hb => by cases hb; exact ha
  case fail | failAt | unexpected | tooDeep => intros; exact .stay (fun _ => rfl) fun _ _ => nofun
  all_goals intros; exact .stay (fun _ => rfl) fun _ _ _ => id

/-! ### Loops -/

/-- What a loop comes to after so many rounds that give a new value, without a bound on them. It
ends with the first round that gives none or fails. -/
inductive Loops (step : α → Rule σ (Option α)) :
    Nat → α → Parser σ → Except Diagnostic α × Parser σ → Prop
  | done {a : α} {p q : Parser σ} : step a p = (.ok none, q) → Loops step 0 a p (.ok a, q)
  | failed {a : α} {p q : Parser σ} {d : Diagnostic} : step a p = (.error d, q) →
    Loops step 0 a p (.error d, q)
  | round {n : Nat} {a b : α} {p q : Parser σ} {out : Except Diagnostic α × Parser σ} :
    step a p = (.ok (some b), q) → Loops step n b q out → Loops step (n + 1) a p out

/-- A repetition each of whose rounds takes a token ends by itself, after no more rounds than
there are tokens, and comes to what it comes to with a bound. -/
theorem loops_grow {step : α → Rule σ (Option α)}
    (hs : ∀ a, Progresses (step a) fun next => next.isSome) (a : α) (p : Parser σ) :
    ∃ n ≤ p.tape.tokenCount, Loops step n a p (grow step a p) := by
  have hwithin (rounds : Nat) (a : α) (p : Parser σ) (h : p.tape.tokenCount < rounds) :
      ∃ n ≤ p.tape.tokenCount, Loops step n a p (growWithin step rounds a p) := by
    -- A round that goes on leaves fewer tokens, so there are always more rounds than tokens.
    induction rounds generalizing a p with
    | zero => exact absurd h (Nat.not_lt_zero _)
    | succ rounds ih =>
      have hlt := (hs a p).2
      rcases hp : step a p with ⟨d | next, q⟩
      · rw [growWithin, bind_apply_error hp]
        exact ⟨0, Nat.zero_le _, .failed hp⟩
      · rw [growWithin, bind_apply_ok hp]
        cases next with
        | none => exact ⟨0, Nat.zero_le _, .done hp⟩
        | some b =>
          rw [hp] at hlt
          have hq : q.tape.tokenCount < p.tape.tokenCount := hlt (some b) rfl rfl
          obtain ⟨n, hn, hloop⟩ := ih b q (by omega)
          exact ⟨n + 1, by omega, .round hp hloop⟩
  refine hwithin p.rounds a p ?_
  rw [p.rounds_eq]
  exact Nat.lt_succ_of_le p.tape.tokenCount_le

/-! ### Levels -/

/-- Two rules do the same wherever so many constructs are open, and leave as many open. -/
def SameAt (d : Nat) (α : Type) (r r' : Rule σ α) : Prop :=
  ∀ p, p.depth = d → r p = r' p ∧ (r p).2.depth = d

namespace SameAt

variable {d : Nat} {r r' : Rule σ α}

theorem congruence (d : Nat) : Congruence (σ := σ) (SameAt d) where
  single h p hp := by
    refine ⟨rfl, ?_⟩
    rw [← hp]
    exact congrArg (fun x => x.2.depth) (h.run_depth p p.depth)
  bind {α β r r' f f'} hr hf p hp := by
    obtain ⟨hsame, hd⟩ := hr p hp
    rcases h : r p with ⟨e | a, q⟩
    · rw [h] at hsame hd
      rw [bind_apply_error h, bind_apply_error hsame.symm]
      exact ⟨rfl, hd⟩
    · rw [h] at hsame hd
      rw [bind_apply_ok h, bind_apply_ok hsame.symm]
      exact hf a q hd
  inScope {α r r'} hr p hp := by
    obtain ⟨hsame, hd⟩ := hr { p with symbols := Scoping.enter p.symbols } hp
    refine ⟨?_, hd⟩
    unfold Rule.inScope
    rw [hsame]
  rounds hr p hp := hr p.rounds p hp

/-- At the limit nothing is read, whatever was to be read. -/
theorem tooDeep_nested (r : Rule σ α) (hd : maxDepth ≤ d) :
    SameAt d α tooDeep (Rule.nested r) := by
  intro p hp
  rw [nested_of_le (hp ▸ hd)]
  exact ⟨rfl, hp⟩

/-- What is read one level deeper matters below the limit only. -/
theorem nested (h : d < maxDepth → SameAt (d + 1) α r r') :
    SameAt d α (Rule.nested r) (Rule.nested r') := by
  intro p hp
  by_cases hd : maxDepth ≤ p.depth
  · rw [nested_of_le hd, nested_of_le hd]
    exact ⟨rfl, hp⟩
  · rw [nested_of_lt (Nat.lt_of_not_le hd), nested_of_lt (Nat.lt_of_not_le hd)]
    obtain ⟨hsame, hdepth⟩ := h (by omega) { p with depth := p.depth + 1 } (by simp [hp])
    rw [hsame] at hdepth ⊢
    exact ⟨rfl, by simp [hdepth]⟩

end SameAt

end Rule

variable [Scoping σ ν]

/-- The rules for the phrases inside a phrase, made of rules for the phrases inside those. -/
def Inner.enclosing (inner : Inner σ ν) : Inner σ ν :=
  ⟨Rule.nested (Grammar.fallback inner), Rule.nested (Grammar.clause inner),
    Rule.nested (Grammar.anyCommand inner)⟩

/-- The rules for the phrases inside a phrase, so many calls deep, over any rules below. -/
def Inner.unrolled (bottom : Inner σ ν) : Nat → Inner σ ν
  | 0 => bottom
  | n + 1 => (Inner.unrolled bottom n).enclosing

namespace Inner

open Rule (SameAt)
open Rule.Congruence (Relates)

/-- Rules that do the same one level deeper make rules that do the same. -/
theorem enclosing_same {d : Nat} {inner inner' : Inner σ ν}
    (h : d < maxDepth → Relates (SameAt (d + 1)) inner inner') :
    Relates (SameAt d) inner.enclosing inner'.enclosing where
  expression := .nested fun hd => (SameAt.congruence _).fallback (h hd)
  element := .nested fun hd => (SameAt.congruence _).clause (h hd)
  command := .nested fun hd => (SameAt.congruence _).anyCommand (h hd)

/-- At the limit there is nothing to be read by. -/
theorem within_zero_same {d : Nat} (hd : maxDepth ≤ d) (inner : Inner σ ν) :
    Relates (SameAt d) (within 0) inner.enclosing where
  expression := .tooDeep_nested (Grammar.fallback inner) hd
  element := .tooDeep_nested (Grammar.clause inner) hd
  command := .tooDeep_nested (Grammar.anyCommand inner) hd

/-- Calls that go as deep as there are levels to go never get to the rules below. -/
theorem within_same_unrolled (bottom : Inner σ ν) {d n m : Nat} (hn : maxDepth - d ≤ n)
    (hm : maxDepth - d ≤ m) : Relates (SameAt d) (within n) (unrolled bottom (m + 1)) := by
  induction n generalizing d m with
  | zero => exact within_zero_same (by omega) (unrolled bottom m)
  | succ n ih =>
    -- Below the limit there is a level to go, so the calls go at least one level deeper.
    refine enclosing_same fun hd => ?_
    cases m with
    | zero => omega
    | succ m => exact ih (by omega) (by omega)

omit [Scoping σ ν] in
/-- Rules that do the same as others, however much is open, are equal. -/
theorem eq_of_same {inner inner' other : Inner σ ν} (h : ∀ d, Relates (SameAt d) inner other)
    (h' : ∀ d, Relates (SameAt d) inner' other) : inner = inner' := by
  have hexpression : inner.expression = inner'.expression := funext fun p =>
    ((h p.depth).expression p rfl).1.trans ((h' p.depth).expression p rfl).1.symm
  have helement : inner.element = inner'.element := funext fun p =>
    ((h p.depth).element p rfl).1.trans ((h' p.depth).element p rfl).1.symm
  have hcommand : inner.command = inner'.command := funext fun p =>
    ((h p.depth).command p rfl).1.trans ((h' p.depth).command p rfl).1.symm
  cases inner
  cases inner'
  simp_all

/-- The rules call each other: what is inside a phrase is read by the same rules on every level,
and the number of levels that they were built from does not show. -/
theorem full_eq_enclosing : (full : Inner σ ν) = full.enclosing := by
  have hfull (d : Nat) : Relates (SameAt d) (full : Inner σ ν) (unrolled full (maxDepth + 1)) :=
    within_same_unrolled full (Nat.sub_le _ _) (Nat.sub_le _ _)
  have hmore (d : Nat) :
      Relates (SameAt d) (full : Inner σ ν).enclosing (unrolled full (maxDepth + 1)) :=
    within_same_unrolled full (Nat.le_succ_of_le (Nat.sub_le _ _)) (Nat.sub_le _ _)
  exact eq_of_same hfull hmore

end Inner

/-- From any parser, what a rule does is what it does with the calls unrolled, as soon as they go
deeper than there are levels to go. -/
theorem Nonterminal.ruleOver_unrolled (N : Nonterminal) (p : Parser σ) {n : Nat}
    (hn : maxDepth - p.depth < n) (bottom : Inner σ ν) :
    N.ruleOver (Inner.unrolled bottom n) p = N.rule p := by
  obtain ⟨m, rfl⟩ := Nat.exists_eq_add_one_of_ne_zero (Nat.ne_zero_of_lt hn)
  have hinner := Inner.within_same_unrolled bottom (Nat.sub_le _ _) (Nat.le_of_lt_succ hn)
  have hsame := (Rule.SameAt.congruence p.depth).ruleOver hinner N p rfl
  rw [← hsame.1]
  exact congrFun N.ruleOver_full p

/-! ### The grammar -/

namespace Grammar

variable (ν) in
/-- What a value grows by in a round, wherever the grammar lets one grow. -/
inductive IsGrowth : {α : Type} → (α → Rule σ (Option α)) → Prop
  /-- Factors multiplied and divided. -/
  | product : IsGrowth (operation? BinaryOp.multiplicative? (signed Inner.full))
  /-- Products added and subtracted. -/
  | sum : IsGrowth (operation? BinaryOp.additive? (product Inner.full))
  /-- Comparisons joined. -/
  | condition : IsGrowth (operation? BinaryOp.logical? (comparison Inner.full))
  /-- The subscripts of a place. -/
  | place : IsGrowth (subscript? Inner.full)

variable (ν) in
/-- What is collected in a round, wherever the grammar collects something. -/
inductive IsItem : {α : Type} → Rule σ (Option α) → Prop
  /-- The elements of a list. -/
  | list : IsItem (Rule.afterComma (Inner.full : Inner σ ν).element)
  /-- The entries of a map. -/
  | map : IsItem (Rule.afterComma (entry (Inner.full : Inner σ ν)))
  /-- The names of a declaration. -/
  | declaration (constant : Bool) (nullability : Nullability) :
    IsItem (Rule.afterComma (declarator (Inner.full : Inner σ ν) constant nullability))
  /-- The commands of code. -/
  | code : IsItem (command? (Inner.full : Inner σ ν))

/-- Every round in which a value grows has taken a token. -/
theorem IsGrowth.progresses {step : α → Rule σ (Option α)} (h : IsGrowth ν step) (a : α) :
    (step a).Progresses fun next => next.isSome := by
  have hP := Rule.Law.progresses (σ := σ)
  have hi := hP.within maxDepth
  cases h with
  | product => exact hP.operation? (hP.signed hi) a
  | sum => exact hP.operation? (hP.product hi) a
  | condition => exact hP.operation? (hP.comparison hi) a
  | place => exact hP.subscript? hi a

/-- Every round in which something is collected has taken a token. -/
theorem IsItem.progresses {item : Rule σ (Option α)} (h : IsItem ν item) :
    item.Progresses fun next => next.isSome := by
  have hP := Rule.Law.progresses (σ := σ)
  have hi := hP.within maxDepth
  cases h with
  | list => exact hP.afterComma hi.element
  | map => exact hP.afterComma (hP.entry hi)
  | declaration constant nullability => exact hP.afterComma (hP.declarator hi constant nullability)
  | code => exact hP.command? hi

end Grammar

/-- Every rule gets on, whatever the tables and wherever there are marks of the end. From any
parser it ends by itself: the calls it makes go no deeper than there are levels to go, and every
repetition of the grammar has no more rounds than there are tokens, so the bounds that are built
in change nothing. What is inside a phrase is read by the same rules on every level, so these
repetitions are those of every level. A rule never leaves more tokens than there were, and leaves
less if it succeeds, unless it is the rule for code. -/
theorem Nonterminal.gets_on (N : Nonterminal) (p : Parser σ) :
    (Inner.full : Inner σ ν) = Inner.full.enclosing ∧
    (∀ n, maxDepth - p.depth < n → ∀ bottom : Inner σ ν,
      N.ruleOver (Inner.unrolled bottom n) p = N.rule p) ∧
    (∀ {α : Type} {step : α → Rule σ (Option α)}, Grammar.IsGrowth ν step → ∀ a q,
      ∃ n ≤ q.tape.tokenCount, Rule.Loops step n a q (Rule.grow step a q)) ∧
    (∀ {α : Type} {item : Rule σ (Option α)}, Grammar.IsItem ν item → ∀ q,
      ∃ n ≤ q.tape.tokenCount, Rule.Loops (Rule.pushing item) n [] q (Rule.collect item q)) ∧
    (N.rule p).2.tape.tokenCount ≤ p.tape.tokenCount ∧
    (N ≠ .code → ∀ x, (N.rule p).1 = .ok x →
      (N.rule p).2.tape.tokenCount < p.tape.tokenCount) := by
  obtain ⟨hle, hlt⟩ := Rule.Law.progresses.nonterminal (ν := ν) N p
  refine ⟨Inner.full_eq_enclosing, fun n hn => N.ruleOver_unrolled p hn, fun hstep a q => ?_,
    fun hitem q => ?_, hle, fun hN x hx => hlt x hx hN⟩
  · exact Rule.loops_grow hstep.progresses a q
  · rw [Rule.collect_eq_grow]
    exact Rule.loops_grow (Rule.Law.progresses.pushing hitem.progresses) [] q

/-- The tables send every token to a loop or to a constant, and there is a mark of the end before
the last token. -/
theorem Nonterminal.gets_on_constant :
    let tables : Dispatch := ⟨fun _ => some .doWhileLoop, fun _ => some .constant⟩
    let tokens := [⟨.number, "1", 1⟩, .endAt 1, ⟨.name, "x", 2⟩]
    let p := Parser.start (.ofTokens tokens) "p" (SymbolTable.empty .flat) tables
    p.tape.tokenCount = 2 ∧ (Nonterminal.sum.rule p).2.tape.tokenCount < p.tape.tokenCount :=
  ⟨rfl, (Nonterminal.sum.gets_on _).2.2.2.2.2 nofun _ rfl⟩

end Scriptlet
