import Scriptlet.Proofs.Law

/-!
# Only what is read matters

A rule reads the token in hand and those that it takes, one after the other, and knows
nothing of what comes behind. Put before other tokens there, it does the same.

Rules that repeat something have a bound that is counted from all tokens to come. It makes
no difference either: each round takes a token, so the bound is never reached.

## The model

`Tape.AgreesUpTo n` says that two tapes have the same readings at the first places up to
the place `n`. A rule is `Local` if wherever it starts, there is a number `n` so that on any
tape that agrees up to there it takes `n` tokens and ends alike.

## What is proved

* `Rule.Law.isLocal` — being local goes through from the single steps to every rule.
* `Rule.Local.program` — reading a program is local.
-/

namespace Scriptlet

/-! ### Places on a tape -/

namespace Tape

/-- The tape from a later place on. -/
def skip (i : Tape) : Nat → Tape
  | 0 => i
  | n + 1 => i.next.skip n

@[simp] theorem skip_zero (i : Tape) : i.skip 0 = i := rfl

theorem skip_add (i : Tape) (m n : Nat) : i.skip (m + n) = (i.skip m).skip n := by
  induction m generalizing i with
  | zero => rw [Nat.zero_add, skip_zero]
  | succ m ih => rw [Nat.succ_add, skip, skip, ih]

/-- Two tapes have the same readings at the places up to this one. -/
def AgreesUpTo (n : Nat) (i j : Tape) : Prop := ∀ m ≤ n, (i.skip m).hand = (j.skip m).hand

namespace AgreesUpTo

variable {m n : Nat} {i j : Tape}

theorem refl (n : Nat) (i : Tape) : AgreesUpTo n i i := fun _ _ => rfl

theorem hand (h : AgreesUpTo n i j) : i.hand = j.hand := h 0 (Nat.zero_le n)

theorem kind (h : AgreesUpTo n i j) : i.kind = j.kind :=
  congrArg (fun r : Reading => r.token.kind) h.hand

theorem left (h : AgreesUpTo (m + n) i j) : AgreesUpTo m i j :=
  fun k hk => h k (Nat.le_add_right_of_le hk)

theorem skip (h : AgreesUpTo (m + n) i j) : AgreesUpTo n (i.skip m) (j.skip m) := by
  intro k hk
  rw [← skip_add, ← skip_add]
  exact h (m + k) (Nat.add_le_add_left hk m)

end AgreesUpTo

/-- How many readings there are, if there is any but a last mark of the end. -/
def extent (i : Tape) : Nat :=
  if i.kind = .endOfInput ∧ i.coming = [] then 0 else i.coming.length + 1

theorem extent_le (i : Tape) : i.extent ≤ i.coming.length + 1 := by
  unfold extent
  split
  · exact Nat.zero_le _
  · exact Nat.le_refl _

/-- Behind the last reading there is nothing but the mark of the end. -/
theorem extent_next_le_length (i : Tape) : i.next.extent ≤ i.coming.length := by
  obtain ⟨hand, _ | ⟨r, rest⟩⟩ := i
  · simp [next, extent, kind, Token.endAt]
  · exact extent_le ⟨r, rest⟩

theorem extent_next_le (i : Tape) : i.next.extent ≤ i.extent := by
  by_cases hi : i.kind = .endOfInput ∧ i.coming = []
  · have hlength := i.extent_next_le_length
    rw [hi.2] at hlength
    exact Nat.le_trans hlength (Nat.zero_le _)
  · rw [extent.eq_1 i, if_neg hi]
    exact Nat.le_succ_of_le i.extent_next_le_length

/-- Taking a token leaves less. -/
theorem extent_next_lt {i : Tape} (h : i.kind ≠ .endOfInput) : i.next.extent < i.extent := by
  rw [extent.eq_1 i, if_neg fun hi => h hi.1]
  exact Nat.lt_succ_of_le i.extent_next_le_length

theorem extent_skip_le (i : Tape) (n : Nat) : (i.skip n).extent ≤ i.extent := by
  induction n generalizing i with
  | zero => exact Nat.le_refl _
  | succ n ih => exact Nat.le_trans (ih i.next) i.extent_next_le

end Tape

section

variable {σ : Type} {p : Parser σ} {i : Tape} {s : σ}

theorem Parser.position_moved (h : p.tape.hand = i.hand) : (p.moved i s).position = p.position := by
  have hreached : i.hand.reached = p.source.line := (congrArg Reading.reached h).symm
  simp only [position, moved, hreached]

theorem Parser.unexpected_moved (h : p.tape.hand = i.hand) :
    (p.moved i s).unexpected = p.unexpected := by
  have htoken : i.hand.token = p.lookahead := (congrArg Reading.token h).symm
  have hp : (p.moved i s).position = p.position := position_moved h
  simp only [unexpected, hp]
  simp only [moved, htoken]

end

namespace Rule

variable {σ ν α β : Type}

/-- Wherever the rule starts, it ends alike on all tapes that agree up to some place, and
takes the tokens before that place from each. Where what it gives says so, it takes a token
that is not the mark of the end. -/
def Local (r : Rule σ α) (taken : α → Prop) : Prop :=
  ∀ p : Parser σ, ∃ (n : Nat) (res : Except Diagnostic α) (q : Parser σ),
    ∀ i, p.tape.AgreesUpTo n i →
      r (p.moved i p.symbols) = (res, q.moved (i.skip n) q.symbols) ∧
        ∀ a, res = .ok a → taken a → (i.skip n).extent < i.extent

namespace Local

variable {r : Rule σ α} {f : α → Rule σ β} {taken : α → Prop} {u : β → Prop}

/-- A rule that takes no token. -/
theorem stay (res : Parser σ → Except Diagnostic α) (s : Parser σ → σ)
    (h : ∀ p i, p.tape.hand = i.hand →
      r (p.moved i p.symbols) = (res p, p.moved i (s p)))
    (ht : ∀ p a, res p = .ok a → ¬ taken a) : Local r taken := by
  intro p
  refine ⟨0, res p, p.moved p.tape (s p), fun i hi => ⟨h p i hi.hand, fun a ha hta => ?_⟩⟩
  exact absurd hta (ht p a ha)

theorem bind (hr : Local r taken) (hf : ∀ a, Local (f a) fun b => u b ∧ ¬ taken a) :
    Local (r >>= f) u := by
  intro p
  obtain ⟨n, res, q, h⟩ := hr p
  cases res with
  | error d =>
    refine ⟨n, .error d, q, fun i hi => ⟨?_, nofun⟩⟩
    exact bind_apply_error (h i hi).1
  | ok a =>
    obtain ⟨n', res', q', h'⟩ := hf a (q.moved (p.tape.skip n) q.symbols)
    refine ⟨n + n', res', q', fun i hi => ?_⟩
    obtain ⟨hp, hextent⟩ := h i hi.left
    obtain ⟨hq, hextent'⟩ := h' (i.skip n) hi.skip
    rw [bind_apply_ok hp, Tape.skip_add]
    refine ⟨hq, fun b hb hu => ?_⟩
    by_cases ha : taken a
    · exact Nat.lt_of_le_of_lt ((i.skip n).extent_skip_le n') (hextent a rfl ha)
    · exact Nat.lt_of_lt_of_le (hextent' b hb ⟨hu, ha⟩) (i.extent_skip_le n)

theorem advance : Local (σ := σ) advance fun token => token.kind ≠ .endOfInput := by
  intro p
  refine ⟨1, .ok p.tape.hand.token, p, fun i hi => ?_⟩
  rw [advance_eq, Parser.tape_moved, ← hi.hand]
  refine ⟨rfl, fun a ha hk => Tape.extent_next_lt ?_⟩
  cases ha
  rwa [Tape.kind, ← hi.hand]

theorem expect (k : TokenKind) : Local (σ := σ) (expect k) fun _ => k ≠ .endOfInput := by
  intro p
  by_cases hk : p.tape.kind = k
  · refine ⟨1, .ok p.tape.hand.token, p, fun i hi => ?_⟩
    have hi' : i.kind = k := hi.kind.symm.trans hk
    rw [expect_eq_of_kind (p := p.moved i p.symbols) hi', Parser.tape_moved, ← hi.hand]
    exact ⟨rfl, fun _ _ hne => Tape.extent_next_lt (hi'.symm ▸ hne)⟩
  · refine ⟨0, .error p.unexpected, p, fun i hi => ?_⟩
    have hi' : i.kind ≠ k := fun h => hk (hi.kind.trans h)
    rw [expect_eq_of_kind_ne (p := p.moved i p.symbols) hi', Parser.unexpected_moved hi.hand]
    exact ⟨rfl, nofun⟩

theorem accept (k : TokenKind) :
    Local (σ := σ) (accept k) fun taken => taken = true ∧ k ≠ .endOfInput := by
  intro p
  by_cases hk : p.tape.kind = k
  · refine ⟨1, .ok true, p, fun i hi => ?_⟩
    have hi' : i.kind = k := hi.kind.symm.trans hk
    rw [accept_eq_of_kind (p := p.moved i p.symbols) hi', Parser.tape_moved]
    exact ⟨rfl, fun _ _ hne => Tape.extent_next_lt (hi'.symm ▸ hne.2)⟩
  · refine ⟨0, .ok false, p, fun i hi => ?_⟩
    have hi' : i.kind ≠ k := fun h => hk (hi.kind.trans h)
    rw [accept_eq_of_kind_ne (p := p.moved i p.symbols) hi']
    refine ⟨rfl, fun a ha hne => ?_⟩
    cases ha
    exact absurd hne.1 Bool.false_ne_true

theorem nested (hr : Local r taken) : Local (nested r) taken := by
  intro p
  by_cases hd : maxDepth ≤ p.depth
  · refine ⟨0, .error ⟨.tooDeep maxDepth, p.position⟩, p, fun i hi => ⟨?_, nofun⟩⟩
    rw [nested_of_le (p := p.moved i p.symbols) hd, Parser.position_moved hi.hand]
    rfl
  · obtain ⟨n, res, q, h⟩ := hr { p with depth := p.depth + 1 }
    refine ⟨n, res, { q with depth := q.depth - 1 }, fun i hi => ?_⟩
    obtain ⟨hp, hextent⟩ := h i hi
    have hp' : r { p.moved i p.symbols with depth := (p.moved i p.symbols).depth + 1 } = _ := hp
    rw [nested_of_lt (p := p.moved i p.symbols) (Nat.lt_of_not_le hd), hp']
    exact ⟨rfl, hextent⟩

variable [Scoping σ ν]

theorem inScope (hr : Local r taken) : Local (inScope r) taken := by
  intro p
  obtain ⟨n, res, q, h⟩ := hr { p with symbols := Scoping.enter p.symbols }
  refine ⟨n, res, { q with symbols := Scoping.leave q.symbols }, fun i hi => ?_⟩
  obtain ⟨hp, hextent⟩ := h i hi
  have hp' : r { p.moved i p.symbols with symbols := Scoping.enter p.symbols } = _ := hp
  unfold Rule.inScope
  simp only [Parser.symbols_moved]
  rw [hp']
  exact ⟨rfl, hextent⟩

omit [Scoping σ ν] in
/-- The rounds of a repetition are local, if they are more than there are tokens. The
induction is on the tokens that are left: a round that goes on takes one. -/
theorem growWithin {step : α → Rule σ (Option α)}
    (hs : ∀ a, Local (step a) fun next => next.isSome = true) (p : Parser σ) (a : α) :
    ∃ (n : Nat) (res : Except Diagnostic α) (q : Parser σ), ∀ i, p.tape.AgreesUpTo n i →
      ∀ rounds > i.extent, Rule.growWithin step rounds a (p.moved i p.symbols) =
        (res, q.moved (i.skip n) q.symbols) := by
  induction hextent : p.tape.extent using Nat.strongRecOn generalizing p a with
  | ind extent ih =>
    obtain ⟨n, res, q, h⟩ := hs a p
    -- A bound above the number of tokens allows one round at least.
    have hround {rounds : Nat} {i : Tape} (hr : rounds > i.extent) : ∃ m, rounds = m + 1 :=
      Nat.exists_eq_succ_of_ne_zero (by omega)
    match res with
    | .error d =>
      refine ⟨n, .error d, q, fun i hi rounds hr => ?_⟩
      obtain ⟨m, rfl⟩ := hround hr
      exact bind_apply_error (h i hi).1
    | .ok none =>
      refine ⟨n, .ok a, q, fun i hi rounds hr => ?_⟩
      obtain ⟨m, rfl⟩ := hround hr
      exact bind_apply_ok (h i hi).1
    | .ok (some b) =>
      have hless : (p.tape.skip n).extent < extent :=
        hextent ▸ (h p.tape (.refl n p.tape)).2 (some b) rfl rfl
      obtain ⟨n', res', q', h'⟩ :=
        ih _ hless (q.moved (p.tape.skip n) q.symbols) b rfl
      refine ⟨n + n', res', q', fun i hi rounds hr => ?_⟩
      obtain ⟨m, rfl⟩ := hround hr
      obtain ⟨hp, htaken⟩ := h i hi.left
      have hm : m > (i.skip n).extent :=
        Nat.lt_of_lt_of_le (htaken (some b) rfl rfl) (Nat.le_of_lt_succ hr)
      rw [Tape.skip_add]
      exact (bind_apply_ok hp).trans (h' (i.skip n) hi.skip m hm)

/-- A repetition has more rounds than there are tokens. -/
theorem repeated {r : Nat → Rule σ α}
    (h : ∀ p : Parser σ, ∃ (n : Nat) (res : Except Diagnostic α) (q : Parser σ),
      ∀ i, p.tape.AgreesUpTo n i → ∀ rounds > i.extent,
        r rounds (p.moved i p.symbols) = (res, q.moved (i.skip n) q.symbols)) :
    Local (fun p => r p.rounds p) fun _ => False := by
  intro p
  obtain ⟨n, res, q, hq⟩ := h p
  refine ⟨n, res, q, fun i hi => ⟨hq i hi _ ?_, fun _ _ => False.elim⟩⟩
  exact Nat.lt_succ_of_le i.extent_le

omit [Scoping σ ν] in
theorem keeping (ask : σ → String → Except Diagnostic (α × σ)) :
    Local (keeping ask) fun _ => False := by
  refine .stay (fun p => (Rule.keeping ask p).1) (fun p => (Rule.keeping ask p).2.symbols)
    (fun p i _ => ?_) fun _ _ _ => id
  cases h : ask p.symbols p.file with
  | error d => rw [keeping_eq_of_error h, keeping_eq_of_error (p := p.moved i p.symbols) h]
  | ok x =>
    rw [keeping_eq_of_ok h, keeping_eq_of_ok (p := p.moved i p.symbols) h]
    rfl

end Local

/-- Being local goes through from the single steps to every rule. -/
theorem Law.isLocal [Scoping σ ν] : Law fun _ (r : Rule σ _) t => Local r t where
  mono hr hu := fun p => by
    obtain ⟨n, res, q, h⟩ := hr p
    exact ⟨n, res, q, fun i hi => ⟨(h i hi).1, fun a ha hua => (h i hi).2 a ha (hu a hua)⟩⟩
  pure ht := .stay (fun _ => .ok _) (fun p => p.symbols) (fun _ _ _ => rfl) fun p b hb => by
    cases hb
    exact ht
  bind := .bind
  peek := .stay (fun p => .ok p.tape.hand.token) (fun p => p.symbols)
    (fun p i hi => by rw [hi]; rfl) fun _ _ _ => id
  kind := .stay (fun p => .ok p.tape.kind) (fun p => p.symbols)
    (fun p i hi => by rw [Tape.kind, hi]; rfl) fun _ _ _ => id
  reached := .stay (fun p => .ok p.tape.hand.reached) (fun p => p.symbols)
    (fun p i hi => by rw [hi]; rfl) fun _ _ _ => id
  position := .stay (fun p => .ok p.position) (fun p => p.symbols)
    (fun p i hi => by rw [← Parser.position_moved hi]; rfl) fun _ _ _ => id
  dispatch := .stay (fun p => .ok p.dispatch) (fun p => p.symbols) (fun _ _ _ => rfl)
    fun _ _ _ => id
  fail d := .stay (fun _ => .error d) (fun p => p.symbols) (fun _ _ _ => rfl) nofun
  failAt fault line := .stay (fun p => .error ⟨fault, line, p.file⟩) (fun p => p.symbols)
    (fun _ _ _ => rfl) nofun
  unexpected := .stay (fun p => .error p.unexpected) (fun p => p.symbols)
    (fun p i hi => by rw [← Parser.unexpected_moved hi]; rfl) nofun
  tooDeep := .stay (fun p => .error ⟨.tooDeep maxDepth, p.position⟩) (fun p => p.symbols)
    (fun p i hi => by rw [← Parser.position_moved hi]; rfl) nofun
  advance := .advance
  expect := .expect
  accept := .accept
  nested := .nested
  inScope := .inScope
  declare t constant nullability := by
    rw [declare_eq]
    exact .keeping _
  declareLoop t := by
    rw [declareLoop_eq]
    exact .keeping _
  resolve name := .stay (fun p => Scoping.resolve p.symbols name.value ⟨name.line, p.file⟩)
    (fun p => p.symbols) (fun _ _ _ => rfl) fun _ _ _ => id
  grow a hs := .repeated fun p => Local.growWithin hs p a

/-- Reading a program is local. -/
theorem Local.program [Scoping σ ν] :
    Local (Grammar.program : Rule σ (Block ν)) fun _ => False := Law.isLocal.program

end Rule

end Scriptlet
