import Scriptlet.Grammar.Expression

/-!
# What is left to read

A parser holds one token and a source of those to come. Together they are a `Tape`:
the reading in hand and the readings behind it. A rule that reads moves the parser
along its tape and may change its table of names; nothing else in it changes.

## What is proved

* `Parser.advance_eq` and the equations beside it — what the rules that read single
  tokens do, said of the tape.
* `Tape.unread_next` — each token taken leaves one less before the end of the input.
* `Rule.collect_eq_grow` — collecting items is letting a list of them grow.
* `Rule.collectWithin_afterComma`, `Grammar.collectWithin_command?` — one round of what the
  grammar repeats.
* `Rule.declare_eq`, `Rule.declareLoop_eq` — declaring is keeping what the table answers.
-/

namespace Scriptlet

/-- What is left to read. -/
structure Tape where
  /-- The reading in hand. -/
  hand : Reading
  /-- The readings behind it. -/
  coming : List Reading
  deriving DecidableEq

namespace Tape

/-- The kind of the token in hand. -/
def kind (i : Tape) : TokenKind := i.hand.token.kind

/-- The tape behind the reading in hand. Behind the last reading there is the mark of
the end, on the line reached. -/
def next (i : Tape) : Tape :=
  match i.coming with
  | [] => ⟨⟨.endAt i.hand.reached, i.hand.reached⟩, []⟩
  | r :: rest => ⟨r, rest⟩

/-- The readings on a tape. -/
def readings (i : Tape) : List Reading := i.hand :: i.coming

/-- How many readings there are before the first mark of the end. -/
def unread (i : Tape) : Nat :=
  (i.readings.takeWhile fun r => r.token.kind ≠ .endOfInput).length

theorem unread_le (i : Tape) : i.unread ≤ i.coming.length + 1 :=
  (List.takeWhile_sublist _).length_le

/-- Taking a token leaves one less before the end. -/
theorem unread_next {i : Tape} (h : i.kind ≠ .endOfInput) : i.unread = i.next.unread + 1 := by
  obtain ⟨hand, coming⟩ := i
  have hh : hand.token.kind ≠ .endOfInput := h
  cases coming <;> simp [unread, readings, next, Token.endAt, hh]

/-- Rounds that are enough for the readings from a token on are one more than what is
enough behind it. -/
theorem exists_rounds {i : Tape} {k : TokenKind} {rounds : Nat} (h : i.unread < rounds)
    (hi : i.kind = k) (hk : k ≠ .endOfInput := by decide) :
    ∃ f, rounds = f + 1 ∧ ∀ j : Tape, j.unread < i.next.unread → j.unread < f := by
  have hn := unread_next (i := i) (by rwa [hi])
  exact ⟨rounds - 1, by omega, fun j hj => by omega⟩

end Tape

namespace Parser

variable {σ τ υ : Type}

/-- What the parser has left to read. -/
def tape (p : Parser σ) : Tape := ⟨⟨p.lookahead, p.source.line⟩, p.source.pending⟩

/-- The parser at another place of the tape, with another table. -/
def moved (p : Parser σ) (i : Tape) (s : τ) : Parser τ :=
  ⟨i.hand.token, ⟨i.coming, i.hand.reached⟩, p.file, s, p.dispatch, p.depth⟩

@[simp] theorem tape_moved (p : Parser σ) (i : Tape) (s : τ) : (p.moved i s).tape = i := rfl

@[simp] theorem symbols_moved (p : Parser σ) (i : Tape) (s : τ) :
    (p.moved i s).symbols = s := rfl

@[simp] theorem file_moved (p : Parser σ) (i : Tape) (s : τ) : (p.moved i s).file = p.file := rfl

@[simp] theorem dispatch_moved (p : Parser σ) (i : Tape) (s : τ) :
    (p.moved i s).dispatch = p.dispatch := rfl

@[simp] theorem depth_moved (p : Parser σ) (i : Tape) (s : τ) :
    (p.moved i s).depth = p.depth := rfl

@[simp] theorem moved_moved (p : Parser σ) (i j : Tape) (s : τ) (t : υ) :
    (p.moved i s).moved j t = p.moved j t := rfl

@[simp] theorem moved_self (p : Parser σ) : p.moved p.tape p.symbols = p := rfl

theorem rounds_eq (p : Parser σ) : p.rounds = p.tape.coming.length + 2 := rfl

theorem unread_lt_rounds (p : Parser σ) : p.tape.unread < p.rounds :=
  Nat.lt_succ_of_le p.tape.unread_le

end Parser

namespace Rule

variable {σ α : Type}

theorem reached_eq (p : Parser σ) : reached p = (.ok p.tape.hand.reached, p) := rfl

/-- Taking a token moves the parser one place along its tape. -/
theorem advance_eq (p : Parser σ) :
    advance p = (.ok p.tape.hand.token, p.moved p.tape.next p.symbols) := by
  obtain ⟨lookahead, ⟨pending, line⟩, file, symbols, dispatch, depth⟩ := p
  cases pending <;> rfl

theorem expect_eq_of_kind {p : Parser σ} {k : TokenKind} (h : p.tape.kind = k) :
    expect k p = (.ok p.tape.hand.token, p.moved p.tape.next p.symbols) := by
  rw [← advance_eq]
  exact if_pos h

theorem expect_eq_of_kind_ne {p : Parser σ} {k : TokenKind} (h : p.tape.kind ≠ k) :
    expect k p = (.error p.unexpected, p) := if_neg h

theorem accept_eq_of_kind {p : Parser σ} {k : TokenKind} (h : p.tape.kind = k) :
    accept k p = (.ok true, p.moved p.tape.next p.symbols) := by
  have ha : accept k p = (.ok true, (advance p).2) := if_pos h
  rw [ha, advance_eq]

theorem accept_eq_of_kind_ne {p : Parser σ} {k : TokenKind} (h : p.tape.kind ≠ k) :
    accept k p = (.ok false, p) := if_neg h

/-- At the limit a phrase is not begun. -/
theorem nested_of_le {r : Rule σ α} {p : Parser σ} (h : maxDepth ≤ p.depth) :
    nested r p = (.error ⟨.tooDeep maxDepth, p.position⟩, p) := if_pos h

/-- Below the limit a phrase is read one level deeper. -/
theorem nested_of_lt {r : Rule σ α} {p : Parser σ} (h : p.depth < maxDepth) :
    nested r p = ((r { p with depth := p.depth + 1 }).1,
      { (r { p with depth := p.depth + 1 }).2 with
        depth := (r { p with depth := p.depth + 1 }).2.depth - 1 }) := if_neg (Nat.not_le.2 h)

/-! ### Repeating -/

/-- A round that puts one more item behind those there are. -/
def pushing (item : Rule σ (Option α)) (items : List α) : Rule σ (Option (List α)) := do
  match ← item with
  | none => pure none
  | some a => pure (some (items ++ [a]))

/-- Such rounds put behind the items there are what collecting gives. -/
theorem growWithin_pushing (item : Rule σ (Option α)) (rounds : Nat) (items : List α) :
    growWithin (pushing item) rounds items = (items ++ ·) <$> collectWithin item rounds := by
  induction rounds generalizing items with
  | zero => simp [growWithin, collectWithin]
  | succ rounds ih =>
    rw [growWithin, pushing, collectWithin, bind_assoc, map_bind]
    congr 1
    funext next
    cases next with
    | none => simp
    | some a => simp [ih]

/-- Collecting is repeating such rounds. -/
theorem collect_eq_grow (item : Rule σ (Option α)) : collect item = grow (pushing item) [] := by
  funext p
  rw [grow, growWithin_pushing, collect]
  simp

/-- A comma and an item, if a comma follows. -/
def afterComma (item : Rule σ α) : Rule σ (Option α) := do
  if ← accept (.symbol .comma) then
    let next ← item
    pure (some next)
  else pure none

/-- One item, and further ones with a comma before each, for as many rounds as the parser
behind the first one allows. -/
def separated (item : Rule σ α) (rounds : Parser σ → Nat) : Rule σ (List α) := do
  let first ← item
  let rest ← fun p => collectWithin (afterComma item) (rounds p) p
  pure (first :: rest)

/-- A round takes a comma, and behind it there are items with commas between them again. -/
theorem collectWithin_afterComma (item : Rule σ α) (rounds : Nat) :
    collectWithin (afterComma item) (rounds + 1) = (do
      if ← accept (.symbol .comma) then separated item fun _ => rounds else pure []) := by
  rw [collectWithin, afterComma, bind_assoc]
  congr 1
  funext b
  cases b
  · rfl
  · rw [if_pos rfl, if_pos rfl, bind_assoc]
    rfl

/-! ### Declaring -/

/-- Asks the table, and keeps the table that comes with the answer. -/
def keeping (ask : σ → String → Except Diagnostic (α × σ)) : Rule σ α := fun p =>
  match ask p.symbols p.file with
  | .ok (a, symbols) => (.ok a, { p with symbols })
  | .error d => (.error d, p)

theorem keeping_eq_of_ok {ask : σ → String → Except Diagnostic (α × σ)} {p : Parser σ} {a : α}
    {s : σ} (h : ask p.symbols p.file = .ok (a, s)) :
    keeping ask p = (.ok a, { p with symbols := s }) := by
  simp only [keeping, h]

theorem keeping_eq_of_error {ask : σ → String → Except Diagnostic (α × σ)} {p : Parser σ}
    {d : Diagnostic} (h : ask p.symbols p.file = .error d) : keeping ask p = (.error d, p) := by
  simp only [keeping, h]

theorem declare_eq {ν : Type} [Scoping σ ν] (t : Token) (constant : Bool)
    (nullability : Nullability) : (declare t constant nullability : Rule σ ν) =
      keeping fun s file => Scoping.declare s t.value constant nullability ⟨t.line, file⟩ := rfl

theorem declareLoop_eq {ν : Type} [Scoping σ ν] (t : Token) : (declareLoop t : Rule σ ν) =
    keeping fun s file => Scoping.declareLoop s t.value ⟨t.line, file⟩ := rfl

end Rule

namespace Grammar

variable {σ ν : Type}

theorem operator_eq (p : Parser σ) :
    operator p = (.ok p.tape.next.hand.reached, p.moved p.tape.next p.symbols) := by
  rw [operator, Rule.bind_apply_ok (Rule.advance_eq p), Rule.reached_eq, Parser.tape_moved]

/-- A pair is a chain of one round. -/
theorem pair_eq (op? : TokenKind → Option BinaryOp) (operand : Rule σ (Expr ν)) :
    pair op? operand = operand >>= Rule.growWithin (operation? op? operand) 1 := by
  unfold pair
  congr 1
  funext e
  unfold Rule.growWithin
  congr 1
  funext next
  cases next <;> rfl

/-- A command, if one starts here. -/
def command? (inner : Inner σ ν) : Rule σ (Option (Command ν)) := do
  if (← Rule.dispatch).startsCommand (← Rule.kind) then
    let command ← inner.command
    pure (some command)
  else pure none

/-- One round of collecting commands. -/
theorem collectWithin_command? (inner : Inner σ ν) (rounds : Nat) :
    Rule.collectWithin (command? inner) (rounds + 1) = (do
      if (← Rule.dispatch).startsCommand (← Rule.kind) then
        let command ← inner.command
        let commands ← Rule.collectWithin (command? inner) rounds
        pure (command :: commands)
      else pure []) := by
  rw [Rule.collectWithin, command?]
  simp only [bind_assoc]
  refine bind_congr fun tables => bind_congr fun kind => ?_
  split <;> simp only [bind_assoc, pure_bind]

variable [Scoping σ ν]

/-- An operand, or an expression in parentheses. -/
def primary (inner : Inner σ ν) : Rule σ (Expr ν) := do
  if (← Rule.kind) = .symbol .openParen then Rule.parenthesized inner.expression
  else operand inner

/-- A factor is a primary with at most one operator after it. -/
theorem factor_eq (inner : Inner σ ν) :
    factor inner = (do
      let value ← primary inner
      match UnaryOp.after? (← Rule.kind) with
      | none => pure value
      | some op => do
        let line ← operator
        pure (.unary op value line)) := by
  unfold factor primary
  rw [bind_assoc]
  congr 1
  funext kind
  split <;> rfl

end Grammar

end Scriptlet
