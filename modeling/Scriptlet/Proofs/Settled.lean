import Scriptlet.Program
import Scriptlet.Proofs.Stamp
import Scriptlet.Proofs.Tape

/-!
# Reading from tokens alone

A source that is made from a text has reached the end of the token it gave last. A source that is
made from tokens knows only where they start. So the readings of the one are those of the other
with the line reached replaced by the line of the token: they are *settled*. A parser may be
settled as it stands, and its rules go on as before: they fail with the same faults, and give the
same phrases but for the stamps of operators.

## The model

`Rule.Alike r r' g` says of two rules that `r` does on every parser what `r'` does on the same
parser settled: both fail with the same fault, or both give phrases that `g` makes equal, and the
parsers behind them differ in being settled only. Behind the last reading a source goes on with
the mark of the end on the line reached, so that the last reading must be settled from the start
(`Tape.EndsSettled`).

## What is proved

* `Rule.Alike.bind` and `Rule.Alike.grow` — the judgement goes through from parts to wholes.
* `Rule.Steady.advance` and the lemmas beside it — what the single steps do alike.
-/

namespace Scriptlet

/-! ### Settling -/

/-- The reading with nothing reached but the line of its token. -/
def Reading.settled (r : Reading) : Reading := ⟨r.token, r.token.line⟩

namespace Tape

/-- All readings settled. -/
def settled (i : Tape) : Tape := ⟨i.hand.settled, i.coming.map Reading.settled⟩

/-- The last reading is settled as it is. -/
def EndsSettled (i : Tape) : Prop := ∀ r ∈ i.readings.getLast?, r.settled = r

/-- Settling goes along with taking a token. -/
theorem next_settled {i : Tape} (h : i.EndsSettled) : i.settled.next = i.next.settled := by
  obtain ⟨hand, coming⟩ := i
  cases coming with
  | nil =>
    have hhand : hand.settled = hand := h hand rfl
    have hline : hand.token.line = hand.reached := congrArg Reading.reached hhand
    simp [next, settled, Reading.settled, Token.endAt, hline]
  | cons r rest => rfl

theorem EndsSettled.next {i : Tape} (h : i.EndsSettled) : i.next.EndsSettled := by
  obtain ⟨hand, coming⟩ := i
  cases coming with
  | nil =>
    rintro r ⟨⟩
    rfl
  | cons r rest =>
    have hlast : (hand :: r :: rest).getLast? = (r :: rest).getLast? := List.getLast?_cons_cons
    exact fun r' hr' => h r' (hlast.symm ▸ hr')

end Tape

/-- The parser with all that it has to read settled. -/
def Parser.settled {σ : Type} (p : Parser σ) : Parser σ := p.moved p.tape.settled p.symbols

/-- As many rounds are allowed, settled or not. -/
theorem Parser.rounds_settled {σ : Type} (p : Parser σ) : p.settled.rounds = p.rounds := by
  simp [rounds, settled, moved, tape, Tape.settled]

/-- Two results are both a failure, for the same fault, or both a phrase, the same up to `g`. -/
def SameUpTo {α β : Type} (g : α → β) : Except Diagnostic α → Except Diagnostic α → Prop
  | .ok a, .ok a' => g a = g a'
  | .error d, .error d' => d.fault = d'.fault
  | _, _ => False

namespace Rule

variable {σ ν α β γ δ : Type}

/-- The first rule does on every parser, up to `g`, what the second does on that parser
settled. -/
def Alike (r r' : Rule σ α) (g : α → β) : Prop :=
  ∀ p : Parser σ, p.tape.EndsSettled → SameUpTo g (r p).1 (r' p.settled).1 ∧
    (r' p.settled).2 = (r p).2.settled ∧ (r p).2.tape.EndsSettled

/-- Settling makes no difference to the rule, up to `g`. -/
abbrev Steady (r : Rule σ α) (g : α → β) : Prop := Alike r r g

namespace Alike

variable {r r' : Rule σ α} {f f' : α → Rule σ γ} {g : α → β} {h : γ → δ}

theorem pure {a a' : α} (ha : g a = g a') : Alike (σ := σ) (pure a) (pure a') g :=
  fun _ hp => ⟨ha, rfl, hp⟩

theorem bind (hr : Alike r r' g) (hf : ∀ a a', g a = g a' → Alike (f a) (f' a') h) :
    Alike (r >>= f) (r' >>= f') h := by
  intro p hp
  obtain ⟨hres, hq, hends⟩ := hr p hp
  rcases hx : r p with ⟨res, q⟩
  rcases hx' : r' p.settled with ⟨res', q'⟩
  rw [hx, hx'] at hres hq
  rw [hx] at hends
  obtain rfl : q' = q.settled := hq
  cases res with
  | error d =>
    cases res' with
    | error d' =>
      rw [bind_apply_error hx, bind_apply_error hx']
      exact ⟨hres, rfl, hends⟩
    | ok a' => exact hres.elim
  | ok a =>
    cases res' with
    | error d' => exact hres.elim
    | ok a' =>
      rw [bind_apply_ok hx, bind_apply_ok hx']
      exact hf a a' hres q hends

/-- What comes first gives the very same, settled or not. -/
theorem bind_same (hr : Steady r id) (hf : ∀ a, Alike (f a) (f' a) h) :
    Alike (r >>= f) (r >>= f') h := by
  refine hr.bind fun a a' ha => ?_
  obtain rfl : a = a' := ha
  exact hf a

/-- Of what comes first only the failures matter. -/
theorem bind_any (hr : Steady r fun _ => ()) (hf : ∀ a a', Alike (f a) (f' a') h) :
    Alike (r >>= f) (r >>= f') h :=
  hr.bind fun a a' _ => hf a a'

theorem fail {d d' : Diagnostic} (hd : d.fault = d'.fault) :
    Alike (σ := σ) (fail d) (fail d') g :=
  fun _ hp => ⟨hd, rfl, hp⟩

theorem failAt (fault : Fault) (line line' : Nat) :
    Alike (σ := σ) (failAt fault line) (failAt fault line') g :=
  fun _ hp => ⟨rfl, rfl, hp⟩

theorem growWithin {step step' : α → Rule σ (Option α)}
    (hs : ∀ a a', g a = g a' → Alike (step a) (step' a') (Option.map g)) (n : Nat) {a a' : α}
    (ha : g a = g a') : Alike (growWithin step n a) (growWithin step' n a') g := by
  induction n generalizing a a' with
  | zero => exact pure ha
  | succ n ih =>
    refine (hs a a' ha).bind fun next next' hnext => ?_
    cases next with
    | none =>
      cases next' with
      | none => exact pure ha
      | some b' => cases hnext
    | some b =>
      cases next' with
      | none => cases hnext
      | some b' => exact ih (Option.some.inj hnext)

theorem grow {step step' : α → Rule σ (Option α)}
    (hs : ∀ a a', g a = g a' → Alike (step a) (step' a') (Option.map g)) {a a' : α}
    (ha : g a = g a') : Alike (grow step a) (grow step' a') g := by
  intro p hp
  unfold Rule.grow
  rw [p.rounds_settled]
  exact growWithin hs p.rounds ha p hp

end Alike

namespace Steady

variable {r : Rule σ α} {g : α → β}

/-! ### Single steps -/

theorem pure (a : α) : Steady (σ := σ) (pure a) g := Alike.pure rfl

theorem peek : Steady (σ := σ) peek id := fun _ hp => ⟨rfl, rfl, hp⟩

theorem kind : Steady (σ := σ) kind id := fun _ hp => ⟨rfl, rfl, hp⟩

theorem dispatch : Steady (σ := σ) dispatch id := fun _ hp => ⟨rfl, rfl, hp⟩

/-- The line reached is what settling changes. -/
theorem reached : Steady (σ := σ) reached fun _ => () := fun _ hp => ⟨rfl, rfl, hp⟩

theorem position : Steady (σ := σ) position fun _ => () := fun _ hp => ⟨rfl, rfl, hp⟩

theorem unexpected : Steady (σ := σ) unexpected g := by
  intro p hp
  refine ⟨?_, rfl, hp⟩
  have hlookahead : p.settled.lookahead = p.lookahead := rfl
  simp only [SameUpTo, Rule.unexpected, Parser.unexpected, hlookahead]
  split <;> rfl

theorem tooDeep : Steady (σ := σ) tooDeep g := fun _ hp => ⟨rfl, rfl, hp⟩

theorem advance : Steady (σ := σ) advance id := by
  intro p hp
  rw [advance_eq, advance_eq]
  refine ⟨rfl, ?_, hp.next⟩
  have hnext : p.settled.tape.next = p.tape.next.settled := Tape.next_settled hp
  rw [hnext]
  rfl

theorem expect (k : TokenKind) : Steady (σ := σ) (expect k) id := by
  intro p hp
  by_cases hk : p.lookahead.kind = k
  · have he : Rule.expect k p = Rule.advance p := if_pos hk
    have he' : Rule.expect k p.settled = Rule.advance p.settled := if_pos hk
    rw [he, he']
    exact advance p hp
  · have he : Rule.expect k p = Rule.unexpected p := if_neg hk
    have he' : Rule.expect k p.settled = Rule.unexpected p.settled := if_neg hk
    rw [he, he']
    exact unexpected p hp

theorem accept (k : TokenKind) : Steady (σ := σ) (accept k) id := by
  intro p hp
  by_cases hk : p.lookahead.kind = k
  · have he : Rule.accept k p = (.ok true, (Rule.advance p).2) := if_pos hk
    have he' : Rule.accept k p.settled = (.ok true, (Rule.advance p.settled).2) := if_pos hk
    rw [he, he']
    exact ⟨rfl, (advance p hp).2⟩
  · have he : Rule.accept k p = (.ok false, p) := if_neg hk
    have he' : Rule.accept k p.settled = (.ok false, p.settled) := if_neg hk
    rw [he, he']
    exact ⟨rfl, rfl, hp⟩

theorem nested (hr : Steady r g) : Steady (nested r) g := by
  intro p hp
  by_cases hd : maxDepth ≤ p.depth
  · rw [nested_of_le hd, nested_of_le (p := p.settled) hd]
    exact tooDeep p hp
  · obtain ⟨hres, hq, hends⟩ := hr { p with depth := p.depth + 1 } hp
    have hq' : (r { p.settled with depth := p.settled.depth + 1 }).2 = _ := hq
    rw [nested_of_lt (Nat.lt_of_not_le hd), nested_of_lt (p := p.settled) (Nat.lt_of_not_le hd),
      hq']
    exact ⟨hres, rfl, hends⟩

section

variable [Scoping σ ν]

theorem inScope (hr : Steady r g) : Steady (inScope r) g := by
  intro p hp
  obtain ⟨hres, hq, hends⟩ := hr { p with symbols := Scoping.enter p.symbols } hp
  have hq' : (r { p.settled with symbols := Scoping.enter p.symbols }).2 = _ := hq
  refine ⟨hres, ?_, hends⟩
  have hs : (Rule.inScope r p.settled).2 =
      { (r { p.settled with symbols := Scoping.enter p.symbols }).2 with
        symbols := Scoping.leave
          (r { p.settled with symbols := Scoping.enter p.symbols }).2.symbols } := rfl
  rw [hs, hq']
  rfl

/-- Asking the table looks at nothing that settling changes. -/
theorem keeping (ask : σ → String → Except Diagnostic (α × σ)) : Steady (keeping ask) id := by
  intro p hp
  have hsettled : ask p.settled.symbols p.settled.file = ask p.symbols p.file := rfl
  cases h : ask p.symbols p.file with
  | error d =>
    rw [keeping_eq_of_error h, keeping_eq_of_error (hsettled.trans h)]
    exact ⟨rfl, rfl, hp⟩
  | ok x =>
    rw [keeping_eq_of_ok h, keeping_eq_of_ok (hsettled.trans h)]
    exact ⟨rfl, rfl, hp⟩

theorem declare (name : Token) (constant : Bool) (nullability : Nullability) :
    Steady (σ := σ) (declare name constant nullability) id := by
  rw [declare_eq]
  exact keeping _

theorem declareLoop (name : Token) : Steady (σ := σ) (declareLoop name) id := by
  rw [declareLoop_eq]
  exact keeping _

theorem resolve (name : Token) : Steady (σ := σ) (resolve name) id := by
  intro p hp
  refine ⟨?_, rfl, hp⟩
  have hsame : (Rule.resolve name p.settled).1 = (Rule.resolve name p).1 := rfl
  rw [hsame]
  cases (Rule.resolve name p).1 <;> rfl

end

/-! ### Lists and parentheses -/

theorem pushing {item : Rule σ (Option α)} (hi : Steady item (Option.map g))
    {items items' : List α} (h : items.map g = items'.map g) :
    Alike (pushing item items) (pushing item items') (Option.map (List.map g)) := by
  refine hi.bind fun next next' hnext => ?_
  cases next with
  | none =>
    cases next' with
    | none => exact .pure rfl
    | some a' => cases hnext
  | some a =>
    cases next' with
    | none => cases hnext
    | some a' =>
      refine .pure ?_
      have ha : g a = g a' := Option.some.inj hnext
      simp [h, ha]

theorem collect {item : Rule σ (Option α)} (hi : Steady item (Option.map g)) :
    Steady (collect item) (List.map g) := by
  rw [collect_eq_grow]
  exact Alike.grow (fun items items' h => hi.pushing h) rfl

theorem parenthesized (hr : Steady r g) : Steady (parenthesized r) g := by
  refine (expect _).bind_same fun _ => hr.bind fun a a' ha => ?_
  exact (expect _).bind_same fun _ => .pure ha

theorem commaSeparated (hr : Steady r g) : Steady (commaSeparated r) (List.map g) := by
  refine hr.bind fun first first' hfirst =>
    (collect (g := g) ?_).bind fun rest rest' hrest => .pure ?_
  · refine (accept _).bind_same fun comma => ?_
    cases comma with
    | true => exact hr.bind fun next next' hnext => .pure (congrArg some hnext)
    | false => exact pure none
  · rw [List.map_cons, List.map_cons, hfirst, hrest]

theorem itemsUntil (close : Symbol) (hr : Steady r g) :
    Steady (itemsUntil close r) (List.map g) := by
  refine kind.bind_same fun kind => ?_
  split
  · exact pure []
  · exact hr.commaSeparated

theorem operator : Steady (σ := σ) Grammar.operator fun _ => () :=
  advance.bind_same fun _ => reached

theorem withLoopVariable [Scoping σ ν] (name : Token) (hr : Steady r g) :
    Steady (withLoopVariable name r) (Prod.map (id : ν → ν) g) := by
  refine inScope ((declareLoop name).bind_same fun v => hr.bind fun a a' ha => .pure ?_)
  rw [Prod.map, Prod.map, ha]

end Steady

end Rule

end Scriptlet
