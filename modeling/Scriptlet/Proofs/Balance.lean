import Scriptlet.Proofs.Law
import Scriptlet.Proofs.Table

/-!
# What every rule restores

Rules open levels and scopes, and a rule can fail anywhere between opening one and closing
it. Whatever happens, each rule leaves as many levels and scopes open as it found, and
touches no scope but the innermost, to which it can only add.

## The model

`SymbolTable.Grown t t'` says that `t'` has come from `t` by declarations in the innermost
scope, and by scopes that were opened and closed again. `Parser.Balanced p q` says so of the
tables of two parsers with the same levels open. A `Wrapping` is one of the ways in which a
rule runs another.

## What is proved

* `Rule.Law.balanced` — being balanced goes through from the single steps to every rule.
* `Nonterminal.balanced_aroundAll` — every rule is balanced, however it is wrapped, whether
  it succeeds or fails.
-/

namespace Scriptlet

namespace SymbolTable

/-- The second table has come from the first by declarations in the innermost scope, and by
scopes that were opened and closed again. -/
structure Grown (t t' : SymbolTable) : Prop where
  mode : t'.mode = t.mode
  /-- The scopes around the innermost are untouched. -/
  outer : t'.outer = t.outer
  /-- The innermost scope keeps what it has. -/
  kept : ∀ name v, t.innermost.find? name = some v → t'.innermost.find? name = some v
  /-- Variables are added behind those there are. -/
  declared : t.declared <+: t'.declared

variable {t t' t'' : SymbolTable} {name : String} {constant : Bool} {nullability : Nullability}
  {position : Position} {v : Variable}

theorem Grown.refl (t : SymbolTable) : t.Grown t :=
  ⟨rfl, rfl, fun _ _ => id, List.prefix_rfl⟩

theorem Grown.trans (h : t.Grown t') (h' : t'.Grown t'') : t.Grown t'' where
  mode := h'.mode.trans h.mode
  outer := h'.outer.trans h.outer
  kept name v hv := h'.kept name v (h.kept name v hv)
  declared := h.declared.trans h'.declared

theorem Grown.declare (h : t.declare name constant nullability position = .ok (v, t')) :
    t.Grown t' := by
  obtain ⟨hnew, rfl, rfl⟩ := declare_eq_ok.1 h
  refine ⟨rfl, rfl, fun other w hw => ?_, List.prefix_append _ _⟩
  have hne : name ≠ other := by
    rintro rfl
    rw [hnew] at hw
    cases hw
  exact (List.find?_cons_of_neg (by simpa using hne)).trans hw

theorem Grown.declareLoop (h : t.declareLoop name position = .ok (v, t')) : t.Grown t' := by
  rcases declareLoop_eq_ok.1 h with ⟨-, -, -, rfl⟩ | ⟨-, h⟩
  · exact .refl _
  · exact .declare h

/-- In lexical mode nothing is left of what was declared in a scope that is closed, but the
variables themselves. -/
theorem Grown.leave_of_lexical (h : t.enter.Grown t') (ht : t.mode = .lexical) :
    t'.leave = { t with declared := t'.declared } := by
  obtain ⟨mode, innermost, outer, declared⟩ := t'
  obtain ⟨rfl : mode = t.enter.mode, rfl : outer = t.enter.outer, -, -⟩ := h
  simp only [leave, enter, ht]

theorem Grown.leave (h : t.enter.Grown t') : t.Grown t'.leave := by
  cases ht : t.mode with
  | flat =>
    rw [enter_of_flat ht] at h
    rwa [leave_of_flat (h.mode.trans ht)]
  | lexical =>
    rw [h.leave_of_lexical ht]
    refine ⟨rfl, rfl, fun _ _ => id, ?_⟩
    have hd := h.declared
    simpa only [enter, ht] using hd

end SymbolTable

/-- The second parser has as much open as the first, and a table that has only grown. -/
structure Parser.Balanced (p q : Parser SymbolTable) : Prop where
  /-- As many levels are open. -/
  depth : q.depth = p.depth
  /-- As many scopes are open. -/
  scopes : q.symbols.depth = p.symbols.depth
  symbols : p.symbols.Grown q.symbols

namespace Parser.Balanced

variable {p q r : Parser SymbolTable}

theorem of_grown (hd : q.depth = p.depth) (hs : p.symbols.Grown q.symbols) : p.Balanced q := by
  refine ⟨hd, ?_, hs⟩
  simp [SymbolTable.depth, SymbolTable.frames, hs.outer]

theorem refl (p : Parser SymbolTable) : p.Balanced p := of_grown rfl (.refl _)

theorem trans (h : p.Balanced q) (h' : q.Balanced r) : p.Balanced r :=
  of_grown (h'.depth.trans h.depth) (h.symbols.trans h'.symbols)

end Parser.Balanced

namespace Rule

variable {α β : Type}

/-- The rule leaves every parser balanced, whether it succeeds or fails. -/
def Balanced (r : Rule SymbolTable α) : Prop := ∀ p : Parser SymbolTable, p.Balanced (r p).2

namespace Balanced

variable {r : Rule SymbolTable α} {f : α → Rule SymbolTable β}

/-- A rule that leaves the levels and the table alone is balanced. -/
theorem of_eq (h : ∀ p, (r p).2.depth = p.depth ∧ (r p).2.symbols = p.symbols) : Balanced r := by
  intro p
  obtain ⟨hd, hs⟩ := h p
  exact .of_grown hd (hs ▸ .refl _)

theorem bind (hr : Balanced r) (hf : ∀ a, Balanced (f a)) : Balanced (r >>= f) := by
  intro p
  have hp := hr p
  rcases hq : r p with ⟨a | d, q⟩
  · rw [hq] at hp
    rwa [bind_apply_error hq]
  · rw [hq] at hp
    rw [bind_apply_ok hq]
    exact hp.trans (hf _ q)

theorem nested (hr : Balanced r) : Balanced (nested r) := by
  intro p
  unfold Rule.nested
  split
  · exact .refl p
  · have hq := hr { p with depth := p.depth + 1 }
    exact .of_grown (by simp [hq.depth]) hq.symbols

theorem inScope (hr : Balanced r) : Balanced (inScope r) := by
  intro p
  have hq := hr { p with symbols := p.symbols.enter }
  exact .of_grown hq.depth hq.symbols.leave

theorem keeping {ask : SymbolTable → String → Except Diagnostic (α × SymbolTable)}
    (h : ∀ {t t' : SymbolTable} {file : String} {a : α}, ask t file = .ok (a, t') → t.Grown t') :
    Balanced (keeping ask) := by
  intro p
  cases hp : ask p.symbols p.file with
  | error d =>
    rw [keeping_eq_of_error hp]
    exact .refl p
  | ok x =>
    rw [keeping_eq_of_ok hp]
    exact .of_grown rfl (h hp)

theorem declare (name : Token) (constant : Bool) (nullability : Nullability) :
    Balanced (declare name constant nullability) := by
  rw [declare_eq]
  exact keeping fun ht => .declare ht

theorem declareLoop (name : Token) : Balanced (declareLoop name) := by
  rw [declareLoop_eq]
  exact keeping fun ht => .declareLoop ht

/-- In lexical mode a scope of its own leaves the open scopes as they were. -/
theorem frames_inScope (hr : Balanced r) {p : Parser SymbolTable}
    (hp : p.symbols.mode = .lexical) : (Rule.inScope r p).2.symbols.frames = p.symbols.frames := by
  have hq := hr { p with symbols := p.symbols.enter }
  have hs : (Rule.inScope r p).2.symbols =
      (r { p with symbols := p.symbols.enter }).2.symbols.leave := rfl
  rw [hs, hq.symbols.leave_of_lexical hp]
  rfl

end Balanced

/-- Being balanced goes through from the single steps to every rule. -/
theorem Law.balanced : Law fun _ (r : Rule SymbolTable _) _ => Balanced r := by
  refine Steps.law ?_ fun hr p => hr p.rounds p
  constructor
  case mono => exact fun hr _ => hr
  case bind => exact .bind
  case nested => exact .nested
  case inScope => exact .inScope
  case declare => exact .declare
  case declareLoop => exact .declareLoop
  case pure => exact fun _ => .of_eq fun _ => ⟨rfl, rfl⟩
  case expect | accept =>
    refine fun k => .of_eq fun p => ?_
    by_cases hk : p.lookahead.kind = k
    · simp [expect, accept, hk, advance]
    · simp [expect, accept, hk, unexpected]
  all_goals intros; exact .of_eq fun _ => ⟨rfl, rfl⟩

/-- Reading a program is balanced. -/
theorem Balanced.program : Balanced Grammar.program := Law.balanced.program

end Rule

/-! ### Every rule -/

/-- The ways in which a rule runs another. -/
inductive Wrapping where
  /-- One level deeper. -/
  | nested
  /-- In a scope of its own. -/
  | inScope
  /-- In a scope of its own that holds the variable of a loop. -/
  | withLoopVariable (name : Token)

namespace Wrapping

variable {σ ν α : Type} [Scoping σ ν]

/-- The rule run in one of the ways. It gives what it gives without. -/
def around : Wrapping → Rule σ α → Rule σ α
  | nested, r => Rule.nested r
  | inScope, r => Rule.inScope r
  | withLoopVariable name, r => Prod.snd <$> Rule.withLoopVariable name r

/-- The rule run in several ways, the last of them innermost. -/
def aroundAll (ws : List Wrapping) (r : Rule σ α) : Rule σ α := ws.foldr around r

theorem around_balanced (w : Wrapping) {r : Rule SymbolTable α} (hr : r.Balanced) :
    (w.around r).Balanced := by
  cases w with
  | nested => exact hr.nested
  | inScope => exact hr.inScope
  | withLoopVariable name =>
    rw [around, ← bind_pure_comp]
    refine .bind (.inScope (.bind (.declareLoop name) fun v => .bind hr fun a => ?_)) fun x => ?_
    · exact .of_eq fun _ => ⟨rfl, rfl⟩
    · exact .of_eq fun _ => ⟨rfl, rfl⟩

theorem aroundAll_balanced (ws : List Wrapping) {r : Rule SymbolTable α} (hr : r.Balanced) :
    (aroundAll ws r).Balanced := by
  induction ws with
  | nil => exact hr
  | cons w ws ih => exact w.around_balanced ih

end Wrapping

/-- Every rule is balanced, however it is wrapped, whether it succeeds or fails, and whatever
the dispatch tables and the tokens. In lexical mode a scope of its own, with the variable of a
loop or not, leaves the scopes that are open exactly as they were. -/
theorem Nonterminal.balanced_aroundAll (N : Nonterminal) (ws : List Wrapping)
    (p : Parser SymbolTable) :
    p.Balanced (Wrapping.aroundAll ws N.rule p).2 ∧
      (p.symbols.mode = .lexical →
        (Rule.inScope (Wrapping.aroundAll ws N.rule) p).2.symbols.frames = p.symbols.frames ∧
        ∀ name, (Rule.withLoopVariable name (Wrapping.aroundAll ws N.rule) p).2.symbols.frames =
          p.symbols.frames) := by
  have hr : (Wrapping.aroundAll ws (N.rule : Rule SymbolTable _)).Balanced :=
    Wrapping.aroundAll_balanced ws (Rule.Law.balanced.nonterminal N)
  refine ⟨hr p, fun hp => ⟨hr.frames_inScope hp, fun name => ?_⟩⟩
  have hl : ((do
      let v ← Rule.declareLoop name
      let a ← Wrapping.aroundAll ws N.rule
      pure (v, a)) : Rule SymbolTable (Variable × Phrase Variable)).Balanced :=
    .bind (.declareLoop name) fun v => .bind hr fun a => .of_eq fun _ => ⟨rfl, rfl⟩
  exact hl.frames_inScope hp

end Scriptlet
