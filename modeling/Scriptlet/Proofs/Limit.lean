import Scriptlet.Proofs.Balance

/-!
# What the limit on nesting changes

A phrase may be read with more or with fewer constructs open around it. The limit is never
passed, however many there are, and it never changes what is read: a run that does not end at
the limit ends as it would with fewer constructs open, with the same phrase or the same
diagnostic, the same tokens taken and the same names known.

## The model

`Rule.Passes r p ps out` says that the rule `r`, run at the parser `p`, goes through the parsers
`ps`, one after the other, and ends with the outcome `out`. It follows how rules are put
together, and its outcome is put together in the same way, from the outcomes of the parts. So
what is true of a run is proved by induction on it: from its single steps to its parts, and from
these to the whole. A run of a repetition has the rounds that its parser allows.

The relation does not know the limit. Whether a run goes on inside a nested phrase is asked of
the rule: it does so where it matters which rule stands there (`Rule.GoesInside`). That this is
so only below the limit, and that the outcome of a run is what the rule gives, is proved.

## What is proved

* `Rule.goesInside_iff` — a nested phrase is begun exactly where the limit allows one more.
* `Rule.Law.passes` — every rule has its run, from every parser.
* `Rule.Passes.outcome_eq` — a run ends with what the rule gives.
* `Rule.Passes.depth_le` — no run goes beyond the limit.
* `Rule.Passes.shallower` — a run that does not end at the limit ends alike from fewer levels.
* `Grammar.IsRule.limit_only_refuses` — so it is for every rule, however it is wrapped.
-/

namespace Scriptlet

variable {σ ν α β : Type} [Scoping σ ν]

namespace Rule

/-! ### Runs -/

/-- The rules that do one thing: give something, look, fail, take a token or ask the table of
names. -/
inductive Single : {α : Type} → Rule σ α → Prop
  | pure {α : Type} (a : α) : Single (pure a : Rule σ α)
  | peek : Single peek
  | kind : Single kind
  | reached : Single reached
  | position : Single position
  | dispatch : Single dispatch
  | fail {α : Type} (d : Diagnostic) : Single (fail d : Rule σ α)
  | failAt {α : Type} (fault : Fault) (line : Nat) : Single (failAt fault line : Rule σ α)
  | unexpected {α : Type} : Single (unexpected : Rule σ α)
  | tooDeep {α : Type} : Single (tooDeep : Rule σ α)
  | advance : Single advance
  | expect (k : TokenKind) : Single (expect k)
  | accept (k : TokenKind) : Single (accept k)
  | declare (name : Token) (constant : Bool) (nullability : Nullability) :
    Single (declare name constant nullability)
  | declareLoop (name : Token) : Single (declareLoop name)
  | resolve (name : Token) : Single (resolve name)

/-- From this parser, what stands inside a nested phrase matters: there are rules that can be
told apart there. -/
def GoesInside (α : Type) (p : Parser σ) : Prop :=
  ∃ r r' : Rule σ α, nested r p ≠ nested r' p

/-- The rule, run at the first parser, goes through these parsers and has this outcome. -/
inductive Passes : {α : Type} → Rule σ α → Parser σ → List (Parser σ) →
    Except Diagnostic α × Parser σ → Prop
  | single {α : Type} {r : Rule σ α} (h : Single r) (p : Parser σ) :
    Passes r p [p, (r p).2] (r p)
  /-- What comes first succeeds, and what follows goes on from there. -/
  | bind {α β : Type} {r : Rule σ α} {f : α → Rule σ β} {p q : Parser σ} {a : α}
    {ps qs : List (Parser σ)} {out : Except Diagnostic β × Parser σ}
    (first : Passes r p ps (.ok a, q)) (rest : Passes (f a) q qs out) :
    Passes (r >>= f) p (ps ++ qs) out
  /-- What comes first fails, and nothing follows. -/
  | stop {α β : Type} {r : Rule σ α} {f : α → Rule σ β} {p q : Parser σ} {d : Diagnostic}
    {ps : List (Parser σ)} (first : Passes r p ps (.error d, q)) :
    Passes (r >>= f) p ps (.error d, q)
  /-- What stands inside is read with one more level open, which is closed after it. -/
  | nested {α : Type} {r : Rule σ α} {p q : Parser σ} {ps : List (Parser σ)}
    {result : Except Diagnostic α} (h : GoesInside α p)
    (inside : Passes r { p with depth := p.depth + 1 } ps (result, q)) :
    Passes (nested r) p (p :: ps ++ [{ q with depth := q.depth - 1 }])
      (result, { q with depth := q.depth - 1 })
  /-- What stands inside is not begun, because too much is open. -/
  | refused {α : Type} {r : Rule σ α} {p : Parser σ} (h : ¬GoesInside α p) :
    Passes (Rule.nested r) p [p] (tooDeep p)
  /-- What stands inside is read with one more scope open, which is closed after it. -/
  | inScope {α : Type} {r : Rule σ α} {p q : Parser σ} {ps : List (Parser σ)}
    {result : Except Diagnostic α}
    (inside : Passes r { p with symbols := Scoping.enter p.symbols } ps (result, q)) :
    Passes (inScope r) p (p :: ps ++ [{ q with symbols := Scoping.leave q.symbols }])
      (result, { q with symbols := Scoping.leave q.symbols })
  | rounds {α : Type} {r : Nat → Rule σ α} {p : Parser σ} {ps : List (Parser σ)}
    {out : Except Diagnostic α × Parser σ} (inside : Passes (r p.rounds) p ps out) :
    Passes (fun p => r p.rounds p) p ps out

/-- A nested phrase is begun exactly where the limit allows one more. -/
theorem goesInside_iff {p : Parser σ} : GoesInside α p ↔ p.depth < maxDepth := by
  constructor
  · rintro ⟨r, r', hne⟩
    refine Nat.lt_of_not_le fun hle => hne ?_
    rw [nested_of_le hle, nested_of_le hle]
  · intro hp
    refine ⟨fail ⟨.unexpectedEnd, p.position⟩, fail ⟨.tooDeep maxDepth, p.position⟩, ?_⟩
    rw [nested_of_lt hp, nested_of_lt hp]
    intro h
    cases congrArg Prod.fst h

namespace Passes

variable {r : Rule σ α} {p : Parser σ} {ps : List (Parser σ)}
  {out : Except Diagnostic α × Parser σ}

/-- A run ends with what the rule gives. -/
theorem outcome_eq (h : r.Passes p ps out) : out = r p := by
  induction h with
  | single h p => rfl
  | bind first rest ih ih' => rw [bind_apply_ok ih.symm, ih']
  | stop first ih => rw [bind_apply_error ih.symm]
  | nested h inside ih => rw [nested_of_lt (goesInside_iff.1 h), ← ih]
  | refused h =>
    have hle := Nat.le_of_not_lt fun hlt => h (goesInside_iff.2 hlt)
    exact (nested_of_le hle).symm
  | inScope inside ih => rw [Rule.inScope, ← ih]
  | rounds inside ih => exact ih

end Passes

/-- Every rule has its run, from every parser. -/
theorem Law.passes : Law fun _ (r : Rule σ _) _ => ∀ p, ∃ ps out, r.Passes p ps out := by
  refine Steps.law ?_ fun hr p => ?_
  · have single {α : Type} {r : Rule σ α} (h : r.Single) : ∀ p, ∃ ps out, r.Passes p ps out :=
      fun p => ⟨_, _, .single h p⟩
    constructor
    case mono => exact fun hr _ => hr
    case bind =>
      intro α β r f t u hr hf p
      obtain ⟨ps, ⟨d | a, q⟩, hps⟩ := hr p
      · exact ⟨ps, _, .stop hps⟩
      · obtain ⟨qs, out, hqs⟩ := hf a q
        exact ⟨ps ++ qs, out, .bind hps hqs⟩
    case nested =>
      intro α r t hr p
      by_cases h : GoesInside α p
      · obtain ⟨ps, ⟨result, q⟩, hps⟩ := hr { p with depth := p.depth + 1 }
        exact ⟨_, _, .nested h hps⟩
      · exact ⟨_, _, .refused h⟩
    case inScope =>
      intro α r t hr p
      obtain ⟨ps, ⟨result, q⟩, hps⟩ := hr { p with symbols := Scoping.enter p.symbols }
      exact ⟨_, _, .inScope hps⟩
    case pure => exact fun _ => single (.pure _)
    all_goals
      intros
      refine single ?_ _
      constructor
  · obtain ⟨ps, out, hps⟩ := hr p.rounds p
    exact ⟨ps, out, .rounds hps⟩

/-! ### Levels -/

/-- The table does not know how much is open. -/
theorem keeping_depth (ask : σ → String → Except Diagnostic (α × σ)) (p : Parser σ) (d : Nat) :
    keeping ask { p with depth := d } =
      ((keeping ask p).1, { (keeping ask p).2 with depth := d }) := by
  unfold keeping
  dsimp only
  split <;> rfl

/-- Nothing that a single step does depends on how much is open. -/
theorem Single.run_depth {r : Rule σ α} (h : r.Single) (p : Parser σ) (d : Nat) :
    r { p with depth := d } = ((r p).1, { (r p).2 with depth := d }) := by
  cases h with
  | expect k =>
    by_cases hk : p.lookahead.kind = k
    · simp [Rule.expect, Rule.advance, hk]
    · simp [Rule.expect, Rule.unexpected, hk, Parser.unexpected, Parser.position]
  | accept k =>
    by_cases hk : p.lookahead.kind = k
    · simp [Rule.accept, Rule.advance, hk]
    · simp [Rule.accept, hk]
  | declare t constant nullability =>
    rw [declare_eq]
    exact keeping_depth _ p d
  | declareLoop t =>
    rw [declareLoop_eq]
    exact keeping_depth _ p d
  | _ => rfl

namespace Passes

variable {r : Rule σ α} {p : Parser σ} {ps : List (Parser σ)}
  {out : Except Diagnostic α × Parser σ}

/-- Every level that a run opens is closed again. -/
theorem depth_eq (h : r.Passes p ps out) : out.2.depth = p.depth := by
  induction h with
  | single h p => exact congrArg (fun x => x.2.depth) (h.run_depth p p.depth)
  | bind first rest ih ih' => exact ih'.trans ih
  | stop first ih => exact ih
  | nested h inside ih => exact congrArg (· - 1) ih
  | refused h => rfl
  | inScope inside ih => exact ih
  | rounds inside ih => exact ih

/-- No run goes beyond the limit. -/
theorem depth_le (h : r.Passes p ps out) (hp : p.depth ≤ maxDepth) :
    ∀ q ∈ ps, q.depth ≤ maxDepth := by
  -- A run ends with as much open as it began with, so only its inside is left to look at.
  have ends {α : Type} {r : Rule σ α} {p : Parser σ} {ps qs : List (Parser σ)}
      {out : Except Diagnostic α × Parser σ} (h : r.Passes p qs out) (hp : p.depth ≤ maxDepth)
      (hps : ∀ q ∈ ps, q.depth ≤ maxDepth) :
      ∀ q ∈ p :: ps ++ [out.2], q.depth ≤ maxDepth := by
    intro q hq
    rcases List.mem_append.1 hq with hq | hq
    · rcases List.mem_cons.1 hq with rfl | hq
      · exact hp
      · exact hps q hq
    · rw [List.mem_singleton.1 hq, h.depth_eq]
      exact hp
  induction h with
  | single h p => exact ends (.single h p) hp (List.forall_mem_nil _)
  | bind first rest ih ih' =>
    intro s hs
    rcases List.mem_append.1 hs with hs | hs
    · exact ih hp s hs
    · exact ih' (first.depth_eq ▸ hp) s hs
  | stop first ih => exact ih hp
  | nested h inside ih => exact ends (.nested h inside) hp (ih (goesInside_iff.1 h))
  | refused h =>
    intro s hs
    rw [List.mem_singleton.1 hs]
    exact hp
  | inScope inside ih => exact ends (.inScope inside) hp (ih hp)
  | rounds inside ih => exact ih hp

/-- A run that does not end at the limit ends alike with fewer levels open. -/
theorem shallower (h : r.Passes p ps out) {d : Nat} (hd : d ≤ p.depth)
    (hne : ∀ position, out.1 ≠ .error ⟨.tooDeep maxDepth, position⟩) :
    r { p with depth := d } = (out.1, { out.2 with depth := d }) := by
  induction h generalizing d with
  | single h p => exact h.run_depth p d
  | bind first rest ih ih' =>
    rw [bind_apply_ok (ih hd fun _ => nofun)]
    exact ih' (first.depth_eq ▸ hd) hne
  | @stop _ _ r f p q e _ first ih =>
    have hfirst := ih hd fun position he => hne position (by cases he; rfl)
    exact bind_apply_error hfirst
  | @nested _ r p q _ result h inside ih =>
    have hinside := ih (Nat.succ_le_succ hd) hne
    have hlt := Nat.lt_of_le_of_lt hd (goesInside_iff.1 h)
    rw [nested_of_lt (p := { p with depth := d }) hlt]
    simp only [hinside, Nat.succ_eq_add_one, Nat.add_sub_cancel]
  | @refused _ _ p h => exact absurd rfl (hne p.position)
  | @inScope _ r p q _ result inside ih =>
    have hinside := ih hd hne
    simp only [Rule.inScope, hinside]
  | rounds inside ih => exact ih hd hne

end Passes

/-- The rule has its run from this parser. Every run of it from there ends with what the rule
gives, and on all of the run at most so much is open as the limit allows. -/
def StaysWithinLimit (r : Rule σ α) (p : Parser σ) : Prop :=
  (∃ ps, r.Passes p ps (r p)) ∧
    ∀ ps out, r.Passes p ps out → out = r p ∧ ∀ q ∈ ps, q.depth ≤ maxDepth

/-- A rule that has its run stays within the limit, if no more is open to begin with. -/
theorem Passes.staysWithinLimit {r : Rule σ α} {p : Parser σ} {ps : List (Parser σ)}
    {out : Except Diagnostic α × Parser σ} (h : r.Passes p ps out) (hp : p.depth ≤ maxDepth) :
    r.StaysWithinLimit p := by
  refine ⟨⟨ps, h.outcome_eq ▸ h⟩, ?_⟩
  intro qs out' h'
  exact ⟨h'.outcome_eq, h'.depth_le hp⟩

end Rule

/-! ### Every rule -/

/-- The rules of the grammar: the nonterminals, what expressions, elements and commands are one
level deeper, an expression in parentheses, and programs. -/
inductive Grammar.IsRule : Rule σ (Phrase ν) → Prop
  | nonterminal (N : Nonterminal) : IsRule N.rule
  | fallback : IsRule (Phrase.expression <$> Grammar.fallback Inner.full)
  | clause : IsRule (Phrase.element <$> Grammar.clause Inner.full)
  | anyCommand : IsRule (Phrase.command <$> Grammar.anyCommand Inner.full)
  | parenthesized : IsRule (Phrase.expression <$> Rule.parenthesized Inner.full.expression)
  | program : IsRule (Phrase.code <$> Grammar.program)

namespace Rule.Law

variable {P : (α : Type) → Rule σ α → (α → Prop) → Prop}

/-- A law holds of every rule of the grammar. -/
theorem of_isRule (hP : Law P) {r : Rule σ (Phrase ν)} (hr : Grammar.IsRule r) :
    P (Phrase ν) r fun _ => False := by
  have hi : Holds P (Inner.full : Inner σ ν) := hP.within maxDepth
  cases hr with
  | nonterminal N => exact hP.weaken (hP.nonterminal N)
  | fallback => exact hP.mapped _ (hP.weaken (hP.fallback hi))
  | clause => exact hP.mapped _ (hP.weaken (hP.clause hi))
  | anyCommand => exact hP.mapped _ (hP.weaken (hP.anyCommand hi))
  | parenthesized =>
    exact hP.mapped _ (hP.weaken (hP.parenthesized (hP.weaken hi.expression)))
  | program => exact hP.mapped _ hP.program

/-- A law holds of a rule however it is wrapped. -/
theorem aroundAll (hP : Law P) (ws : List Wrapping) {r : Rule σ α} (hr : P α r fun _ => False) :
    P α (Wrapping.aroundAll ws r) fun _ => False := by
  induction ws with
  | nil => exact hr
  | cons w ws ih =>
    cases w with
    | nested => exact hP.nested ih
    | inScope => exact hP.inScope ih
    | withLoopVariable name =>
      refine hP.mapped _ (hP.inScope (hP.bind_untaken (hP.declareLoop name) fun v => ?_))
      exact hP.bind_untaken ih fun a => hP.pure_untaken (v, a)

end Rule.Law

/-- The limit only ever refuses. Whatever the dispatch tables and the tokens, a rule that is run
with no more open than the limit allows stays within the limit on its whole run. If it does not
end at the limit, it ends alike from a parser that differs in having less open: with the same
phrase or the same diagnostic, the same tokens taken, and the same names known. -/
theorem Grammar.IsRule.limit_only_refuses {r : Rule SymbolTable (Phrase Variable)}
    (hr : Grammar.IsRule r) (ws : List Wrapping) {p : Parser SymbolTable} {d : Nat}
    (hd : d ≤ p.depth) (hp : p.depth ≤ maxDepth) :
    (Wrapping.aroundAll ws r).StaysWithinLimit p ∧
    (Wrapping.aroundAll ws r).StaysWithinLimit { p with depth := d } ∧
    ((∀ position, (Wrapping.aroundAll ws r p).1 ≠ .error ⟨.tooDeep maxDepth, position⟩) →
      Wrapping.aroundAll ws r { p with depth := d } =
        ((Wrapping.aroundAll ws r p).1, { (Wrapping.aroundAll ws r p).2 with depth := d })) := by
  have hrun := Rule.Law.passes.aroundAll ws (Rule.Law.passes.of_isRule hr)
  obtain ⟨ps, out, hps⟩ := hrun p
  obtain ⟨qs, out', hqs⟩ := hrun { p with depth := d }
  refine ⟨hps.staysWithinLimit hp, hqs.staysWithinLimit (Nat.le_trans hd hp), ?_⟩
  intro hne
  rw [← hps.outcome_eq] at hne ⊢
  exact hps.shallower hd hne

/-- A sum that needs one level is read with all levels but one open as it is with none. -/
theorem Grammar.IsRule.limit_only_refuses_list :
    let p : Parser SymbolTable :=
      { Parser.start (.ofText "[] + 1") "p" (.empty .lexical) .standard with depth := 255 }
    let r : Rule SymbolTable (Phrase Variable) :=
      Wrapping.aroundAll [.inScope] Nonterminal.expression.rule
    p.depth ≤ maxDepth ∧ (∀ position, (r p).1 ≠ .error ⟨.tooDeep maxDepth, position⟩) ∧
      r.StaysWithinLimit p ∧ r.StaysWithinLimit { p with depth := 0 } ∧
      r { p with depth := 0 } = ((r p).1, { (r p).2 with depth := 0 }) := by
  intro p r
  have hp : p.depth ≤ maxDepth := by decide
  have hok : (r p).1.isOk = true := by decide +kernel
  have hne : ∀ position, (r p).1 ≠ .error ⟨.tooDeep maxDepth, position⟩ := by
    intro position he
    rw [he] at hok
    cases hok
  obtain ⟨hdeep, hshallow, hsame⟩ :=
    Grammar.IsRule.limit_only_refuses (.nonterminal .expression) [.inScope] (Nat.zero_le p.depth) hp
  exact ⟨hp, hne, hdeep, hshallow, hsame hne⟩

end Scriptlet
