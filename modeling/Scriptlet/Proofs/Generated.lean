import Scriptlet.Proofs.Form
import Scriptlet.Proofs.Productions

/-!
# What the productions generate is derived

A sequence of kinds of tokens that the grammar generates is derived wherever such tokens
stand, with a tree and the nesting that goes with it. What the productions do not ask comes
out of the place: an `else` goes to the nearest conditional that waits for one, however the
productions have it.

## The model

`Category.Fits N bare allowed ks` says that tokens of the kinds `ks` are a phrase of the
category `N` wherever they stand before a token of an allowed kind. A sequence may stand
before any token, or before any but an `else`. `Category.Awaits N bare Q n ks` says of the
latter case that `n` conditionals in it wait for an `else`: it stays a phrase if an `else` and
a phrase of the category `Q` are put behind it, and then one less waits.

## What is proved

* `Category.Awaits.append` — putting a phrase behind a sequence adds up what waits.
* `PhraseKind.Means.of_generates` — what is generated is derived.
-/

namespace Scriptlet

/-! ### Kinds of tokens on a tape -/

/-- The tokens on the tape from one place up to another have these kinds, and are spelled as
their kinds are. -/
abbrev Tape.Offers : Tape → List TokenKind → Tape → Prop :=
  Tape.Follows fun k t => t.kind = k ∧ t.IsSpelled

/-- Tokens of these kinds are a phrase of the category wherever they stand before a token of
an allowed kind. If asked, it does not start with a brace. -/
def Category.Fits (N : Category) (bare : Bool) (allowed : TokenKind → Prop)
    (ks : List TokenKind) : Prop :=
  ∀ ⦃i r : Tape⦄, i.Offers ks r → allowed r.kind →
    (bare = true → i.kind ≠ .symbol .openCurly) ∧ ∃ k x, Derives N k i x r

/-- Tokens of these kinds are a phrase of the category. -/
abbrev Category.Always (N : Category) (bare : Bool) : List TokenKind → Prop :=
  N.Fits bare fun _ => True

/-- Tokens of these kinds are a phrase of the category if no `else` follows. -/
abbrev Category.UnlessElse (N : Category) (bare : Bool) : List TokenKind → Prop :=
  N.Fits bare (· ≠ .keyword .elseWord)

/-- So many conditionals in the sequence wait for an `else`. -/
def Category.Awaits (N : Category) (bare : Bool) (Q : Category) : Nat → List TokenKind → Prop
  | 0, ks => N.Always bare ks
  | n + 1, ks => N.UnlessElse bare ks ∧
    (∀ a, Q.UnlessElse false a → N.UnlessElse bare (ks ++ .keyword .elseWord :: a)) ∧
    ∀ a, Q.Always false a → Awaits N bare Q n (ks ++ .keyword .elseWord :: a)

section

variable {N N' Q : Category} {bare bare' : Bool} {n m : Nat} {ks pre a : List TokenKind}

theorem Category.Always.fits (h : N.Always bare ks) (allowed : TokenKind → Prop) :
    N.Fits bare allowed ks := fun _ _ hi _ => h hi trivial

theorem Category.Awaits.unlessElse (h : N.Awaits bare Q n ks) : N.UnlessElse bare ks := by
  cases n with
  | zero => exact Category.Always.fits h _
  | succ n => exact h.1

/-- Put behind something, a phrase waits for as many `else` as before, and for those that what
is before it waits for. -/
theorem Category.Awaits.append (h : N.Awaits bare Q m a)
    (hunless : ∀ b, N.UnlessElse bare b → N'.UnlessElse bare' (pre ++ b))
    (halways : ∀ b, N.Always bare b → N'.Awaits bare' Q n (pre ++ b)) :
    N'.Awaits bare' Q (n + m) (pre ++ a) := by
  induction m generalizing a with
  | zero => exact halways a h
  | succ m ih =>
    obtain ⟨ha, hlater, hless⟩ := h
    refine ⟨hunless a ha, fun b hb => ?_, fun b hb => ?_⟩
    · rw [List.append_assoc]
      exact hunless _ (hlater b hb)
    · rw [List.append_assoc]
      exact ih (hless b hb)

/-- Behind something that waits for no `else`, a phrase waits for as many as before. -/
theorem Category.Awaits.map (h : N.Awaits bare Q m a)
    (hfits : ∀ b allowed, N.Fits bare allowed b → N'.Fits bare' allowed (pre ++ b)) :
    N'.Awaits bare' Q m (pre ++ a) := by
  have hm := h.append (n := 0) (fun b hb => hfits b _ hb) fun b hb => hfits b _ hb
  rwa [Nat.zero_add] at hm

/-- What waits for an `else` takes one with what follows it. -/
theorem Category.Awaits.take (h : N.Awaits bare Q (n + 1) ks) (ha : Q.Awaits false Q m a) :
    N.Awaits bare Q (n + m) (ks ++ .keyword .elseWord :: a) := by
  have hks : ks ++ .keyword .elseWord :: a = (ks ++ [.keyword .elseWord]) ++ a := by simp
  rw [hks]
  refine ha.append (fun b hb => ?_) fun b hb => ?_
  · simpa using h.2.1 b hb
  · simpa using h.2.2 b hb

end

/-! ### Conditionals -/

section

variable {N N' : Category} {bare : Bool} {n m : Nat} {pre a b : List TokenKind}

/-- A conditional without `else` waits for one. -/
theorem Category.Awaits.conditional (h : N.Awaits false N n b)
    (hunless : ∀ b, N.UnlessElse false b → N'.UnlessElse bare (pre ++ b))
    (helse : ∀ b a allowed, N.Always false b → N.Fits false allowed a →
      N'.Fits bare allowed (pre ++ (b ++ .keyword .elseWord :: a))) :
    N'.Awaits bare N (1 + n) (pre ++ b) := by
  refine h.append hunless fun b hb => ⟨hunless b (hb.fits _), fun a ha => ?_, fun a ha => ?_⟩
  · rw [List.append_assoc]
    exact helse b a _ hb ha
  · rw [List.append_assoc]
    exact helse b a _ hb ha

/-- In a conditional with an `else`, that belongs to the conditional, or to one inside it that
waits for one. -/
theorem Category.Awaits.conditionalElse (hb : N.Awaits false N n b) (ha : N.Awaits false N m a)
    (hunless : ∀ b, N.UnlessElse false b → N'.UnlessElse bare (pre ++ b))
    (helse : ∀ b a allowed, N.Always false b → N.Fits false allowed a →
      N'.Fits bare allowed (pre ++ (b ++ .keyword .elseWord :: a))) :
    ∃ n', N'.Awaits bare N n' (pre ++ (b ++ .keyword .elseWord :: a)) := by
  cases n with
  | zero =>
    have hpre : pre ++ (b ++ .keyword .elseWord :: a) =
        (pre ++ (b ++ [.keyword .elseWord])) ++ a := by simp
    rw [hpre]
    refine ⟨m, ha.map fun a' allowed ha' => ?_⟩
    simpa using helse b a' allowed hb ha'
  | succ n => exact ⟨_, (hb.take ha).conditional hunless helse⟩

end

/-! ### What the kinds of phrases mean -/

/-- What a kind of phrase says of the kinds of its tokens. -/
def PhraseKind.Means : PhraseKind → List TokenKind → Prop
  | program, ks => ∃ a, ks = a ++ [.endOfInput] ∧ Category.code.UnlessElse false a
  | code, ks => Category.code.UnlessElse false ks
  | body, ks => ∃ n, Category.body.Awaits false .body n ks
  | command bare, ks => ∃ n, Category.command.Awaits bare .body n ks
  | declarators, ks => ∀ constant nullability number,
    (Category.declarators constant nullability number).Always false ks
  | declarator, ks => ∀ constant nullability number,
    (Category.declarator constant nullability number).Always false ks
  | expr rank bare, ks => (Category.expr rank).Always bare ks
  | operations l, ks => ∀ ⦃i r : Tape⦄, i.Offers ks r →
    ∃ k x, Derives (.operations l) k i x r ∧ (l.chains = true ∨ x.length ≤ 1)
  | subscripts, ks => Category.subscripts.Always false ks
  | elements, ks => Category.elements.UnlessElse false ks
  | element, ks => ∃ n, Category.element.Awaits false .element n ks
  | entries, ks => Category.entries.Always false ks
  | entry, ks => ∃ a b, ks = a ++ .symbol .colon :: b ∧
    (Category.expr .expression).Always false a ∧ (Category.expr .expression).Always false b

/-- What a row of tokens and phrases says of the kinds of its tokens. -/
abbrev Denotes : List Item → List TokenKind → Prop :=
  ContextFreeGrammar.Denotes (g := grammar) PhraseKind.Means

namespace PhraseKind.Means

variable {ks : List TokenKind} {bare : Bool}

/-- A phrase that starts with a token. -/
theorem isBare_of_offers {i r : Tape} {k : TokenKind} (h : i.Offers (k :: ks) r)
    (hk : k ≠ .symbol .openCurly) : bare = true → i.kind ≠ .symbol .openCurly :=
  fun _ hi => hk (h.1.1.symm.trans hi)

/-- A place starts with a name. -/
theorem isBare_of_place {k : Nat} {i r : Tape} {e : Expr Mention}
    (h : Derives (.expr .place) k i e r) : bare = true → i.kind ≠ .symbol .openCurly := by
  intro _
  exact h.kind_ne rfl

/-! ### Expressions -/

theorem level {l : Level} {w : List Item} (hw : w ∈ (PhraseKind.expr (.level l) bare).productions)
    (h : Denotes w ks) : (Category.expr (.level l)).Always bare ks := by
  cases List.mem_singleton.1 hw
  obtain ⟨a, _, rfl, ha, b, _, rfl, hb, rfl⟩ := h
  intro i r hi _
  obtain ⟨m, hi, hm⟩ := Tape.follows_append.1 hi
  obtain ⟨hbare, k, e, he⟩ := ha hi trivial
  rw [List.append_nil] at hm
  obtain ⟨k', ops, hops, hchains⟩ := hb hm
  exact ⟨hbare, _, _, .level he hops hchains⟩

theorem operations {l : Level} {w : List Item} (hw : w ∈ (PhraseKind.operations l).productions)
    (h : Denotes w ks) : (PhraseKind.operations l).Means ks := by
  intro i r hi
  rcases List.mem_cons.1 hw with rfl | hw
  · cases h
    cases hi
    exact ⟨0, [], .noOperation, .inr (Nat.zero_le 1)⟩
  · obtain ⟨s, hs, rfl⟩ := List.mem_map.1 hw
    obtain ⟨op, hop⟩ := Level.exists_op?_iff.2 (List.mem_map_of_mem hs)
    obtain ⟨_, rfl, a, b, rfl, ha, hb⟩ := h
    obtain ⟨⟨hk, -⟩, hi⟩ := hi
    obtain ⟨m, hi, hm⟩ := Tape.follows_append.1 hi
    obtain ⟨-, k, e, he⟩ := ha hi trivial
    rw [← hk] at hop
    by_cases hl : l.chains = true
    · rw [Level.furtherOperations, if_pos hl] at hb
      obtain ⟨c, _, rfl, hc, rfl⟩ := hb
      rw [List.append_nil] at hm
      obtain ⟨k', ops, hops, -⟩ := hc hm
      exact ⟨_, _, .operation hop he hops, .inl hl⟩
    · rw [Level.furtherOperations, if_neg hl] at hb
      cases hb
      cases hm
      exact ⟨_, _, .operation hop he .noOperation, .inr (Nat.le_refl 1)⟩

/-- A row of one phrase. -/
theorem of_denotes {n : PhraseKind} (h : Denotes [.phrase n] ks) : n.Means ks := by
  obtain ⟨a, _, rfl, ha, rfl⟩ := h
  rwa [List.append_nil]

theorem signed {w : List Item} (hw : w ∈ (PhraseKind.expr .signed bare).productions)
    (h : Denotes w ks) : (Category.expr .signed).Always bare ks := by
  rcases List.mem_cons.1 hw with rfl | hw
  · intro i r hi _
    obtain ⟨hbare, k, e, he⟩ := of_denotes h hi trivial
    exact ⟨hbare, k, e, .unsigned he⟩
  · obtain ⟨s, hs, rfl⟩ := List.mem_map.1 hw
    obtain ⟨op, hop⟩ := UnaryOp.exists_before?_iff.2 (List.mem_map_of_mem hs)
    obtain ⟨a, rfl, ha⟩ := h
    intro i r hi _
    obtain ⟨-, k, e, he⟩ := of_denotes ha hi.2 trivial
    have hkind : i.kind = .symbol s := hi.1.1
    have hhead : UnaryOp.before? i.kind = some op := hkind ▸ hop
    refine ⟨isBare_of_offers hi ?_, k, _, .signed hhead he⟩
    rintro ⟨⟩
    cases hop

theorem factor {w : List Item} (hw : w ∈ (PhraseKind.expr .factor bare).productions)
    (h : Denotes w ks) : (Category.expr .factor).Always bare ks := by
  rcases List.mem_cons.1 hw with rfl | hw
  · intro i r hi _
    obtain ⟨hbare, k, e, he⟩ := of_denotes h hi trivial
    exact ⟨hbare, k, e, .factor he⟩
  · obtain ⟨s, hs, rfl⟩ := List.mem_map.1 hw
    obtain ⟨op, hop⟩ := UnaryOp.exists_after?_iff.2 (List.mem_map_of_mem hs)
    obtain ⟨a, _, rfl, ha, _, rfl, rfl⟩ := h
    intro i r hi _
    obtain ⟨m, hx, hm, rfl⟩ := Tape.follows_append.1 hi
    obtain ⟨hbare, k, e, he⟩ := ha hx trivial
    have hmark : m.kind = .symbol s := hm.1
    exact ⟨hbare, k, _, .postfixed he (hmark ▸ hop)⟩

theorem primary {w : List Item} (hw : w ∈ (PhraseKind.expr .primary bare).productions)
    (h : Denotes w ks) : (Category.expr .primary).Always bare ks := by
  rcases List.mem_cons.1 hw with rfl | hw
  · intro i r hi _
    obtain ⟨hbare, k, e, he⟩ := of_denotes h hi trivial
    exact ⟨hbare, k, e, .primary he⟩
  · cases List.mem_singleton.1 hw
    obtain ⟨_, rfl, a, _, rfl, ha, _, rfl, rfl⟩ := h
    intro i r hi _
    obtain ⟨m, hi', hm, rfl⟩ := Tape.follows_append.1 hi.2
    obtain ⟨-, k, e, he⟩ := ha hi' trivial
    exact ⟨isBare_of_offers hi (by simp), k, e, .parenthesized hi.1.1 he hm.1⟩

theorem operand {w : List Item} (hw : w ∈ operandProductions bare) (h : Denotes w ks) :
    (Category.expr .operand).Always bare ks := by
  intro i r hi _
  simp only [operandProductions, List.mem_append, List.mem_map, List.mem_cons, List.not_mem_nil,
    or_false] at hw
  rcases hw with ((⟨kind, hkind, rfl⟩ | ⟨word, hword, rfl⟩) | rfl | rfl | rfl) | hw
  · obtain ⟨_, rfl, rfl⟩ := h
    obtain ⟨⟨hk, hs⟩, rfl⟩ := id hi
    obtain ⟨value, hv⟩ := Literal.exists_ofToken (hk ▸ hkind) hs
    refine ⟨isBare_of_offers hi ?_, 0, _, .constant hv⟩
    rintro rfl
    exact absurd hkind (by decide)
  · obtain ⟨function, hf⟩ := Builtin.exists_ofKind?_iff.2 (List.mem_map_of_mem hword)
    obtain ⟨_, rfl, _, rfl, a, _, rfl, ha, _, rfl, rfl⟩ := h
    obtain ⟨hk, hopen, hi'⟩ := id hi
    obtain ⟨m, hx, hm, rfl⟩ := Tape.follows_append.1 hi'
    obtain ⟨-, k, e, he⟩ := ha hx trivial
    have hhead : i.kind = .keyword word := hk.1
    exact ⟨isBare_of_offers hi (by simp), k, _, .call (hhead ▸ hf) hopen.1 he hm.1⟩
  · obtain ⟨-, k, e, he⟩ := of_denotes h hi trivial
    exact ⟨isBare_of_place he, k, e, .place he⟩
  · obtain ⟨_, rfl, _, rfl, rfl⟩ := h
    obtain ⟨hopen, hclose, rfl⟩ := id hi
    exact ⟨isBare_of_offers hi (by simp), 0, _, .emptyList hopen.1 hclose.1⟩
  · obtain ⟨_, rfl, a, _, rfl, ha, _, rfl, rfl⟩ := h
    obtain ⟨hopen, hi'⟩ := id hi
    obtain ⟨m, hx, hm, rfl⟩ := Tape.follows_append.1 hi'
    have hclose : m.kind = .symbol .closeBracket := hm.1
    obtain ⟨-, k, es, hes⟩ := ha hx (by simp [hclose])
    exact ⟨isBare_of_offers hi (by simp), k, _, .list hopen.1 hes hclose⟩
  · cases bare with
    | true => simp at hw
    | false =>
      simp only [Bool.false_eq_true, if_false, List.mem_cons, List.not_mem_nil, or_false] at hw
      refine ⟨fun hb => absurd hb Bool.false_ne_true, ?_⟩
      rcases hw with rfl | rfl
      · obtain ⟨_, rfl, _, rfl, rfl⟩ := h
        obtain ⟨hopen, hclose, rfl⟩ := hi
        exact ⟨0, _, .emptyMap hopen.1 hclose.1⟩
      · obtain ⟨_, rfl, a, _, rfl, ha, _, rfl, rfl⟩ := h
        obtain ⟨hopen, hi⟩ := hi
        obtain ⟨m, hx, hm, rfl⟩ := Tape.follows_append.1 hi
        obtain ⟨-, k, es, hes⟩ := ha hx trivial
        exact ⟨k, _, .map hopen.1 hes hm.1⟩

theorem place {w : List Item} (hw : w ∈ (PhraseKind.expr .place bare).productions)
    (h : Denotes w ks) : (Category.expr .place).Always bare ks := by
  cases List.mem_singleton.1 hw
  obtain ⟨a, rfl, ha⟩ := h
  intro i r hi _
  obtain ⟨-, k, subs, hsubs⟩ := of_denotes ha hi.2 trivial
  exact ⟨isBare_of_offers hi (by simp), k, _, .named hi.1.1 hsubs⟩

theorem subscripts {w : List Item} (hw : w ∈ PhraseKind.subscripts.productions)
    (h : Denotes w ks) : Category.subscripts.Always false ks := by
  intro i r hi _
  refine ⟨fun hb => absurd hb Bool.false_ne_true, ?_⟩
  rcases List.mem_cons.1 hw with rfl | hw
  · cases h
    cases hi
    exact ⟨0, [], .noSubscript⟩
  · cases List.mem_singleton.1 hw
    obtain ⟨_, rfl, a, _, rfl, ha, b, rfl, hb⟩ := h
    obtain ⟨hopen, hi⟩ := hi
    obtain ⟨m, hi, hclose, hm⟩ := Tape.follows_append.1 hi
    obtain ⟨-, k, e, he⟩ := ha hi trivial
    obtain ⟨-, k', subs, hsubs⟩ := of_denotes hb hm trivial
    exact ⟨_, _, .subscript hopen.1 he hclose.1 hsubs⟩

/-- What an expression stands for. -/
theorem expr {rank : Rank} {w : List Item} (hw : w ∈ (PhraseKind.expr rank bare).productions)
    (h : Denotes w ks) : (Category.expr rank).Always bare ks := by
  cases rank with
  | expression =>
    cases List.mem_singleton.1 hw
    intro i r hi _
    obtain ⟨hbare, k, e, he⟩ := of_denotes h hi trivial
    exact ⟨hbare, _, e, .expression he⟩
  | level l => exact level hw h
  | signed => exact signed hw h
  | factor => exact factor hw h
  | primary => exact primary hw h
  | operand => exact operand hw h
  | place => exact place hw h

/-! ### Elements, entries and declarators -/

/-- What stands in parentheses behind a keyword, with both. -/
def header (w : Keyword) (c : List TokenKind) : List TokenKind :=
  .keyword w :: .symbol .openParen :: (c ++ [.symbol .closeParen])

/-- What a loop runs over, with `for`. -/
def loopHeader (c : List TokenKind) : List TokenKind :=
  .keyword .forWord :: .symbol .openParen :: .name :: .keyword .inWord ::
    (c ++ [.symbol .closeParen])

variable {i r : Tape} {w : Keyword} {c : List TokenKind}

theorem offers_header (hc : (Category.expr .expression).Always false c)
    (h : i.Offers (header w c ++ ks) r) :
    i.kind = .keyword w ∧ i.next.kind = .symbol .openParen ∧
      ∃ k e m, Derives (.expr .expression) k i.next.next e m ∧ m.kind = .symbol .closeParen ∧
        m.next.Offers ks r := by
  obtain ⟨hhead, hopen, h⟩ := h
  obtain ⟨_, h, hks⟩ := Tape.follows_append.1 h
  obtain ⟨m, hx, hclose, rfl⟩ := Tape.follows_append.1 h
  obtain ⟨-, k, e, he⟩ := hc hx trivial
  exact ⟨hhead.1, hopen.1, k, e, m, he, hclose.1, hks⟩

theorem offers_loopHeader (hc : (Category.expr .expression).Always false c)
    (h : i.Offers (loopHeader c ++ ks) r) :
    i.kind = .keyword .forWord ∧ i.next.kind = .symbol .openParen ∧ i.next.next.kind = .name ∧
      i.next.next.next.kind = .keyword .inWord ∧
      ∃ k e m, Derives (.expr .expression) k i.next.next.next.next e m ∧
        m.kind = .symbol .closeParen ∧ m.next.Offers ks r := by
  obtain ⟨hhead, hopen, hname, hin, h⟩ := h
  obtain ⟨_, h, hks⟩ := Tape.follows_append.1 h
  obtain ⟨m, hx, hclose, rfl⟩ := Tape.follows_append.1 h
  obtain ⟨-, k, e, he⟩ := hc hx trivial
  exact ⟨hhead.1, hopen.1, hname.1, hin.1, k, e, m, he, hclose.1, hks⟩

theorem isBare_false {P : Prop} : false = true → P := fun h => absurd h Bool.false_ne_true

/-- A conditional element without `else`. -/
theorem elementIf (hc : (Category.expr .expression).Always false c) (b : List TokenKind)
    (hb : Category.element.UnlessElse false b) :
    Category.element.UnlessElse false (header .ifWord c ++ b) := by
  intro i r hi hr
  obtain ⟨hhead, hopen, k, e, m, he, hclose, hi⟩ := offers_header hc hi
  obtain ⟨-, k', x, hx⟩ := hb hi hr
  exact ⟨isBare_false, _, _, .elementIf hhead hopen he hclose hx hr⟩

theorem elementIfElse (hc : (Category.expr .expression).Always false c) (b a : List TokenKind)
    (allowed : TokenKind → Prop) (hb : Category.element.Always false b)
    (ha : Category.element.Fits false allowed a) :
    Category.element.Fits false allowed
      (header .ifWord c ++ (b ++ .keyword .elseWord :: a)) := by
  intro i r hi hr
  obtain ⟨hhead, hopen, k, e, m, he, hclose, hi⟩ := offers_header hc hi
  obtain ⟨m', hx, helse, hi⟩ := Tape.follows_append.1 hi
  obtain ⟨-, k', x, hx⟩ := hb hx trivial
  obtain ⟨-, k'', y, hy⟩ := ha hi hr
  exact ⟨isBare_false, _, _, .elementIfElse hhead hopen he hclose hx helse.1 hy⟩

theorem elementFor (hc : (Category.expr .expression).Always false c) (b : List TokenKind)
    (allowed : TokenKind → Prop) (hb : Category.element.Fits false allowed b) :
    Category.element.Fits false allowed (loopHeader c ++ b) := by
  intro i r hi hr
  obtain ⟨hhead, hopen, hname, hin, k, e, m, he, hclose, hi⟩ := offers_loopHeader hc hi
  obtain ⟨-, k', x, hx⟩ := hb hi hr
  exact ⟨isBare_false, _, _, .elementFor hhead hopen hname hin he hclose hx⟩

theorem element {ws : List Item} (hw : ws ∈ elementProductions) (h : Denotes ws ks) :
    ∃ n, Category.element.Awaits false .element n ks := by
  simp only [elementProductions, List.mem_cons, List.not_mem_nil, or_false] at hw
  rcases hw with rfl | rfl | rfl | rfl | rfl
  · refine ⟨0, fun i r hi _ => ?_⟩
    obtain ⟨-, k, e, he⟩ := of_denotes h hi trivial
    exact ⟨isBare_false, _, _, .single he⟩
  · obtain ⟨a, rfl, ha⟩ := h
    refine ⟨0, fun i r hi _ => ?_⟩
    obtain ⟨-, k, e, he⟩ := of_denotes ha hi.2 trivial
    exact ⟨isBare_false, _, _, .spread hi.1.1 he⟩
  · obtain ⟨_, rfl, _, rfl, c, _, rfl, hc, _, rfl, hb⟩ := h
    obtain ⟨n, hb⟩ := of_denotes hb
    have hn := hb.conditional (elementIf hc) (elementIfElse hc)
    exact ⟨_, by simpa [header] using hn⟩
  · obtain ⟨_, rfl, _, rfl, c, _, rfl, hc, _, rfl, b, _, rfl, hb, a, rfl, ha⟩ := h
    obtain ⟨n, hb⟩ := hb
    obtain ⟨m, ha⟩ := of_denotes ha
    obtain ⟨n', hn⟩ := hb.conditionalElse ha (elementIf hc) (elementIfElse hc)
    exact ⟨n', by simpa [header] using hn⟩
  · obtain ⟨_, rfl, _, rfl, _, rfl, _, rfl, c, _, rfl, hc, _, rfl, hb⟩ := h
    obtain ⟨n, hb⟩ := of_denotes hb
    have hn := hb.map (elementFor hc)
    exact ⟨n, by simpa [loopHeader] using hn⟩

theorem elements {ws : List Item} (hw : ws ∈ PhraseKind.elements.productions)
    (h : Denotes ws ks) : Category.elements.UnlessElse false ks := by
  intro i r hi hr
  refine ⟨isBare_false, ?_⟩
  simp only [PhraseKind.productions, List.mem_cons, List.not_mem_nil, or_false] at hw
  rcases hw with rfl | rfl
  · obtain ⟨n, ha⟩ := of_denotes h
    obtain ⟨-, k, e, he⟩ := ha.unlessElse hi hr
    exact ⟨k, [e], .lastElement he⟩
  · obtain ⟨a, _, rfl, ⟨n, ha⟩, b, rfl, hb⟩ := h
    obtain ⟨m, hx, hm, hi⟩ := Tape.follows_append.1 hi
    have hcomma : m.kind = .symbol .comma := hm.1
    obtain ⟨-, k, e, he⟩ := ha.unlessElse hx (by simp [hcomma])
    obtain ⟨-, k', es, hes⟩ := of_denotes hb hi hr
    exact ⟨_, _, .elements he hcomma hes⟩

theorem entry {ws : List Item} (hw : ws ∈ PhraseKind.entry.productions) (h : Denotes ws ks) :
    PhraseKind.entry.Means ks := by
  cases List.mem_singleton.1 hw
  obtain ⟨a, _, rfl, ha, b, rfl, hb⟩ := h
  exact ⟨a, b, rfl, ha, of_denotes hb⟩

theorem entries {ws : List Item} (hw : ws ∈ PhraseKind.entries.productions) (h : Denotes ws ks) :
    Category.entries.Always false ks := by
  intro i r hi _
  refine ⟨isBare_false, ?_⟩
  simp only [PhraseKind.productions, List.mem_cons, List.not_mem_nil, or_false] at hw
  rcases hw with rfl | rfl
  · obtain ⟨a, b, rfl, ha, hb⟩ := of_denotes h
    obtain ⟨m, hx, hcolon, hi⟩ := Tape.follows_append.1 hi
    obtain ⟨-, k, key, hkey⟩ := ha hx trivial
    obtain ⟨-, k', value, hvalue⟩ := hb hi trivial
    exact ⟨_, _, .lastEntry hkey hcolon.1 hvalue⟩
  · obtain ⟨_, _, rfl, ⟨a, b, rfl, ha, hb⟩, d, rfl, hd⟩ := h
    obtain ⟨m', hx, hcomma, hi⟩ := Tape.follows_append.1 hi
    obtain ⟨m, hy, hcolon, hx⟩ := Tape.follows_append.1 hx
    obtain ⟨-, k, key, hkey⟩ := ha hy trivial
    obtain ⟨-, k', value, hvalue⟩ := hb hx trivial
    obtain ⟨-, k'', es, hes⟩ := of_denotes hd hi trivial
    exact ⟨_, _, .entries hkey hcolon.1 hvalue hcomma.1 hes⟩

theorem declarator {ws : List Item} (hw : ws ∈ PhraseKind.declarator.productions)
    (h : Denotes ws ks) : PhraseKind.declarator.Means ks := by
  intro constant nullability number i r hi _
  refine ⟨isBare_false, ?_⟩
  simp only [PhraseKind.productions, List.mem_cons, List.not_mem_nil, or_false] at hw
  rcases hw with rfl | rfl
  · obtain ⟨_, rfl, rfl⟩ := h
    obtain ⟨hname, rfl⟩ := hi
    exact ⟨0, _, .declarator hname.1⟩
  · obtain ⟨_, rfl, a, rfl, ha⟩ := h
    obtain ⟨hname, hassign, hi⟩ := hi
    obtain ⟨-, k, e, he⟩ := of_denotes ha hi trivial
    exact ⟨k, _, .initialized hname.1 hassign.1 he⟩

theorem declarators {ws : List Item} (hw : ws ∈ PhraseKind.declarators.productions)
    (h : Denotes ws ks) : PhraseKind.declarators.Means ks := by
  intro constant nullability number i r hi _
  refine ⟨isBare_false, ?_⟩
  simp only [PhraseKind.productions, List.mem_cons, List.not_mem_nil, or_false] at hw
  rcases hw with rfl | rfl
  · obtain ⟨-, k, d, hd⟩ := of_denotes h constant nullability number hi trivial
    exact ⟨k, [d], .lastDeclarator hd⟩
  · obtain ⟨a, _, rfl, ha, b, rfl, hb⟩ := h
    obtain ⟨m, hx, hcomma, hi⟩ := Tape.follows_append.1 hi
    obtain ⟨-, k, d, hd⟩ := ha constant nullability number hx trivial
    obtain ⟨-, k', ds, hds⟩ := of_denotes hb constant nullability (number + 1) hi trivial
    exact ⟨_, _, .declarators hd hcomma.1 hds⟩

/-! ### Commands -/

/-- What follows `var` in a declaration. -/
theorem declaration {m m' r' : Tape} {constant marked : Bool} {a : List TokenKind}
    (hfinal : i.Optional (.keyword .finalWord) constant m) (hvar : m.kind = .keyword .varWord)
    (hmark : m.next.Optional (.symbol .nullable) marked m')
    (ha : PhraseKind.declarators.Means a) (h : m'.Offers (a ++ [.symbol .semicolon]) r') :
    ∃ k c, Derives .command k i c r' := by
  obtain ⟨r, hx, hstop, rfl⟩ := Tape.follows_append.1 h
  obtain ⟨-, k, ds, hds⟩ := ha constant (.ofMark marked) 0 hx trivial
  exact ⟨_, _, .declaration hfinal hvar hmark hds hstop.1⟩

theorem printLine : Category.command.Always bare
    [.keyword .printWord, .symbol .openParen, .symbol .closeParen, .symbol .semicolon] := by
  intro i r hi _
  refine ⟨isBare_of_offers hi (by simp), ?_⟩
  obtain ⟨hhead, hopen, hclose, hstop, rfl⟩ := hi
  exact ⟨_, _, .printLine hhead.1 hopen.1 hclose.1 hstop.1⟩

theorem print (hc : (Category.expr .expression).Always false c) :
    Category.command.Always bare (header .printWord c ++ [.symbol .semicolon]) := by
  intro i r hi _
  obtain ⟨hhead, hopen, k, e, m, he, hclose, hstop, rfl⟩ := offers_header hc hi
  exact ⟨isBare_of_offers hi (by simp), _, _, .print hhead hopen he hclose hstop.1⟩

theorem assertion (hc : (Category.expr .expression).Always false c) :
    Category.command.Always bare (header .assertWord c ++ [.symbol .semicolon]) := by
  intro i r hi _
  obtain ⟨hhead, hopen, k, e, m, he, hclose, hstop, rfl⟩ := offers_header hc hi
  exact ⟨isBare_of_offers hi (by simp), _, _, .assert hhead hopen he hclose hstop.1⟩

theorem assertMessage {a b : List TokenKind} (ha : (Category.expr .expression).Always false a)
    (hb : (Category.expr .expression).Always false b) :
    Category.command.Always bare (.keyword .assertWord :: .symbol .openParen ::
      (a ++ .symbol .comma :: (b ++ [.symbol .closeParen, .symbol .semicolon]))) := by
  intro i r hi _
  refine ⟨isBare_of_offers hi (by simp), ?_⟩
  obtain ⟨hhead, hopen, hi⟩ := hi
  obtain ⟨m, hx, hcomma, hi⟩ := Tape.follows_append.1 hi
  obtain ⟨m', hy, hclose, hstop, rfl⟩ := Tape.follows_append.1 hi
  obtain ⟨-, k, e, he⟩ := ha hx trivial
  obtain ⟨-, k', e', he'⟩ := hb hy trivial
  exact ⟨_, _, .assertMessage hhead.1 hopen.1 he hcomma.1 he' hclose.1 hstop.1⟩

theorem assignment {a b : List TokenKind} (ha : (Category.expr .place).Always false a)
    (hb : (Category.expr .expression).Always false b) :
    Category.command.Always bare (a ++ .symbol .assign :: (b ++ [.symbol .semicolon])) := by
  intro i r hi _
  obtain ⟨m, hx, hassign, hi⟩ := Tape.follows_append.1 hi
  obtain ⟨m', hy, hstop, rfl⟩ := Tape.follows_append.1 hi
  obtain ⟨-, k, e, he⟩ := ha hx trivial
  obtain ⟨-, k', e', he'⟩ := hb hy trivial
  obtain ⟨target, ht⟩ := Option.isSome_iff_exists.1 (he.shaped.2 rfl)
  exact ⟨isBare_of_place he, _, _, .assignment he ht hassign.1 he' hstop.1⟩

theorem effect {a : List TokenKind} (ha : (Category.expr .expression).Always bare a) :
    Category.command.Always bare (a ++ [.symbol .semicolon]) := by
  intro i r hi _
  obtain ⟨m, hx, hstop, rfl⟩ := Tape.follows_append.1 hi
  obtain ⟨hbare, k, e, he⟩ := ha hx trivial
  exact ⟨hbare, _, _, .effect he hstop.1⟩

/-- A conditional without `else`. -/
theorem conditional (hc : (Category.expr .expression).Always false c) (b : List TokenKind)
    (hb : Category.body.UnlessElse false b) :
    Category.command.UnlessElse bare (header .ifWord c ++ b) := by
  intro i r hi hr
  obtain ⟨hhead, hopen, k, e, m, he, hclose, hm⟩ := offers_header hc hi
  obtain ⟨-, k', x, hx⟩ := hb hm hr
  exact ⟨isBare_of_offers hi (by simp), _, _, .conditional hhead hopen he hclose hx hr⟩

theorem conditionalElse (hc : (Category.expr .expression).Always false c)
    (b a : List TokenKind) (allowed : TokenKind → Prop) (hb : Category.body.Always false b)
    (ha : Category.body.Fits false allowed a) :
    Category.command.Fits bare allowed
      (header .ifWord c ++ (b ++ .keyword .elseWord :: a)) := by
  intro i r hi hr
  obtain ⟨hhead, hopen, k, e, m, he, hclose, hm⟩ := offers_header hc hi
  obtain ⟨m', hx, helse, hy⟩ := Tape.follows_append.1 hm
  obtain ⟨-, k', x, hx⟩ := hb hx trivial
  obtain ⟨-, k'', y, hy⟩ := ha hy hr
  exact ⟨isBare_of_offers hi (by simp), _, _,
    .conditionalElse hhead hopen he hclose hx helse.1 hy⟩

theorem whileLoop (hc : (Category.expr .expression).Always false c) (b : List TokenKind)
    (allowed : TokenKind → Prop) (hb : Category.body.Fits false allowed b) :
    Category.command.Fits bare allowed (header .whileWord c ++ b) := by
  intro i r hi hr
  obtain ⟨hhead, hopen, k, e, m, he, hclose, hm⟩ := offers_header hc hi
  obtain ⟨-, k', x, hx⟩ := hb hm hr
  exact ⟨isBare_of_offers hi (by simp), _, _, .whileLoop hhead hopen he hclose hx⟩

theorem forLoop (hc : (Category.expr .expression).Always false c) (b : List TokenKind)
    (allowed : TokenKind → Prop) (hb : Category.body.Fits false allowed b) :
    Category.command.Fits bare allowed (loopHeader c ++ b) := by
  intro i r hi hr
  obtain ⟨hhead, hopen, hname, hin, k, e, m, he, hclose, hm⟩ := offers_loopHeader hc hi
  obtain ⟨-, k', x, hx⟩ := hb hm hr
  exact ⟨isBare_of_offers hi (by simp), _, _, .forLoop hhead hopen hname hin he hclose hx⟩

theorem doWhileLoop {b : List TokenKind} (hc : (Category.expr .expression).Always false c)
    (hb : Category.body.UnlessElse false b) :
    Category.command.Always bare
      (.keyword .doWord :: (b ++ (header .whileWord c ++ [.symbol .semicolon]))) := by
  intro i r hi _
  obtain ⟨m, hx, hm⟩ := Tape.follows_append.1 hi.2
  obtain ⟨hwhile, hopen, k, e, m', he, hclose, hstop, rfl⟩ := offers_header hc hm
  obtain ⟨-, k', x, hx⟩ := hb hx (by simp [hwhile])
  exact ⟨isBare_of_offers hi (by simp), _, _,
    .doWhileLoop hi.1.1 hx hwhile hopen he hclose hstop.1⟩

theorem command {ws : List Item} (hw : ws ∈ commandProductions bare) (h : Denotes ws ks) :
    ∃ n, Category.command.Awaits bare .body n ks := by
  simp only [commandProductions, List.mem_cons, List.not_mem_nil, or_false] at hw
  rcases hw with rfl | rfl | rfl | rfl | rfl | rfl | rfl | rfl | rfl | rfl | rfl | rfl | rfl |
    rfl | rfl
  · obtain ⟨_, rfl, a, _, rfl, ha, _, rfl, rfl⟩ := h
    refine ⟨0, fun i r hi _ => ⟨isBare_of_offers hi (by simp), ?_⟩⟩
    exact declaration .absent hi.1.1 .absent ha hi.2
  · obtain ⟨_, rfl, _, rfl, a, _, rfl, ha, _, rfl, rfl⟩ := h
    refine ⟨0, fun i r hi _ => ⟨isBare_of_offers hi (by simp), ?_⟩⟩
    obtain ⟨hvar, hmark, hi⟩ := hi
    exact declaration .absent hvar.1 (.present hmark.1) ha hi
  · obtain ⟨_, rfl, _, rfl, a, _, rfl, ha, _, rfl, rfl⟩ := h
    refine ⟨0, fun i r hi _ => ⟨isBare_of_offers hi (by simp), ?_⟩⟩
    obtain ⟨hfinal, hvar, hi⟩ := hi
    exact declaration (.present hfinal.1) hvar.1 .absent ha hi
  · obtain ⟨_, rfl, _, rfl, _, rfl, a, _, rfl, ha, _, rfl, rfl⟩ := h
    refine ⟨0, fun i r hi _ => ⟨isBare_of_offers hi (by simp), ?_⟩⟩
    obtain ⟨hfinal, hvar, hmark, hi⟩ := hi
    exact declaration (.present hfinal.1) hvar.1 (.present hmark.1) ha hi
  · obtain ⟨_, rfl, _, rfl, _, rfl, _, rfl, rfl⟩ := h
    exact ⟨0, printLine⟩
  · obtain ⟨_, rfl, _, rfl, c, _, rfl, hc, _, rfl, _, rfl, rfl⟩ := h
    have hn : Category.command.Awaits bare .body 0 _ := print hc
    exact ⟨0, by simpa [header] using hn⟩
  · obtain ⟨_, rfl, _, rfl, c, _, rfl, hc, _, rfl, _, rfl, rfl⟩ := h
    have hn : Category.command.Awaits bare .body 0 _ := assertion hc
    exact ⟨0, by simpa [header] using hn⟩
  · obtain ⟨_, rfl, _, rfl, a, _, rfl, ha, _, rfl, b, _, rfl, hb, _, rfl, _, rfl, rfl⟩ := h
    exact ⟨0, assertMessage ha hb⟩
  · obtain ⟨_, rfl, _, rfl, c, _, rfl, hc, _, rfl, hb⟩ := h
    obtain ⟨n, hb⟩ := of_denotes hb
    have hn : Category.command.Awaits bare .body _ _ :=
      hb.conditional (conditional hc) (conditionalElse hc)
    exact ⟨_, by simpa [header] using hn⟩
  · obtain ⟨_, rfl, _, rfl, c, _, rfl, hc, _, rfl, b, _, rfl, hb, a, rfl, ha⟩ := h
    obtain ⟨n, hb⟩ := hb
    obtain ⟨m, ha⟩ := of_denotes ha
    obtain ⟨n', hn⟩ : ∃ n', Category.command.Awaits bare .body n' _ :=
      hb.conditionalElse ha (conditional hc) (conditionalElse hc)
    exact ⟨n', by simpa [header] using hn⟩
  · obtain ⟨_, rfl, _, rfl, c, _, rfl, hc, _, rfl, hb⟩ := h
    obtain ⟨n, hb⟩ := of_denotes hb
    have hn : Category.command.Awaits bare .body n _ := hb.map (whileLoop hc)
    exact ⟨n, by simpa [header] using hn⟩
  · obtain ⟨_, rfl, b, _, rfl, ⟨n, hb⟩, _, rfl, _, rfl, c, _, rfl, hc, _, rfl, _, rfl, rfl⟩ := h
    have hn : Category.command.Awaits bare .body 0 _ := doWhileLoop hc hb.unlessElse
    exact ⟨0, by simpa [header] using hn⟩
  · obtain ⟨_, rfl, _, rfl, _, rfl, _, rfl, c, _, rfl, hc, _, rfl, hb⟩ := h
    obtain ⟨n, hb⟩ := of_denotes hb
    have hn : Category.command.Awaits bare .body n _ := hb.map (forLoop hc)
    exact ⟨n, by simpa [loopHeader] using hn⟩
  · obtain ⟨a, _, rfl, ha, _, rfl, b, _, rfl, hb, _, rfl, rfl⟩ := h
    exact ⟨0, assignment ha hb⟩
  · obtain ⟨a, _, rfl, ha, _, rfl, rfl⟩ := h
    exact ⟨0, effect ha⟩

theorem body {ws : List Item} (hw : ws ∈ PhraseKind.body.productions) (h : Denotes ws ks) :
    ∃ n, Category.body.Awaits false .body n ks := by
  simp only [PhraseKind.productions, List.mem_cons, List.not_mem_nil, or_false] at hw
  rcases hw with rfl | rfl
  · obtain ⟨_, rfl, a, _, rfl, ha, _, rfl, rfl⟩ := h
    refine ⟨0, fun i r hi _ => ⟨isBare_false, ?_⟩⟩
    obtain ⟨hopen, hi⟩ := hi
    obtain ⟨m, hx, hm, rfl⟩ := Tape.follows_append.1 hi
    have hclose : m.kind = .symbol .closeCurly := hm.1
    obtain ⟨-, k, cs, hcs⟩ := ha hx (by simp [hclose])
    exact ⟨_, _, .braced hopen.1 hcs hclose⟩
  · obtain ⟨n, ha⟩ := of_denotes h
    have hfits (b : List TokenKind) (allowed : TokenKind → Prop)
        (hb : Category.command.Fits true allowed b) :
        Category.body.Fits false allowed ([] ++ b) := by
      intro i r hi hr
      obtain ⟨hbare, k, c, hc⟩ := hb hi hr
      exact ⟨isBare_false, _, _, .unbraced (hbare rfl) hc⟩
    exact ⟨n, ha.map hfits⟩

theorem code {ws : List Item} (hw : ws ∈ PhraseKind.code.productions) (h : Denotes ws ks) :
    Category.code.UnlessElse false ks := by
  intro i r hi hr
  refine ⟨isBare_false, ?_⟩
  simp only [PhraseKind.productions, List.mem_cons, List.not_mem_nil, or_false] at hw
  rcases hw with rfl | rfl
  · cases h
    cases hi
    exact ⟨0, [], .noCode⟩
  · obtain ⟨a, _, rfl, ⟨n, ha⟩, hb⟩ := h
    obtain ⟨m, hx, hi⟩ := Tape.follows_append.1 hi
    obtain ⟨-, k', cs, hcs⟩ := of_denotes hb hi hr
    -- The commands behind do not start with an `else` either.
    obtain ⟨-, k, c, hc⟩ := ha.unlessElse hx (hcs.kind_ne_else hr)
    exact ⟨_, _, .code hc hcs⟩

/-- What a phrase stands for says of a sequence what the phrase does. -/
theorem of_production {n : PhraseKind} {ws : List Item} (hw : ws ∈ n.productions)
    (h : Denotes ws ks) : n.Means ks := by
  cases n with
  | program =>
    cases List.mem_singleton.1 hw
    obtain ⟨a, _, rfl, ha, _, rfl, rfl⟩ := h
    exact ⟨a, rfl, ha⟩
  | code => exact code hw h
  | body => exact body hw h
  | command bare => exact command hw h
  | declarators => exact declarators hw h
  | declarator => exact declarator hw h
  | expr rank bare => exact expr hw h
  | operations l => exact operations hw h
  | subscripts => exact subscripts hw h
  | elements => exact elements hw h
  | element => exact element hw h
  | entries => exact entries hw h
  | entry => exact entry hw h

/-- What is generated is derived. -/
theorem of_generates {n : PhraseKind} (h : Generates [.phrase n] ks) : n.Means ks :=
  ContextFreeGrammar.Spells.of_nonterminal
    (fun _ hr _ hw => of_production (mem_grammar_rules.1 hr) hw) h

end PhraseKind.Means

end Scriptlet
