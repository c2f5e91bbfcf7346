import Scriptlet.Proofs.Lookahead
import Scriptlet.Proofs.Rendering
import Scriptlet.Proofs.Shape

/-!
# What the words of a tree are read as

The words that a tree is printed in are derived by the grammar. The derivation follows the
tree: an operator stands between operands that are in parentheses or need none, a subscript
stands on a place, and no `else` can be taken by a conditional that it is not meant for.
What is derived is what the tree mentions, and the nesting of the derivation is the depth of
the tree.

## The model

`Tape.Follows R i as r` says that the tokens on the tape from `i` up to `r` are, one by one,
as `R` asks of the items `as`. `Tape.Reads` is the case of words.

## What is proved

* `Expr.readAs` — the words of an expression are derived.
* `Block.readAs` — the words of a program are derived.
-/

namespace Scriptlet

/-! ### Words on a tape -/

/-- The tokens on the tape from one place up to another are as asked, one for each item. -/
def Tape.Follows {α : Type} (R : α → Token → Prop) (i : Tape) : List α → Tape → Prop
  | [], r => i = r
  | a :: as, r => R a i.hand.token ∧ i.next.Follows R as r

theorem Tape.follows_append {α : Type} {R : α → Token → Prop} {i r : Tape} {as as' : List α} :
    i.Follows R (as ++ as') r ↔ ∃ m, i.Follows R as m ∧ m.Follows R as' r := by
  induction as generalizing i with
  | nil =>
    constructor
    · exact fun h => ⟨i, rfl, h⟩
    · rintro ⟨m, rfl, h⟩
      exact h
  | cons a as ih =>
    rw [List.cons_append, Follows, ih]
    constructor
    · rintro ⟨ha, m, h, h'⟩
      exact ⟨m, ⟨ha, h⟩, h'⟩
    · rintro ⟨m, ⟨ha, h⟩, h'⟩
      exact ⟨ha, m, h, h'⟩

/-- The token is this word. -/
def Word.IsToken (w : Word) (t : Token) : Prop := t.kind = w.kind ∧ t.value = w.value

/-- The tokens on the tape from one place up to another are these words. -/
abbrev Tape.Reads : Tape → List Word → Tape → Prop := Tape.Follows Word.IsToken

namespace Tape

variable {i r : Tape} {ws ws' : List Word} {s : Symbol} {k : Keyword} {n : String}

theorem kind_of_reads_symbol (h : i.Reads (.symbol s :: ws) r) :
    i.kind = .symbol s ∧ i.next.Reads ws r := ⟨h.1.1, h.2⟩

theorem kind_of_reads_keyword (h : i.Reads (.keyword k :: ws) r) :
    i.kind = .keyword k ∧ i.next.Reads ws r := ⟨h.1.1, h.2⟩

theorem kind_of_reads_name (h : i.Reads (.name n :: ws) r) :
    i.kind = .name ∧ i.hand.token.value = n ∧ i.next.Reads ws r := ⟨h.1.1, h.1.2, h.2⟩

/-- Words with a symbol between them. -/
theorem split_of_reads (h : i.Reads (ws ++ .symbol s :: ws') r) :
    ∃ m, i.Reads ws m ∧ m.kind = .symbol s ∧ m.next.Reads ws' r := by
  obtain ⟨m, h, h'⟩ := follows_append.1 h
  exact ⟨m, h, kind_of_reads_symbol h'⟩

/-- Words with a symbol behind them. -/
theorem stop_of_reads (h : i.Reads (ws ++ [.symbol s]) r) :
    ∃ m, i.Reads ws m ∧ m.kind = .symbol s ∧ r = m.next := by
  obtain ⟨m, h, hs, hr⟩ := split_of_reads h
  exact ⟨m, h, hs, hr.symm⟩

/-- Words in parentheses. -/
theorem parenthesized_of_reads (h : i.Reads (Word.parenthesized ws) r) :
    i.kind = .symbol .openParen ∧
      ∃ m, i.next.Reads ws m ∧ m.kind = .symbol .closeParen ∧ r = m.next := by
  obtain ⟨hopen, h⟩ := kind_of_reads_symbol h
  exact ⟨hopen, stop_of_reads h⟩

/-- Words in parentheses behind a keyword. -/
theorem header_of_reads (h : i.Reads (.keyword k :: (Word.parenthesized ws ++ ws')) r) :
    i.kind = .keyword k ∧ i.next.kind = .symbol .openParen ∧
      ∃ m, i.next.next.Reads ws m ∧ m.kind = .symbol .closeParen ∧ m.next.Reads ws' r := by
  obtain ⟨hhead, h⟩ := kind_of_reads_keyword h
  obtain ⟨m, hws, h'⟩ := follows_append.1 h
  obtain ⟨hopen, n, hws, hclose, hm⟩ := parenthesized_of_reads hws
  exact ⟨hhead, hopen, n, hws, hclose, hm ▸ h'⟩

end Tape

/-! ### Single words -/

/-- The level of an operator. -/
def BinaryOp.level : BinaryOp → Level
  | ifNull => .fallback
  | and | or => .logical
  | lowerThan | greaterThan | lowerEqual | greaterEqual | equal | notEqual => .relational
  | add | sub => .additive
  | mul | div | mod => .multiplicative

theorem BinaryOp.op?_symbol (op : BinaryOp) : op.level.op? (.symbol op.symbol) = some op := by
  cases op <;> rfl

theorem UnaryOp.after?_symbol {op : UnaryOp} (h : op.standsAfter = true) :
    UnaryOp.after? (.symbol op.symbol) = some op := by
  cases op <;> first | rfl | cases h

theorem UnaryOp.before?_symbol {op : UnaryOp} (h : op.standsAfter = false) :
    UnaryOp.before? (.symbol op.symbol) = some op := by
  cases op <;> first | rfl | cases h

theorem Builtin.ofKind?_keyword (f : Builtin) : Builtin.ofKind? (.keyword f.keyword) = some f := by
  cases f <;> rfl

/-- A number in range is read from the digits that it is written in. -/
theorem Text.Decimal.number?_spelling {n : Int} (h : 0 ≤ n) (hn : n ≤ greatest) :
    number? (spelling n) = some n := by
  rw [number?_of_isNumber (isNumber_spelling h hn)]
  cases n with
  | negSucc n => omega
  | ofNat n => rw [spelling, Nat.toList_repr, value, Nat.ofDigitChars_ten_toDigits]

theorem Literal.ofToken_word {v : Literal} {t : Token} (h : v.Spellable)
    (ht : v.word.IsToken t) : Literal.ofToken t = .ok v := by
  obtain ⟨kind, value, line⟩ := t
  obtain ⟨rfl, rfl⟩ := ht
  cases v with
  | null | text => rfl
  | bool b => cases b <;> rfl
  | number n =>
    simp only [Literal.ofToken, Literal.word, Word.kind, Word.value]
    rw [Text.Decimal.number?_spelling h.1 h.2]

/-! ### Ranks -/

namespace Derives

variable {k k' : Nat} {i m m' r : Tape} {e s : Expr Mention}

theorem fallback_of_level {l : Level} (h : Derives (.expr (.level l)) k i e r) :
    Derives (.expr (.level .fallback)) k i e r := by
  have hf (h : Derives (.expr (.level .logical)) k i e r) :
      Derives (.expr (.level .fallback)) k i e r :=
    level_of_operand (l := .fallback) h
  have hl (h : Derives (.expr (.level .relational)) k i e r) :
      Derives (.expr (.level .logical)) k i e r :=
    level_of_operand (l := .logical) h
  have hr (h : Derives (.expr (.level .additive)) k i e r) :
      Derives (.expr (.level .relational)) k i e r :=
    level_of_operand (l := .relational) h
  have ha (h : Derives (.expr (.level .multiplicative)) k i e r) :
      Derives (.expr (.level .additive)) k i e r :=
    level_of_operand (l := .additive) h
  cases l with
  | fallback => exact h
  | logical => exact hf h
  | relational => exact hf (hl h)
  | additive => exact hf (hl (hr h))
  | multiplicative => exact hf (hl (hr (ha h)))

/-- What stands between operators of a level may be anything signed. -/
theorem operand_of_signed (l : Level) (h : Derives (.expr .signed) k i e r) :
    Derives (.expr l.operand) k i e r := by
  have hm : Derives (.expr (.level .multiplicative)) k i e r :=
    level_of_operand (l := .multiplicative) h
  have ha : Derives (.expr (.level .additive)) k i e r := level_of_operand (l := .additive) hm
  have hr : Derives (.expr (.level .relational)) k i e r :=
    level_of_operand (l := .relational) ha
  cases l with
  | fallback => exact level_of_operand (l := .logical) hr
  | logical => exact hr
  | relational => exact ha
  | additive => exact hm
  | multiplicative => exact h

theorem expression_of_signed (h : Derives (.expr .signed) k i e r) :
    Derives (.expr .expression) (k + 1) i e r :=
  .expression (level_of_operand (h.operand_of_signed .fallback))

/-- An operator between two operands. -/
theorem binary {op : BinaryOp} (h : Derives (.expr .signed) k i e m)
    (hop : m.kind = .symbol op.symbol) (h' : Derives (.expr .signed) k' m.next s r) :
    Derives (.expr .expression) (max k k' + 1) i (.binary op e s m.next.hand.reached) r := by
  have ho := Derives.operation (hop ▸ op.op?_symbol) (h'.operand_of_signed op.level) .noOperation
  rw [Nat.max_zero] at ho
  have hlevel := Derives.level (h.operand_of_signed op.level) ho (.inr (Nat.le_refl 1))
  exact .expression (fallback_of_level hlevel)

theorem signed_of_operand (h : Derives (.expr .operand) k i e r) :
    Derives (.expr .signed) k i e r := .unsigned (.factor (.primary h))

theorem subscripts_append {subs : List (Expr Mention × Nat)}
    (h : Derives .subscripts k i subs m) (opens : m.kind = .symbol .openBracket)
    (h' : Derives (.expr .expression) k' m.next s m') (closes : m'.kind = .symbol .closeBracket) :
    Derives .subscripts (max k k') i (subs ++ [(s, m.next.hand.reached)]) m'.next := by
  induction subs generalizing i k with
  | nil =>
    cases h with
    | noSubscript =>
      have hs := Derives.subscript opens h' closes .noSubscript
      rwa [Nat.max_comm] at hs
  | cons sub subs ih =>
    cases h with
    | subscript opens₁ h₁ closes₁ rest =>
      rw [Nat.max_assoc]
      exact .subscript opens₁ h₁ closes₁ (ih rest)

/-- A place with one more subscript behind it. -/
theorem place_index (h : Derives (.expr .place) k i e m) (opens : m.kind = .symbol .openBracket)
    (h' : Derives (.expr .expression) k' m.next s m') (closes : m'.kind = .symbol .closeBracket) :
    Derives (.expr .place) (max k k') i (.index e s m.next.hand.reached) m'.next := by
  cases h with
  | named head h =>
    have hp := Derives.named head (h.subscripts_append opens h' closes)
    rwa [Expr.subscripted, List.foldl_append] at hp

end Derives

/-! ### Expressions -/

/-- The readings on the tape are derived as a phrase of a rank, which mentions what the
expression does. -/
def Expr.ReadAs (rank : Rank) (i : Tape) (e : Expr Variable) (r : Tape) : Prop :=
  ∃ x, Derives (.expr rank) e.depth i x r ∧
    x.relabel Mention.unlined unline = e.relabel Variable.used unline

/-- The readings on the tape are derived as an element, which mentions what the element
does. -/
def Element.ReadAs (i : Tape) (e : Element Variable) (r : Tape) : Prop :=
  ∃ x, Derives .element e.depth i x r ∧
    x.relabel Mention.unlined unline = e.relabel Variable.used unline

section

variable {i r : Tape} {e : Expr Variable}

theorem Expr.ReadAs.expression (h : e.ReadAs .signed i r) :
    ∃ x, Derives (.expr .expression) (e.depth + 1) i x r ∧
      x.relabel Mention.unlined unline = e.relabel Variable.used unline := by
  obtain ⟨x, hx, hm⟩ := h
  exact ⟨x, hx.expression_of_signed, hm⟩

theorem Expr.ReadAs.signed (h : e.ReadAs .operand i r) : e.ReadAs .signed i r := by
  obtain ⟨x, hx, hm⟩ := h
  exact ⟨x, hx.signed_of_operand, hm⟩

end

mutual

/-- The words of an expression are derived. -/
theorem Expr.readAs : (e : Expr Variable) → e.Spellable Variable.name → e.Shaped →
    ∀ {i r : Tape},
    i.Reads e.words r → e.ReadAs .signed i r ∧ (e.target?.isSome → e.ReadAs .place i r)
  | .const v line, hs, _, i, r, h => by
    obtain ⟨ht, rfl⟩ := h
    exact ⟨Expr.ReadAs.signed ⟨_, .constant (Literal.ofToken_word hs ht), rfl⟩, nofun⟩
  | .binary op a b line, hs, hsh, i, r, h => by
    obtain ⟨hopen, m, hab, hclose, rfl⟩ := Tape.parenthesized_of_reads h
    obtain ⟨n, ha, hop, hb⟩ := Tape.split_of_reads hab
    obtain ⟨x, hx, hxa⟩ := (Expr.readAs a hs.1 hsh.1 ha).1
    obtain ⟨y, hy, hyb⟩ := (Expr.readAs b hs.2 hsh.2 hb).1
    refine ⟨⟨_, .unsigned (.factor (.parenthesized hopen (hx.binary hop hy) hclose)), ?_⟩, nofun⟩
    rw [Expr.relabel, Expr.relabel, hxa, hyb]
    rfl
  | .unary op a line, hs, hsh, i, r, h => by
    refine ⟨?_, nofun⟩
    rw [Expr.words] at h
    cases hafter : op.standsAfter with
    | true =>
      rw [hafter, if_pos rfl] at h
      obtain ⟨m, hp, hop, rfl⟩ := Tape.stop_of_reads h
      obtain ⟨hopen, n, ha, hclose, rfl⟩ := Tape.parenthesized_of_reads hp
      obtain ⟨x, hx, hxa⟩ := (Expr.readAs a hs hsh ha).1.expression
      refine ⟨_, .unsigned (.postfixed (.parenthesized hopen hx hclose)
        (hop ▸ UnaryOp.after?_symbol hafter)), ?_⟩
      rw [Expr.relabel, Expr.relabel, hxa]
      rfl
    | false =>
      rw [hafter, if_neg Bool.false_ne_true] at h
      obtain ⟨hop, hp⟩ := Tape.kind_of_reads_symbol h
      obtain ⟨hopen, n, ha, hclose, rfl⟩ := Tape.parenthesized_of_reads hp
      obtain ⟨x, hx, hxa⟩ := (Expr.readAs a hs hsh ha).1.expression
      refine ⟨_, .signed (hop ▸ UnaryOp.before?_symbol hafter)
        (.factor (.parenthesized hopen hx hclose)), ?_⟩
      rw [Expr.relabel, Expr.relabel, hxa]
      rfl
  | .call f a line, hs, hsh, i, r, h => by
    obtain ⟨hf, hp⟩ := Tape.kind_of_reads_keyword h
    obtain ⟨hopen, n, ha, hclose, rfl⟩ := Tape.parenthesized_of_reads hp
    obtain ⟨x, hx, hxa⟩ := (Expr.readAs a hs hsh ha).1.expression
    refine ⟨Expr.ReadAs.signed ⟨_, .call (hf ▸ f.ofKind?_keyword) hopen hx hclose, ?_⟩, nofun⟩
    rw [Expr.relabel, Expr.relabel, hxa]
    rfl
  | .var v line, hs, hsh, i, r, h => by
    obtain ⟨hname, hvalue, rfl⟩ := Tape.kind_of_reads_name h
    have hp : Expr.ReadAs .place i (.var v line) i.next := by
      refine ⟨_, .named hname .noSubscript, ?_⟩
      simp only [Expr.subscripted_nil, Expr.relabel, Mention.ofToken, Mention.unlined,
        Variable.used, hvalue]
      rfl
    obtain ⟨x, hx, hxv⟩ := hp
    exact ⟨Expr.ReadAs.signed ⟨x, .place hx, hxv⟩, fun _ => ⟨x, hx, hxv⟩⟩
  | .index a b line, hs, hsh, i, r, h => by
    obtain ⟨m, ha, hopen, hsub⟩ := Tape.split_of_reads h
    obtain ⟨n, hb, hclose, rfl⟩ := Tape.stop_of_reads hsub
    obtain ⟨x, hx, hxa⟩ := (Expr.readAs a hs.1 hsh.2.1 ha).2 hsh.1
    obtain ⟨y, hy, hyb⟩ := (Expr.readAs b hs.2 hsh.2.2 hb).1.expression
    have hp := hx.place_index hopen hy hclose
    have hm : (Expr.index x y m.next.hand.reached).relabel Mention.unlined unline =
        (Expr.index a b line).relabel Variable.used unline := by
      rw [Expr.relabel, Expr.relabel, hxa, hyb]
      rfl
    exact ⟨Expr.ReadAs.signed ⟨_, .place hp, hm⟩, fun _ => ⟨_, hp, hm⟩⟩
  | .list [] line, hs, hsh, i, r, h => by
    obtain ⟨hopen, h⟩ := Tape.kind_of_reads_symbol h
    obtain ⟨hclose, rfl⟩ := Tape.kind_of_reads_symbol h
    exact ⟨Expr.ReadAs.signed ⟨_, .emptyList hopen hclose, rfl⟩, nofun⟩
  | .list (e :: es) line, hs, hsh, i, r, h => by
    obtain ⟨hopen, h⟩ := Tape.kind_of_reads_symbol h
    obtain ⟨m, hes, hclose, rfl⟩ := Tape.stop_of_reads h
    obtain ⟨xs, hxs, hm⟩ := Expr.readAsElements (e :: es) nofun hs hsh hes (by simp [hclose])
    refine ⟨Expr.ReadAs.signed ⟨_, .list hopen hxs hclose, ?_⟩, nofun⟩
    rw [Expr.relabel, Expr.relabel, hm]
    rfl
  | .map [] line, hs, hsh, i, r, h => by
    obtain ⟨hopen, h⟩ := Tape.kind_of_reads_symbol h
    obtain ⟨hclose, rfl⟩ := Tape.kind_of_reads_symbol h
    exact ⟨Expr.ReadAs.signed ⟨_, .emptyMap hopen hclose, rfl⟩, nofun⟩
  | .map (e :: es) line, hs, hsh, i, r, h => by
    obtain ⟨hopen, h⟩ := Tape.kind_of_reads_symbol h
    obtain ⟨m, hes, hclose, rfl⟩ := Tape.stop_of_reads h
    obtain ⟨xs, hxs, hm⟩ := Expr.readAsEntries (e :: es) nofun hs hsh hes
    refine ⟨Expr.ReadAs.signed ⟨_, .map hopen hxs hclose, ?_⟩, nofun⟩
    rw [Expr.relabel, Expr.relabel, hm]
    rfl

/-- The words of an element are derived, unless there is an `else` behind that would be
taken for its own. -/
theorem Element.readAs : (e : Element Variable) → e.Spellable Variable.name → e.Shaped →
    ∀ {i r : Tape},
    i.Reads e.words r → (e.hasDanglingIf = true → r.kind ≠ .keyword .elseWord) → e.ReadAs i r
  | .single a, hs, hsh, i, r, h, _ => by
    obtain ⟨x, hx, hxa⟩ := (Expr.readAs a hs hsh h).1.expression
    refine ⟨_, .single hx, ?_⟩
    rw [Element.relabel, Element.relabel, hxa]
  | .spread a, hs, hsh, i, r, h, _ => by
    obtain ⟨hhead, ha⟩ := Tape.kind_of_reads_symbol h
    obtain ⟨x, hx, hxa⟩ := (Expr.readAs a hs hsh ha).1.expression
    refine ⟨_, .spread hhead hx, ?_⟩
    rw [Element.relabel, Element.relabel, hxa]
  | .cond c a none line, hs, hsh, i, r, h, hr => by
    obtain ⟨hhead, hopen, m, hc, hclose, ha⟩ := Tape.header_of_reads h
    obtain ⟨x, hx, hxc⟩ := (Expr.readAs c hs.1 hsh.1 hc).1.expression
    obtain ⟨y, hy, hya⟩ := Element.readAs a hs.2 hsh.2 ha fun _ => hr rfl
    refine ⟨_, .elementIf hhead hopen hx hclose hy (hr rfl), ?_⟩
    rw [Element.relabel, Element.relabel, hxc, hya]
    rfl
  | .cond c a (some b) line, hs, hsh, i, r, h, hr => by
    obtain ⟨hhead, hopen, m, hc, hclose, h⟩ := Tape.header_of_reads h
    obtain ⟨n, ha, h⟩ := Tape.follows_append.1 h
    obtain ⟨helse, hb⟩ := Tape.kind_of_reads_keyword h
    obtain ⟨x, hx, hxc⟩ := (Expr.readAs c hs.1 hsh.1 hc).1.expression
    obtain ⟨y, hy, hya⟩ := Element.readAs a hs.2.1 hsh.2.1 ha (by simp [hsh.2.2.1])
    obtain ⟨z, hz, hzb⟩ := Element.readAs b hs.2.2 hsh.2.2.2 hb hr
    refine ⟨_, .elementIfElse hhead hopen hx hclose hy helse hz, ?_⟩
    rw [Element.relabel, Element.relabel, hxc, hya, hzb]
    rfl
  | .each v a e line, hs, hsh, i, r, h, hr => by
    obtain ⟨hhead, hopen, m, ha, hclose, he⟩ := Tape.header_of_reads h
    obtain ⟨hname, hvalue, ha⟩ := Tape.kind_of_reads_name ha
    obtain ⟨hin, ha⟩ := Tape.kind_of_reads_keyword ha
    obtain ⟨x, hx, hxa⟩ := (Expr.readAs a hs.2.1 hsh.1 ha).1.expression
    obtain ⟨y, hy, hye⟩ := Element.readAs e hs.2.2 hsh.2 he hr
    refine ⟨_, .elementFor hhead hopen hname hin hx hclose hy, ?_⟩
    simp only [Element.relabel, hxa, hye, Mention.ofToken, Mention.unlined, Variable.used, hvalue]
    rfl

/-- The words of elements are derived. -/
theorem Expr.readAsElements : (es : List (Element Variable)) → es ≠ [] →
    Expr.SpellableElements Variable.name es → Expr.ShapedElements es → ∀ {i r : Tape},
    i.Reads (Word.separated (Expr.wordsOfElements es)) r → r.kind ≠ .keyword .elseWord →
    ∃ xs, Derives .elements (Expr.depthOfElements es) i xs r ∧
      Expr.relabelElements Mention.unlined unline xs =
        Expr.relabelElements Variable.used unline es
  | [], hne, _, _, _, _, _, _ => absurd rfl hne
  | [e], _, hs, hsh, i, r, h, hr => by
    obtain ⟨x, hx, hxe⟩ := Element.readAs e hs.1 hsh.1 h fun _ => hr
    refine ⟨[x], ?_, ?_⟩
    · rw [Expr.depthOfElements, Expr.depthOfElements, Nat.max_zero]
      exact .lastElement hx
    · simp only [Expr.relabelElements, hxe]
  | e :: e' :: es, _, hs, hsh, i, r, h, hr => by
    obtain ⟨m, he, hcomma, hes⟩ := Tape.split_of_reads h
    obtain ⟨x, hx, hxe⟩ := Element.readAs e hs.1 hsh.1 he (by simp [hcomma])
    obtain ⟨xs, hxs, hm⟩ := Expr.readAsElements (e' :: es) nofun hs.2 hsh.2 hes hr
    refine ⟨_, .elements hx hcomma hxs, ?_⟩
    rw [Expr.relabelElements, hxe, hm]
    rfl

/-- The words of entries are derived. -/
theorem Expr.readAsEntries : (es : List (Expr Variable × Expr Variable)) → es ≠ [] →
    Expr.SpellableEntries Variable.name es → Expr.ShapedEntries es → ∀ {i r : Tape},
    i.Reads (Word.separated (Expr.wordsOfEntries es)) r →
    ∃ xs, Derives .entries (Expr.depthOfEntries es) i xs r ∧
      Expr.relabelEntries Mention.unlined unline xs =
        Expr.relabelEntries Variable.used unline es
  | [], hne, _, _, _, _, _ => absurd rfl hne
  | [(a, b)], _, hs, hsh, i, r, h => by
    obtain ⟨m, ha, hcolon, hb⟩ := Tape.split_of_reads h
    obtain ⟨x, hx, hxa⟩ := (Expr.readAs a hs.1 hsh.1 ha).1.expression
    obtain ⟨y, hy, hyb⟩ := (Expr.readAs b hs.2.1 hsh.2.1 hb).1.expression
    refine ⟨[(x, y)], ?_, ?_⟩
    · rw [Expr.depthOfEntries, Expr.depthOfEntries, Nat.max_zero]
      exact .lastEntry hx hcolon hy
    · simp only [Expr.relabelEntries, hxa, hyb]
  | (a, b) :: e' :: es, _, hs, hsh, i, r, h => by
    obtain ⟨n, hab, hcomma, hes⟩ := Tape.split_of_reads h
    obtain ⟨m, ha, hcolon, hb⟩ := Tape.split_of_reads hab
    obtain ⟨x, hx, hxa⟩ := (Expr.readAs a hs.1 hsh.1 ha).1.expression
    obtain ⟨y, hy, hyb⟩ := (Expr.readAs b hs.2.1 hsh.2.1 hb).1.expression
    obtain ⟨xs, hxs, hm⟩ := Expr.readAsEntries (e' :: es) nofun hs.2.2 hsh.2.2 hes
    refine ⟨_, .entries hx hcolon hy hcomma hxs, ?_⟩
    rw [Expr.relabelEntries, hxa, hyb, hm]
    rfl

end

/-! ### Commands -/

/-- The readings on the tape are derived as a body, which mentions what the command does.
Unless it is in braces they are derived as a command too. -/
def Command.ReadAs (i : Tape) (c : Command Variable) (r : Tape) : Prop :=
  ∃ x, Derives .body c.depth i x r ∧ (c.isBraced = false → Derives .command c.depth i x r) ∧
    x.relabel Mention.unlined unline = c.mentions

theorem Command.ReadAs.of_command {i r : Tape} {c : Command Variable} {x : Command Mention}
    (h : Derives .command c.depth i x r) (hi : i.kind ≠ .symbol .openCurly)
    (hx : x.relabel Mention.unlined unline = c.mentions) : c.ReadAs i r :=
  ⟨x, .unbraced hi h, fun _ => h, hx⟩

section

variable {i r : Tape} {e : Expr Variable}

/-- Only a map starts with a brace. -/
theorem Expr.kind_ne_openCurly (hs : e.Spellable Variable.name) (hsh : e.Shaped)
    (h : i.Reads e.words r) (he : ∀ es line, e ≠ .map es line) : i.kind ≠ .symbol .openCurly := by
  have hplace (ht : e.target?.isSome) : i.kind ≠ .symbol .openCurly := by
    obtain ⟨x, hx, -⟩ := (e.readAs hs hsh h).2 ht
    exact hx.kind_ne rfl
  cases e with
  | const v line =>
    obtain ⟨⟨hk, -⟩, -⟩ := h
    rw [Tape.kind, hk]
    rcases v with _ | (_ | _) | _ | _ <;> simp [Literal.word, Word.kind]
  | binary op a b line =>
    rw [(Tape.parenthesized_of_reads h).1]
    simp
  | unary op a line =>
    rw [Expr.words] at h
    cases hafter : op.standsAfter with
    | true =>
      rw [hafter, if_pos rfl] at h
      rw [(Tape.kind_of_reads_symbol h).1]
      simp
    | false =>
      rw [hafter, if_neg Bool.false_ne_true] at h
      rw [(Tape.kind_of_reads_symbol h).1]
      cases op <;> simp [UnaryOp.symbol]
  | call f a line =>
    rw [(Tape.kind_of_reads_keyword h).1]
    simp
  | var | index => exact hplace rfl
  | list es line =>
    rw [(Tape.kind_of_reads_symbol h).1]
    simp
  | map es line => exact absurd rfl (he es line)

/-- An expression that stands as a command does not start with a brace. -/
theorem Expr.readAsAlone (hs : e.Spellable Variable.name) (hsh : e.Shaped)
    (h : i.Reads e.wordsAlone r) :
    i.kind ≠ .symbol .openCurly ∧ ∃ x, Derives (.expr .expression) (e.depthAlone + 1) i x r ∧
      x.relabel Mention.unlined unline = e.relabel Variable.used unline := by
  cases e with
  | map es line =>
    obtain ⟨hopen, m, hes, hclose, rfl⟩ := Tape.parenthesized_of_reads h
    obtain ⟨x, hx, hm⟩ := (Expr.readAs _ hs hsh hes).1.expression
    refine ⟨by simp [hopen], x, ?_, hm⟩
    exact Derives.expression_of_signed (.unsigned (.factor (.parenthesized hopen hx hclose)))
  | _ => exact ⟨Expr.kind_ne_openCurly hs hsh h nofun, (Expr.readAs _ hs hsh h).1.expression⟩

/-- What can be assigned to is derived as a place, and mentions the target. -/
theorem Target.readAs {t : Target Variable} (hs : t.toExpr.Spellable Variable.name)
    (hsh : t.toExpr.Shaped)
    (h : i.Reads t.toExpr.words r) :
    ∃ x target, Derives (.expr .place) t.toExpr.depth i x r ∧ x.target? = some target ∧
      target.relabel Mention.unlined unline = t.relabel Variable.used unline := by
  obtain ⟨x, hx, hm⟩ := (Expr.readAs _ hs hsh h).2 (by rw [Target.target?_toExpr]; rfl)
  have ht := congrArg Expr.target? hm
  rw [Expr.target?_relabel, Expr.target?_relabel, Target.target?_toExpr, Option.map_some,
    Option.map_eq_some_iff] at ht
  obtain ⟨target, htarget, hrelabel⟩ := ht
  exact ⟨x, target, hx, htarget, hrelabel⟩

end

/-! ### Declarations -/

section

variable {body : List (Command Variable)} {v : Variable} {value : Expr Variable} {i r : Tape}
  {constant : Bool} {nullability : Nullability} {number : Nat}

theorem Block.ShapedAll.of_mem {ν : Type} {body : List (Command ν)} (h : Block.ShapedAll body)
    {c : Command ν} (hc : c ∈ body) : c.Shaped false := by
  induction body with
  | nil => cases hc
  | cons c' body ih =>
    rcases List.mem_cons.1 hc with rfl | hc
    · exact h.1
    · exact ih h.2 hc

/-- A declared name without lines. -/
def Declarator.unlined (d : Declarator) : Declarator :=
  (d.1.unlined, d.2.map (Expr.relabel Mention.unlined unline))

theorem Block.relabel_ofDeclarators (ds : List Declarator) (line : Nat) :
    (Block.ofDeclarators ds line).relabel Mention.unlined unline =
      .ofDeclarators (ds.map Declarator.unlined) 0 := by
  have hbody : Block.relabelAll Mention.unlined unline (ds.filterMap Declarator.assignment?) =
      (ds.map Declarator.unlined).filterMap Declarator.assignment? := by
    induction ds with
    | nil => rfl
    | cons d ds ih =>
      obtain ⟨m, _ | value⟩ := d
      · exact ih
      · exact congrArg (List.cons _) ih
  have hdeclares : (ds.map Prod.fst).map Mention.unlined =
      (ds.map Declarator.unlined).map Prod.fst := by
    simp only [List.map_map]
    rfl
  rw [Block.ofDeclarators, Block.relabel, hbody, hdeclares]
  rfl

/-- The words of a declared name are derived. -/
theorem Variable.readAs (hbody : Block.SpellableAll Variable.name body) (hsh : Block.ShapedAll body)
    (h : i.Reads (v.wordsDeclared body) r) :
    ∃ d, Derives (.declarator constant nullability number) (v.depthDeclared body) i d r ∧
      d.unlined = (⟨v.name, 0, constant, nullability, number⟩,
        (body.findSome? (Command.initialValue? v)).map (Expr.relabel Variable.used unline)) := by
  unfold Variable.wordsDeclared at h
  unfold Variable.depthDeclared
  cases hvalue : body.findSome? (Command.initialValue? v) with
  | none =>
    rw [hvalue] at h
    obtain ⟨hname, hv, rfl⟩ := Tape.kind_of_reads_name h
    refine ⟨_, .declarator hname, ?_⟩
    simp [Declarator.unlined, Mention.declaredBy, Mention.unlined, hv]
  | some value =>
    rw [hvalue] at h
    obtain ⟨hname, hv, h⟩ := Tape.kind_of_reads_name h
    obtain ⟨hassign, h⟩ := Tape.kind_of_reads_symbol h
    obtain ⟨w, line, line', hmem, -⟩ := Command.exists_of_initialValue? hvalue
    obtain ⟨x, hx, hm⟩ :=
      (Expr.readAs value (hbody.of_mem hmem).2 (hsh.of_mem hmem).2 h).1.expression
    refine ⟨_, .initialized hname hassign hx, ?_⟩
    simp [Declarator.unlined, Mention.declaredBy, Mention.unlined, hv, hm]

/-- The words of declared names are derived. -/
theorem Variable.readAsAll (hbody : Block.SpellableAll Variable.name body)
    (hsh : Block.ShapedAll body)
    {vs : List Variable} (hne : vs ≠ [])
    (h : i.Reads (Word.separated (vs.map (Variable.wordsDeclared body))) r) :
    ∃ ds,
      Derives (.declarators constant nullability number) (Block.depthOfDeclared body vs) i ds r ∧
      ds.map Declarator.unlined = Block.declarators body constant nullability number vs := by
  induction vs generalizing i number with
  | nil => exact absurd rfl hne
  | cons v vs ih =>
    cases vs with
    | nil =>
      obtain ⟨d, hd, hm⟩ := Variable.readAs hbody hsh h
      refine ⟨[d], ?_, ?_⟩
      · rw [Block.depthOfDeclared, Block.depthOfDeclared, Nat.max_zero]
        exact .lastDeclarator hd
      · rw [List.map_singleton, hm]
        rfl
    | cons v' vs =>
      obtain ⟨m, hv, hcomma, hvs⟩ := Tape.split_of_reads h
      obtain ⟨d, hd, hm⟩ := Variable.readAs hbody hsh hv
      obtain ⟨ds, hds, hms⟩ := ih nofun hvs
      refine ⟨d :: ds, .declarators hd hcomma hds, ?_⟩
      rw [List.map_cons, hm, hms]
      rfl

/-- The words before the names of a declaration. -/
theorem Block.reads_head {ws : List Word} {vs : List Variable}
    (h : i.Reads (Block.declarationWords (v :: vs) ++ ws) r) :
    ∃ m m', i.Optional (.keyword .finalWord) v.constant m ∧ m.kind = .keyword .varWord ∧
      m.next.Optional (.symbol .nullable) v.isNullable m' ∧ m'.Reads ws r := by
  obtain ⟨m', h, hws⟩ := Tape.follows_append.1 h
  obtain ⟨m, hfinal, h⟩ := Tape.follows_append.1 h
  obtain ⟨hvar, hmark⟩ := Tape.kind_of_reads_keyword h
  refine ⟨m, m', ?_, hvar, ?_, hws⟩
  · cases hc : v.constant with
    | false =>
      rw [hc] at hfinal
      exact hfinal ▸ .absent
    | true =>
      rw [hc] at hfinal
      obtain ⟨hk, rfl⟩ := Tape.kind_of_reads_keyword hfinal
      exact .present hk
  · cases hn : v.isNullable with
    | false =>
      rw [hn] at hmark
      exact hmark ▸ .absent
    | true =>
      rw [hn] at hmark
      obtain ⟨hk, rfl⟩ := Tape.kind_of_reads_symbol hmark
      exact .present hk

theorem Variable.ofMark_isNullable (v : Variable) : .ofMark v.isNullable = v.nullability := by
  unfold Variable.isNullable Nullability.ofMark
  cases v.nullability <;> rfl

/-- The words of a declaration are derived. -/
theorem Block.readAsDeclaration {vs : List Variable} {line : Nat}
    (hs : Command.Spellable Variable.name (.block ⟨body, v :: vs, line⟩))
    (hsh : Command.Shaped true (.block ⟨body, v :: vs, line⟩))
    (h : i.Reads (Command.words (.block ⟨body, v :: vs, line⟩)) r) :
    Command.ReadAs i (.block ⟨body, v :: vs, line⟩) r := by
  obtain ⟨m, m', hfinal, hvar, hmark, h⟩ := Block.reads_head h
  obtain ⟨n, hvs, hstop, rfl⟩ := Tape.stop_of_reads h
  obtain ⟨ds, hds, hm⟩ := Variable.readAsAll hs.1 hsh.2 (List.cons_ne_nil v vs) hvs
  refine .of_command (.declaration hfinal hvar hmark hds hstop) ?_ ?_
  · unfold Tape.Optional at hfinal
    split at hfinal
    · simp [hfinal.1]
    · simp [← hfinal, hvar]
  · rw [Command.relabel, Block.relabel_ofDeclarators, hm, Command.mentions, v.ofMark_isNullable]

end

theorem Command.Shaped.body {ν : Type} {c : Command ν} (h : c.Shaped false) : c.Shaped true := by
  cases c with
  | block b =>
    obtain ⟨body, declares, line⟩ := b
    exact ⟨fun _ => rfl, h.2⟩
  | assign t => cases t <;> exact h
  | print a => cases a <;> exact h
  | assert a b => cases b <;> exact h
  | cond a b c => cases c <;> exact h
  | _ => exact h

theorem Command.Shaped.isBraced_eq_false {ν : Type} {c : Command ν} (h : c.Shaped false) :
    c.isBraced = false := by
  cases c with
  | block b =>
    obtain ⟨body, declares, line⟩ := b
    cases declares with
    | nil => cases h.1 rfl
    | cons => rfl
  | _ => rfl

/-- No command starts with `else`. -/
theorem Derives.kind_ne_else {k : Nat} {i r : Tape} {cs : List (Command Mention)}
    (h : Derives .code k i cs r) (hr : r.kind ≠ .keyword .elseWord) :
    i.kind ≠ .keyword .elseWord := by
  cases h with
  | noCode => exact hr
  | code hc => exact hc.kind_ne rfl

mutual

/-- The words of a command are derived, unless there is an `else` behind that would be taken
for its own. -/
theorem Command.readAs : (c : Command Variable) → c.Spellable Variable.name → c.Shaped true →
    ∀ {i r : Tape}, i.Reads c.words r →
    (c.hasDanglingIf = true → r.kind ≠ .keyword .elseWord) → c.ReadAs i r
  | .block ⟨body, [], line⟩, hs, hsh, i, r, h, _ => by
    obtain ⟨hopen, h⟩ := Tape.kind_of_reads_symbol h
    obtain ⟨m, hbody, hclose, rfl⟩ := Tape.stop_of_reads h
    obtain ⟨xs, hxs, hm⟩ := Block.readAsAll body hs.1 hsh.2 hbody (by simp [hclose])
    refine ⟨_, .braced hopen hxs hclose, nofun, ?_⟩
    rw [Command.relabel, Block.relabel, hm]
    rfl
  | .block ⟨body, v :: vs, line⟩, hs, hsh, i, r, h, _ => Block.readAsDeclaration hs hsh h
  | .assign none a line, hs, hsh, i, r, h, _ => by
    obtain ⟨m, ha, hstop, rfl⟩ := Tape.stop_of_reads h
    obtain ⟨hi, x, hx, hxa⟩ := Expr.readAsAlone hs hsh ha
    refine .of_command (.effect hx hstop) hi ?_
    rw [Command.relabel, hxa]
    rfl
  | .assign (some t) a line, hs, hsh, i, r, h, _ => by
    obtain ⟨m, ht, hassign, h⟩ := Tape.split_of_reads h
    obtain ⟨n, ha, hstop, rfl⟩ := Tape.stop_of_reads h
    obtain ⟨x, target, hx, htarget, hxt⟩ := Target.readAs hs.1 hsh.1 ht
    obtain ⟨y, hy, hya⟩ := (Expr.readAs a hs.2 hsh.2 ha).1.expression
    refine .of_command (.assignment hx htarget hassign hy hstop) ?_ ?_
    · exact Expr.kind_ne_openCurly hs.1 hsh.1 ht (by cases t <;> nofun)
    · rw [Command.relabel, hxt, hya]
      rfl
  | .print none line, _, _, i, r, h, _ => by
    obtain ⟨hhead, hopen, m, rfl, hclose, h⟩ := Tape.header_of_reads h
    obtain ⟨hstop, rfl⟩ := Tape.kind_of_reads_symbol h
    exact .of_command (.printLine hhead hopen hclose hstop) (by simp [hhead]) rfl
  | .print (some a) line, hs, hsh, i, r, h, _ => by
    obtain ⟨hhead, hopen, m, ha, hclose, h⟩ := Tape.header_of_reads h
    obtain ⟨hstop, rfl⟩ := Tape.kind_of_reads_symbol h
    obtain ⟨x, hx, hxa⟩ := (Expr.readAs a hs hsh ha).1.expression
    refine .of_command (.print hhead hopen hx hclose hstop) (by simp [hhead]) ?_
    rw [Command.relabel, hxa]
    rfl
  | .assert a none line, hs, hsh, i, r, h, _ => by
    obtain ⟨hhead, hopen, m, ha, hclose, h⟩ := Tape.header_of_reads h
    obtain ⟨hstop, rfl⟩ := Tape.kind_of_reads_symbol h
    obtain ⟨x, hx, hxa⟩ := (Expr.readAs a hs hsh ha).1.expression
    refine .of_command (.assert hhead hopen hx hclose hstop) (by simp [hhead]) ?_
    rw [Command.relabel, hxa]
    rfl
  | .assert a (some b) line, hs, hsh, i, r, h, _ => by
    obtain ⟨hhead, hopen, m, hab, hclose, h⟩ := Tape.header_of_reads h
    obtain ⟨hstop, rfl⟩ := Tape.kind_of_reads_symbol h
    obtain ⟨n, ha, hcomma, hb⟩ := Tape.split_of_reads hab
    obtain ⟨x, hx, hxa⟩ := (Expr.readAs a hs.1 hsh.1 ha).1.expression
    obtain ⟨y, hy, hyb⟩ := (Expr.readAs b hs.2 hsh.2 hb).1.expression
    refine .of_command (.assertMessage hhead hopen hx hcomma hy hclose hstop) (by simp [hhead]) ?_
    rw [Command.relabel, hxa, hyb]
    rfl
  | .cond a b none line, hs, hsh, i, r, h, hr => by
    obtain ⟨hhead, hopen, m, ha, hclose, hb⟩ := Tape.header_of_reads h
    obtain ⟨x, hx, hxa⟩ := (Expr.readAs a hs.1 hsh.1 ha).1.expression
    obtain ⟨y, hy, -, hyb⟩ := Command.readAs b hs.2 hsh.2 hb fun _ => hr rfl
    refine .of_command (.conditional hhead hopen hx hclose hy (hr rfl)) (by simp [hhead]) ?_
    rw [Command.relabel, hxa, hyb]
    rfl
  | .cond a b (some c) line, hs, hsh, i, r, h, hr => by
    obtain ⟨hhead, hopen, m, ha, hclose, h⟩ := Tape.header_of_reads h
    obtain ⟨n, hb, h⟩ := Tape.follows_append.1 h
    obtain ⟨helse, hc⟩ := Tape.kind_of_reads_keyword h
    obtain ⟨x, hx, hxa⟩ := (Expr.readAs a hs.1 hsh.1 ha).1.expression
    obtain ⟨z, hz, -, hzc⟩ := Command.readAs c hs.2.2 hsh.2.2 hc hr
    cases hd : b.hasDanglingIf with
    | false =>
      rw [hd, if_neg Bool.false_ne_true] at hb
      obtain ⟨y, hy, -, hyb⟩ := Command.readAs b hs.2.1 hsh.2.1 hb (by simp [hd])
      refine .of_command (.conditionalElse hhead hopen hx hclose hy helse hz) (by simp [hhead]) ?_
      rw [Command.relabel, hxa, hyb, hzc, Command.mentions, hd]
      rfl
    | true =>
      rw [hd, if_pos rfl] at hb
      obtain ⟨hbrace, hb⟩ := Tape.kind_of_reads_symbol hb
      obtain ⟨n', hb', hend, rfl⟩ := Tape.stop_of_reads hb
      obtain ⟨y, -, hy, hyb⟩ := Command.readAs b hs.2.1 hsh.2.1 hb' (by simp [hend])
      have hcode := Derives.code (hy (b.isBraced_eq_false_of_hasDanglingIf hd)) .noCode
      rw [Nat.max_zero] at hcode
      refine .of_command (.conditionalElse hhead hopen hx hclose (.braced hbrace hcode hend)
        helse hz) (by simp [hhead]) ?_
      rw [Command.relabel, hxa, hzc, Command.mentions, hd, if_pos rfl, Command.relabel,
        Block.relabel, Block.relabelAll, hyb]
      rfl
  | .whileDo a b line, hs, hsh, i, r, h, hr => by
    obtain ⟨hhead, hopen, m, ha, hclose, hb⟩ := Tape.header_of_reads h
    obtain ⟨x, hx, hxa⟩ := (Expr.readAs a hs.1 hsh.1 ha).1.expression
    obtain ⟨y, hy, -, hyb⟩ := Command.readAs b hs.2 hsh.2 hb hr
    refine .of_command (.whileLoop hhead hopen hx hclose hy) (by simp [hhead]) ?_
    rw [Command.relabel, hxa, hyb]
    rfl
  | .doWhile b a line, hs, hsh, i, r, h, _ => by
    obtain ⟨hhead, h⟩ := Tape.kind_of_reads_keyword h
    obtain ⟨m, hb, h⟩ := Tape.follows_append.1 h
    obtain ⟨hwhile, hopen, n, ha, hclose, h⟩ := Tape.header_of_reads h
    obtain ⟨hstop, rfl⟩ := Tape.kind_of_reads_symbol h
    obtain ⟨y, hy, -, hyb⟩ := Command.readAs b hs.2 hsh.2 hb (by simp [hwhile])
    obtain ⟨x, hx, hxa⟩ := (Expr.readAs a hs.1 hsh.1 ha).1.expression
    refine .of_command (.doWhileLoop hhead hy hwhile hopen hx hclose hstop) (by simp [hhead]) ?_
    rw [Command.relabel, hxa, hyb]
    rfl
  | .each v a b line, hs, hsh, i, r, h, hr => by
    obtain ⟨hhead, hopen, m, ha, hclose, hb⟩ := Tape.header_of_reads h
    obtain ⟨hname, hvalue, ha⟩ := Tape.kind_of_reads_name ha
    obtain ⟨hin, ha⟩ := Tape.kind_of_reads_keyword ha
    obtain ⟨x, hx, hxa⟩ := (Expr.readAs a hs.2.1 hsh.1 ha).1.expression
    obtain ⟨y, hy, -, hyb⟩ := Command.readAs b hs.2.2 hsh.2 hb hr
    refine .of_command (.forLoop hhead hopen hname hin hx hclose hy) (by simp [hhead]) ?_
    simp only [Command.relabel, hxa, hyb, Mention.ofToken, Mention.unlined, hvalue,
      Command.mentions, Variable.used]
    rfl

/-- The words of commands are derived, if there is no `else` behind. -/
theorem Block.readAsAll : (cs : List (Command Variable)) → Block.SpellableAll Variable.name cs →
    Block.ShapedAll cs → ∀ {i r : Tape}, i.Reads (Block.wordsOf cs) r →
    r.kind ≠ .keyword .elseWord →
    ∃ xs, Derives .code (Block.depthOfAll cs) i xs r ∧
      Block.relabelAll Mention.unlined unline xs = Block.mentionsAll cs
  | [], _, _, i, r, h, _ => by
    cases h
    exact ⟨[], .noCode, rfl⟩
  | c :: cs, hs, hsh, i, r, h, hr => by
    obtain ⟨m, hc, hcs⟩ := Tape.follows_append.1 h
    obtain ⟨xs, hxs, hms⟩ := Block.readAsAll cs hs.2 hsh.2 hcs hr
    obtain ⟨x, -, hx, hxc⟩ := Command.readAs c hs.1 hsh.1.body hc fun _ => hxs.kind_ne_else hr
    refine ⟨x :: xs, .code (hx hsh.1.isBraced_eq_false) hxs, ?_⟩
    rw [Block.relabelAll, hxc, hms]
    rfl

end

end Scriptlet
