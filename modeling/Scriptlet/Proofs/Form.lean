import Scriptlet.Proofs.Acceptance
import Scriptlet.Proofs.Reading

/-!
# The form of what is read

What the grammar derives can be written down: every subscript is on a place, every `else`
belongs to the conditional that it is written behind, blocks in braces are bodies, names are
names and numbers are in range. Resolving names changes none of this, so it holds of every
program that is read.

## What is proved

* `Derives.noDangling` — a phrase before an `else` does not end in a conditional without one.
* `Derives.shaped` — a phrase has a shape that can be written down.
* `Derives.spellable` — the names and numbers of a phrase can be spelled.
* `Block.shaped_of_resolved`, `Block.spellable_of_resolved` — so it is once names are
  resolved.
-/

namespace Scriptlet

/-! ### Conditionals that wait for an `else` -/

/-- An `else` behind the phrase would belong to a conditional inside it. -/
def Category.hasDanglingIf : (N : Category) → N.Tree → Bool
  | element, e => e.hasDanglingIf
  | command, c | body, c => c.hasDanglingIf
  | _, _ => false

/-- A phrase before an `else` does not end in a conditional without one: that conditional
would have taken it. -/
theorem Derives.noDangling {N k i x r} (h : Derives N k i x r) :
    r.kind = .keyword .elseWord → N.hasDanglingIf x = false := by
  induction h with
  | elementIf _ _ _ _ _ noElse | conditional _ _ _ _ _ noElse => exact fun hr => absurd hr noElse
  | elementIfElse _ _ _ _ _ _ _ _ _ ih | conditionalElse _ _ _ _ _ _ _ _ _ ih => exact ih
  | elementFor _ _ _ _ _ _ _ _ ih | whileLoop _ _ _ _ _ _ ih | forLoop _ _ _ _ _ _ _ _ ih =>
    exact ih
  | unbraced _ _ ih => exact ih
  | _ => exact fun _ => rfl

/-! ### Shape -/

/-- The phrase has a shape that can be written down. -/
def Category.Shaped : (N : Category) → N.Tree → Prop
  | expr rank, e => e.Shaped ∧ (rank = .place → e.target?.isSome = true)
  | operations _, ops => ∀ o ∈ ops, o.2.1.Shaped
  | subscripts, subs => ∀ s ∈ subs, s.1.Shaped
  | element, e => e.Shaped
  | elements, es => Expr.ShapedElements es
  | entries, es => Expr.ShapedEntries es
  | declarator .., d => ∀ value ∈ d.2, value.Shaped
  | declarators .., ds => ∀ d ∈ ds, ∀ value ∈ d.2, value.Shaped
  | command, c => c.Shaped false
  | body, c => c.Shaped true
  | code, cs => Block.ShapedAll cs

section

variable {ν : Type}

theorem Expr.Shaped.operated {ops : List (BinaryOp × Expr ν × Nat)} {e : Expr ν} (h : e.Shaped)
    (hops : ∀ o ∈ ops, o.2.1.Shaped) : (e.operated ops).Shaped :=
  Expr.operated_induction (fun _ _ _ _ hleft hright => ⟨hleft, hright⟩) h hops

theorem Expr.Shaped.subscripted {subs : List (Expr ν × Nat)} {e : Expr ν} (h : e.Shaped)
    (htarget : e.target?.isSome = true) (hsubs : ∀ s ∈ subs, s.1.Shaped) :
    (e.subscripted subs).Shaped ∧ (e.subscripted subs).target?.isSome = true := by
  induction subs generalizing e with
  | nil => exact ⟨h, htarget⟩
  | cons s subs ih =>
    obtain ⟨hs, hsubs⟩ := List.forall_mem_cons.1 hsubs
    exact ih (e := .index e s.1 s.2) ⟨htarget, h, hs⟩ rfl hsubs

theorem Block.shaped_declarators {ds : List Declarator}
    (h : ∀ d ∈ ds, ∀ value ∈ d.2, value.Shaped) :
    Block.ShapedAll (ds.filterMap Declarator.assignment?) := by
  induction ds with
  | nil => trivial
  | cons d ds ih =>
    obtain ⟨hd, hds⟩ := List.forall_mem_cons.1 h
    obtain ⟨m, _ | value⟩ := d
    · exact ih hds
    · exact ⟨⟨trivial, hd value rfl⟩, ih hds⟩

theorem Expr.toExpr_of_target? {e : Expr ν} {t : Target ν} (h : e.target? = some t) :
    t.toExpr = e := by
  cases e <;> cases h <;> rfl

end

/-- A phrase has a shape that can be written down. -/
theorem Derives.shaped {N k i x r} (h : Derives N k i x r) : N.Shaped x := by
  induction h with
  | expression h ih => exact ⟨ih.1, nofun⟩
  | level left h chains ih ih' => exact ⟨ih.1.operated ih', nofun⟩
  | operation head right h ih ih' => exact List.forall_mem_cons.2 ⟨ih.1, ih'⟩
  | unsigned h ih | signed _ h ih | factor h ih | postfixed h _ ih | primary h ih
  | parenthesized _ h _ ih | call _ _ h _ ih | place h ih => exact ⟨ih.1, nofun⟩
  | constant | emptyList | emptyMap => exact ⟨trivial, nofun⟩
  | list _ h _ ih | map _ h _ ih => exact ⟨ih, nofun⟩
  | named head h ih =>
    obtain ⟨hs, ht⟩ := Expr.Shaped.subscripted (e := .var _ _) trivial rfl ih
    exact ⟨hs, fun _ => ht⟩
  | noOperation | noSubscript => exact fun _ h => nomatch h
  | subscript _ h _ rest ih ih' => exact List.forall_mem_cons.2 ⟨ih.1, ih'⟩
  | lastElement h ih => exact ⟨ih, trivial⟩
  | elements h _ rest ih ih' => exact ⟨ih, ih'⟩
  | lastEntry h _ h' ih ih' => exact ⟨ih.1, ih'.1, trivial⟩
  | entries h _ h' _ rest ih ih' ih'' => exact ⟨ih.1, ih'.1, ih''⟩
  | single h ih | spread _ h ih => exact ih.1
  | elementIf _ _ h _ h' _ ih ih' | elementFor _ _ _ _ h _ h' ih ih' => exact ⟨ih.1, ih'⟩
  | elementIfElse _ _ h _ h' hasElse h'' ih ih' ih'' =>
    exact ⟨ih.1, ih', h'.noDangling hasElse, ih''⟩
  | declarator => exact fun _ h => nomatch h
  | initialized _ _ h ih =>
    rintro value ⟨⟩
    exact ih.1
  | lastDeclarator h ih => exact List.forall_mem_singleton.2 ih
  | declarators h _ rest ih ih' => exact List.forall_mem_cons.2 ⟨ih, ih'⟩
  | declaration _ _ _ h _ ih =>
    refine ⟨fun hnone => ?_, Block.shaped_declarators ih⟩
    exact absurd (List.map_eq_nil_iff.1 hnone) h.numbered.2
  | printLine => trivial
  | print _ _ h _ _ ih | assert _ _ h _ _ ih | effect h _ ih => exact ih.1
  | assertMessage _ _ h _ h' _ _ ih ih' => exact ⟨ih.1, ih'.1⟩
  | conditional _ _ h _ h' _ ih ih' | whileLoop _ _ h _ h' ih ih'
  | forLoop _ _ _ _ h _ h' ih ih' => exact ⟨ih.1, ih'⟩
  | doWhileLoop _ h _ _ h' _ _ ih ih' => exact ⟨ih'.1, ih⟩
  | conditionalElse _ _ h _ h' _ h'' ih ih' ih'' => exact ⟨ih.1, ih', ih''⟩
  | assignment h isTarget _ h' _ ih ih' =>
    exact ⟨(Expr.toExpr_of_target? isTarget).symm ▸ ih.1, ih'.1⟩
  | braced _ h _ ih => exact ⟨fun _ => rfl, ih⟩
  | unbraced _ h ih => exact ih.body
  | noCode => trivial
  | code h rest ih ih' => exact ⟨ih, ih'⟩

/-! ### Spelling -/

/-- The tokens on the tape are spelled as their kinds are. -/
def Tape.IsSpelled (i : Tape) : Prop := ∀ r ∈ i.readings, r.token.IsSpelled

theorem Tape.IsSpelled.hand {i : Tape} (h : i.IsSpelled) : i.hand.token.IsSpelled :=
  h _ List.mem_cons_self

theorem Tape.IsSpelled.next {i : Tape} (h : i.IsSpelled) : i.next.IsSpelled := by
  obtain ⟨hand, _ | ⟨r, rest⟩⟩ := i
  · intro r hr
    rw [List.mem_singleton.1 hr]
    exact Token.isSpelled_endAt _
  · exact fun r' hr' => h r' (List.mem_cons_of_mem _ hr')

theorem Tape.IsSpelled.optional {i m : Tape} {k : TokenKind} {taken : Bool} (h : i.IsSpelled)
    (hm : i.Optional k taken m) : m.IsSpelled := by
  unfold Optional at hm
  split at hm
  · rw [hm.2]
    exact h.next
  · rwa [hm]

/-- The names and numbers of the phrase can be spelled. -/
def Category.Spellable : (N : Category) → N.Tree → Prop
  | expr _, e => e.Spellable Mention.name
  | operations _, ops => ∀ o ∈ ops, o.2.1.Spellable Mention.name
  | subscripts, subs => ∀ s ∈ subs, s.1.Spellable Mention.name
  | element, e => e.Spellable Mention.name
  | elements, es => Expr.SpellableElements Mention.name es
  | entries, es => Expr.SpellableEntries Mention.name es
  | declarator .., d => isName d.1.name = true ∧ ∀ value ∈ d.2, value.Spellable Mention.name
  | declarators .., ds =>
    ∀ d ∈ ds, isName d.1.name = true ∧ ∀ value ∈ d.2, value.Spellable Mention.name
  | command, c | body, c => c.Spellable Mention.name
  | code, cs => Block.SpellableAll Mention.name cs

section

variable {ν : Type} {name : ν → String}

theorem Expr.Spellable.operated {ops : List (BinaryOp × Expr ν × Nat)} {e : Expr ν}
    (h : e.Spellable name) (hops : ∀ o ∈ ops, o.2.1.Spellable name) :
    (e.operated ops).Spellable name :=
  Expr.operated_induction (fun _ _ _ _ hleft hright => ⟨hleft, hright⟩) h hops

theorem Expr.Spellable.subscripted {subs : List (Expr ν × Nat)} {e : Expr ν}
    (h : e.Spellable name) (hsubs : ∀ s ∈ subs, s.1.Spellable name) :
    (e.subscripted subs).Spellable name := by
  induction subs generalizing e with
  | nil => exact h
  | cons s subs ih =>
    obtain ⟨hs, hsubs⟩ := List.forall_mem_cons.1 hsubs
    exact ih (e := .index e s.1 s.2) ⟨h, hs⟩ hsubs

end

theorem Command.spellable_ofDeclarators {ds : List Declarator}
    (h : ∀ d ∈ ds, isName d.1.name = true ∧ ∀ value ∈ d.2, value.Spellable Mention.name)
    (line : Nat) :
    Command.Spellable Mention.name (.block (.ofDeclarators ds line)) := by
  refine ⟨?_, List.forall_mem_map.2 fun d hd => (h d hd).1⟩
  induction ds with
  | nil => trivial
  | cons d ds ih =>
    obtain ⟨hd, hds⟩ := List.forall_mem_cons.1 h
    obtain ⟨m, _ | value⟩ := d
    · exact ih hds
    · exact ⟨⟨hd.1, hd.2 value rfl⟩, ih hds⟩

/-- A literal that is read from a token of a text can be written. -/
theorem Literal.spellable_of_ofToken {t : Token} {v : Literal} (h : Literal.ofToken t = .ok v)
    (ht : t.IsSpelled) : v.Spellable := by
  unfold Literal.ofToken at h
  split at h
  · cases h; trivial
  · cases h; trivial
  · cases h; trivial
  next hkind =>
    have hnumber := ht.2 hkind
    rw [Text.Decimal.number?_of_isNumber hnumber] at h
    cases h
    simp only [isNumber, Bool.and_eq_true, decide_eq_true_eq] at hnumber
    exact ⟨Int.natCast_nonneg _, hnumber.2⟩
  · cases h; trivial
  · cases h

/-- The names and numbers of a phrase can be spelled, since the tokens are. -/
theorem Derives.spellable {N k i x r} (h : Derives N k i x r) :
    i.IsSpelled → N.Spellable x ∧ r.IsSpelled := by
  induction h with
  | expression _ ih | unsigned _ ih | factor _ ih | primary _ ih | place _ ih | single _ ih
  | unbraced _ _ ih => exact ih
  | signed _ _ ih | spread _ _ ih => exact fun hi => ih hi.next
  | postfixed _ _ ih | effect _ _ ih => exact fun hi => (ih hi).imp_right .next
  | parenthesized _ _ _ ih | list _ _ _ ih | map _ _ _ ih =>
    exact fun hi => (ih hi.next).imp_right .next
  | call _ _ _ _ ih => exact fun hi => (ih hi.next.next).imp_right .next
  | print _ _ _ _ _ ih | assert _ _ _ _ _ ih =>
    exact fun hi => (ih hi.next.next).imp_right fun hm => hm.next.next
  | braced _ _ _ ih =>
    intro hi
    obtain ⟨hcs, hm⟩ := ih hi.next
    exact ⟨⟨hcs, fun _ h => nomatch h⟩, hm.next⟩
  | constant head => exact fun hi => ⟨Literal.spellable_of_ofToken head hi.hand, hi.next⟩
  | emptyList | emptyMap => exact fun hi => ⟨trivial, hi.next.next⟩
  | printLine => exact fun hi => ⟨trivial, hi.next.next.next.next⟩
  | noOperation | noSubscript => exact fun hi => ⟨(fun _ h => nomatch h), hi⟩
  | noCode => exact fun hi => ⟨trivial, hi⟩
  | named head _ ih =>
    intro hi
    obtain ⟨hsubs, hr⟩ := ih hi.next
    exact ⟨Expr.Spellable.subscripted (e := .var _ _) (hi.hand.1 head) hsubs, hr⟩
  | declarator head => exact fun hi => ⟨⟨hi.hand.1 head, fun _ h => nomatch h⟩, hi.next⟩
  | initialized head _ _ ih =>
    intro hi
    obtain ⟨he, hr⟩ := ih hi.next.next
    exact ⟨⟨hi.hand.1 head, fun value h => by cases h; exact he⟩, hr⟩
  | @declaration _ _ _ i _ _ _ _ hfinal _ hmark _ _ ih =>
    intro hi
    obtain ⟨hds, hr⟩ := ih ((hi.optional hfinal).next.optional hmark)
    exact ⟨Command.spellable_ofDeclarators hds i.hand.token.line, hr.next⟩
  | level _ _ _ ih ih' =>
    intro hi
    obtain ⟨he, hm⟩ := ih hi
    obtain ⟨hops, hr⟩ := ih' hm
    exact ⟨he.operated hops, hr⟩
  | lastElement _ ih => exact fun hi => (ih hi).imp_left fun he => ⟨he, trivial⟩
  | lastDeclarator _ ih => exact fun hi => (ih hi).imp_left List.forall_mem_singleton.2
  | operation _ _ _ ih ih' =>
    intro hi
    obtain ⟨he, hm⟩ := ih hi.next
    obtain ⟨hops, hr⟩ := ih' hm
    exact ⟨List.forall_mem_cons.2 ⟨he, hops⟩, hr⟩
  | subscript _ _ _ _ ih ih' =>
    intro hi
    obtain ⟨he, hm⟩ := ih hi.next
    obtain ⟨hsubs, hr⟩ := ih' hm.next
    exact ⟨List.forall_mem_cons.2 ⟨he, hsubs⟩, hr⟩
  | declarators _ _ _ ih ih' =>
    intro hi
    obtain ⟨hd, hm⟩ := ih hi
    obtain ⟨hds, hr⟩ := ih' hm.next
    exact ⟨List.forall_mem_cons.2 ⟨hd, hds⟩, hr⟩
  | elements _ _ _ ih ih' =>
    intro hi
    obtain ⟨he, hm⟩ := ih hi
    obtain ⟨hes, hr⟩ := ih' hm.next
    exact ⟨⟨he, hes⟩, hr⟩
  | code _ _ ih ih' =>
    intro hi
    obtain ⟨hc, hm⟩ := ih hi
    obtain ⟨hcs, hr⟩ := ih' hm
    exact ⟨⟨hc, hcs⟩, hr⟩
  | lastEntry _ _ _ ih ih' =>
    intro hi
    obtain ⟨hkey, hm⟩ := ih hi
    obtain ⟨hvalue, hr⟩ := ih' hm.next
    exact ⟨⟨hkey, hvalue, trivial⟩, hr⟩
  | entries _ _ _ _ _ ih ih' ih'' =>
    intro hi
    obtain ⟨hkey, hm⟩ := ih hi
    obtain ⟨hvalue, hm'⟩ := ih' hm.next
    obtain ⟨hes, hr⟩ := ih'' hm'.next
    exact ⟨⟨hkey, hvalue, hes⟩, hr⟩
  | elementIf _ _ _ _ _ _ ih ih' | conditional _ _ _ _ _ _ ih ih' | whileLoop _ _ _ _ _ ih ih' =>
    intro hi
    obtain ⟨hc, hm⟩ := ih hi.next.next
    obtain ⟨hx, hr⟩ := ih' hm.next
    exact ⟨⟨hc, hx⟩, hr⟩
  | elementIfElse _ _ _ _ _ _ _ ih ih' ih'' | conditionalElse _ _ _ _ _ _ _ ih ih' ih'' =>
    intro hi
    obtain ⟨hc, hm⟩ := ih hi.next.next
    obtain ⟨hx, hm'⟩ := ih' hm.next
    obtain ⟨hy, hr⟩ := ih'' hm'.next
    exact ⟨⟨hc, hx, hy⟩, hr⟩
  | elementFor _ _ name _ _ _ _ ih ih' | forLoop _ _ name _ _ _ _ ih ih' =>
    intro hi
    obtain ⟨hc, hm⟩ := ih hi.next.next.next.next
    obtain ⟨hx, hr⟩ := ih' hm.next
    exact ⟨⟨hi.next.next.hand.1 name, hc, hx⟩, hr⟩
  | assertMessage _ _ _ _ _ _ _ ih ih' =>
    intro hi
    obtain ⟨hc, hm⟩ := ih hi.next.next
    obtain ⟨hmessage, hm'⟩ := ih' hm.next
    exact ⟨⟨hc, hmessage⟩, hm'.next.next⟩
  | doWhileLoop _ _ _ _ _ _ _ ih ih' =>
    intro hi
    obtain ⟨hb, hm⟩ := ih hi.next
    obtain ⟨hc, hm'⟩ := ih' hm.next.next
    exact ⟨⟨hc, hb⟩, hm'.next.next⟩
  | assignment _ isTarget _ _ _ ih ih' =>
    intro hi
    obtain ⟨htarget, hm⟩ := ih hi
    obtain ⟨hvalue, hm'⟩ := ih' hm.next
    exact ⟨⟨(Expr.toExpr_of_target? isTarget).symm ▸ htarget, hvalue⟩, hm'.next⟩

/-! ### Resolved trees -/

section

variable {ν μ : Type} {g : ν → μ} {h : Nat → Nat}

theorem Element.hasDanglingIf_relabel :
    (e : Element ν) → (e.relabel g h).hasDanglingIf = e.hasDanglingIf
  | .cond _ _ (some e) _ | .each _ _ e _ => Element.hasDanglingIf_relabel e
  | .cond _ _ none _ | .single _ | .spread _ => rfl

mutual

theorem Expr.shaped_relabel : (e : Expr ν) → ((e.relabel g h).Shaped ↔ e.Shaped)
  | .const .. | .var .. => Iff.rfl
  | .binary _ a b _ => and_congr (Expr.shaped_relabel a) (Expr.shaped_relabel b)
  | .unary _ a _ | .call _ a _ => Expr.shaped_relabel a
  | .index a b _ => by
    simp only [Expr.relabel, Expr.Shaped, Expr.target?_relabel, Option.isSome_map,
      Expr.shaped_relabel a, Expr.shaped_relabel b]
  | .list es _ => Expr.shapedElements_relabel es
  | .map es _ => Expr.shapedEntries_relabel es

theorem Element.shaped_relabel : (e : Element ν) → ((e.relabel g h).Shaped ↔ e.Shaped)
  | .single a | .spread a => Expr.shaped_relabel a
  | .cond c a none _ => and_congr (Expr.shaped_relabel c) (Element.shaped_relabel a)
  | .cond c a (some b) _ => by
    simp only [Element.relabel, Element.Shaped, Element.hasDanglingIf_relabel,
      Expr.shaped_relabel c, Element.shaped_relabel a, Element.shaped_relabel b]
  | .each _ a e _ => and_congr (Expr.shaped_relabel a) (Element.shaped_relabel e)

theorem Expr.shapedElements_relabel : (es : List (Element ν)) →
    (Expr.ShapedElements (Expr.relabelElements g h es) ↔ Expr.ShapedElements es)
  | [] => Iff.rfl
  | e :: es => and_congr (Element.shaped_relabel e) (Expr.shapedElements_relabel es)

theorem Expr.shapedEntries_relabel : (es : List (Expr ν × Expr ν)) →
    (Expr.ShapedEntries (Expr.relabelEntries g h es) ↔ Expr.ShapedEntries es)
  | [] => Iff.rfl
  | (a, b) :: es =>
    and_congr (Expr.shaped_relabel a)
      (and_congr (Expr.shaped_relabel b) (Expr.shapedEntries_relabel es))

end

mutual

theorem Command.shaped_relabel :
    (c : Command ν) → ∀ isBody, ((c.relabel g h).Shaped isBody ↔ c.Shaped isBody)
  | .block ⟨body, declares, _⟩, _ =>
    and_congr (by rw [List.map_eq_nil_iff]) (Block.shaped_relabel body)
  | .assign none a _, _ | .print (some a) _, _ | .assert a none _, _ => Expr.shaped_relabel a
  | .assign (some t) a _, _ => by
    simp only [Command.relabel, Command.Shaped, Target.toExpr_relabel, Expr.shaped_relabel]
  | .print none _, _ => Iff.rfl
  | .assert a (some b) _, _ => and_congr (Expr.shaped_relabel a) (Expr.shaped_relabel b)
  | .cond a b none _, _ | .whileDo a b _, _ | .doWhile b a _, _ | .each _ a b _, _ =>
    and_congr (Expr.shaped_relabel a) (Command.shaped_relabel b true)
  | .cond a b (some c) _, _ =>
    and_congr (Expr.shaped_relabel a)
      (and_congr (Command.shaped_relabel b true) (Command.shaped_relabel c true))

theorem Block.shaped_relabel : (cs : List (Command ν)) →
    (Block.ShapedAll (Block.relabelAll g h cs) ↔ Block.ShapedAll cs)
  | [] => Iff.rfl
  | c :: cs => and_congr (Command.shaped_relabel c false) (Block.shaped_relabel cs)

end

variable {name : μ → String}

mutual

theorem Expr.spellable_relabel :
    (e : Expr ν) → ((e.relabel g h).Spellable name ↔ e.Spellable (name ∘ g))
  | .const .. | .var .. => Iff.rfl
  | .binary _ a b _ | .index a b _ =>
    and_congr (Expr.spellable_relabel a) (Expr.spellable_relabel b)
  | .unary _ a _ | .call _ a _ => Expr.spellable_relabel a
  | .list es _ => Expr.spellableElements_relabel es
  | .map es _ => Expr.spellableEntries_relabel es

theorem Element.spellable_relabel :
    (e : Element ν) → ((e.relabel g h).Spellable name ↔ e.Spellable (name ∘ g))
  | .single a | .spread a => Expr.spellable_relabel a
  | .cond c a none _ => and_congr (Expr.spellable_relabel c) (Element.spellable_relabel a)
  | .cond c a (some b) _ =>
    and_congr (Expr.spellable_relabel c)
      (and_congr (Element.spellable_relabel a) (Element.spellable_relabel b))
  | .each _ a e _ =>
    and_congr Iff.rfl (and_congr (Expr.spellable_relabel a) (Element.spellable_relabel e))

theorem Expr.spellableElements_relabel : (es : List (Element ν)) →
    (Expr.SpellableElements name (Expr.relabelElements g h es) ↔
      Expr.SpellableElements (name ∘ g) es)
  | [] => Iff.rfl
  | e :: es => and_congr (Element.spellable_relabel e) (Expr.spellableElements_relabel es)

theorem Expr.spellableEntries_relabel : (es : List (Expr ν × Expr ν)) →
    (Expr.SpellableEntries name (Expr.relabelEntries g h es) ↔
      Expr.SpellableEntries (name ∘ g) es)
  | [] => Iff.rfl
  | (a, b) :: es =>
    and_congr (Expr.spellable_relabel a)
      (and_congr (Expr.spellable_relabel b) (Expr.spellableEntries_relabel es))

end

mutual

theorem Command.spellable_relabel :
    (c : Command ν) → ((c.relabel g h).Spellable name ↔ c.Spellable (name ∘ g))
  | .block ⟨body, declares, _⟩ =>
    and_congr (Block.spellable_relabel body) List.forall_mem_map
  | .assign none a _ | .print (some a) _ | .assert a none _ => Expr.spellable_relabel a
  | .assign (some t) a _ => by
    simp only [Command.relabel, Command.Spellable, Target.toExpr_relabel, Expr.spellable_relabel]
  | .print none _ => Iff.rfl
  | .assert a (some b) _ => and_congr (Expr.spellable_relabel a) (Expr.spellable_relabel b)
  | .cond a b none _ | .whileDo a b _ | .doWhile b a _ =>
    and_congr (Expr.spellable_relabel a) (Command.spellable_relabel b)
  | .each _ a b _ =>
    and_congr Iff.rfl (and_congr (Expr.spellable_relabel a) (Command.spellable_relabel b))
  | .cond a b (some c) _ =>
    and_congr (Expr.spellable_relabel a)
      (and_congr (Command.spellable_relabel b) (Command.spellable_relabel c))

theorem Block.spellable_relabel : (cs : List (Command ν)) →
    (Block.SpellableAll name (Block.relabelAll g h cs) ↔ Block.SpellableAll (name ∘ g) cs)
  | [] => Iff.rfl
  | c :: cs => and_congr (Command.spellable_relabel c) (Block.spellable_relabel cs)

end

end

section

variable {file : String} {k : Nat} {i r : Tape} {cs : List (Command Mention)}
  {body : List (Command Variable)} {t t' : SymbolTable}

/-- Commands that are derived keep their shape when their names are resolved. -/
theorem Block.shaped_of_resolved (h : Derives .code k i cs r)
    (hb : Block.resolveAll file cs t = .ok (body, t')) : Block.ShapedAll body := by
  have hnames : Block.relabelAll Variable.name id body = Block.relabelAll Mention.name id cs :=
    h.resolve_sameNames hb
  have hcs : Block.ShapedAll (Block.relabelAll Mention.name id cs) :=
    (Block.shaped_relabel cs).2 h.shaped
  exact (Block.shaped_relabel body).1 (hnames ▸ hcs)

/-- Commands that are derived from a text can be spelled when their names are resolved. -/
theorem Block.spellable_of_resolved (h : Derives .code k i cs r) (hi : i.IsSpelled)
    (hb : Block.resolveAll file cs t = .ok (body, t')) :
    Block.SpellableAll Variable.name body := by
  have hnames : Block.relabelAll Variable.name id body = Block.relabelAll Mention.name id cs :=
    h.resolve_sameNames hb
  have hcs : Block.SpellableAll id (Block.relabelAll Mention.name id cs) :=
    (Block.spellable_relabel cs).2 (h.spellable hi).1
  rw [← hnames] at hcs
  have hbody : Block.SpellableAll (id ∘ Variable.name) body := (Block.spellable_relabel body).1 hcs
  exact hbody

end

/-- The tokens of a text are spelled as their kinds are. -/
theorem Tape.isSpelled_ofText (text : String) : (Tape.ofText text).IsSpelled := by
  intro r hr
  rw [Tape.readings_ofText] at hr
  exact Cursor.isSpelled_of_mem _ hr

end Scriptlet
