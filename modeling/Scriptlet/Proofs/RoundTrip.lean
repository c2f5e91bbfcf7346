import Scriptlet.Proofs.Form
import Scriptlet.Proofs.Lineless
import Scriptlet.Proofs.Occurrence

/-!
# Printing a program and reading it again

A program that is read from a text is printed as a text that is read as the same program,
on other lines. The printed text may be nested deeper than the text before it, because each
operator stands in parentheses there. Only if that is too deep is it not read again.

## The model

`Category.Echoes` relates a phrase to its resolved tree: what the printed form of the tree
mentions is what the phrase mentions, lines apart. This needs variables that are declared
together to be told apart by their slots, which `Block.DistinctAll` says.

## What is proved

* `Derives.echoes` — a resolved tree mentions what the tree before mentions.
* `Block.exists_sentence` — the text of a tree that can be written down is a sentence.
* `parseText_render_cases` — a printed program is the same program, or nested too deep.
* `parseText_render` — reading a printed program gives the program back.
* `parseText_render_tooDeep_iff` — when a printed program is nested too deep.
-/

namespace Scriptlet

open Resolving

/-! ### Declarations with slots of their own -/

mutual

/-- The variables that are declared together have different slots. -/
def Command.Distinct : Command Variable → Prop
  | .block ⟨body, declares, _⟩ =>
    (declares.map Variable.slot).Nodup ∧ Block.DistinctAll body
  | .cond _ b none _ | .whileDo _ b _ | .doWhile b _ _ | .each _ _ b _ => b.Distinct
  | .cond _ b (some c) _ => b.Distinct ∧ c.Distinct
  | .assign .. | .print .. | .assert .. => True

/-- The variables that are declared together have different slots. -/
def Block.DistinctAll : List (Command Variable) → Prop
  | [] => True
  | c :: cs => c.Distinct ∧ Block.DistinctAll cs

end

/-- No slot is declared twice. -/
def Occurrences.DeclaredOnce (os : Occurrences Variable) : Prop :=
  ((os.of .declaration).map Variable.slot).Nodup

namespace Occurrences.DeclaredOnce

variable {os os' : Occurrences Variable}

theorem of_sublist (h : DeclaredOnce os') (hs : os.Sublist os') : DeclaredOnce os :=
  h.sublist (((hs.filter _).map _).map _)

theorem left (h : DeclaredOnce (os ++ os')) : DeclaredOnce os :=
  h.of_sublist (List.sublist_append_left _ _)

theorem right (h : DeclaredOnce (os ++ os')) : DeclaredOnce os' :=
  h.of_sublist (List.sublist_append_right _ _)

end Occurrences.DeclaredOnce

mutual

theorem Command.distinct_of_declaredOnce :
    (c : Command Variable) → c.occurrences.DeclaredOnce → c.Distinct
  | .block ⟨body, declares, _⟩, h => by
    refine ⟨?_, Block.distinct_of_declaredOnce body h.right⟩
    have hdeclares : (Occurrences.of .declaration (declares.map (Prod.mk Role.declaration))) =
        declares := by
      simp [Occurrences.of, List.filter_map, Function.comp_def]
    have hleft := h.left
    unfold Occurrences.DeclaredOnce at hleft
    rwa [hdeclares] at hleft
  | .cond _ b none _, h | .whileDo _ b _, h | .each _ _ b _, h =>
    Command.distinct_of_declaredOnce b h.right
  | .doWhile b _ _, h => Command.distinct_of_declaredOnce b h.left
  | .cond _ b (some c) _, h =>
    ⟨Command.distinct_of_declaredOnce b h.left.right, Command.distinct_of_declaredOnce c h.right⟩
  | .assign .., _ | .print .., _ | .assert .., _ => trivial

theorem Block.distinct_of_declaredOnce : (cs : List (Command Variable)) →
    (Block.occurrencesOfAll cs).DeclaredOnce → Block.DistinctAll cs
  | [], _ => trivial
  | c :: cs, h =>
    ⟨Command.distinct_of_declaredOnce c h.left, Block.distinct_of_declaredOnce cs h.right⟩

end

/-- What a table accounts for declares no slot twice, in either mode. -/
theorem SymbolTable.Accounts.declaredOnce {t : SymbolTable} {os : Occurrences Variable}
    (h : t.Accounts os) : os.DeclaredOnce := by
  cases hm : t.mode with
  | flat => exact h.nodup hm
  | lexical =>
    have hbound : (os.bound.map Variable.slot).Nodup :=
      (h.lexical hm).nodup_iff.2 List.nodup_range
    have hfilter : (os.filter fun o => o.1 = .declaration).Sublist
        (os.filter fun o => o.1 ≠ .use) := by
      refine List.monotone_filter_right os fun o ho => ?_
      simp only [decide_eq_true_eq] at ho ⊢
      simp [ho]
    exact hbound.sublist ((hfilter.map _).map _)

/-! ### What declarations mention -/

/-- A declared variable with the assignment of its initial value, if it has one. -/
abbrev Declared : Type := Variable × Option (Command Variable)

namespace Declared

/-- The assignment, if there is one, is to the variable. -/
def IsOwn (d : Declared) : Prop :=
  ∀ c ∈ d.2, ∃ value line line', c = .assign (some (.var d.1 line)) value line'

/-- The initial value of the variable. -/
def value? (d : Declared) : Option (Expr Variable) := d.2.bind (Command.initialValue? d.1)

/-- The names of a declaration as they are mentioned, each with its own initial value. -/
def mentions (constant : Bool) (nullability : Nullability) : Nat → List Declared → List Declarator
  | _, [] => []
  | number, d :: ds =>
    (⟨d.1.name, 0, constant, nullability, number⟩,
      d.value?.map (Expr.relabel Variable.used unline)) ::
        mentions constant nullability (number + 1) ds

variable {ds es : List Declared} {d : Declared}

/-- An assignment to one variable gives another no value. -/
theorem initialValue?_of_ne {v : Variable} (hd : d.IsOwn) (hv : d.1.slot ≠ v.slot)
    {c : Command Variable} (hc : c ∈ d.2) : Command.initialValue? v c = none := by
  obtain ⟨value, line, line', rfl⟩ := hd c hc
  exact if_neg hv

theorem findSome?_of_ne {v : Variable} (hds : ∀ d ∈ ds, d.IsOwn)
    (hv : ∀ d ∈ ds, d.1.slot ≠ v.slot) :
    (ds.filterMap Prod.snd).findSome? (Command.initialValue? v) = none := by
  rw [List.findSome?_eq_none_iff]
  intro c hc
  obtain ⟨d, hd, hdc⟩ := List.mem_filterMap.1 hc
  exact initialValue?_of_ne (hds d hd) (hv d hd) hdc

/-- The first value that a declaration gives a variable is its own. -/
theorem findSome?_eq_value? (hds : ∀ d ∈ ds, d.IsOwn)
    (hslots : (ds.map fun d => d.1.slot).Nodup) (hd : d ∈ ds) :
    (ds.filterMap Prod.snd).findSome? (Command.initialValue? d.1) = d.value? := by
  induction ds with
  | nil => cases hd
  | cons e ds ih =>
    obtain ⟨he, hrest⟩ := List.forall_mem_cons.1 hds
    obtain ⟨hslot, hslots'⟩ := List.nodup_cons.1 hslots
    have hother : ∀ d ∈ ds, d.1.slot ≠ e.1.slot := fun d hd h =>
      hslot (List.mem_map.2 ⟨d, hd, h⟩)
    obtain ⟨v, _ | c⟩ := e
    · change (ds.filterMap Prod.snd).findSome? _ = _
      rcases List.mem_cons.1 hd with rfl | hd
      · exact findSome?_of_ne hrest hother
      · exact ih hrest hslots' hd
    · change (c :: ds.filterMap Prod.snd).findSome? _ = _
      rw [List.findSome?_cons]
      rcases List.mem_cons.1 hd with rfl | hd
      · obtain ⟨value, line, line', hc⟩ := he c rfl
        simp [value?, Command.initialValue?, hc]
      · rw [initialValue?_of_ne he (hother d hd).symm (Option.mem_some_self c)]
        exact ih hrest hslots' hd

/-- What the printer writes of a declaration are its names with their own values. -/
theorem declarators_eq_mentions {constant : Bool} {nullability : Nullability} {number : Nat}
    (hds : ∀ d ∈ ds, d.IsOwn) (hslots : (ds.map fun d => d.1.slot).Nodup) (hes : es ⊆ ds) :
    Block.declarators (ds.filterMap Prod.snd) constant nullability number (es.map Prod.fst) =
      mentions constant nullability number es := by
  induction es generalizing number with
  | nil => rfl
  | cons e es ih =>
    obtain ⟨he, hes⟩ := List.cons_subset.1 hes
    rw [List.map_cons, Block.declarators, mentions, findSome?_eq_value? hds hslots he, ih hes]

end Declared

/-! ### What resolved trees mention -/

/-- The printed form of a resolved tree mentions what the phrase does. -/
def Category.Echoes : (N : Category) → N.Tree → N.Resolved Variable → Prop
  | expr _, x, e => e.relabel Variable.used unline = x.relabel Mention.unlined unline
  | operations l, x, ops =>
    (operations l).relabel Variable.used unline ops =
      (operations l).relabel Mention.unlined unline x
  | subscripts, x, subs =>
    subscripts.relabel Variable.used unline subs = subscripts.relabel Mention.unlined unline x
  | element, x, e => e.relabel Variable.used unline = x.relabel Mention.unlined unline
  | elements, x, es =>
    Expr.relabelElements Variable.used unline es = Expr.relabelElements Mention.unlined unline x
  | entries, x, es =>
    Expr.relabelEntries Variable.used unline es = Expr.relabelEntries Mention.unlined unline x
  | declarator constant nullability number, x, d =>
    Declared.mentions constant nullability number [d] = [Declarator.unlined x] ∧
      Declared.IsOwn d ∧ d.1.constant = constant ∧ d.1.nullability = nullability
  | declarators constant nullability number, x, ds =>
    Declared.mentions constant nullability number ds = x.map Declarator.unlined ∧
      ∀ d ∈ ds, Declared.IsOwn d ∧ d.1.constant = constant ∧ d.1.nullability = nullability
  | command, x, c | body, x, c => c.Distinct → c.mentions = x.relabel Mention.unlined unline
  | code, x, cs =>
    Block.DistinctAll cs → Block.mentionsAll cs = Block.relabelAll Mention.unlined unline x

section

variable {file : String} {t t' : SymbolTable} {m : Mention} {v : Variable}

theorem Variable.used_of_name {token : Token} (h : v.name = (Mention.ofToken token).name) :
    v.used = (Mention.ofToken token).unlined := by
  rw [Variable.used, h]
  rfl

/-- What is declared is a variable of the kind that is asked for. -/
theorem Declarator.echoes {constant : Bool} {nullability : Nullability} {number : Nat}
    {token : Token}
    (h : (Mention.declaredBy token constant nullability number).declare file t = .ok (v, t')) :
    v.name = token.value ∧ v.constant = constant ∧ v.nullability = nullability := by
  rw [(Mention.declare_eq_ok h).1]
  exact ⟨rfl, rfl, rfl⟩

/-- A declaration is printed with the names that it mentions. -/
theorem Command.mentions_declaration {constant : Bool} {nullability : Nullability}
    {ds : List Declared} {line : Nat} (hne : ds ≠ [])
    (hds : ∀ d ∈ ds, Declared.IsOwn d ∧ d.1.constant = constant ∧ d.1.nullability = nullability)
    (hdistinct : Command.Distinct (.block ⟨ds.filterMap Prod.snd, ds.map Prod.fst, line⟩)) :
    Command.mentions (.block ⟨ds.filterMap Prod.snd, ds.map Prod.fst, line⟩) =
      .block (.ofDeclarators (Declared.mentions constant nullability 0 ds) 0) := by
  have hslots : (ds.map fun d => d.1.slot).Nodup := by
    have hnodup := hdistinct.1
    rwa [List.map_map] at hnodup
  have hmentions : Block.declarators (ds.filterMap Prod.snd) constant nullability 0
      (ds.map Prod.fst) = Declared.mentions constant nullability 0 ds :=
    Declared.declarators_eq_mentions (fun d hd => (hds d hd).1) hslots (List.Subset.refl ds)
  cases ds with
  | nil => exact absurd rfl hne
  | cons d ds =>
    obtain ⟨-, rfl, rfl⟩ := hds d List.mem_cons_self
    rw [← hmentions]
    rfl

/-- A resolved tree is printed with what the tree before mentions. -/
theorem Derives.echoes {N k i x r} (h : Derives N k i x r) {e : N.Resolved Variable}
    (he : N.resolve file x t = .ok (e, t')) : N.Echoes x e := by
  induction h generalizing t t' with
  | expression h ih | unsigned h ih | factor h ih | primary h ih | parenthesized _ h _ ih
  | place h ih | unbraced _ h ih => exact ih he
  | level left h chains ih ih' =>
    obtain ⟨a, t₁, ops, ha, hops, rfl⟩ := Expr.resolve_operated_eq_ok.1 he
    have hleft := ih ha
    have hops := ih' hops
    simp only [Category.Echoes, Category.relabel] at hleft hops ⊢
    rw [Expr.relabel_operated, Expr.relabel_operated, hleft, hops]
  | named head h ih =>
    obtain ⟨v, t₁, subs, hv, hsubs, rfl⟩ := Expr.resolve_place_eq_ok.1 he
    have hsubs := ih hsubs
    simp only [Category.Echoes, Category.relabel] at hsubs ⊢
    rw [Expr.relabel_subscripted, Expr.relabel_subscripted, hsubs, Expr.relabel, Expr.relabel,
      Variable.used_of_name (Mention.name_of_resolve hv)]
  | elementFor head opens name separator h closes h' ih ih' =>
    obtain ⟨c, t₁, v, t₂, x, t₃, hc, hv, hx, -, rfl⟩ := Element.resolve_each_eq_ok.1 he
    have hc := ih hc
    have hx := ih' hx
    simp only [Category.Echoes, Element.relabel] at hc hx ⊢
    rw [hc, hx, Variable.used_of_name (Mention.name_of_declareLoop hv)]
  | forLoop head opens name separator h closes h' ih ih' =>
    intro hdistinct
    obtain ⟨c, t₁, v, t₂, b, t₃, hc, hv, hb, -, rfl⟩ := Command.resolve_each_eq_ok.1 he
    have hc := ih hc
    have hb := ih' hb hdistinct
    simp only [Category.Echoes] at hc
    rw [Command.relabel, Command.mentions, hc, hb,
      Variable.used_of_name (Mention.name_of_declareLoop hv)]
    rfl
  | declarator name =>
    obtain ⟨v, hv, rfl⟩ := bind_pure_eq_ok.1 he
    obtain ⟨hname, hconstant, hnullability⟩ := Declarator.echoes hv
    refine ⟨?_, by simp [Declared.IsOwn], hconstant, hnullability⟩
    simp only [Declared.mentions, hname]
    rfl
  | initialized name assign h ih =>
    obtain ⟨v, t₁, a, hv, ha, rfl⟩ := bind_bind_pure_eq_ok.1 he
    obtain ⟨hname, hconstant, hnullability⟩ := Declarator.echoes hv
    have ha := ih ha
    simp only [Category.Echoes] at ha
    refine ⟨?_, ?_, hconstant, hnullability⟩
    · simp only [Declared.mentions, Declared.value?, Option.bind_some, Command.initialValue?,
        if_true, Option.map_some, hname, ha]
      rfl
    · rintro c ⟨⟩
      exact ⟨a, _, _, rfl⟩
  | lastDeclarator h ih =>
    obtain ⟨d, hd, rfl⟩ := bind_pure_eq_ok.1 he
    obtain ⟨hmentions, hown⟩ := ih hd
    exact ⟨hmentions, List.forall_mem_singleton.2 hown⟩
  | declarators h comma rest ih ih' =>
    obtain ⟨d, t₁, ds, hd, hds, rfl⟩ := bind_bind_pure_eq_ok.1 he
    obtain ⟨hmention, hown⟩ := ih hd
    obtain ⟨hmentions, hrest⟩ := ih' hds
    refine ⟨?_, List.forall_mem_cons.2 ⟨hown, hrest⟩⟩
    rw [Declared.mentions, hmentions, List.map_cons, ← List.head_eq_of_cons_eq hmention]
  | declaration final head mark h stop ih =>
    intro hdistinct
    obtain ⟨ds, hds, rfl⟩ := h.resolve_declaration_eq_ok.1 he
    obtain ⟨hmentions, hown⟩ := ih hds
    have hne : ds ≠ [] := by
      rintro rfl
      exact h.numbered.2 (List.map_eq_nil_iff.1 hmentions.symm)
    rw [Command.relabel, Block.relabel_ofDeclarators, ← hmentions]
    exact Command.mentions_declaration hne hown hdistinct
  | conditional head opens h closes h' noElse ih ih' =>
    intro hdistinct
    obtain ⟨c, t₁, b, hc, hb, rfl⟩ := bind_bind_pure_eq_ok.1 he
    have hc := ih hc
    simp only [Category.Echoes] at hc
    rw [Command.relabel, Command.mentions, hc, ih' hb hdistinct]
    rfl
  | conditionalElse head opens h closes h' hasElse h'' ih ih' ih'' =>
    intro hdistinct
    obtain ⟨c, t₁, hc, he⟩ := bind_eq_ok.1 he
    obtain ⟨b, t₂, b', hb, hb', rfl⟩ := bind_bind_pure_eq_ok.1 he
    have hc := ih hc
    simp only [Category.Echoes] at hc
    -- The `else` is not taken by a conditional inside, so no braces are put around it.
    have hdangling : b.hasDanglingIf = false := by
      have hnames := congrArg Command.hasDanglingIf (h'.resolve_sameNames hb)
      rw [Category.relabel, Category.relabel, Command.hasDanglingIf_relabel,
        Command.hasDanglingIf_relabel] at hnames
      exact hnames.trans (h'.noDangling hasElse)
    rw [Command.relabel, Command.mentions, hdangling, hc, ih' hb hdistinct.1,
      ih'' hb' hdistinct.2]
    rfl
  | whileLoop head opens h closes h' ih ih' =>
    intro hdistinct
    obtain ⟨c, t₁, b, hc, hb, rfl⟩ := bind_bind_pure_eq_ok.1 he
    have hc := ih hc
    simp only [Category.Echoes] at hc
    rw [Command.relabel, Command.mentions, hc, ih' hb hdistinct]
    rfl
  | doWhileLoop head h separator opens h' closes stop ih ih' =>
    intro hdistinct
    obtain ⟨b, t₁, c, hb, hc, rfl⟩ := bind_bind_pure_eq_ok.1 he
    have hc := ih' hc
    simp only [Category.Echoes] at hc
    rw [Command.relabel, Command.mentions, hc, ih hb hdistinct]
    rfl
  | assignment h isTarget assign h' stop ih ih' =>
    intro _
    obtain ⟨target', t₁, value, ha, hvalue, rfl⟩ := (Command.resolve_assign_eq_ok isTarget).1 he
    have hplace := congrArg Expr.target? (ih ha)
    have hvalue := ih' hvalue
    simp only [Category.Echoes, Expr.target?_relabel, isTarget, Target.target?_toExpr,
      Option.map_some, Option.some.injEq] at hplace hvalue
    rw [Command.relabel, Command.mentions, hplace, hvalue]
    rfl
  | braced opens h closes ih =>
    intro hdistinct
    obtain ⟨cs, t₁, hcs, rfl, rfl⟩ := Command.resolve_braces_eq_ok.1 he
    rw [Command.relabel, Block.relabel, ← ih hcs hdistinct.2]
    rfl
  | code h rest ih ih' =>
    intro hdistinct
    obtain ⟨c, t₁, cs, hc, hcs, rfl⟩ := bind_bind_pure_eq_ok.1 he
    rw [Block.relabelAll, Block.mentionsAll, ih hc hdistinct.1, ih' hcs hdistinct.2]
  | _ =>
    simp only [Category.resolve, Expr.resolve, Element.resolve, Command.resolve,
      Expr.resolveElements, Expr.resolveEntries, Block.resolveAll, Expr.resolveOperations,
      Expr.resolveSubscripts, bind_eq_ok, pure_eq_ok, Prod.mk.injEq, Category.Echoes,
      Category.relabel] at *
    grind [Expr.relabel, Element.relabel, Command.relabel, Expr.relabelElements,
      Expr.relabelEntries, Block.relabelAll, Command.mentions, Block.mentionsAll, unline]

end

/-! ### Programs -/

/-- Readings that are words up to the end of the input. -/
theorem Tape.reads_of_words {i : Tape} {ws : List Word}
    (h : i.readings.map (fun r => (r.token.kind, r.token.value)) =
      ws.map Word.item ++ [(.endOfInput, "")]) :
    ∃ r, i.Reads ws r ∧ r.kind = .endOfInput := by
  induction ws generalizing i with
  | nil => exact ⟨i, rfl, congrArg Prod.fst (List.head_eq_of_cons_eq h)⟩
  | cons w ws ih =>
    obtain ⟨hand, coming⟩ := i
    obtain ⟨hhand, hcoming⟩ := List.cons.inj h
    obtain ⟨hkind, hvalue⟩ := Prod.mk.inj hhand
    cases coming with
    | nil => cases ws <;> cases hcoming
    | cons r rest =>
      obtain ⟨m, hm, hend⟩ := ih (i := ⟨r, rest⟩) hcoming
      exact ⟨m, ⟨⟨hkind, hvalue⟩, hm⟩, hend⟩

variable {text file file' : String} {mode : ScopeMode} {b : Block Variable}
  {p : Parser SymbolTable}

/-- The text of a tree that can be written down is a sentence, as deep as the tree says, which
mentions what the tree mentions. -/
theorem Block.exists_sentence (hspellable : Block.SpellableAll Variable.name b.body)
    (hshaped : Block.ShapedAll b.body) :
    ∃ xs, Sentence b.render (Block.depthOfAll b.body) xs ∧
      Block.relabelAll Mention.unlined unline xs = Block.mentionsAll b.body := by
  obtain ⟨r, hreads, hend⟩ : ∃ r, (Tape.ofText b.render).Reads (Block.wordsOf b.body) r ∧
      r.kind = .endOfInput := by
    refine Tape.reads_of_words ?_
    rw [Tape.readings_ofText]
    exact Spells.words_ofText (Block.spells hspellable)
  obtain ⟨xs, hxs, hmentions⟩ :=
    Block.readAsAll b.body hspellable hshaped hreads (by simp [hend])
  exact ⟨xs, ⟨r, hxs, hend⟩, hmentions⟩

/-- The text of a program that is read is a sentence, as deep as the tree says, which
mentions what the program mentions. -/
theorem exists_sentence_of_render (h : parseText text file mode = (.ok b, p)) :
    ∃ cs xs, Block.resolveAll file cs (SymbolTable.empty mode) = .ok (b.body, p.symbols) ∧
      b = .ofCode text b.body ∧ Sentence b.render (Block.depthOfAll b.body) xs ∧
      Block.relabelAll Mention.unlined unline xs =
        Block.relabelAll Mention.unlined unline cs := by
  have haccounts : b.occurrences.DeclaredOnce := (accounts_of_parse h).1.declaredOnce
  rw [parseText_eq_read] at h
  obtain ⟨k, cs, body, -, ⟨r, hd, hend⟩, hr, rfl⟩ := exists_sentence_of_read h
  obtain ⟨xs, hxs, hmentions⟩ := Block.exists_sentence (b := .ofCode text body)
    (Block.spellable_of_resolved hd (Tape.isSpelled_ofText text) hr)
    (Block.shaped_of_resolved hd hr)
  have hechoes : Block.mentionsAll body = Block.relabelAll Mention.unlined unline cs :=
    hd.echoes hr (Block.distinct_of_declaredOnce body haccounts.right)
  exact ⟨cs, xs, hr, rfl, hxs, hmentions.trans hechoes⟩

/-- The text of a program that is read is nested too deep, or read as the same program on
other lines, with the same table. -/
theorem parseText_render_cases (h : parseText text file mode = (.ok b, p)) (file' : String) :
    (maxDepth < Block.depthOfAll b.body ∧ ∃ position q,
      parseText b.render file' mode = (.error ⟨.tooDeep maxDepth, position⟩, q)) ∨
    Block.depthOfAll b.body ≤ maxDepth ∧ ∃ b' q, parseText b.render file' mode = (.ok b', q) ∧
      b'.relabel Variable.unlined unline = b.relabel Variable.unlined unline ∧
      q.symbols.unlined = p.symbols.unlined := by
  obtain ⟨cs, xs, hr, hb, hs, hxs⟩ := exists_sentence_of_render h
  obtain ⟨body', s', hr', hbody', hs'⟩ := Block.resolveAll_of_unlined hr rfl hxs file'
  rw [parseText_eq_read]
  rcases read_of_sentence hs file' (SymbolTable.empty mode)
    with hdeep | ⟨d, q, hd, -⟩ | ⟨hdepth, body'', s'', q, hr'', hq, rfl⟩
  · exact .inl hdeep
  · rw [hr'] at hd
    cases hd
  · rw [hr'] at hr''
    cases hr''
    refine .inr ⟨hdepth, _, q, hq, ?_, hs'⟩
    rw [hb]
    simp only [Block.ofCode, Block.relabel, hbody']
    rfl

/-- A program that is read is printed as a text that is read as the same program, on other
lines and with the same table, unless that text is nested too deep. Printed again, the
program is the same text. -/
theorem parseText_render (h : parseText text file mode = (.ok b, p))
    (hdeep : ∀ position,
      (parseText b.render file' mode).1 ≠ .error ⟨.tooDeep maxDepth, position⟩) :
    ∃ b' q, parseText b.render file' mode = (.ok b', q) ∧
      b'.relabel Variable.unlined unline = b.relabel Variable.unlined unline ∧
      q.symbols.unlined = p.symbols.unlined ∧ b'.render = b.render := by
  rcases parseText_render_cases h file' with ⟨-, position, q, hq⟩ | ⟨-, b', q, hq, hb', hs⟩
  · exact absurd (congrArg Prod.fst hq) (hdeep position)
  · refine ⟨b', q, hq, hb', hs, ?_⟩
    rw [← Block.render_unlined b', hb', Block.render_unlined]

/-- A loop with an assignment in a conditional is printed and read again. -/
theorem parseText_render_loop :
    ∃ b p b' q, parseText "for (a in [1, 2]) if (a > 1) a = -a; else {}" "p" .lexical = (.ok b, p) ∧
      parseText b.render "p" .lexical = (.ok b', q) ∧
      b'.relabel Variable.unlined unline = b.relabel Variable.unlined unline ∧
      q.symbols.unlined = p.symbols.unlined ∧ b'.render = b.render := by
  have hok : (match (parseText "for (a in [1, 2]) if (a > 1) a = -a; else {}" "p" .lexical).1 with
      | .ok b => (parseText b.render "p" .lexical).1.isOk
      | .error _ => false) = true := by
    decide +kernel
  rcases h : parseText "for (a in [1, 2]) if (a > 1) a = -a; else {}" "p" .lexical with ⟨d | b, p⟩
  · rw [h] at hok
    cases hok
  · rw [h] at hok
    have hagain : (parseText b.render "p" .lexical).1.isOk = true := hok
    have hdeep : ∀ position,
        (parseText b.render "p" .lexical).1 ≠ .error ⟨.tooDeep maxDepth, position⟩ := by
      intro position he
      rw [he] at hagain
      cases hagain
    obtain ⟨b', q, hq⟩ := parseText_render h hdeep
    exact ⟨b, p, b', q, rfl, hq⟩

/-- A program that is read is printed as a text that is nested too deep exactly if more
constructs are open at once in that text than may be. -/
theorem parseText_render_tooDeep_iff (h : parseText text file mode = (.ok b, p))
    (file' : String) :
    (∃ position, (parseText b.render file' mode).1 = .error ⟨.tooDeep maxDepth, position⟩) ↔
      maxDepth < Block.depthOfAll b.body := by
  rcases parseText_render_cases h file' with ⟨hlt, position, q, hq⟩ | ⟨hle, b', q, hq, -⟩
  · exact ⟨fun _ => hlt, fun _ => ⟨position, congrArg Prod.fst hq⟩⟩
  · refine ⟨fun ⟨position, hp⟩ => ?_, fun hlt => absurd hle (Nat.not_le.2 hlt)⟩
    rw [hq] at hp
    cases hp

/-- A number with a sign, in so many pairs of brackets. -/
def bracketed (pairs : Nat) : String :=
  String.ofList
    (List.replicate pairs '[' ++ ['-', '1'] ++ List.replicate pairs ']' ++ [';'])

/-- In 127 pairs of brackets it is as deep as may be, without the parentheses that it is
printed with. -/
theorem depthOfAll_bracketed :
    (match (parseText (bracketed 127) "p" .flat).1 with
      | .ok b => decide (maxDepth < Block.depthOfAll b.body)
      | .error _ => false) = true := by
  decide +kernel

theorem exists_parseText_bracketed :
    ∃ b p, parseText (bracketed 127) "p" .flat = (.ok b, p) ∧
      maxDepth < Block.depthOfAll b.body := by
  have hdeep := depthOfAll_bracketed
  rcases h : parseText (bracketed 127) "p" .flat with ⟨d | b, p⟩
  · rw [h] at hdeep
    cases hdeep
  · rw [h] at hdeep
    exact ⟨b, p, rfl, of_decide_eq_true hdeep⟩

theorem parseText_render_tooDeep_bracketed :
    ∃ b p, parseText (bracketed 127) "p" .flat = (.ok b, p) ∧
      ((∃ position, (parseText b.render "p" .flat).1 = .error ⟨.tooDeep maxDepth, position⟩) ↔
        maxDepth < Block.depthOfAll b.body) := by
  obtain ⟨b, p, h, -⟩ := exists_parseText_bracketed
  exact ⟨b, p, h, parseText_render_tooDeep_iff h "p"⟩

/-- Printing may push a program over the limit. -/
theorem exists_parseText_render_tooDeep :
    ∃ b p position q, parseText (bracketed 127) "p" .flat = (.ok b, p) ∧
      parseText b.render "p" .flat = (.error ⟨.tooDeep maxDepth, position⟩, q) := by
  obtain ⟨b, p, h, hdeep⟩ := exists_parseText_bracketed
  rcases parseText_render_cases h "p" with ⟨-, position, q, hq⟩ | ⟨hle, -⟩
  · exact ⟨b, p, position, q, h, hq⟩
  · exact absurd hdeep (Nat.not_lt.2 hle)

end Scriptlet
