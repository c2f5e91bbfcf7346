import Scriptlet.Proofs.Located
import Scriptlet.Proofs.Occurrence

/-!
# The lines of variables

A variable has the line of the name that declares it, and keeps it wherever the tree holds the
variable. The names of a phrase stand on the tape that it is derived from, so that the lines of
variables are those of tokens.

## The model

A *spot* is a name with a line. `Occurrences.spots` lists those of the variables that a tree holds
for something. `SymbolTable.Records t t' vs ms` says that the table `t` becomes `t'` while the
names `ms` are resolved to the variables `vs`, and that what is declared has the spots of its
names. In flat mode a loop may take over a variable with an older line, so its spot is left out.

## What is proved

* `Derives.standsOn` — the names of a phrase are those of tokens.
* `Derives.records` — resolving the names of a phrase records their spots.
-/

namespace Scriptlet

open Resolving

/-! ### The variables of a phrase -/

/-- The variables of a phrase, with what it holds them for. -/
def Category.occurrences {ν : Type} : (N : Category) → N.Resolved ν → Occurrences ν
  | expr _, e | element, e => e.occurrences
  | operations _, ops => ops.flatMap fun p => p.2.1.occurrences
  | subscripts, subs => subs.flatMap fun s => s.1.occurrences
  | elements, es => Expr.occurrencesOfElements es
  | entries, es => Expr.occurrencesOfEntries es
  | declarator _ _ _, d => Block.occurrencesOfDeclarators [d]
  | declarators _ _ _, ds => Block.occurrencesOfDeclarators ds
  | command, c | body, c => c.occurrences
  | code, cs => Block.occurrencesOfAll cs

section

variable {ν : Type}

theorem Expr.occurrences_operated (ops : List (BinaryOp × Expr ν × Nat)) (e : Expr ν) :
    (e.operated ops).occurrences =
      e.occurrences ++ ops.flatMap fun p => p.2.1.occurrences := by
  induction ops generalizing e with
  | nil => simp
  | cons p ops ih =>
    rw [Expr.operated, List.foldl_cons]
    exact (ih _).trans (by simp [Expr.occurrences])

theorem Expr.occurrences_subscripted (subs : List (Expr ν × Nat)) (e : Expr ν) :
    (e.subscripted subs).occurrences =
      e.occurrences ++ subs.flatMap fun s => s.1.occurrences := by
  induction subs generalizing e with
  | nil => simp
  | cons s subs ih =>
    rw [Expr.subscripted, List.foldl_cons]
    exact (ih _).trans (by simp [Expr.occurrences])

end

section

variable {ν μ : Type} (g : ν → μ) (h : Nat → Nat)

mutual

theorem Expr.occurrences_relabel : (e : Expr ν) →
    (e.relabel g h).occurrences = e.occurrences.map (Prod.map id g)
  | .const .. | .var .. => rfl
  | .binary _ a b _ | .index a b _ => by
    simp [Expr.relabel, Expr.occurrences, Expr.occurrences_relabel a, Expr.occurrences_relabel b]
  | .unary _ a _ | .call _ a _ => Expr.occurrences_relabel a
  | .list es _ => Expr.occurrencesOfElements_relabel es
  | .map es _ => Expr.occurrencesOfEntries_relabel es

theorem Element.occurrences_relabel : (e : Element ν) →
    (e.relabel g h).occurrences = e.occurrences.map (Prod.map id g)
  | .single a | .spread a => Expr.occurrences_relabel a
  | .cond c a none _ => by
    simp [Element.relabel, Element.occurrences, Expr.occurrences_relabel c,
      Element.occurrences_relabel a]
  | .cond c a (some b) _ => by
    simp [Element.relabel, Element.occurrences, Expr.occurrences_relabel c,
      Element.occurrences_relabel a, Element.occurrences_relabel b]
  | .each v a e _ => by
    simp [Element.relabel, Element.occurrences, Expr.occurrences_relabel a,
      Element.occurrences_relabel e]

theorem Expr.occurrencesOfElements_relabel : (es : List (Element ν)) →
    Expr.occurrencesOfElements (Expr.relabelElements g h es) =
      (Expr.occurrencesOfElements es).map (Prod.map id g)
  | [] => rfl
  | e :: es => by
    simp [Expr.relabelElements, Expr.occurrencesOfElements, Element.occurrences_relabel e,
      Expr.occurrencesOfElements_relabel es]

theorem Expr.occurrencesOfEntries_relabel : (es : List (Expr ν × Expr ν)) →
    Expr.occurrencesOfEntries (Expr.relabelEntries g h es) =
      (Expr.occurrencesOfEntries es).map (Prod.map id g)
  | [] => rfl
  | (a, b) :: es => by
    simp [Expr.relabelEntries, Expr.occurrencesOfEntries, Expr.occurrences_relabel a,
      Expr.occurrences_relabel b, Expr.occurrencesOfEntries_relabel es]

end

theorem Target.occurrences_relabel (t : Target ν) :
    (t.relabel g h).toExpr.occurrences = t.toExpr.occurrences.map (Prod.map id g) := by
  cases t with
  | var => rfl
  | index a b line => exact Expr.occurrences_relabel g h (.index a b line)

mutual

theorem Command.occurrences_relabel : (c : Command ν) →
    (c.relabel g h).occurrences = c.occurrences.map (Prod.map id g)
  | .block b => Block.occurrences_relabel b
  | .assign none a _ | .print (some a) _ | .assert a none _ => Expr.occurrences_relabel g h a
  | .assign (some t) a _ => by
    simp [Command.relabel, Command.occurrences, Target.occurrences_relabel, Expr.occurrences_relabel
      g h a]
  | .print none _ => rfl
  | .assert a (some b) _ => by
    simp [Command.relabel, Command.occurrences, Expr.occurrences_relabel g h a,
      Expr.occurrences_relabel g h b]
  | .cond a b none _ | .whileDo a b _ | .doWhile b a _ | .each _ a b _ => by
    simp [Command.relabel, Command.occurrences, Expr.occurrences_relabel g h a,
      Command.occurrences_relabel b]
  | .cond a b (some c) _ => by
    simp [Command.relabel, Command.occurrences, Expr.occurrences_relabel g h a,
      Command.occurrences_relabel b, Command.occurrences_relabel c]

theorem Block.occurrences_relabel : (b : Block ν) →
    (b.relabel g h).occurrences = b.occurrences.map (Prod.map id g)
  | ⟨body, declares, _⟩ => by
    simp [Block.relabel, Block.occurrences, Block.occurrencesOfAll_relabel body]

/-- Relabelled commands have the same variables, relabelled. -/
theorem Block.occurrencesOfAll_relabel : (cs : List (Command ν)) →
    Block.occurrencesOfAll (Block.relabelAll g h cs) =
      (Block.occurrencesOfAll cs).map (Prod.map id g)
  | [] => rfl
  | c :: cs => by
    simp [Block.relabelAll, Block.occurrencesOfAll, Command.occurrences_relabel c,
      Block.occurrencesOfAll_relabel cs]

end

end

/-! ### The names that they have in the text -/

/-- The mention is that of a name on the tape. -/
def Mention.StandsOn (o : Tape) (m : Mention) : Prop :=
  ∃ i : Tape, i.RestOf o ∧ i.kind = .name ∧ m.name = i.hand.token.value ∧ m.line = i.start

theorem Tape.RestOf.standsOn {i o : Tape} (hi : i.RestOf o) (hk : i.kind = .name) :
    (Mention.ofToken i.hand.token).StandsOn o := ⟨i, hi, hk, rfl, rfl⟩

/-- The names of a phrase stand on the tape that it is derived from. -/
theorem Derives.standsOn {o : Tape} {N k i x r} (h : Derives N k i x r) (hi : i.RestOf o) :
    ∀ p ∈ N.occurrences (N.written x), p.2.StandsOn o := by
  induction h with
  | level left h chains ih ih' =>
    simp only [Category.occurrences, Category.written] at ih ih' ⊢
    rw [Expr.occurrences_operated]
    exact List.forall_mem_append.2 ⟨ih hi, ih' (left.restOf hi)⟩
  | named head h ih =>
    simp only [Category.occurrences, Category.written] at ih ⊢
    rw [Expr.occurrences_subscripted]
    exact List.forall_mem_cons.2 ⟨hi.standsOn head, ih hi.next⟩
  | declarator name => exact List.forall_mem_singleton.2 ⟨_, hi, name, rfl, rfl⟩
  | initialized name assign h ih =>
    -- The name stands for what is declared and for what the initial value is assigned to.
    refine List.forall_mem_append.2 ⟨List.forall_mem_cons.2 ⟨⟨_, hi, name, rfl, rfl⟩,
      List.forall_mem_cons.2 ⟨⟨_, hi, name, rfl, rfl⟩, ih hi.next.next⟩⟩, List.forall_mem_nil _⟩
  | declarators h comma rest ih ih' =>
    simp only [Category.occurrences, Category.written, List.map_cons] at ih ih' ⊢
    rw [← List.singleton_append, Block.occurrencesOfDeclarators_append]
    exact List.forall_mem_append.2 ⟨ih hi, ih' (h.restOf hi).next⟩
  | declaration final head mark h stop ih =>
    simp only [Category.occurrences, Category.written, Command.occurrences] at ih ⊢
    rw [Block.ofDeclarators_eq]
    intro p hp
    exact ih (mark.restOf (final.restOf hi).next) p ((Block.perm_occurrences _ _).mem_iff.2 hp)
  | elementFor head opens name separator h closes h' ih ih'
  | forLoop head opens name separator h closes h' ih ih' =>
    have hm := (h.restOf hi.next.next.next.next).next
    exact List.forall_mem_append.2 ⟨List.forall_mem_append.2 ⟨ih hi.next.next.next.next,
      List.forall_mem_singleton.2 (hi.next.next.standsOn name)⟩, ih' hm⟩
  | assignment h isTarget assign h' stop ih ih' =>
    simp only [Category.occurrences, Category.written, Command.occurrences] at ih ih' ⊢
    rw [Expr.toExpr_of_target? isTarget]
    exact List.forall_mem_append.2 ⟨ih hi, ih' (h.restOf hi).next⟩
  | _ =>
    simp only [Category.occurrences, Category.written] at *
    grind [Expr.occurrences, Element.occurrences, Command.occurrences, Block.occurrences,
      Expr.occurrencesOfElements, Expr.occurrencesOfEntries, Block.occurrencesOfAll,
      Block.occurrencesOfDeclarators, Tape.RestOf.next, Derives.restOf, Tape.RestOf.standsOn]

/-! ### Where variables are declared -/

/-- The name of a variable, with the line that declares it. -/
def Variable.spot (v : Variable) : String × Nat := (v.name, v.line)

/-- The name that is mentioned, with the line that it stands on. -/
def Mention.spot (m : Mention) : String × Nat := (m.name, m.line)

section

variable {ν : Type} (spot : ν → String × Nat)

/-- Where the variables stand that are held for something. -/
def Occurrences.spots (role : Role) (os : Occurrences ν) : List (String × Nat) :=
  (os.of role).map spot

namespace Occurrences

variable {spot} {role : Role}

@[simp] theorem spots_nil : spots spot role [] = [] := rfl

@[simp] theorem spots_append (os os' : Occurrences ν) :
    spots spot role (os ++ os') = os.spots spot role ++ os'.spots spot role := by
  simp [spots, of]

@[simp] theorem spots_cons (role' : Role) (v : ν) (os : Occurrences ν) :
    spots spot role ((role', v) :: os) =
      (if role' = role then [spot v] else []) ++ os.spots spot role := by
  unfold spots of
  split
  next h => simp [h]
  next h => simp [h]

theorem spots_map {μ : Type} (g : μ → ν) (os : Occurrences μ) :
    spots spot role (os.map (Prod.map id g)) = os.spots (fun v => spot (g v)) role := by
  simp [spots, of, List.filter_map, Function.comp_def]

theorem spots_eq_nil {os : Occurrences ν} (h : ∀ p ∈ os, p.1 ≠ role) : os.spots spot role = [] := by
  induction os with
  | nil => rfl
  | cons p os ih =>
    obtain ⟨hp, hos⟩ := List.forall_mem_cons.1 h
    rw [spots_cons, if_neg hp, ih hos, List.append_nil]

/-- The names of a declaration stand before the rest of it, whatever they are held for. -/
theorem spots_declaration {ds : List (ν × Option (Command ν))} (line : Nat)
    (h : ∀ d ∈ ds, ∀ c ∈ d.2, ∀ p ∈ c.occurrences, p.1 ≠ .declaration) :
    (Block.occurrences ⟨ds.filterMap Prod.snd, ds.map Prod.fst, line⟩).spots spot role =
      (Block.occurrencesOfDeclarators ds).spots spot role := by
  induction ds with
  | nil => rfl
  | cons d ds ih =>
    obtain ⟨hd, hds⟩ := List.forall_mem_cons.1 h
    specialize ih hds
    simp only [Block.occurrences, spots_append] at ih ⊢
    obtain ⟨v, _ | c⟩ := d
    · simp [Block.occurrencesOfDeclarators, ← ih]
    · simp only [Block.occurrencesOfDeclarators, spots_append, spots_cons, ← ih, List.map_cons,
        List.filterMap_cons, Block.occurrencesOfAll]
      by_cases hrole : role = .declaration
      · subst hrole
        have hc : c.occurrences.spots spot .declaration = [] := spots_eq_nil (hd c rfl)
        simp [hc]
      · have hnames : spots spot role ((ds.map Prod.fst).map (Prod.mk .declaration)) = [] :=
          spots_eq_nil (List.forall_mem_map.2 fun _ _ => Ne.symm hrole)
        simp [hnames, Ne.symm hrole, -List.map_map]

end Occurrences

end

/-- What is declared from one table to another has the lines of the names that stand there. -/
structure SymbolTable.Records (t t' : SymbolTable) (vs : Occurrences Variable)
    (ms : Occurrences Mention) : Prop where
  mode : t'.mode = t.mode
  consistent : t.Consistent → t'.Consistent
  /-- Nothing is forgotten. -/
  kept : t.declared ⊆ t'.declared
  /-- The variables of declarations have the lines of their names. -/
  declarations : vs.spots Variable.spot .declaration = ms.spots Mention.spot .declaration
  /-- So have those of loops, where they take over no other variable. -/
  loops : t.mode = .lexical → vs.spots Variable.spot .loop = ms.spots Mention.spot .loop
  /-- The name of a loop is declared then, if it was not before. -/
  named : t.Consistent → t.mode = .flat →
    ∀ s ∈ ms.spots Mention.spot .loop, s.1 ∈ t'.declared.map Variable.name
  /-- What is new in the table has the line of a name that is declared, in flat mode that of the
  first loop over its name. -/
  declared : t.Consistent → ∀ v ∈ t'.declared, v ∈ t.declared ∨
    v.spot ∈ ms.spots Mention.spot .declaration ∨ v.spot ∈ ms.spots Mention.spot .loop ∧
      (t.mode = .flat → v.name ∉ t.declared.map Variable.name ∧
        (ms.spots Mention.spot .loop).find? (fun s => s.1 = v.name) = some v.spot)

namespace SymbolTable.Records

variable {t t₁ t' : SymbolTable} {vs vs' : Occurrences Variable} {ms ms' : Occurrences Mention}
  {m : Mention} {v : Variable} {file : String}

theorem refl (t : SymbolTable) : t.Records t [] [] where
  mode := rfl
  consistent := id
  kept _ := id
  declarations := rfl
  loops _ := rfl
  named _ _ := nofun
  declared _ _ hv := .inl hv

theorem append (h : t.Records t₁ vs ms) (h' : t₁.Records t' vs' ms') :
    t.Records t' (vs ++ vs') (ms ++ ms') where
  mode := h'.mode.trans h.mode
  consistent ht := h'.consistent (h.consistent ht)
  kept := List.Subset.trans h.kept h'.kept
  declarations := by
    rw [Occurrences.spots_append, Occurrences.spots_append, h.declarations, h'.declarations]
  loops hm := by
    rw [Occurrences.spots_append, Occurrences.spots_append, h.loops hm, h'.loops (h.mode.trans hm)]
  named ht hm s hs := by
    rw [Occurrences.spots_append, List.mem_append] at hs
    rcases hs with hs | hs
    · exact List.map_subset _ h'.kept (h.named ht hm s hs)
    · exact h'.named (h.consistent ht) (h.mode.trans hm) s hs
  declared ht v hv := by
    simp only [Occurrences.spots_append, List.mem_append, List.find?_append]
    rcases h'.declared (h.consistent ht) v hv with hv | hv | ⟨hv, hfirst⟩
    · rcases h.declared ht v hv with hv | hv | ⟨hv, hfirst⟩
      · exact .inl hv
      · exact .inr (.inl (.inl hv))
      · refine .inr (.inr ⟨.inl hv, fun hm => ⟨(hfirst hm).1, ?_⟩⟩)
        rw [(hfirst hm).2, Option.some_or]
    · exact .inr (.inl (.inr hv))
    · -- In flat mode no loop before this one has its name, which would be declared by then.
      refine .inr (.inr ⟨.inr hv, fun hm => ?_⟩)
      obtain ⟨hnew, hfirst⟩ := hfirst (h.mode.trans hm)
      refine ⟨fun hold => hnew (List.map_subset _ h.kept hold), ?_⟩
      have hnone : (ms.spots Mention.spot .loop).find? (fun s => s.1 = v.name) = none := by
        refine List.find?_eq_none.2 fun s hs hname => hnew ?_
        rw [← of_decide_eq_true hname]
        exact h.named ht hm s hs
      rw [hnone, hfirst, Option.none_or]

/-- Only what is declared matters, and its order only among declarations and among loops. -/
theorem congr (h : t.Records t' vs ms)
    (hvs : ∀ role ≠ .use, vs'.spots Variable.spot role = vs.spots Variable.spot role)
    (hms : ∀ role ≠ .use, ms'.spots Mention.spot role = ms.spots Mention.spot role) :
    t.Records t' vs' ms' where
  mode := h.mode
  consistent := h.consistent
  kept := h.kept
  declarations := by
    rw [hvs .declaration nofun, hms .declaration nofun]
    exact h.declarations
  loops hm := by
    rw [hvs .loop nofun, hms .loop nofun]
    exact h.loops hm
  named := by
    rw [hms .loop nofun]
    exact h.named
  declared := by
    rw [hms .declaration nofun, hms .loop nofun]
    exact h.declared

theorem use (t : SymbolTable) (v : Variable) (m : Mention) :
    t.Records t [(.use, v)] [(.use, m)] :=
  (refl t).congr (fun _ h => by simp [Ne.symm h]) fun _ h => by simp [Ne.symm h]

theorem resolve (h : m.resolve file t = .ok (v, t')) : t.Records t' [(.use, v)] [(.use, m)] := by
  unfold Mention.resolve at h
  cases hr : Scoping.resolve t m.name (m.position file) with
  | error d =>
    rw [hr] at h
    cases h
  | ok w =>
    rw [hr] at h
    obtain ⟨-, rfl⟩ := Prod.mk.inj (Except.ok.inj h)
    exact .use t v m

theorem declare (h : m.declare file t = .ok (v, t')) :
    t.Records t' [(.declaration, v)] [(.declaration, m)] := by
  obtain ⟨rfl, rfl⟩ := Mention.declare_eq_ok h
  exact {
    mode := rfl
    consistent := fun ht => ht.declare h
    kept := List.subset_append_left _ _
    declarations := rfl
    loops := fun _ => rfl
    named := fun _ _ => nofun
    declared := fun _ w hw => by
      rcases List.mem_append.1 hw with hw | hw
      · exact .inl hw
      · rw [List.mem_singleton.1 hw]
        exact .inr (.inl List.mem_cons_self) }

theorem declareLoop (h : m.declareLoop file t = .ok (v, t')) :
    t.Records t' [(.loop, v)] [(.loop, m)] := by
  rcases SymbolTable.declareLoop_eq_ok.1 h with ⟨hflat, hfound, -, rfl⟩ | ⟨hlookup, h⟩
  · exact {
      mode := rfl
      consistent := id
      kept := fun _ => id
      declarations := rfl
      loops := fun hm => by
        rw [hflat] at hm
        cases hm
      named := fun ht _ s hs => by
        rw [List.mem_singleton.1 hs]
        exact List.mem_map.2 ⟨v, List.mem_of_getElem? (ht.declared_of_lookup? hfound),
          name_of_lookup? hfound⟩
      declared := fun _ w hw => .inl hw }
  · have hdeclare := h
    obtain ⟨hname, rfl, rfl⟩ := declare_eq_ok.1 h
    exact {
      mode := rfl
      consistent := fun ht => ht.declare hdeclare
      kept := List.subset_append_left _ _
      declarations := rfl
      loops := fun _ => rfl
      named := fun _ _ s hs => by
        rw [List.mem_singleton.1 hs]
        exact List.mem_map.2 ⟨_, List.mem_append_right _ List.mem_cons_self, rfl⟩
      declared := fun ht w hw => by
        rcases List.mem_append.1 hw with hw | hw
        · exact .inl hw
        · rw [List.mem_singleton.1 hw]
          refine .inr (.inr ⟨List.mem_cons_self, fun hm => ⟨fun hold => ?_, ?_⟩⟩)
          · exact ((ht.names_of_flat hm).1 _).2 hold hname
          · exact List.find?_cons_of_pos (by simp [Mention.spot]) }

theorem inScope (h : t.enter.Records t' vs ms) : t.Records t'.leave vs ms where
  mode := (mode_leave t').trans (h.mode.trans (mode_enter t))
  consistent ht := (h.consistent ht.enter).leave
  kept := by
    have hkept := h.kept
    rwa [declared_enter, ← declared_leave (t := t')] at hkept
  declarations := h.declarations
  loops hm := h.loops ((mode_enter t).trans hm)
  named ht hm := by
    rw [declared_leave]
    exact h.named ht.enter ((mode_enter t).trans hm)
  declared ht := by
    have hdeclared := h.declared ht.enter
    rwa [declared_enter, mode_enter, ← declared_leave (t := t')] at hdeclared

end SymbolTable.Records

/-! ### Resolving -/

section

variable {ν : Type}

mutual

/-- Nothing is declared by a declaration inside of an expression. -/
theorem Expr.role_ne_declaration : (e : Expr ν) → ∀ p ∈ e.occurrences, p.1 ≠ .declaration
  | .const .. => nofun
  | .binary _ a b _ | .index a b _ =>
    List.forall_mem_append.2 ⟨Expr.role_ne_declaration a, Expr.role_ne_declaration b⟩
  | .unary _ a _ | .call _ a _ => Expr.role_ne_declaration a
  | .var .. => List.forall_mem_singleton.2 nofun
  | .list es _ => Expr.role_ne_declaration_of_elements es
  | .map es _ => Expr.role_ne_declaration_of_entries es

theorem Element.role_ne_declaration : (e : Element ν) → ∀ p ∈ e.occurrences, p.1 ≠ .declaration
  | .single a | .spread a => Expr.role_ne_declaration a
  | .cond c a none _ =>
    List.forall_mem_append.2 ⟨Expr.role_ne_declaration c, Element.role_ne_declaration a⟩
  | .cond c a (some b) _ =>
    List.forall_mem_append.2 ⟨List.forall_mem_append.2 ⟨Expr.role_ne_declaration c,
      Element.role_ne_declaration a⟩, Element.role_ne_declaration b⟩
  | .each _ a e _ =>
    List.forall_mem_append.2 ⟨List.forall_mem_append.2 ⟨Expr.role_ne_declaration a,
      List.forall_mem_singleton.2 nofun⟩, Element.role_ne_declaration e⟩

theorem Expr.role_ne_declaration_of_elements : (es : List (Element ν)) →
    ∀ p ∈ Expr.occurrencesOfElements es, p.1 ≠ .declaration
  | [] => nofun
  | e :: es =>
    List.forall_mem_append.2 ⟨Element.role_ne_declaration e,
      Expr.role_ne_declaration_of_elements es⟩

theorem Expr.role_ne_declaration_of_entries : (es : List (Expr ν × Expr ν)) →
    ∀ p ∈ Expr.occurrencesOfEntries es, p.1 ≠ .declaration
  | [] => nofun
  | (a, b) :: es =>
    List.forall_mem_append.2 ⟨List.forall_mem_append.2 ⟨Expr.role_ne_declaration a,
      Expr.role_ne_declaration b⟩, Expr.role_ne_declaration_of_entries es⟩

end

end

theorem Declarator.role_ne_declaration (d : Declarator) :
    ∀ c ∈ d.assignment?, ∀ p ∈ c.occurrences, p.1 ≠ .declaration := by
  intro c hc
  obtain ⟨e, -, rfl⟩ := Option.map_eq_some_iff.1 hc
  exact List.forall_mem_append.2 ⟨List.forall_mem_singleton.2 nofun, Expr.role_ne_declaration e⟩

section

variable {file : String} {t t' : SymbolTable}

/-- The same holds of what the initial values of a declaration are resolved to. -/
theorem Derives.role_ne_declaration {constant nullability number k i ds r}
    (h : Derives (.declarators constant nullability number) k i ds r)
    {es : List (Variable × Option (Command Variable))}
    (hes : Declarator.resolveAll file ds t = .ok (es, t')) :
    ∀ d ∈ es, ∀ c ∈ d.2, ∀ p ∈ c.occurrences, p.1 ≠ .declaration := by
  have hnames := h.resolve_sameNames hes
  simp only [Category.relabel, Category.written] at hnames
  intro d hd c hc p hp
  obtain ⟨d', hd', he⟩ := List.mem_map.1 (hnames ▸ List.mem_map_of_mem hd)
  obtain ⟨d', -, rfl⟩ := List.mem_map.1 hd'
  have hc' := congrArg Prod.snd he
  simp only [Option.mem_def.1 hc, Option.map_some, Option.map_eq_some_iff] at hc'
  obtain ⟨c', hc', he⟩ := hc'
  have hp' : Prod.map id Variable.name p ∈ c'.occurrences.map (Prod.map id Mention.name) := by
    rw [← Command.occurrences_relabel Mention.name id, he, Command.occurrences_relabel]
    exact List.mem_map_of_mem hp
  obtain ⟨q, hq, he⟩ := List.mem_map.1 hp'
  exact congrArg Prod.fst he ▸ d'.role_ne_declaration c' hc' q hq

/-- Resolving the names of a phrase records where they stand. -/
theorem Derives.records {N k i x r} (h : Derives N k i x r) {e : N.Resolved Variable}
    (he : N.resolve file x t = .ok (e, t')) :
    t.Records t' (N.occurrences e) (N.occurrences (N.written x)) := by
  induction h generalizing t t' with
  | expression h ih | unsigned h ih | factor h ih | primary h ih | parenthesized _ h _ ih
  | place h ih | unbraced _ h ih => exact ih he
  | level left h chains ih ih' =>
    obtain ⟨a, t₁, ops, ha, hops, rfl⟩ := Expr.resolve_operated_eq_ok.1 he
    have happend := (ih ha).append (ih' hops)
    simp only [Category.occurrences, Category.written] at happend ⊢
    rwa [Expr.occurrences_operated, Expr.occurrences_operated]
  | noOperation | noSubscript | noCode | constant | emptyList | emptyMap | printLine =>
    obtain ⟨rfl, rfl⟩ := Prod.mk.inj (pure_eq_ok.1 he)
    exact .refl _
  | operation head right h ih ih' | subscript opens right closes h ih ih' =>
    obtain ⟨a, t₁, rest, ha, hrest, rfl⟩ := bind_bind_pure_eq_ok.1 he
    exact (ih ha).append (ih' hrest)
  | signed _ h ih | postfixed h _ ih | call _ _ h _ ih | list _ h _ ih | map _ h _ ih | single h ih
  | spread _ h ih | print _ _ h _ _ ih | assert _ _ h _ _ ih | effect h _ ih =>
    obtain ⟨a, ha, rfl⟩ := bind_pure_eq_ok.1 he
    have hphrase := ih ha
    exact hphrase
  | named head h ih =>
    obtain ⟨v, t₁, subs, hv, hsubs, rfl⟩ := Expr.resolve_place_eq_ok.1 he
    have happend := (SymbolTable.Records.resolve hv).append (ih hsubs)
    simp only [Category.occurrences, Category.written] at happend ⊢
    rwa [Expr.occurrences_subscripted, Expr.occurrences_subscripted]
  | lastElement h ih | lastDeclarator h ih =>
    obtain ⟨a, ha, rfl⟩ := bind_pure_eq_ok.1 he
    have hphrase := (ih ha).append (.refl _)
    simpa [Category.occurrences, Category.written, Expr.occurrencesOfElements] using hphrase
  | elements h comma rest ih ih' | code h rest ih ih' | whileLoop _ _ h _ rest ih ih'
  | conditional _ _ h _ rest _ ih ih' | elementIf _ _ h _ rest _ ih ih'
  | doWhileLoop _ h _ _ rest _ _ ih ih' | assertMessage _ _ h _ rest _ _ ih ih' =>
    obtain ⟨a, t₁, b, ha, hb, rfl⟩ := bind_bind_pure_eq_ok.1 he
    have hphrase := (ih ha).append (ih' hb)
    exact hphrase
  | conditionalElse _ _ h _ h' _ h'' ih ih' ih'' | elementIfElse _ _ h _ h' _ h'' ih ih' ih''
  | entries h _ h' _ h'' ih ih' ih'' =>
    obtain ⟨a, t₁, ha, he⟩ := bind_eq_ok.1 he
    obtain ⟨b, t₂, c, hb, hc, rfl⟩ := bind_bind_pure_eq_ok.1 he
    have hphrase := ((ih ha).append (ih' hb)).append (ih'' hc)
    exact hphrase
  | declarators h comma rest ih ih' =>
    obtain ⟨d, t₁, ds, hd, hds, rfl⟩ := bind_bind_pure_eq_ok.1 he
    have happend := (ih hd).append (ih' hds)
    simp only [Category.occurrences, Category.written] at happend ⊢
    rwa [← Block.occurrencesOfDeclarators_append, ← Block.occurrencesOfDeclarators_append,
      List.singleton_append, List.singleton_append] at happend
  | lastEntry h colon h' ih ih' =>
    obtain ⟨a, t₁, b, ha, hb, rfl⟩ := bind_bind_pure_eq_ok.1 he
    have hphrase := ((ih ha).append (ih' hb)).append (.refl _)
    exact hphrase
  | elementFor head opens name separator h closes h' ih ih' =>
    obtain ⟨c, t₁, v, t₂, x, t₃, hc, hv, hx, rfl, rfl⟩ := Element.resolve_each_eq_ok.1 he
    have hloop := (SymbolTable.Records.declareLoop hv).append (ih' hx)
    have happend := (ih hc).append hloop.inScope
    rw [← List.append_assoc, ← List.append_assoc] at happend
    exact happend
  | forLoop head opens name separator h closes h' ih ih' =>
    obtain ⟨c, t₁, v, t₂, b, t₃, hc, hv, hb, rfl, rfl⟩ := Command.resolve_each_eq_ok.1 he
    have hloop := (SymbolTable.Records.declareLoop hv).append (ih' hb)
    have happend := (ih hc).append hloop.inScope
    rw [← List.append_assoc, ← List.append_assoc] at happend
    exact happend
  | declarator name =>
    obtain ⟨v, hv, rfl⟩ := bind_pure_eq_ok.1 he
    exact SymbolTable.Records.declare hv
  | @initialized constant nullability number k i value r name assign h ih =>
    obtain ⟨v, t₁, a, hv, ha, rfl⟩ := bind_bind_pure_eq_ok.1 he
    have hname := (SymbolTable.Records.declare hv).append
      (.use t₁ v (.declaredBy i.hand.token constant nullability number))
    have happend := hname.append (ih ha)
    simpa [Category.occurrences, Category.written, Block.occurrencesOfDeclarators,
      Declarator.assignment?, Command.occurrences, Target.toExpr, Expr.occurrences] using happend
  | declaration final head mark h stop ih =>
    obtain ⟨es, hes, rfl⟩ := h.resolve_declaration_eq_ok.1 he
    simp only [Category.occurrences, Category.written, Command.occurrences, Block.ofDeclarators_eq]
    exact (ih hes).congr (fun _ _ => Occurrences.spots_declaration _ (h.role_ne_declaration hes))
      fun _ _ => Occurrences.spots_declaration _
        (List.forall_mem_map.2 fun d _ => d.role_ne_declaration)
  | assignment h isTarget assign h' stop ih ih' =>
    obtain ⟨target', t₁, value, ha, hvalue, rfl⟩ := (Command.resolve_assign_eq_ok isTarget).1 he
    have happend := (ih ha).append (ih' hvalue)
    simp only [Category.occurrences, Category.written, Command.occurrences] at happend ⊢
    rwa [Expr.toExpr_of_target? isTarget]
  | braced opens h closes ih =>
    obtain ⟨cs, t₁, hcs, rfl, rfl⟩ := Command.resolve_braces_eq_ok.1 he
    have hbody := (ih hcs).inScope
    exact hbody

end

end Scriptlet
