import Scriptlet.Proofs.WellFormed

/-!
# Braces that keep an `else`

A tree need not come from a text. One that is put together otherwise may have a conditional
with an `else` over a body that ends in a conditional without one, and written side by side
the inner one would take that `else`. The printer puts braces around such a body. Reading the
printed program gives the tree back with just these braces, if the names in it can be read at
all and it is not nested too deep.

## The model

`Command.guarded` puts the braces. Whether names can be read is said without a table:
`Block.asWrittenAll` lists the variables in the order in which they are met, and `Known.read`
says what one of them does to the names that are known, or that it is refused.
`Resolving.Follows os c` relates the two: where the occurrences `os` are not refused, `c` does
not fail.

## What is proved

* `Block.guardedAll_of_keepsElse`, `Block.keepsElse_guardedAll` — braces are put where they are
  needed, and nowhere else.
* `Block.followsAll` — names that can be read are resolved.
* `Block.relabelAll_mentionsAll` — what is mentioned is the tree with its braces.
* `parseText_render_guarded` — a printed tree is read as the tree with its braces.
-/

namespace Scriptlet

open Resolving

/-! ### Braces -/

section

variable {ν : Type}

mutual

/-- The command with braces around each first body that would take an `else` from its
conditional. -/
def Command.guarded : Command ν → Command ν
  | .block ⟨body, declares, line⟩ => .block ⟨Block.guardedAll body, declares, line⟩
  | .assign target value line => .assign target value line
  | .print value line => .print value line
  | .assert condition message line => .assert condition message line
  | .cond a b none line => .cond a b.guarded none line
  | .cond a b (some c) line =>
    .cond a (if b.hasDanglingIf then .block ⟨[b.guarded], [], 0⟩ else b.guarded) (some c.guarded)
      line
  | .whileDo a b line => .whileDo a b.guarded line
  | .doWhile b a line => .doWhile b.guarded a line
  | .each v a b line => .each v a b.guarded line

/-- The commands with such braces. -/
def Block.guardedAll : List (Command ν) → List (Command ν)
  | [] => []
  | c :: cs => c.guarded :: Block.guardedAll cs

end

/-- The program with such braces. -/
def Block.guarded (b : Block ν) : Block ν := ⟨Block.guardedAll b.body, b.declares, b.line⟩

/-- Braces inside do not change how a command ends. -/
theorem Command.hasDanglingIf_guarded :
    (c : Command ν) → c.guarded.hasDanglingIf = c.hasDanglingIf
  | .block ⟨_, _, _⟩ | .assign .. | .print .. | .assert .. | .cond _ _ none _ | .doWhile .. => rfl
  | .cond _ _ (some c) _ => Command.hasDanglingIf_guarded c
  | .whileDo _ b _ | .each _ _ b _ => Command.hasDanglingIf_guarded b

mutual

/-- Where no `else` would be taken there are no braces to put. -/
theorem Command.guarded_of_keepsElse :
    (c : Command ν) → c.Everywhere Command.KeepsElse → c.guarded = c
  | .block ⟨body, _, _⟩, h => by
    rw [Command.guarded, Block.guardedAll_of_keepsElse body h.2]
  | .assign .., _ | .print .., _ | .assert .., _ => rfl
  | .cond _ b none _, h | .whileDo _ b _, h | .doWhile b _ _, h | .each _ _ b _, h => by
    rw [Command.guarded, Command.guarded_of_keepsElse b h.2]
  | .cond _ b (some c) _, h => by
    have hkeeps : b.hasDanglingIf = false := h.1
    rw [Command.guarded, hkeeps, Command.guarded_of_keepsElse b h.2.1,
      Command.guarded_of_keepsElse c h.2.2]
    rfl

theorem Block.guardedAll_of_keepsElse : (cs : List (Command ν)) →
    Block.Everywhere Command.KeepsElse cs → Block.guardedAll cs = cs
  | [], _ => rfl
  | c :: cs, h =>
    congrArg₂ List.cons (Command.guarded_of_keepsElse c h.1) (Block.guardedAll_of_keepsElse cs h.2)

end

mutual

/-- With the braces no `else` would be taken. -/
theorem Command.keepsElse_guarded :
    (c : Command ν) → c.guarded.Everywhere Command.KeepsElse
  | .block ⟨body, _, _⟩ => ⟨trivial, Block.keepsElse_guardedAll body⟩
  | .assign .. | .print .. | .assert .. => trivial
  | .cond _ b none _ | .whileDo _ b _ | .doWhile b _ _ | .each _ _ b _ =>
    ⟨trivial, Command.keepsElse_guarded b⟩
  | .cond _ b (some c) _ => by
    have hb := Command.keepsElse_guarded b
    have hc := Command.keepsElse_guarded c
    rw [Command.guarded]
    split
    · exact ⟨rfl, ⟨trivial, hb, trivial⟩, hc⟩
    · next hdangling =>
      rw [Bool.not_eq_true, ← Command.hasDanglingIf_guarded] at hdangling
      exact ⟨hdangling, hb, hc⟩

theorem Block.keepsElse_guardedAll : (cs : List (Command ν)) →
    Block.Everywhere Command.KeepsElse (Block.guardedAll cs)
  | [] => trivial
  | c :: cs => ⟨Command.keepsElse_guarded c, Block.keepsElse_guardedAll cs⟩

end

end

/-! ### Names in the order in which they are met -/

/-- A declared name, and then the variables of the value that it gets. -/
def Variable.asWritten (body : List (Command Variable)) (v : Variable) : Occurrences Variable :=
  (.declaration, v) ::
    match body.findSome? (Command.initialValue? v) with
    | some value => value.occurrences
    | none => []

mutual

/-- The variables of a command in the order in which they are met. What a loop runs over comes
before its variable. -/
def Command.asWritten : Command Variable → Occurrences Variable
  | .block ⟨body, [], _⟩ => Block.asWrittenAll body
  | .block ⟨body, v :: vs, _⟩ => (v :: vs).flatMap (Variable.asWritten body)
  | .assign none a _ | .print (some a) _ | .assert a none _ => a.occurrences
  | .assign (some t) a _ => t.toExpr.occurrences ++ a.occurrences
  | .print none _ => []
  | .assert a (some b) _ => a.occurrences ++ b.occurrences
  | .cond a b none _ | .whileDo a b _ => a.occurrences ++ b.asWritten
  | .cond a b (some c) _ => a.occurrences ++ (b.asWritten ++ c.asWritten)
  | .doWhile b a _ => b.asWritten ++ a.occurrences
  | .each v a b _ => a.occurrences ++ ([(.loop, v)] ++ b.asWritten)

/-- The variables of commands in the order in which they are met. -/
def Block.asWrittenAll : List (Command Variable) → Occurrences Variable
  | [] => []
  | c :: cs => c.asWritten ++ Block.asWrittenAll cs

end

/-- The names that are known, each with whether it is constant. -/
abbrev Known : Type := List (String × Bool)

/-- The names that are known behind a variable, unless it is refused: a name that is used is
known, one that is declared is not, and a loop takes over a name that is not constant. -/
def Known.read (known : Known) : Role × Variable → Option Known
  | (.use, v) => if (known.lookup v.name).isSome then some known else none
  | (.declaration, v) =>
    if (known.lookup v.name).isSome then none else some ((v.name, v.constant) :: known)
  | (.loop, v) =>
    match known.lookup v.name with
    | none => some ((v.name, false) :: known)
    | some constant => if constant then none else some known

/-- No variable is refused. -/
def Occurrences.Readable (os : Occurrences Variable) : Prop :=
  (os.foldlM Known.read []).isSome = true

/-- It is a table of flat mode with the names that are known. -/
structure SymbolTable.Knows (t : SymbolTable) (known : Known) : Prop where
  flat : t.mode = .flat
  outer : t.outer = []
  names : t.innermost.map (fun v => (v.name, v.constant)) = known

namespace SymbolTable.Knows

variable {t : SymbolTable} {known : Known} {name : String}

theorem empty : (SymbolTable.empty .flat).Knows [] := ⟨rfl, rfl, rfl⟩

theorem lookup (h : t.Knows known) :
    known.lookup name = (t.lookup? name).map Variable.constant := by
  have hframes : t.lookup? name = t.innermost.find? name := by
    rw [lookup?, frames, h.outer]
    cases hv : t.innermost.find? name <;> simp [hv]
  rw [hframes, ← h.names]
  induction t.innermost with
  | nil => rfl
  | cons v vs ih =>
    rw [List.map_cons, List.lookup_cons, Frame.find?, List.find?_cons, ih]
    by_cases hv : v.name = name
    · simp [hv]
    · have hne : (name == v.name) = false := beq_eq_false_iff_ne.2 (Ne.symm hv)
      simp [hv, hne, Frame.find?]

/-- A name that is not known is declared. -/
theorem declare (h : t.Knows known) (hn : known.lookup name = none) (constant : Bool)
    (nullability : Nullability) (position : Position) :
    ∃ v t', t.declare name constant nullability position = .ok (v, t') ∧
      t'.Knows ((name, constant) :: known) := by
  rw [h.lookup, Option.map_eq_none_iff] at hn
  exact ⟨_, _, declare_eq_ok.2 ⟨find?_innermost_of_lookup? hn, rfl, rfl⟩,
    h.flat, h.outer, congrArg _ h.names⟩

end SymbolTable.Knows

/-! ### Names that are resolved -/

/-- Where the occurrences are not refused the computation gives something, from a table with
the names that are known to one with those that are known behind them. -/
def Resolving.Follows {α : Type} (os : Occurrences Variable) (c : Resolving SymbolTable α) :
    Prop :=
  ∀ ⦃t : SymbolTable⦄ ⦃known known' : Known⦄, t.Knows known →
    os.foldlM Known.read known = some known' → ∃ a t', c t = .ok (a, t') ∧ t'.Knows known'

namespace Resolving.Follows

variable {α β : Type} {os os' : Occurrences Variable} {c : Resolving SymbolTable α}
  {f : α → Resolving SymbolTable β} {file : String} {v : Variable}

theorem pure (a : α) : Follows [] (Pure.pure a) := by
  rintro t known _ ht ⟨⟩
  exact ⟨a, t, rfl, ht⟩

theorem bind (hc : Follows os c) (hf : ∀ a, Follows os' (f a)) : Follows (os ++ os') (c >>= f) := by
  intro t known known'' ht hos
  rw [List.foldlM_append] at hos
  obtain ⟨known', hos, hos'⟩ := Option.bind_eq_some_iff.1 hos
  obtain ⟨a, t', ha, ht'⟩ := hc ht hos
  obtain ⟨b, t'', hb, ht''⟩ := hf a ht' hos'
  exact ⟨b, t'', bind_eq_ok.2 ⟨a, t', ha, hb⟩, ht''⟩

/-- What is made of the result needs no names. -/
theorem map (hc : Follows os c) (g : α → β) :
    Follows os (c >>= fun a => Pure.pure (g a)) := by
  have h := hc.bind fun a => Follows.pure (g a)
  rwa [List.append_nil] at h

theorem inScope (hc : Follows os c) : Follows os (inScope c) := by
  intro t known known' ht hos
  obtain ⟨a, t', ha, ht'⟩ := hc ht hos
  have henter : Scoping.enter t = t := SymbolTable.enter_of_flat ht.flat
  have hleave : Scoping.leave t' = t' := SymbolTable.leave_of_flat ht'.flat
  refine ⟨a, t', ?_, ht'⟩
  rw [inScope_apply, henter, ha]
  exact congrArg (fun s => Except.ok (a, s)) hleave

/-- A name that is known is resolved. -/
theorem resolve : Follows [(.use, v)] (v.used.resolve file) := by
  intro t known known' ht hos
  rw [List.foldlM_cons, Known.read] at hos
  split at hos
  · next hknown =>
    obtain rfl := Option.some.inj hos
    rw [ht.lookup, Option.isSome_map] at hknown
    obtain ⟨w, hw⟩ := Option.isSome_iff_exists.1 hknown
    refine ⟨w, t, ?_, ht⟩
    show Except.map _ (t.resolve v.name _) = _
    rw [SymbolTable.resolve_eq_ok.2 hw]
    rfl
  · cases hos

/-- A name that is not known is declared. -/
theorem declare {m : Mention} (hname : m.name = v.name) (hconstant : m.constant = v.constant) :
    Follows [(.declaration, v)] (m.declare file) := by
  intro t known known' ht hos
  rw [List.foldlM_cons, Known.read] at hos
  split at hos
  · cases hos
  · next hknown =>
    obtain rfl := Option.some.inj hos
    rw [Option.not_isSome_iff_eq_none, ← hname] at hknown
    rw [← hname, ← hconstant]
    exact ht.declare hknown _ _ _

/-- A loop takes over a name that is known, and declares another. -/
theorem declareLoop {m : Mention} (hname : m.name = v.name) :
    Follows [(.loop, v)] (m.declareLoop file) := by
  intro t known known' ht hos
  rw [List.foldlM_cons, Known.read, ← hname, ht.lookup] at hos
  have hflat : m.declareLoop file t = _ := SymbolTable.declareLoop_of_flat ht.flat
  rw [hflat]
  cases hw : t.lookup? m.name with
  | none =>
    rw [hw] at hos
    obtain rfl := Option.some.inj hos
    exact ht.declare (by rw [ht.lookup, hw]; rfl) _ _ _
  | some w =>
    rw [hw, Option.map_some] at hos
    cases hc : w.constant with
    | true =>
      rw [hc] at hos
      cases hos
    | false =>
      rw [hc] at hos
      obtain rfl := Option.some.inj hos
      exact ⟨w, t, by simp [hc], ht⟩

/-- The variable of a loop and the phrase that it is there for. -/
theorem loop (hc : Follows os c) : Follows ([(.loop, v)] ++ os) (Resolving.inScope do
    let w ← v.used.declareLoop file
    let a ← c
    Pure.pure (w, a)) :=
  inScope (bind (declareLoop rfl) fun w => hc.map (Prod.mk w))

/-- A command with braces around it. -/
theorem braced {m : Command Mention}
    (h : Follows os (m.resolve file : Resolving SymbolTable (Command Variable))) :
    Follows os (Command.resolve file (.block ⟨[m], [], 0⟩) :
      Resolving SymbolTable (Command Variable)) := by
  have hbody : Follows (os ++ []) (Block.resolveAll file [m] :
      Resolving SymbolTable (List (Command Variable))) := h.bind fun _ => (pure []).map _
  rw [List.append_nil] at hbody
  exact (hbody.inScope.map _).map _

end Resolving.Follows

section

open Resolving.Follows

variable (file : String)

mutual

/-- The names of an expression are resolved, unless one is refused. -/
theorem Expr.follows : (e : Expr Variable) →
    Resolving.Follows e.occurrences ((e.relabel Variable.used unline).resolve file)
  | .const .. => pure _
  | .binary _ a b _ | .index a b _ => bind (Expr.follows a) fun _ => map (Expr.follows b) _
  | .unary _ a _ | .call _ a _ => map (Expr.follows a) _
  | .var _ _ => map resolve _
  | .list es _ => map (Expr.followsElements es) _
  | .map es _ => map (Expr.followsEntries es) _

/-- The names of an element are resolved, unless one is refused. -/
theorem Element.follows : (e : Element Variable) →
    Resolving.Follows e.occurrences ((e.relabel Variable.used unline).resolve file)
  | .single a | .spread a => map (Expr.follows a) _
  | .cond c a none _ => bind (Expr.follows c) fun _ => map (Element.follows a) _
  | .cond c a (some b) _ => by
    rw [Element.occurrences, List.append_assoc]
    exact bind (Expr.follows c) fun _ => bind (Element.follows a) fun _ =>
      map (Element.follows b) _
  | .each _ a e _ => by
    rw [Element.occurrences, List.append_assoc]
    exact bind (Expr.follows a) fun _ => map (loop (Element.follows e)) _

theorem Expr.followsElements : (es : List (Element Variable)) →
    Resolving.Follows (Expr.occurrencesOfElements es)
      (Expr.resolveElements file (Expr.relabelElements Variable.used unline es))
  | [] => pure _
  | e :: es => bind (Element.follows e) fun _ => map (Expr.followsElements es) _

theorem Expr.followsEntries : (es : List (Expr Variable × Expr Variable)) →
    Resolving.Follows (Expr.occurrencesOfEntries es)
      (Expr.resolveEntries file (Expr.relabelEntries Variable.used unline es))
  | [] => pure _
  | (a, b) :: es => by
    rw [Expr.occurrencesOfEntries, List.append_assoc]
    exact bind (Expr.follows a) fun _ => bind (Expr.follows b) fun _ =>
      map (Expr.followsEntries es) _

end

theorem Target.follows : (t : Target Variable) →
    Resolving.Follows t.toExpr.occurrences ((t.relabel Variable.used unline).resolve file)
  | .var _ _ => map Resolving.Follows.resolve _
  | .index a b _ => bind (Expr.follows file a) fun _ => map (Expr.follows file b) _

end

/-! ### Declarations -/

section

variable {body : List (Command Variable)} {constant : Bool} {nullability : Nullability}

theorem Block.number_declarators (number : Nat) (vs : List Variable) :
    (Block.declarators body constant nullability number vs).map (fun d => d.1.number) =
      List.range' number vs.length := by
  induction vs generalizing number with
  | nil => rfl
  | cons v vs ih => rw [Block.declarators, List.map_cons, ih, List.length_cons, List.range'_succ]

/-- The names of a declaration are declared, and its values resolved, unless a name is refused. -/
theorem Block.follows_declarators (file : String) {number : Nat} {vs : List Variable}
    (hvs : ∀ v ∈ vs, constant = v.constant) :
    Resolving.Follows (vs.flatMap (Variable.asWritten body))
      (Declarator.resolveAll file (Block.declarators body constant nullability number vs)) := by
  induction vs generalizing number with
  | nil => exact .pure _
  | cons v vs ih =>
    obtain ⟨hv, hvs⟩ := List.forall_mem_cons.1 hvs
    refine .bind ?_ fun d => .map (ih hvs) _
    rw [Variable.asWritten]
    cases body.findSome? (Command.initialValue? v) with
    | none => exact .map (.declare rfl hv) _
    | some value => exact .bind (.declare rfl hv) fun w => .map (value.follows file) _

end

section

open Resolving.Follows

variable (file : String)

mutual

/-- What a command mentions is resolved, unless a name is refused. -/
theorem Command.follows : (c : Command Variable) → c.Everywhere Command.InOrder →
    Resolving.Follows c.asWritten (c.mentions.resolve file)
  | .block ⟨body, [], _⟩, h =>
    map (map (inScope (Block.followsAll body h.2)) _) _
  | .block ⟨body, v :: vs, line⟩, h => by
    have halike := (h.1 (List.cons_ne_nil v vs)).alike v List.mem_cons_self
    have hne : Block.declarators body v.constant v.nullability 0 (v :: vs) ≠ [] :=
      List.cons_ne_nil _ _
    have hnumbers : ((Block.declarators body v.constant v.nullability 0 (v :: vs)).map
        fun d => d.1.number).Nodup := by
      rw [Block.number_declarators]
      exact List.nodup_range'
    refine map (?_ : Resolving.Follows _ (Block.resolve file (.ofDeclarators _ 0))) _
    rw [Block.resolve_ofDeclarators file hne hnumbers]
    exact map (Block.follows_declarators file fun w hw => (halike w hw).1) _
  | .assign none a _, _ | .print (some a) _, _ | .assert a none _, _ =>
    map (Expr.follows file a) _
  | .assign (some t) a _, _ =>
    bind (Target.follows file t) fun _ => map (Expr.follows file a) _
  | .print none _, _ => pure _
  | .assert a (some b) _, _ =>
    bind (Expr.follows file a) fun _ => map (Expr.follows file b) _
  | .cond a b none _, h | .whileDo a b _, h =>
    bind (Expr.follows file a) fun _ => map (Command.follows b h.2) _
  | .cond a b (some c) _, h => by
    have hb := Command.follows b h.2.1
    rw [Command.mentions]
    refine bind (Expr.follows file a) fun _ => bind ?_ fun _ =>
      map (Command.follows c h.2.2) _
    split
    · exact hb.braced
    · exact hb
  | .doWhile b a _, h =>
    bind (Command.follows b h.2) fun _ => map (Expr.follows file a) _
  | .each v a b _, h =>
    bind (Expr.follows file a) fun _ => map (loop (Command.follows b h.2)) _

/-- What commands mention is resolved, unless a name is refused. -/
theorem Block.followsAll : (cs : List (Command Variable)) →
    Block.Everywhere Command.InOrder cs →
    Resolving.Follows (Block.asWrittenAll cs) (Block.resolveAll file (Block.mentionsAll cs))
  | [], _ => pure _
  | c :: cs, h => bind (Command.follows c h.1) fun _ => map (Block.followsAll cs h.2) _

end

end

/-! ### What is mentioned -/

theorem Expr.relabel_used (e : Expr Variable) :
    (e.relabel Variable.used unline).relabel Mention.name id = e.relabel Variable.name unline :=
  Expr.relabel_relabel _ _ _ _ e

theorem Target.relabel_used (t : Target Variable) :
    (t.relabel Variable.used unline).relabel Mention.name id = t.relabel Variable.name unline :=
  Target.relabel_relabel _ _ _ _ t

/-- The names of a declaration are mentioned with their own values. -/
theorem Declared.relabel_mentions {ds : List Declared} (h : ∀ d ∈ ds, d.IsOwn) (constant : Bool)
    (nullability : Nullability) (number : Nat) :
    (mentions constant nullability number ds).map
        (fun d => (d.1.name, d.assignment?.map (Command.relabel Mention.name id))) =
      ds.map fun d => (d.1.name, d.2.map (Command.relabel Variable.name unline)) := by
  induction ds generalizing number with
  | nil => rfl
  | cons d ds ih =>
    obtain ⟨hd, hds⟩ := List.forall_mem_cons.1 h
    rw [mentions, List.map_cons, List.map_cons, ih hds]
    congr 1
    obtain ⟨v, _ | c⟩ := d
    · rfl
    · obtain ⟨value, line, line', hc⟩ := hd c rfl
      obtain rfl : c = .assign (some (.var v line)) value line' := hc
      have hvalue : value? (v, some (.assign (some (.var v line)) value line')) = some value := by
        simp [value?, Command.initialValue?]
      simp only [hvalue, Declarator.assignment?, Option.map_some, Command.relabel, Target.relabel,
        Expr.relabel_used]
      rfl

/-- A declaration mentions itself. -/
theorem Command.relabel_mentions_declaration {ds : List Declared} {constant : Bool}
    {nullability : Nullability} {line : Nat} (hne : ds ≠ [])
    (hds : ∀ d ∈ ds, Declared.IsOwn d ∧ d.1.constant = constant ∧ d.1.nullability = nullability)
    (hdistinct : Command.Distinct (.block ⟨ds.filterMap Prod.snd, ds.map Prod.fst, line⟩)) :
    (Command.mentions (.block ⟨ds.filterMap Prod.snd, ds.map Prod.fst, line⟩)).relabel
        Mention.name id =
      (Command.block ⟨ds.filterMap Prod.snd, ds.map Prod.fst, line⟩).relabel Variable.name
        unline := by
  have hnames :=
    Declared.relabel_mentions (fun d hd => (hds d hd).1) constant nullability 0
  rw [Command.mentions_declaration hne hds hdistinct, Command.relabel, Command.relabel,
    Block.ofDeclarators_eq, Block.relabel_declaration, Block.relabel_declaration, List.map_map]
  simp only [Function.comp_def, hnames]
  rfl

mutual

/-- What a command mentions is the command with its braces. -/
theorem Command.relabel_mentions : (c : Command Variable) → c.Distinct →
    c.Everywhere Command.InOrder →
    c.mentions.relabel Mention.name id = c.guarded.relabel Variable.name unline
  | .block ⟨body, [], _⟩, hd, h => by
    rw [Command.mentions, Command.guarded, Command.relabel, Command.relabel, Block.relabel,
      Block.relabel, Block.relabelAll_mentionsAll body hd.2 h.2]
    rfl
  | .block ⟨body, v :: vs, line⟩, hd, h => by
    obtain ⟨halike, vs', hsub, hassigned⟩ := h.1 (List.cons_ne_nil v vs)
    have hfirst : ∀ w ∈ v :: vs, w.constant = v.constant ∧ w.nullability = v.nullability :=
      fun w hw => halike w hw v List.mem_cons_self
    obtain ⟨ds, rfl, hvs, hown⟩ := Block.exists_declared hsub hassigned
    have hvs : v :: vs = ds.map Prod.fst := hvs
    have hkeeps : Block.guardedAll (ds.filterMap Prod.snd) = ds.filterMap Prod.snd :=
      Block.guardedAll_of_keepsElse _ (Block.everywhere_of_isOwn hown fun _ _ _ => trivial)
    have hne : ds ≠ [] := by
      rintro rfl
      cases hvs
    rw [Command.guarded, hkeeps]
    rw [hvs] at hd hfirst ⊢
    exact Command.relabel_mentions_declaration hne
      (fun d hd => ⟨hown d hd, hfirst d.1 (List.mem_map_of_mem hd)⟩) hd
  | .assign none a _, _, _ | .print (some a) _, _, _ | .assert a none _, _, _ => by
    simp only [Command.mentions, Command.guarded, Command.relabel, Expr.relabel_used]
    rfl
  | .assign (some t) a _, _, _ => by
    simp only [Command.mentions, Command.guarded, Command.relabel, Expr.relabel_used,
      Target.relabel_used]
    rfl
  | .print none _, _, _ => rfl
  | .assert a (some b) _, _, _ => by
    simp only [Command.mentions, Command.guarded, Command.relabel, Expr.relabel_used]
    rfl
  | .cond a b none _, hd, h | .whileDo a b _, hd, h | .doWhile b a _, hd, h
  | .each v a b _, hd, h => by
    simp only [Command.mentions, Command.guarded, Command.relabel, Expr.relabel_used,
      Command.relabel_mentions b hd h.2]
    rfl
  | .cond a b (some c) _, hd, h => by
    have hb := Command.relabel_mentions b hd.1 h.2.1
    simp only [Command.mentions, Command.guarded, Command.relabel, Expr.relabel_used,
      Command.relabel_mentions c hd.2 h.2.2]
    cases b.hasDanglingIf with
    | false =>
      simp only [Bool.false_eq_true, if_false, hb]
      rfl
    | true =>
      simp only [if_true, Command.relabel, Block.relabel, Block.relabelAll, hb]
      rfl

/-- What commands mention is the commands with their braces. -/
theorem Block.relabelAll_mentionsAll : (cs : List (Command Variable)) →
    Block.DistinctAll cs → Block.Everywhere Command.InOrder cs →
    Block.relabelAll Mention.name id (Block.mentionsAll cs) =
      Block.relabelAll Variable.name unline (Block.guardedAll cs)
  | [], _, _ => rfl
  | c :: cs, hd, h =>
    congrArg₂ List.cons (Command.relabel_mentions c hd.1 h.1)
      (Block.relabelAll_mentionsAll cs hd.2 h.2)

end

/-! ### What is declared -/

section

variable {ν : Type}

mutual

/-- What the declarations in a command declare. -/
def Command.declared : Command ν → List ν
  | .block ⟨body, [], _⟩ => Block.declaredAll body
  | .block ⟨_, v :: vs, _⟩ => v :: vs
  | .cond _ b none _ | .whileDo _ b _ | .doWhile b _ _ | .each _ _ b _ => b.declared
  | .cond _ b (some c) _ => b.declared ++ c.declared
  | .assign .. | .print .. | .assert .. => []

/-- What the declarations in commands declare. -/
def Block.declaredAll : List (Command ν) → List ν
  | [] => []
  | c :: cs => c.declared ++ Block.declaredAll cs

end

end

/-- What a declaration says of a variable. -/
def Variable.said (v : Variable) : String × Bool × Nullability :=
  (v.name, v.constant, v.nullability)

/-- What a declaration says of a variable. -/
def Mention.said (m : Mention) : String × Bool × Nullability :=
  (m.name, m.constant, m.nullability)

theorem Block.said_declarators {body : List (Command Variable)} {constant : Bool}
    {nullability : Nullability} {number : Nat} {vs : List Variable}
    (h : ∀ v ∈ vs, constant = v.constant ∧ nullability = v.nullability) :
    (Block.declarators body constant nullability number vs).map (fun d => d.1.said) =
      vs.map Variable.said := by
  induction vs generalizing number with
  | nil => rfl
  | cons v vs ih =>
    obtain ⟨⟨rfl, rfl⟩, hvs⟩ := List.forall_mem_cons.1 h
    exact congrArg _ (ih hvs)

mutual

/-- What is mentioned of a declaration is what it says. -/
theorem Command.said_mentions : (c : Command Variable) → c.Everywhere Command.InOrder →
    c.mentions.declared.map Mention.said = c.declared.map Variable.said
  | .block ⟨body, [], _⟩, h => Block.said_mentionsAll body h.2
  | .block ⟨body, v :: vs, line⟩, h => by
    have halike := (h.1 (List.cons_ne_nil v vs)).alike v List.mem_cons_self
    have hdeclared : (Command.mentions (.block ⟨body, v :: vs, line⟩)).declared =
        (Block.declarators body v.constant v.nullability 0 (v :: vs)).map Prod.fst := rfl
    rw [hdeclared, List.map_map]
    exact Block.said_declarators halike
  | .assign none _ _, _ | .assign (some _) _ _, _ | .print none _, _ | .print (some _) _, _
  | .assert _ none _, _ | .assert _ (some _) _, _ => rfl
  | .cond _ b none _, h | .whileDo _ b _, h | .doWhile b _ _, h | .each _ _ b _, h =>
    Command.said_mentions b h.2
  | .cond _ b (some c) _, h => by
    have hb := Command.said_mentions b h.2.1
    have hc := Command.said_mentions c h.2.2
    rw [Command.mentions, Command.declared, Command.declared, List.map_append, List.map_append, hc]
    split
    · simp [Command.declared, Block.declaredAll, hb]
    · rw [hb]

theorem Block.said_mentionsAll : (cs : List (Command Variable)) →
    Block.Everywhere Command.InOrder cs →
    (Block.declaredAll (Block.mentionsAll cs)).map Mention.said =
      (Block.declaredAll cs).map Variable.said
  | [], _ => rfl
  | c :: cs, h => by
    rw [Block.mentionsAll, Block.declaredAll, Block.declaredAll, List.map_append, List.map_append,
      Command.said_mentions c h.1, Block.said_mentionsAll cs h.2]

end

/-! ### Programs -/

variable {b : Block Variable}

/-- A tree that can be written down, and whose names can be read, is printed as a text that is
nested too deep, or is read as that tree: each first body of a conditional that would take its
`else` is in braces then, lines may be others, and variables are others of the same names, which
are declared in the same way. -/
theorem parseText_render_guarded (hb : b.WellFormed)
    (hnames : (Block.asWrittenAll b.body).Readable) (file : String) :
    (maxDepth < Block.depthOfAll b.body ∧ ∃ position q,
      parseText b.render file .flat = (.error ⟨.tooDeep maxDepth, position⟩, q)) ∨
    Block.depthOfAll b.body ≤ maxDepth ∧ ∃ b' q, parseText b.render file .flat = (.ok b', q) ∧
      b'.relabel Variable.name unline = b.guarded.relabel Variable.name unline ∧
      (Block.declaredAll b'.body).map Variable.said =
        (Block.declaredAll b.body).map Variable.said := by
  obtain ⟨xs, hs, hxs⟩ := Block.exists_sentence hb.spellable hb.shaped
  have hunlined : Block.relabelAll Mention.unlined unline (Block.mentionsAll b.body) =
      Block.mentionsAll b.body := by
    rw [← hxs, Block.relabelAll_relabelAll]
    rfl
  -- Resolving what the text mentions does not fail, and lines make no difference to that.
  obtain ⟨known, hknown⟩ := Option.isSome_iff_exists.1 hnames
  obtain ⟨body, t, hr, -⟩ := Block.followsAll file b.body hb.inOrder .empty hknown
  obtain ⟨body', t', hr', -, -⟩ := Block.resolveAll_of_unlined hr rfl (hxs.trans hunlined.symm) file
  rw [parseText_eq_read]
  rcases read_of_sentence hs file (SymbolTable.empty .flat)
    with hdeep | ⟨d, q, hd, -⟩ | ⟨hdepth, body'', t'', q, hr'', hq, -⟩
  · exact .inl hdeep
  · rw [hr'] at hd
    cases hd
  · obtain ⟨hb', hkeeps⟩ := hs.wellFormed hr''
    obtain ⟨r, hderives, -⟩ := hs
    have hmentions : Block.mentionsAll body'' = Block.mentionsAll b.body :=
      (hderives.echoes hr'' hb'.distinct).trans hxs
    have hbody : Block.relabelAll Variable.name unline body'' =
        Block.relabelAll Variable.name unline (Block.guardedAll b.body) := by
      rw [← Block.relabelAll_mentionsAll b.body hb.distinct hb.inOrder, ← hmentions,
        Block.relabelAll_mentionsAll body'' hb'.distinct hb'.inOrder,
        Block.guardedAll_of_keepsElse body'' hkeeps]
    refine .inr ⟨hdepth, _, q, hq, ?_, ?_⟩
    · simp only [Block.ofCode, Block.guarded, Block.relabel, hbody, hb.declares]
      rfl
    · rw [← Block.said_mentionsAll b.body hb.inOrder, ← hmentions]
      exact (Block.said_mentionsAll body'' hb'.inOrder).symm

/-- A tree that is read from no text: the first body of a conditional with an `else` ends, in two
loops, in a conditional without one, and so does that of the conditional behind the `else`. -/
def forked : Block Variable :=
  let a : Variable := ⟨"a", 1, true, .safe, 0⟩
  let b : Variable := ⟨"b", 1, true, .safe, 1⟩
  let c : Variable := ⟨"c", 1, false, .nullable, 2⟩
  ⟨[.block ⟨[.assign (some (.var b 1)) (.list [.each c (.var a 1) (.single (.var c 1)) 1] 1) 1],
      [a, b], 1⟩,
    .cond (.var a 1)
      (.whileDo (.var b 1) (.each c (.var b 1) (.cond (.var c 1) (.print none 1) none 1) 1) 1)
      (some (.cond (.var a 1) (.cond (.var b 1) (.block ⟨[], [], 1⟩) none 1)
        (some (.print (some (.var c 1)) 1)) 1)) 1], [], 1⟩

theorem wellFormed_forked : forked.WellFormed where
  declares := rfl
  shaped := by
    simp [forked, Block.ShapedAll, Command.Shaped, Expr.Shaped, Expr.ShapedElements,
      Element.Shaped, Target.toExpr]
  spellable := by
    have ha : isName "a" = true := by decide
    have hb : isName "b" = true := by decide
    have hc : isName "c" = true := by decide
    simp [forked, Block.SpellableAll, Command.Spellable, Expr.Spellable, Expr.SpellableElements,
      Element.Spellable, Target.toExpr, ha, hb, hc]
  distinct := by simp [forked, Block.DistinctAll, Command.Distinct]
  inOrder := by
    refine ⟨⟨fun _ => ⟨by simp, [_], ?_, rfl⟩, trivial, trivial⟩, ?_⟩
    · exact List.Sublist.cons _ (List.Sublist.refl _)
    · simp [Block.Everywhere, Command.Everywhere, Command.InOrder]

/-- It is read again with braces around both bodies. -/
theorem parseText_render_guarded_forked :
    ∃ b' q, parseText forked.render "p" .flat = (.ok b', q) ∧
      b'.relabel Variable.name unline = forked.guarded.relabel Variable.name unline ∧
      (Block.declaredAll b'.body).map Variable.said =
        (Block.declaredAll forked.body).map Variable.said := by
  have hnames : (Block.asWrittenAll forked.body).Readable := by
    unfold Occurrences.Readable
    decide +kernel
  have hdepth : ¬ maxDepth < Block.depthOfAll forked.body := by decide +kernel
  rcases parseText_render_guarded wellFormed_forked hnames "p" with ⟨hdeep, -⟩ | ⟨-, h⟩
  · exact absurd hdeep hdepth
  · exact h

end Scriptlet
