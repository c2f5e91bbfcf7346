import Scriptlet.Proofs.Derivation

/-!
# Resolving phrases

The names of a phrase are resolved by walking its tree, whatever its category. This is
in step with how the phrase is built up: the parts that stand first in the text are
resolved first.

## What is proved

* `Expr.resolve_operated`, `Expr.resolve_subscripted` — operands and subscripts are
  resolved from the left.
* `Derives.resolve_ofDeclarators` — a declaration is resolved name by name.
* `Command.resolve_each_eq_ok`, `Derives.resolve_declaration_eq_ok` and their like — what
  resolving a phrase gives comes from what resolving its parts gives, one after the other.
* `Expr.target?_resolve`, `Expr.resolve_of_target?` — what can be assigned to does not
  depend on what names mean.
-/

namespace Scriptlet

variable {σ ν α β : Type}

namespace Resolving

theorem pure_apply (a : α) (s : σ) : (pure a : Resolving σ α) s = .ok (a, s) := rfl

/-- A computation that succeeds hands its result and its table on. -/
theorem bind_ok {c : Resolving σ α} {f : α → Resolving σ β} {s s' : σ} {a : α}
    (h : c s = .ok (a, s')) : (c >>= f) s = f a s' := by
  simp only [bind, StateT.bind, h, Except.bind]

/-- A computation that fails ends what it is part of. -/
theorem bind_error {c : Resolving σ α} {f : α → Resolving σ β} {s : σ} {d : Diagnostic}
    (h : c s = .error d) : (c >>= f) s = .error d := by
  simp only [bind, StateT.bind, h, Except.bind]

/-- What a computation gives in the end comes from what its first part gives. -/
theorem bind_eq_ok {c : Resolving σ α} {f : α → Resolving σ β} {s : σ} {r : β × σ} :
    (c >>= f) s = .ok r ↔ ∃ a s', c s = .ok (a, s') ∧ f a s' = .ok r := by
  constructor
  · intro h
    cases hc : c s with
    | ok a => exact ⟨a.1, a.2, rfl, by rwa [bind_ok hc] at h⟩
    | error d => simp [bind_error hc] at h
  · rintro ⟨a, s', hc, h⟩
    rwa [bind_ok hc]

theorem pure_eq_ok {a : α} {s : σ} {r : α × σ} :
    (pure a : Resolving σ α) s = .ok r ↔ r = (a, s) := by
  rw [pure_apply, Except.ok.injEq, eq_comm]

/-- What is put together from one part comes from that part. -/
theorem bind_pure_eq_ok {c : Resolving σ α} {f : α → β} {b : β} {s s' : σ} :
    (do
      let a ← c
      pure (f a)) s = .ok (b, s') ↔ ∃ a, c s = .ok (a, s') ∧ b = f a := by
  constructor
  · intro h
    obtain ⟨a, s₁, ha, h⟩ := bind_eq_ok.1 h
    obtain ⟨rfl, rfl⟩ := Prod.mk.inj (pure_eq_ok.1 h)
    exact ⟨a, ha, rfl⟩
  · rintro ⟨a, ha, rfl⟩
    exact bind_eq_ok.2 ⟨a, s', ha, rfl⟩

/-- What is put together from two parts comes from the first, and then from the second. -/
theorem bind_bind_pure_eq_ok {γ : Type} {c : Resolving σ α} {d : Resolving σ β} {f : α → β → γ}
    {r : γ} {s s' : σ} :
    (do
      let a ← c
      let b ← d
      pure (f a b)) s = .ok (r, s') ↔
    ∃ a s₁ b, c s = .ok (a, s₁) ∧ d s₁ = .ok (b, s') ∧ r = f a b := by
  constructor
  · intro h
    obtain ⟨a, s₁, ha, h⟩ := bind_eq_ok.1 h
    obtain ⟨b, hb, rfl⟩ := bind_pure_eq_ok.1 h
    exact ⟨a, s₁, b, ha, hb, rfl⟩
  · rintro ⟨a, s₁, b, ha, hb, rfl⟩
    exact bind_eq_ok.2 ⟨a, s₁, ha, bind_pure_eq_ok.2 ⟨b, hb, rfl⟩⟩

theorem map_apply (f : α → β) (c : Resolving σ α) (s : σ) :
    (f <$> c) s = (c s).map fun (a, s') => (f a, s') := by
  rw [map_eq_pure_bind]
  cases h : c s with
  | ok r =>
    rw [bind_ok h]
    rfl
  | error d =>
    rw [bind_error h]
    rfl

theorem inScope_apply [Scoping σ ν] (c : Resolving σ α) (s : σ) :
    inScope c s = (c (Scoping.enter s)).map fun (a, s) => (a, Scoping.leave s) := by
  unfold inScope
  have henter : (modify Scoping.enter : Resolving σ Unit) s = .ok ((), Scoping.enter s) := rfl
  rw [bind_ok henter]
  cases h : c (Scoping.enter s) with
  | ok r =>
    rw [bind_ok h]
    rfl
  | error d =>
    rw [bind_error h]
    rfl

theorem inScope_ok [Scoping σ ν] {c : Resolving σ α} {s s' : σ} {a : α}
    (h : c (Scoping.enter s) = .ok (a, s')) : inScope c s = .ok (a, Scoping.leave s') := by
  rw [inScope_apply, h]
  rfl

theorem inScope_eq_ok [Scoping σ ν] {c : Resolving σ α} {s : σ} {r : α × σ} :
    inScope c s = .ok r ↔
      ∃ a s', c (Scoping.enter s) = .ok (a, s') ∧ r = (a, Scoping.leave s') := by
  rw [inScope_apply]
  cases h : c (Scoping.enter s) with
  | ok x =>
    constructor
    · intro hr
      exact ⟨x.1, x.2, rfl, (Except.ok.inj hr).symm⟩
    · rintro ⟨a, s', ha, rfl⟩
      cases ha
      rfl
  | error d => simp [Except.map]

theorem inScope_map [Scoping σ ν] (f : α → β) (c : Resolving σ α) :
    inScope (f <$> c) = f <$> inScope c := by
  simp [inScope]

/-- What a loop over a name gives comes from its variable and its body. -/
theorem inScope_declareLoop_eq_ok [Scoping σ ν] {file : String} {m : Mention}
    {c : Resolving σ α} {v : ν} {a : α} {s s' : σ} :
    inScope (do
      let v ← m.declareLoop file
      let a ← c
      pure (v, a)) s = .ok ((v, a), s') ↔
    ∃ s₁ s₂, m.declareLoop file (Scoping.enter s) = .ok (v, s₁) ∧ c s₁ = .ok (a, s₂) ∧
      s' = Scoping.leave s₂ := by
  constructor
  · intro h
    obtain ⟨x, s₂, hx, h⟩ := inScope_eq_ok.1 h
    obtain ⟨v', s₁, a', hv, ha, rfl⟩ := bind_bind_pure_eq_ok.1 hx
    cases h
    exact ⟨s₁, s₂, hv, ha, rfl⟩
  · rintro ⟨s₁, s₂, hv, ha, rfl⟩
    exact inScope_ok (bind_eq_ok.2 ⟨v, s₁, hv, bind_eq_ok.2 ⟨a, s₂, ha, rfl⟩⟩)

/-- A loop over a name comes from what it loops over, and then from its variable and its body. -/
theorem loop_eq_ok [Scoping σ ν] {γ : Type} {file : String} {m : Mention} {c : Resolving σ α}
    {d : Resolving σ β} {f : ν → α → β → γ} {x : γ} {s s' : σ} :
    (do
      let a ← c
      let (v, b) ← inScope (do
        let v ← m.declareLoop file
        let b ← d
        pure (v, b))
      pure (f v a b)) s = .ok (x, s') ↔
    ∃ a s₁ v s₂ b s₃, c s = .ok (a, s₁) ∧ m.declareLoop file (Scoping.enter s₁) = .ok (v, s₂) ∧
      d s₂ = .ok (b, s₃) ∧ s' = Scoping.leave s₃ ∧ x = f v a b := by
  constructor
  · intro h
    obtain ⟨a, s₁, ha, h⟩ := bind_eq_ok.1 h
    obtain ⟨⟨v, b⟩, hscope, rfl⟩ := bind_pure_eq_ok.1 h
    obtain ⟨s₂, s₃, hv, hb, rfl⟩ := inScope_declareLoop_eq_ok.1 hscope
    exact ⟨a, s₁, v, s₂, b, s₃, ha, hv, hb, rfl, rfl⟩
  · rintro ⟨a, s₁, v, s₂, b, s₃, ha, hv, hb, rfl, rfl⟩
    have hscope := inScope_declareLoop_eq_ok.2 ⟨s₂, s₃, hv, hb, rfl⟩
    exact bind_eq_ok.2 ⟨a, s₁, ha, bind_eq_ok.2 ⟨(v, b), _, hscope, rfl⟩⟩

end Resolving

/-! ### Phrases -/

/-- What the phrases of a category stand for once names are resolved. -/
@[reducible] def Category.Resolved (ν : Type) : Category → Type
  | expr _ => Expr ν
  | operations _ => List (BinaryOp × Expr ν × Nat)
  | subscripts => List (Expr ν × Nat)
  | element => Element ν
  | elements => List (Element ν)
  | entries => List (Expr ν × Expr ν)
  | declarator _ _ _ => ν × Option (Command ν)
  | declarators _ _ _ => List (ν × Option (Command ν))
  | command | body => Command ν
  | code => List (Command ν)

section

variable [Scoping σ ν] (file : String)

/-- Resolves the names of operations. -/
def Expr.resolveOperations :
    List (BinaryOp × Expr Mention × Nat) → Resolving σ (List (BinaryOp × Expr ν × Nat))
  | [] => pure []
  | (op, e, line) :: rest => do
    let e ← e.resolve file
    let rest ← Expr.resolveOperations rest
    pure ((op, e, line) :: rest)

/-- Resolves the names of subscripts. -/
def Expr.resolveSubscripts : List (Expr Mention × Nat) → Resolving σ (List (Expr ν × Nat))
  | [] => pure []
  | (e, line) :: rest => do
    let e ← e.resolve file
    let rest ← Expr.resolveSubscripts rest
    pure ((e, line) :: rest)

/-- Resolves the names of an entry of a map. -/
def Expr.resolveEntry (entry : Expr Mention × Expr Mention) :
    Resolving σ (Expr ν × Expr ν) := do
  let key ← entry.1.resolve file
  let value ← entry.2.resolve file
  pure (key, value)

theorem Expr.resolveEntries_cons (entry : Expr Mention × Expr Mention)
    (entries : List (Expr Mention × Expr Mention)) :
    (Expr.resolveEntries file (entry :: entries) : Resolving σ (List (Expr ν × Expr ν))) = (do
      let e ← Expr.resolveEntry file entry
      let es ← Expr.resolveEntries file entries
      pure (e :: es)) := by
  simp [Expr.resolveEntries, Expr.resolveEntry]

/-- Resolves the names of a phrase. -/
def Category.resolve : (N : Category) → N.Tree → Resolving σ (N.Resolved ν)
  | expr _, e => e.resolve file
  | operations _, ops => Expr.resolveOperations file ops
  | subscripts, subs => Expr.resolveSubscripts file subs
  | element, e => e.resolve file
  | elements, es => Expr.resolveElements file es
  | entries, es => Expr.resolveEntries file es
  | declarator _ _ _, d => d.resolve file
  | declarators _ _ _, ds => Declarator.resolveAll file ds
  | command, c | body, c => c.resolve file
  | code, cs => Block.resolveAll file cs

/-! ### Operators and subscripts -/

/-- An expression is resolved before the operations on it. -/
theorem Expr.resolve_operated (ops : List (BinaryOp × Expr Mention × Nat)) (e : Expr Mention) :
    ((e.operated ops).resolve file : Resolving σ (Expr ν)) = (do
      let e ← e.resolve file
      let ops ← Expr.resolveOperations file ops
      pure (e.operated ops)) := by
  induction ops generalizing e with
  | nil => simp [Expr.resolveOperations]
  | cons o ops ih =>
    obtain ⟨op, right, line⟩ := o
    rw [Expr.operated_cons, ih]
    simp [Expr.resolve, Expr.resolveOperations]

/-- An expression is resolved before the subscripts on it. -/
theorem Expr.resolve_subscripted (subs : List (Expr Mention × Nat)) (e : Expr Mention) :
    ((e.subscripted subs).resolve file : Resolving σ (Expr ν)) = (do
      let e ← e.resolve file
      let subs ← Expr.resolveSubscripts file subs
      pure (e.subscripted subs)) := by
  induction subs generalizing e with
  | nil => simp [Expr.resolveSubscripts]
  | cons o subs ih =>
    obtain ⟨subscript, line⟩ := o
    rw [Expr.subscripted_cons, ih]
    simp [Expr.resolve, Expr.resolveSubscripts]

variable {file}

theorem Expr.resolve_operated_eq_ok {ops : List (BinaryOp × Expr Mention × Nat)}
    {e : Expr Mention} {t : Expr ν} {s s' : σ} :
    (e.operated ops).resolve file s = .ok (t, s') ↔
      ∃ e' s₁ ops', e.resolve file s = .ok (e', s₁) ∧
        Expr.resolveOperations file ops s₁ = .ok (ops', s') ∧ t = e'.operated ops' := by
  rw [Expr.resolve_operated, Resolving.bind_bind_pure_eq_ok]

/-- A place comes from its variable, and then from its subscripts. -/
theorem Expr.resolve_place_eq_ok {subs : List (Expr Mention × Nat)} {m : Mention} {line : Nat}
    {t : Expr ν} {s s' : σ} :
    ((Expr.var m line).subscripted subs).resolve file s = .ok (t, s') ↔
      ∃ v s₁ subs', m.resolve file s = .ok (v, s₁) ∧
        Expr.resolveSubscripts file subs s₁ = .ok (subs', s') ∧
        t = (Expr.var v line).subscripted subs' := by
  rw [Expr.resolve_subscripted, Resolving.bind_bind_pure_eq_ok]
  constructor
  · rintro ⟨e, s₁, subs', he, hsubs, rfl⟩
    obtain ⟨v, hv, rfl⟩ := Resolving.bind_pure_eq_ok.1 he
    exact ⟨v, s₁, subs', hv, hsubs, rfl⟩
  · rintro ⟨v, s₁, subs', hv, hsubs, rfl⟩
    exact ⟨_, s₁, subs', Resolving.bind_pure_eq_ok.2 ⟨v, hv, rfl⟩, hsubs, rfl⟩

/-! ### Loops and braces -/

theorem Command.resolve_each_eq_ok {m : Mention} {iterable : Expr Mention} {body : Command Mention}
    {line : Nat} {c : Command ν} {s s' : σ} :
    (Command.each m iterable body line).resolve file s = .ok (c, s') ↔
      ∃ iterable' s₁ v s₂ body' s₃, iterable.resolve file s = .ok (iterable', s₁) ∧
        m.declareLoop file (Scoping.enter s₁) = .ok (v, s₂) ∧
        body.resolve file s₂ = .ok (body', s₃) ∧ s' = Scoping.leave s₃ ∧
        c = .each v iterable' body' line :=
  Resolving.loop_eq_ok (f := fun v iterable body => Command.each v iterable body line)

theorem Element.resolve_each_eq_ok {m : Mention} {iterable : Expr Mention}
    {element : Element Mention} {line : Nat} {e : Element ν} {s s' : σ} :
    (Element.each m iterable element line).resolve file s = .ok (e, s') ↔
      ∃ iterable' s₁ v s₂ element' s₃, iterable.resolve file s = .ok (iterable', s₁) ∧
        m.declareLoop file (Scoping.enter s₁) = .ok (v, s₂) ∧
        element.resolve file s₂ = .ok (element', s₃) ∧ s' = Scoping.leave s₃ ∧
        e = .each v iterable' element' line :=
  Resolving.loop_eq_ok (f := fun v iterable element => Element.each v iterable element line)

/-- Commands in braces come from a scope of their own. -/
theorem Command.resolve_braces_eq_ok {body : List (Command Mention)} {line : Nat} {c : Command ν}
    {s s' : σ} :
    (Command.block ⟨body, [], line⟩).resolve file s = .ok (c, s') ↔
      ∃ body' s₁, Block.resolveAll file body (Scoping.enter s) = .ok (body', s₁) ∧
        s' = Scoping.leave s₁ ∧ c = .block ⟨body', [], line⟩ := by
  constructor
  · intro h
    obtain ⟨b, hb, rfl⟩ := Resolving.bind_pure_eq_ok.1 h
    obtain ⟨body', hscope, rfl⟩ := Resolving.bind_pure_eq_ok.1 hb
    obtain ⟨_, s₁, hbody, h⟩ := Resolving.inScope_eq_ok.1 hscope
    obtain ⟨rfl, rfl⟩ := Prod.mk.inj h
    exact ⟨body', s₁, hbody, rfl, rfl⟩
  · rintro ⟨body', s₁, hbody, rfl, rfl⟩
    refine Resolving.bind_pure_eq_ok.2 ⟨⟨body', [], line⟩, ?_, rfl⟩
    exact Resolving.bind_pure_eq_ok.2 ⟨body', Resolving.inScope_ok hbody, rfl⟩

variable (file)

/-! ### Declarations -/

/-- The names of a declaration are numbered in order, and there is at least one. -/
def Category.Numbered : (N : Category) → N.Tree → Prop
  | declarator _ _ number, d => d.1.number = number
  | declarators _ _ number, ds =>
    ds.map (fun d => d.1.number) = List.range' number ds.length ∧ ds ≠ []
  | _, _ => True

theorem Derives.numbered {N k i x r} (h : Derives N k i x r) : N.Numbered x := by
  induction h with
  | lastDeclarator h ih =>
    simp only [Category.Numbered] at ih ⊢
    simp [ih]
  | declarators h comma rest ih ih' =>
    simp only [Category.Numbered] at ih ih' ⊢
    simp [ih, ih'.1, List.range'_succ]
  | declarator | initialized => rfl
  | _ => trivial

theorem Block.resolve_ofDeclarators {ds : List Declarator} (hne : ds ≠ [])
    (hd : (ds.map fun d => d.1.number).Nodup) (line : Nat) :
    ((Block.ofDeclarators ds line).resolve file : Resolving σ (Block ν)) = (do
      let declarators ← Declarator.resolveAll file ds
      pure ⟨declarators.filterMap Prod.snd, declarators.map Prod.fst, line⟩) := by
  rw [← Block.resolveDeclaration_ofDeclarators file hd]
  cases ds with
  | nil => exact absurd rfl hne
  | cons d ds => rfl

/-- A declaration is resolved name by name. -/
theorem Derives.resolve_ofDeclarators {constant nullability k i ds r}
    (h : Derives (.declarators constant nullability 0) k i ds r) (line : Nat) :
    ((Block.ofDeclarators ds line).resolve file : Resolving σ (Block ν)) = (do
      let declarators ← Declarator.resolveAll file ds
      pure ⟨declarators.filterMap Prod.snd, declarators.map Prod.fst, line⟩) := by
  obtain ⟨hn, hne⟩ := h.numbered
  refine Block.resolve_ofDeclarators file hne ?_ line
  rw [hn]
  exact List.nodup_range'

variable {file} in
/-- A declaration comes from its names, with their initial values. -/
theorem Derives.resolve_declaration_eq_ok {constant nullability k i ds r}
    (h : Derives (.declarators constant nullability 0) k i ds r) {line : Nat} {c : Command ν}
    {s s' : σ} :
    (Command.block (.ofDeclarators ds line)).resolve file s = .ok (c, s') ↔
      ∃ declarators, Declarator.resolveAll file ds s = .ok (declarators, s') ∧
        c = .block ⟨declarators.filterMap Prod.snd, declarators.map Prod.fst, line⟩ := by
  rw [Command.resolve, h.resolve_ofDeclarators]
  constructor
  · intro hc
    obtain ⟨b, hb, rfl⟩ := Resolving.bind_pure_eq_ok.1 hc
    obtain ⟨declarators, hds, rfl⟩ := Resolving.bind_pure_eq_ok.1 hb
    exact ⟨declarators, hds, rfl⟩
  · rintro ⟨declarators, hds, rfl⟩
    refine Resolving.bind_pure_eq_ok.2 ⟨_, ?_, rfl⟩
    exact Resolving.bind_pure_eq_ok.2 ⟨declarators, hds, rfl⟩

/-! ### Targets -/

/-- What is no target is none once names are resolved. -/
theorem Expr.target?_resolve {e : Expr Mention} {t : Expr ν} {s s' : σ}
    (h : e.resolve file s = .ok (t, s')) (he : e.target? = none) : t.target? = none := by
  cases e with
  | var | index => cases he
  | const => cases h; rfl
  | binary | unary | call | list | map =>
    simp only [Expr.resolve, Resolving.bind_eq_ok, Resolving.pure_eq_ok, Prod.mk.injEq] at h
    grind [Expr.target?]

/-- A target is resolved as the expression that it is. -/
theorem Expr.resolve_of_target? {e : Expr Mention} {target : Target Mention}
    (h : e.target? = some target) :
    (e.resolve file : Resolving σ (Expr ν)) = Target.toExpr <$> target.resolve file := by
  cases e with
  | var | index =>
    cases h
    simp [Expr.resolve, Target.resolve, Target.toExpr]
  | _ => cases h

theorem Target.resolve_ok {e : Expr Mention} {t : Expr ν} {target : Target Mention}
    {target' : Target ν} {s s' : σ} (h : e.resolve file s = .ok (t, s'))
    (he : e.target? = some target) (ht : t.target? = some target') :
    target.resolve file s = .ok (target', s') := by
  rw [Expr.resolve_of_target? file he, map_eq_pure_bind, Resolving.bind_pure_eq_ok] at h
  obtain ⟨target'', hr, rfl⟩ := h
  rw [Target.target?_toExpr, Option.some.injEq] at ht
  rw [hr, ht]

/-- The target of an assignment is resolved as the expression that it is read as. -/
theorem Command.resolve_assign {e : Expr Mention} {target : Target Mention}
    (he : e.target? = some target) (value : Expr Mention) (line : Nat) :
    ((Command.assign (some target) value line).resolve file : Resolving σ (Command ν)) = (do
      let t ← e.resolve file
      let value ← value.resolve file
      pure (.assign t.target? value line)) := by
  rw [Expr.resolve_of_target? file he]
  simp [Command.resolve]

/-- What a target is resolved to is a target. -/
theorem Expr.exists_target {e : Expr Mention} {t : Expr ν} {target : Target Mention} {s s' : σ}
    (h : e.resolve file s = .ok (t, s')) (he : e.target? = some target) :
    ∃ target' : Target ν, t = target'.toExpr := by
  rw [Expr.resolve_of_target? file he, map_eq_pure_bind, Resolving.bind_pure_eq_ok] at h
  obtain ⟨target', -, rfl⟩ := h
  exact ⟨target', rfl⟩

variable {file} in
/-- An assignment comes from what is assigned to, and then from the value. -/
theorem Command.resolve_assign_eq_ok {e : Expr Mention} {target : Target Mention}
    (he : e.target? = some target) {value : Expr Mention} {line : Nat} {c : Command ν} {s s' : σ} :
    (Command.assign (some target) value line).resolve file s = .ok (c, s') ↔
      ∃ (target' : Target ν) (s₁ : σ) (value' : Expr ν),
        e.resolve file s = .ok (target'.toExpr, s₁) ∧ value.resolve file s₁ = .ok (value', s') ∧
        c = .assign (some target') value' line := by
  rw [Command.resolve_assign file he, Resolving.bind_bind_pure_eq_ok]
  constructor
  · rintro ⟨t, s₁, value', ht, hvalue, rfl⟩
    obtain ⟨target', rfl⟩ := Expr.exists_target file ht he
    rw [Target.target?_toExpr]
    exact ⟨target', s₁, value', ht, hvalue, rfl⟩
  · rintro ⟨target', s₁, value', ht, hvalue, rfl⟩
    exact ⟨_, s₁, value', ht, hvalue, by rw [Target.target?_toExpr]⟩

end

end Scriptlet
