import Scriptlet.Proofs.Relabel
import Scriptlet.Proofs.Sentences
import Scriptlet.Proofs.Table

/-!
# What is accepted

The program that is read from a text is the one that the grammar derives, with each
mention replaced by the variable that it means. What the grammar derives is read, unless
a name fails or too much is open at once.

## What is proved

* `Derives.resolve_sameNames` — resolving the names of a phrase keeps all else.
* `Block.resolveAll_nameFault` — resolving fails for a name only.
* `parseText_accepts` — what is read is derived, and what is derived is read.
-/

namespace Scriptlet

open Resolving

/-! ### Names are kept -/

/-- Changes what a phrase keeps of variables, and its lines. -/
def Category.relabel {ν μ : Type} (g : ν → μ) (h : Nat → Nat) :
    (N : Category) → N.Resolved ν → N.Resolved μ
  | expr _, e => e.relabel g h
  | operations _, ops => ops.map fun o => (o.1, o.2.1.relabel g h, h o.2.2)
  | subscripts, subs => subs.map fun s => (s.1.relabel g h, h s.2)
  | element, e => e.relabel g h
  | elements, es => Expr.relabelElements g h es
  | entries, es => Expr.relabelEntries g h es
  | declarator _ _ _, d => (g d.1, d.2.map (Command.relabel g h))
  | declarators _ _ _, ds => ds.map fun d => (g d.1, d.2.map (Command.relabel g h))
  | command, c | body, c => c.relabel g h
  | code, cs => Block.relabelAll g h cs

/-- A phrase as a tree, with its mentions. -/
def Category.written : (N : Category) → N.Tree → N.Resolved Mention
  | declarator _ _ _, d => (d.1, d.assignment?)
  | declarators _ _ _, ds => ds.map fun d => (d.1, d.assignment?)
  | expr _, x | operations _, x | subscripts, x | element, x | elements, x | entries, x
  | command, x | body, x | code, x => x

section

variable {ν μ : Type} {g : ν → μ} {h : Nat → Nat}

theorem Expr.relabel_operated (ops : List (BinaryOp × Expr ν × Nat)) (e : Expr ν) :
    (e.operated ops).relabel g h =
      (e.relabel g h).operated (ops.map fun o => (o.1, o.2.1.relabel g h, h o.2.2)) := by
  induction ops generalizing e with
  | nil => rfl
  | cons o ops ih => exact ih _

theorem Expr.relabel_subscripted (subs : List (Expr ν × Nat)) (e : Expr ν) :
    (e.subscripted subs).relabel g h =
      (e.relabel g h).subscripted (subs.map fun s => (s.1.relabel g h, h s.2)) := by
  induction subs generalizing e with
  | nil => rfl
  | cons s subs ih => exact ih _

theorem Block.relabelAll_eq_map (cs : List (Command ν)) :
    Block.relabelAll g h cs = cs.map (Command.relabel g h) := by
  induction cs with
  | nil => rfl
  | cons c cs ih => rw [Block.relabelAll, ih, List.map_cons]

/-- A declaration is relabelled name by name. -/
theorem Block.relabel_declaration (ds : List (ν × Option (Command ν))) (line : Nat) :
    (⟨ds.filterMap Prod.snd, ds.map Prod.fst, line⟩ : Block ν).relabel g h =
      ⟨(ds.map fun d => (g d.1, d.2.map (Command.relabel g h))).filterMap Prod.snd,
        (ds.map fun d => (g d.1, d.2.map (Command.relabel g h))).map Prod.fst, h line⟩ := by
  rw [Block.relabel, Block.relabelAll_eq_map]
  simp [List.map_filterMap, List.filterMap_map, Function.comp_def]

theorem Block.ofDeclarators_eq (ds : List Declarator) (line : Nat) :
    Block.ofDeclarators ds line =
      ⟨(ds.map fun d => (d.1, d.assignment?)).filterMap Prod.snd,
        (ds.map fun d => (d.1, d.assignment?)).map Prod.fst, line⟩ := by
  simp [Block.ofDeclarators, List.filterMap_map, Function.comp_def]

end

section

variable {file : String} {m : Mention} {v : Variable} {t t' : SymbolTable}

theorem Mention.name_of_resolve (h : m.resolve file t = .ok (v, t')) : v.name = m.name := by
  unfold Mention.resolve at h
  cases hr : Scoping.resolve t m.name (m.position file) with
  | error d =>
    rw [hr] at h
    cases h
  | ok w =>
    rw [hr] at h
    obtain ⟨rfl, -⟩ := Prod.mk.inj (Except.ok.inj h)
    exact SymbolTable.name_of_lookup? (SymbolTable.resolve_eq_ok.1 hr)

theorem Mention.name_of_declareLoop (h : m.declareLoop file t = .ok (v, t')) : v.name = m.name :=
  SymbolTable.name_of_declareLoop h

theorem Mention.declare_eq_ok (h : m.declare file t = .ok (v, t')) :
    v = ⟨m.name, m.line, m.constant, m.nullability, t.size⟩ ∧ t' = t.extended v :=
  (SymbolTable.declare_eq_ok.1 h).2

/-- Resolving the names of a phrase gives variables of those names, and keeps all else. -/
theorem Derives.resolve_sameNames {N k i x r} (h : Derives N k i x r) {e : N.Resolved Variable}
    (he : N.resolve file x t = .ok (e, t')) :
    N.relabel Variable.name id e = N.relabel Mention.name id (N.written x) := by
  induction h generalizing t t' with
  | expression h ih | unsigned h ih | factor h ih | primary h ih | parenthesized _ h _ ih
  | place h ih | unbraced _ h ih => exact ih he
  | level left h chains ih ih' =>
    obtain ⟨a, t₁, ops, ha, hops, rfl⟩ := Expr.resolve_operated_eq_ok.1 he
    have hleft := ih ha
    have hops := ih' hops
    simp only [Category.relabel, Category.written] at hleft hops ⊢
    rw [Expr.relabel_operated, Expr.relabel_operated, hleft, hops]
  | named head h ih =>
    obtain ⟨v, t₁, subs, hv, hsubs, rfl⟩ := Expr.resolve_place_eq_ok.1 he
    have hsubs := ih hsubs
    simp only [Category.relabel, Category.written] at hsubs ⊢
    rw [Expr.relabel_subscripted, Expr.relabel_subscripted, hsubs, Expr.relabel, Expr.relabel,
      Mention.name_of_resolve hv]
  | elementFor head opens name separator h closes h' ih ih' =>
    obtain ⟨c, t₁, v, t₂, x, t₃, hc, hv, hx, -, rfl⟩ := Element.resolve_each_eq_ok.1 he
    have hc := ih hc
    have hx := ih' hx
    simp only [Category.relabel, Category.written, Element.relabel] at hc hx ⊢
    rw [hc, hx, Mention.name_of_declareLoop hv]
  | forLoop head opens name separator h closes h' ih ih' =>
    obtain ⟨c, t₁, v, t₂, b, t₃, hc, hv, hb, -, rfl⟩ := Command.resolve_each_eq_ok.1 he
    have hc := ih hc
    have hb := ih' hb
    simp only [Category.relabel, Category.written, Command.relabel] at hc hb ⊢
    rw [hc, hb, Mention.name_of_declareLoop hv]
  | declarator name =>
    obtain ⟨v, hv, rfl⟩ := bind_pure_eq_ok.1 he
    rw [(Mention.declare_eq_ok hv).1]
    rfl
  | initialized name assign h ih =>
    obtain ⟨v, t₁, a, hv, ha, rfl⟩ := bind_bind_pure_eq_ok.1 he
    have ha := ih ha
    rw [(Mention.declare_eq_ok hv).1]
    simp only [Category.relabel, Category.written, Declarator.assignment?, Option.map_some,
      Command.relabel, Target.relabel] at ha ⊢
    rw [ha]
  | declaration final head mark h stop ih =>
    obtain ⟨es, hes, rfl⟩ := h.resolve_declaration_eq_ok.1 he
    have hes := ih hes
    simp only [Category.relabel, Category.written, Command.relabel] at hes ⊢
    rw [Block.relabel_declaration, Block.ofDeclarators_eq, Block.relabel_declaration, hes]
  | assignment h isTarget assign h' stop ih ih' =>
    obtain ⟨target', t₁, value, ha, hvalue, rfl⟩ := (Command.resolve_assign_eq_ok isTarget).1 he
    have hplace := congrArg Expr.target? (ih ha)
    have hvalue := ih' hvalue
    simp only [Category.relabel, Category.written, Expr.target?_relabel, isTarget,
      Target.target?_toExpr, Option.map_some, Option.some.injEq] at hplace hvalue
    simp only [Category.relabel, Category.written, Command.relabel, hplace, hvalue]
  | _ =>
    simp only [Category.resolve, Expr.resolve, Element.resolve, Command.resolve, Block.resolve,
      Expr.resolveElements, Expr.resolveEntries, Block.resolveAll, Expr.resolveOperations,
      Expr.resolveSubscripts, Declarator.resolveAll, bind_eq_ok, pure_eq_ok, inScope_eq_ok,
      Prod.mk.injEq, Category.relabel, Category.written] at *
    grind [Expr.relabel, Element.relabel, Command.relabel, Expr.relabelElements,
      Expr.relabelEntries, Block.relabel, Block.relabelAll, Block.resolve, Block.resolveAll]

end

/-! ### Only names fail -/

/-- The fault is a name that is declared twice or not at all. -/
def Fault.IsOfName (f : Fault) : Prop :=
  ∃ name, f = .duplicateDeclaration name ∨ f = .undeclaredName name

/-- The computation fails for names only. -/
def Resolving.FailsForNames {α : Type} (c : Resolving SymbolTable α) : Prop :=
  ∀ ⦃t : SymbolTable⦄ ⦃d : Diagnostic⦄, c t = .error d → d.fault.IsOfName

namespace Resolving.FailsForNames

variable {α β : Type} {c : Resolving SymbolTable α} {f : α → Resolving SymbolTable β}

theorem pure (a : α) : FailsForNames (pure a) := fun _ _ h => nomatch h

theorem bind (hc : c.FailsForNames) (hf : ∀ a, (f a).FailsForNames) :
    FailsForNames (c >>= f) := by
  intro t d h
  cases ht : c t with
  | ok r =>
    rw [bind_ok ht] at h
    exact hf r.1 h
  | error d' =>
    rw [bind_error ht] at h
    cases h
    exact hc ht

theorem inScope (hc : c.FailsForNames) : FailsForNames (inScope c) :=
  bind (fun _ _ h => nomatch h) fun _ => bind hc fun a =>
    bind (fun _ _ h => nomatch h) fun _ => pure a

end Resolving.FailsForNames

section

open Resolving.FailsForNames

variable (file : String)

theorem Mention.resolve_nameFault (m : Mention) : FailsForNames (m.resolve file) := by
  intro t d h
  unfold Mention.resolve at h
  cases hr : Scoping.resolve t m.name (m.position file) with
  | ok v =>
    rw [hr] at h
    cases h
  | error d' =>
    rw [hr] at h
    cases h
    rw [(SymbolTable.resolve_eq_error.1 hr).2]
    exact ⟨m.name, .inr rfl⟩

theorem Mention.declare_nameFault (m : Mention) : FailsForNames (m.declare file) := by
  intro t d h
  rw [(SymbolTable.declare_eq_error.1 h).2]
  exact ⟨m.name, .inl rfl⟩

theorem Mention.declareLoop_nameFault (m : Mention) : FailsForNames (m.declareLoop file) := by
  intro t d h
  rw [SymbolTable.declareLoop_eq_error h]
  exact ⟨m.name, .inl rfl⟩

mutual

theorem Expr.resolve_nameFault : (e : Expr Mention) → FailsForNames (e.resolve file)
  | .const .. => pure _
  | .binary _ a b _ | .index a b _ =>
    bind (Expr.resolve_nameFault a) fun _ => bind (Expr.resolve_nameFault b) fun _ => pure _
  | .unary _ a _ | .call _ a _ => bind (Expr.resolve_nameFault a) fun _ => pure _
  | .var m _ => bind (Mention.resolve_nameFault file m) fun _ => pure _
  | .list es _ => bind (Expr.resolveElements_nameFault es) fun _ => pure _
  | .map es _ => bind (Expr.resolveEntries_nameFault es) fun _ => pure _

theorem Element.resolve_nameFault : (e : Element Mention) → FailsForNames (e.resolve file)
  | .single a | .spread a => bind (Expr.resolve_nameFault a) fun _ => pure _
  | .cond c a none _ =>
    bind (Expr.resolve_nameFault c) fun _ => bind (Element.resolve_nameFault a) fun _ => pure _
  | .cond c a (some b) _ =>
    bind (Expr.resolve_nameFault c) fun _ => bind (Element.resolve_nameFault a) fun _ =>
      bind (Element.resolve_nameFault b) fun _ => pure _
  | .each m a e _ =>
    bind (Expr.resolve_nameFault a) fun _ =>
      bind (inScope (bind (Mention.declareLoop_nameFault file m) fun _ =>
        bind (Element.resolve_nameFault e) fun _ => pure _)) fun _ => pure _

theorem Expr.resolveElements_nameFault :
    (es : List (Element Mention)) → FailsForNames (Expr.resolveElements file es)
  | [] => pure _
  | e :: es =>
    bind (Element.resolve_nameFault e) fun _ => bind (Expr.resolveElements_nameFault es) fun _ =>
      pure _

theorem Expr.resolveEntries_nameFault :
    (es : List (Expr Mention × Expr Mention)) → FailsForNames (Expr.resolveEntries file es)
  | [] => pure _
  | (a, b) :: es =>
    bind (Expr.resolve_nameFault a) fun _ => bind (Expr.resolve_nameFault b) fun _ =>
      bind (Expr.resolveEntries_nameFault es) fun _ => pure _

end

theorem Target.resolve_nameFault : (t : Target Mention) → FailsForNames (t.resolve file)
  | .var m _ => bind (Mention.resolve_nameFault file m) fun _ => pure _
  | .index a b _ =>
    bind (Expr.resolve_nameFault file a) fun _ => bind (Expr.resolve_nameFault file b) fun _ =>
      pure _

theorem Block.declareAll_nameFault :
    (ms : List Mention) → FailsForNames (Block.declareAll file ms)
  | [] => pure _
  | m :: ms =>
    bind (Mention.declare_nameFault file m) fun _ => bind (Block.declareAll_nameFault ms) fun _ =>
      pure _

mutual

theorem Command.resolve_nameFault : (c : Command Mention) → FailsForNames (c.resolve file)
  | .block b => bind (Block.resolve_nameFault b) fun _ => pure _
  | .assign none a _ | .print (some a) _ | .assert a none _ =>
    bind (Expr.resolve_nameFault file a) fun _ => pure _
  | .assign (some t) a _ =>
    bind (Target.resolve_nameFault file t) fun _ => bind (Expr.resolve_nameFault file a) fun _ =>
      pure _
  | .print none _ => pure _
  | .assert a (some b) _ =>
    bind (Expr.resolve_nameFault file a) fun _ => bind (Expr.resolve_nameFault file b) fun _ =>
      pure _
  | .cond a b none _ | .whileDo a b _ =>
    bind (Expr.resolve_nameFault file a) fun _ => bind (Command.resolve_nameFault b) fun _ =>
      pure _
  | .cond a b (some c) _ =>
    bind (Expr.resolve_nameFault file a) fun _ => bind (Command.resolve_nameFault b) fun _ =>
      bind (Command.resolve_nameFault c) fun _ => pure _
  | .doWhile b a _ =>
    bind (Command.resolve_nameFault b) fun _ => bind (Expr.resolve_nameFault file a) fun _ =>
      pure _
  | .each m a b _ =>
    bind (Expr.resolve_nameFault file a) fun _ =>
      bind (inScope (bind (Mention.declareLoop_nameFault file m) fun _ =>
        bind (Command.resolve_nameFault b) fun _ => pure _)) fun _ => pure _

theorem Block.resolve_nameFault : (b : Block Mention) → FailsForNames (b.resolve file)
  | ⟨body, [], _⟩ => bind (inScope (Block.resolveAll_nameFault body)) fun _ => pure _
  | ⟨body, m :: ms, _⟩ =>
    bind (Block.resolveDeclaration_nameFault (m :: ms) body) fun _ => pure _

/-- Resolving commands fails for a name only. -/
theorem Block.resolveAll_nameFault :
    (cs : List (Command Mention)) → FailsForNames (Block.resolveAll file cs)
  | [] => pure _
  | c :: cs =>
    bind (Command.resolve_nameFault c) fun _ => bind (Block.resolveAll_nameFault cs) fun _ =>
      pure _

theorem Block.resolveDeclaration_nameFault (ms : List Mention) :
    (cs : List (Command Mention)) → FailsForNames (Block.resolveDeclaration file ms cs)
  | [] => Block.declareAll_nameFault file ms
  | .assign (some (.var m _)) a _ :: cs =>
    bind (Block.declareAll_nameFault file _) fun _ =>
      bind (Mention.declare_nameFault file m) fun _ => bind (Expr.resolve_nameFault file a) fun _ =>
        bind (Block.resolveDeclaration_nameFault _ cs) fun _ => pure _
  | .assign none _ _ :: cs | .assign (some (.index ..)) _ _ :: cs | .block _ :: cs
  | .print .. :: cs | .assert .. :: cs | .cond .. :: cs | .whileDo .. :: cs | .doWhile .. :: cs
  | .each .. :: cs => Block.resolveDeclaration_nameFault ms cs

end

end

/-! ### Programs -/

/-- A sentence with its names resolved has the names that it has. -/
theorem Sentence.sameNames {text file : String} {k : Nat} {cs : List (Command Mention)}
    {body : List (Command Variable)} {t t' : SymbolTable} (h : Sentence text k cs)
    (hb : Block.resolveAll file cs t = .ok (body, t')) :
    (Block.ofCode text body).relabel Variable.name id =
      (Block.ofCode text cs).relabel Mention.name id := by
  obtain ⟨r, hd, -⟩ := h
  have hnames : Block.relabelAll Variable.name id body = Block.relabelAll Mention.name id cs :=
    hd.resolve_sameNames hb
  simp only [Block.ofCode, Block.relabel, hnames, List.map_nil]

/-- A program that is read is what the grammar derives from its text, with each name
resolved. What the grammar derives is read so, or refused because of a name or because
it is nested too deep. -/
theorem parseText_accepts (text file : String) (mode : ScopeMode) :
    (∀ b, (parseText text file mode).1 = .ok b → ∃ k cs, Sentence text k cs ∧
      b.relabel Variable.name id = (Block.ofCode text cs).relabel Mention.name id) ∧
    ∀ k cs, Sentence text k cs →
      (∃ b, (parseText text file mode).1 = .ok b ∧
        b.relabel Variable.name id = (Block.ofCode text cs).relabel Mention.name id) ∨
      ∃ d, (parseText text file mode).1 = .error d ∧
        (d.fault.IsOfName ∨ d.fault = .tooDeep maxDepth) := by
  rw [parseText_eq_read]
  constructor
  · intro b hb
    obtain ⟨k, cs, body, -, hs, hr, rfl⟩ := exists_sentence_of_read (Prod.ext hb rfl)
    exact ⟨k, cs, hs, hs.sameNames hr⟩
  · intro k cs hs
    rcases read_of_sentence hs file (SymbolTable.empty mode)
      with ⟨-, position, q, hq⟩ | ⟨d, q, hd, hq⟩ | ⟨-, body, s', q, hb, hq, -⟩
    · exact .inr ⟨_, congrArg Prod.fst hq, .inr rfl⟩
    · exact .inr ⟨d, congrArg Prod.fst hq, .inl (Block.resolveAll_nameFault file cs hd)⟩
    · exact .inl ⟨_, congrArg Prod.fst hq, hs.sameNames hb⟩

/-- A loop over a list is read and derived. -/
theorem parseText_accepts_loop :
    ∃ b k cs, (parseText "for (a in []) print(a);" "p" .lexical).1 = .ok b ∧
      Sentence "for (a in []) print(a);" k cs ∧
      b.relabel Variable.name id =
        (Block.ofCode "for (a in []) print(a);" cs).relabel Mention.name id := by
  obtain ⟨b, p, hb⟩ : ∃ b p, parseText "for (a in []) print(a);" "p" .lexical = (.ok b, p) :=
    exists_parseText (by decide +kernel)
  have hb' := congrArg Prod.fst hb
  obtain ⟨k, cs, hs, hr⟩ := (parseText_accepts "for (a in []) print(a);" "p" .lexical).1 b hb'
  exact ⟨b, k, cs, hb', hs, hr⟩

end Scriptlet
