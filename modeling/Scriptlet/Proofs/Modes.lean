import Scriptlet.Proofs.Acceptance
import Scriptlet.Proofs.Balance
import Scriptlet.Proofs.Consistency

/-!
# The two scope modes

A text that is read in both modes is the same program but for what its names mean. Where no
name is declared twice, nothing is left of that: what is read in lexical mode is then read in
flat mode, with the same variables, though there a name goes on to be known when its scope is
closed, and the variable of a loop may be one that was there before.

## The model

`SymbolTable.Mirrors s t` says that the flat table `t` stands beside the lexical table `s`: the
same variables have been declared in both. The flat table knows them all, and no two of one
name, so whatever the lexical one finds for a name the flat one finds too.

## What is proved

* `SymbolTable.Mirrors.declare` and its like — each operation that succeeds on the lexical table
  does the same on the flat one, as long as no name is declared twice.
* `Rule.Law.mirrored` — so it is for every rule.
* `parseText_modes` — the modes differ on names only.
-/

namespace Scriptlet

namespace SymbolTable

/-- A flat table beside a lexical one, with the same variables. -/
structure Mirrors (s t : SymbolTable) : Prop where
  lexical : s.mode = .lexical
  flat : t.mode = .flat
  /-- The scopes of both hold variables that were declared. -/
  consistent : s.Consistent ∧ t.Consistent
  declared : t.declared = s.declared

namespace Mirrors

variable {s s' t : SymbolTable} {name : String} {constant : Bool} {nullability : Nullability}
  {position : Position} {v : Variable}

theorem empty : (SymbolTable.empty .lexical).Mirrors (SymbolTable.empty .flat) :=
  ⟨rfl, rfl, ⟨.empty .lexical, .empty .flat⟩, rfl⟩

theorem enter (h : s.Mirrors t) : s.enter.Mirrors t.enter where
  lexical := s.mode_enter.trans h.lexical
  flat := t.mode_enter.trans h.flat
  consistent := ⟨h.consistent.1.enter, h.consistent.2.enter⟩
  declared := by rw [declared_enter, declared_enter, h.declared]

theorem leave (h : s.Mirrors t) : s.leave.Mirrors t.leave where
  lexical := s.mode_leave.trans h.lexical
  flat := t.mode_leave.trans h.flat
  consistent := ⟨h.consistent.1.leave, h.consistent.2.leave⟩
  declared := by rw [declared_leave, declared_leave, h.declared]

/-- The flat table has but one scope to look in. -/
theorem lookup?_flat (h : s.Mirrors t) (name : String) :
    t.lookup? name = t.innermost.find? name := by
  rw [lookup?, frames, (h.consistent.2.flat h.flat).1, List.findSome?_singleton]

/-- What a name means in lexical mode it means in flat mode. -/
theorem lookup? (h : s.Mirrors t) (hv : s.lookup? name = some v) : t.lookup? name = some v := by
  have hmem : v ∈ t.innermost := by
    rw [(h.consistent.2.flat h.flat).2, List.mem_reverse, h.declared]
    exact List.mem_of_getElem? (h.consistent.1.declared_of_lookup? hv)
  have hnames := h.consistent.2.nodup_names t.innermost List.mem_cons_self
  rw [h.lookup?_flat]
  cases hf : t.innermost.find? name with
  | none =>
    refine absurd ?_ (Consistent.find?_eq_none_iff.1 hf)
    rw [← name_of_lookup? hv]
    exact List.mem_map_of_mem hmem
  | some w =>
    have hname : w.name = v.name := (name_of_find? hf).trans (name_of_lookup? hv).symm
    rw [List.inj_on_of_nodup_map hnames (List.mem_of_find?_eq_some hf) hmem hname]

/-- A name that has not been declared is not found in flat mode. -/
theorem lookup?_eq_none (h : s.Mirrors t) (hname : name ∉ s.declared.map Variable.name) :
    t.lookup? name = none := by
  rw [h.lookup?_flat, ← not_ne_iff, (h.consistent.2.names_of_flat h.flat).1, h.declared]
  exact hname

/-- A name that is declared for the first time is declared in flat mode too, as the same
variable. -/
theorem declare (h : s.Mirrors t)
    (hd : s.declare name constant nullability position = .ok (v, s'))
    (hnew : (s'.declared.map Variable.name).Nodup) :
    ∃ t', t.lookup? name = none ∧ t.declare name constant nullability position = .ok (v, t') ∧
      s'.Mirrors t' := by
  have hs' := h.consistent.1.declare hd
  obtain ⟨-, rfl, rfl⟩ := declare_eq_ok.1 hd
  have hsize : t.size = s.size := congrArg List.length h.declared
  have hlookup : t.lookup? name = none := by
    refine h.lookup?_eq_none fun hmem => ?_
    rw [extended, List.map_append] at hnew
    exact (List.nodup_append.1 hnew).2.2 _ hmem _ (List.mem_singleton_self name) rfl
  have hfind : t.innermost.find? name = none := find?_innermost_of_lookup? hlookup
  have ht : t.declare name constant nullability position =
      .ok (⟨name, position.line, constant, nullability, s.size⟩,
        t.extended ⟨name, position.line, constant, nullability, s.size⟩) :=
    declare_eq_ok.2 ⟨hfind, by rw [hsize], rfl⟩
  refine ⟨_, hlookup, ht, h.lexical, h.flat, ⟨hs', h.consistent.2.declare ht⟩, ?_⟩
  exact congrArg (· ++ _) h.declared

/-- So is the variable of a loop: there is none that could be taken over. -/
theorem declareLoop (h : s.Mirrors t) (hd : s.declareLoop name position = .ok (v, s'))
    (hnew : (s'.declared.map Variable.name).Nodup) :
    ∃ t', t.declareLoop name position = .ok (v, t') ∧ s'.Mirrors t' := by
  rw [declareLoop_of_lexical h.lexical] at hd
  obtain ⟨t', hlookup, ht, hm⟩ := h.declare hd hnew
  exact ⟨t', declareLoop_eq_ok.2 (.inr ⟨fun _ => hlookup, ht⟩), hm⟩

theorem resolve (h : s.Mirrors t) (hv : s.resolve name position = .ok v) :
    t.resolve name position = .ok v :=
  resolve_eq_ok.2 (h.lookup? (resolve_eq_ok.1 hv))

end Mirrors

end SymbolTable

namespace Rule

variable {α β : Type} {r : Rule SymbolTable α}

/-- What the rule reads in lexical mode without declaring a name twice it reads in flat mode,
with the same variables and the same tokens taken. -/
def Mirrored (r : Rule SymbolTable α) : Prop :=
  ∀ ⦃p q : Parser SymbolTable⦄ ⦃t : SymbolTable⦄ ⦃a : α⦄, p.symbols.Mirrors t →
    r p = (.ok a, q) → (q.symbols.declared.map Variable.name).Nodup →
    ∃ t', r { p with symbols := t } = (.ok a, { q with symbols := t' }) ∧ q.symbols.Mirrors t'

namespace Mirrored

/-- A rule that does not look at the table is mirrored. -/
theorem of_eq (h : ∀ p t, r { p with symbols := t } = ((r p).1, { (r p).2 with symbols := t })) :
    Mirrored r := by
  intro p q t a hp hr _
  have hq : (r p).2.symbols = p.symbols := congrArg (fun x => x.2.symbols) (h p p.symbols)
  refine ⟨t, ?_, ?_⟩
  · rw [h, hr]
  · rw [hr] at hq
    rwa [hq]

theorem bind {f : α → Rule SymbolTable β} (hr : Mirrored r) (hf : ∀ a, Mirrored (f a))
    (hgrown : ∀ a, Balanced (f a)) : Mirrored (r >>= f) := by
  intro p q t b hp hb hq
  rcases hm : r p with ⟨d | a, m⟩
  · rw [bind_apply_error hm] at hb
    cases hb
  · rw [bind_apply_ok hm] at hb
    -- What follows only adds variables, so no name has been declared twice in the first part.
    have hdeclared : m.symbols.declared <+: q.symbols.declared := by
      have hg := (hgrown a m).symbols.declared
      rwa [hb] at hg
    obtain ⟨t₁, hr₁, hm₁⟩ := hr hp hm (hq.sublist (hdeclared.sublist.map _))
    obtain ⟨t₂, hf₂, hm₂⟩ := hf a hm₁ hb hq
    exact ⟨t₂, (bind_apply_ok hr₁).trans hf₂, hm₂⟩

theorem nested (hr : Mirrored r) : Mirrored (nested r) := by
  intro p q t a hp hb hq
  by_cases hd : maxDepth ≤ p.depth
  · rw [nested_of_le hd] at hb
    cases hb
  · rw [nested_of_lt (Nat.lt_of_not_le hd)] at hb
    obtain ⟨ha, rfl⟩ := Prod.mk.inj hb
    obtain ⟨t', hr', hm'⟩ := hr (p := { p with depth := p.depth + 1 }) hp (Prod.ext ha rfl) hq
    refine ⟨t', ?_, hm'⟩
    rw [nested_of_lt (p := { p with symbols := t }) (Nat.lt_of_not_le hd)]
    simp only [hr']

theorem inScope (hr : Mirrored r) : Mirrored (inScope r) := by
  intro p q t a hp hb hq
  obtain ⟨ha, rfl⟩ := Prod.mk.inj hb
  have hnames : ((r { p with symbols := p.symbols.enter }).2.symbols.declared.map
      Variable.name).Nodup := by
    rw [← SymbolTable.declared_leave]
    exact hq
  obtain ⟨t', hr', hm'⟩ :=
    hr (p := { p with symbols := p.symbols.enter }) hp.enter (Prod.ext ha rfl) hnames
  have ht : r { p with symbols := t.enter } = (.ok a, _) := hr'
  refine ⟨t'.leave, ?_, hm'.leave⟩
  exact congrArg (fun x => (x.1, { x.2 with symbols := x.2.symbols.leave })) ht

theorem keeping {ask : SymbolTable → String → Except Diagnostic (α × SymbolTable)}
    (h : ∀ {s s' t : SymbolTable} {file : String} {a : α}, s.Mirrors t →
      ask s file = .ok (a, s') → (s'.declared.map Variable.name).Nodup →
      ∃ t', ask t file = .ok (a, t') ∧ s'.Mirrors t') : Mirrored (keeping ask) := by
  intro p q t a hp ha hq
  cases hs : ask p.symbols p.file with
  | error d =>
    rw [keeping_eq_of_error hs] at ha
    cases ha
  | ok x =>
    rw [keeping_eq_of_ok hs] at ha
    cases ha
    obtain ⟨t', ht, hm⟩ := h hp hs hq
    exact ⟨t', keeping_eq_of_ok ht, hm⟩

theorem declare (name : Token) (constant : Bool) (nullability : Nullability) :
    Mirrored (declare name constant nullability) := by
  rw [declare_eq]
  refine keeping fun hp hd hq => ?_
  obtain ⟨t', -, ht, hm⟩ := hp.declare hd hq
  exact ⟨t', ht, hm⟩

theorem declareLoop (name : Token) : Mirrored (declareLoop name) := by
  rw [declareLoop_eq]
  exact keeping fun hp hd hq => hp.declareLoop hd hq

theorem resolve (name : Token) : Mirrored (resolve name) := by
  intro p q t v hp hv _
  obtain ⟨hfound, rfl⟩ := Prod.mk.inj hv
  exact ⟨t, Prod.ext (hp.resolve hfound) rfl, hp⟩

end Mirrored

/-- Being mirrored, with names only added, goes through from the single steps to every rule. -/
theorem Law.mirrored : Law fun _ (r : Rule SymbolTable _) _ => Balanced r ∧ Mirrored r := by
  refine Steps.law ?_ fun hr => ⟨fun p => (hr p.rounds).1 p, fun p => (hr p.rounds).2 (p := p)⟩
  constructor
  case mono => exact fun hr _ => hr
  case bind => exact fun hr hf => ⟨.bind hr.1 fun a => (hf a).1,
    .bind hr.2 (fun a => (hf a).2) fun a => (hf a).1⟩
  case nested => exact fun hr => ⟨hr.1.nested, hr.2.nested⟩
  case inScope => exact fun hr => ⟨hr.1.inScope, hr.2.inScope⟩
  case declare => exact fun name constant mark =>
    ⟨.declare name constant mark, .declare name constant mark⟩
  case declareLoop => exact fun name => ⟨.declareLoop name, .declareLoop name⟩
  case resolve => exact fun name => ⟨Law.balanced.resolve name, .resolve name⟩
  case pure => exact fun h => ⟨Law.balanced.pure h, .of_eq fun _ _ => rfl⟩
  case expect =>
    refine fun k => ⟨Law.balanced.expect k, .of_eq fun p t => ?_⟩
    by_cases hk : p.lookahead.kind = k
    · simp [expect, hk, advance]
    · simp [expect, hk, unexpected, Parser.unexpected, Parser.position]
  case accept =>
    refine fun k => ⟨Law.balanced.accept k, .of_eq fun p t => ?_⟩
    by_cases hk : p.lookahead.kind = k
    · simp [accept, hk, advance]
    · simp [accept, hk]
  all_goals
    intros
    exact ⟨.of_eq fun _ => ⟨rfl, rfl⟩, .of_eq fun _ _ => rfl⟩

end Rule

/-- The modes differ on names only. A text that is read in both is the same tree in both, with
the same lines, once each variable is replaced by its name. A text that is read in lexical mode
without a name that is declared twice is read in flat mode as the very same tree, with the same
variables in the same slots, and the same tokens taken. -/
theorem parseText_modes (text file : String) :
    (∀ b b', (parseText text file .flat).1 = .ok b → (parseText text file .lexical).1 = .ok b' →
      b.relabel Variable.name id = b'.relabel Variable.name id) ∧
    ∀ b p, parseText text file .lexical = (.ok b, p) →
      (p.symbols.declared.map Variable.name).Nodup →
      ∃ t, parseText text file .flat = (.ok b, { p with symbols := t }) ∧
        t.declared = p.symbols.declared := by
  constructor
  · intro b b' hb hb'
    -- Both are what the names of one sentence are resolved to.
    obtain ⟨k, cs, body, hk, hs, hr, rfl⟩ := exists_sentence_of_read (Prod.ext hb rfl)
    have hflat := hs.sameNames hr
    rcases read_of_sentence hs file (SymbolTable.empty .lexical)
      with ⟨hlt, -⟩ | ⟨d, q, -, hq⟩ | ⟨-, body', s', q, hr', hq, -⟩
    · exact absurd hk (Nat.not_le.2 hlt)
    · rw [parseText_eq_read, hq] at hb'
      cases hb'
    · rw [parseText_eq_read, hq] at hb'
      cases hb'
      exact hflat.trans (hs.sameNames hr').symm
  · intro b p hp hnames
    obtain ⟨t, ht, hm⟩ := Rule.Law.mirrored.program.2
      (p := Parser.start (.ofText text) file (.empty .lexical) .standard) .empty hp hnames
    exact ⟨t, ht, hm.declared⟩

/-- Two loops over one name have one variable in flat mode and two in lexical mode. A loop over
a variable of another name has the same two in both. -/
theorem parseText_modes_loops :
    (∃ b b', (parseText "for (i in []) print(i); for (i in []) print(i);" "p" .flat).1 = .ok b ∧
      (parseText "for (i in []) print(i); for (i in []) print(i);" "p" .lexical).1 = .ok b' ∧
      (parseText "for (i in []) print(i); for (i in []) print(i);" "p" .flat).2.symbols.size = 1 ∧
      (parseText "for (i in []) print(i); for (i in []) print(i);" "p" .lexical).2.symbols.size =
        2 ∧
      b.relabel Variable.name id = b'.relabel Variable.name id) ∧
    ∃ b p t, parseText "var a = []; for (i in a) print(i);" "p" .lexical = (.ok b, p) ∧
      (p.symbols.declared.map Variable.name).Nodup ∧
      parseText "var a = []; for (i in a) print(i);" "p" .flat = (.ok b, { p with symbols := t }) ∧
      t.declared = p.symbols.declared := by
  constructor
  · obtain ⟨b, p, hb⟩ : ∃ b p, parseText "for (i in []) print(i); for (i in []) print(i);" "p"
        .flat = (.ok b, p) := exists_parseText (by decide +kernel)
    obtain ⟨b', p', hb'⟩ : ∃ b p, parseText "for (i in []) print(i); for (i in []) print(i);" "p"
        .lexical = (.ok b, p) := exists_parseText (by decide +kernel)
    have hsame := (parseText_modes _ "p").1 b b' (congrArg Prod.fst hb) (congrArg Prod.fst hb')
    exact ⟨b, b', congrArg Prod.fst hb, congrArg Prod.fst hb', by decide +kernel,
      by decide +kernel, hsame⟩
  · obtain ⟨b, p, hb⟩ : ∃ b p, parseText "var a = []; for (i in a) print(i);" "p" .lexical =
        (.ok b, p) := exists_parseText (by decide +kernel)
    have hnames : ((parseText "var a = []; for (i in a) print(i);" "p"
        .lexical).2.symbols.declared.map Variable.name).Nodup := by decide +kernel
    rw [hb] at hnames
    obtain ⟨t, ht, hd⟩ := (parseText_modes _ "p").2 b p hb hnames
    exact ⟨b, p, t, hb, hnames, ht, hd⟩

end Scriptlet
