import Scriptlet.Proofs.RoundTrip

/-!
# What trees that are read are like

The printer relies on more than the types of a tree say: a declaration holds nothing but the
initial values of what it declares, braces stand around bodies only, subscripts are on places,
and no `else` could be taken by a conditional inside. Every program that is read is so.

## The model

`Command.Everywhere P` says that `P` is true of a command and of all commands in it. A block is
`WellFormed` if it can be written down and its declarations are such as are read. Where an `else`
belongs is left out of this, since the printer sees to it: `Command.KeepsElse` says of a
conditional that it need not.

## What is proved

* `Derives.everywhere` — what is true of each command that is read is true everywhere.
* `Sentence.wellFormed` — so it is with what the grammar derives, once names are resolved.
* `wellFormed_of_parse` — a program that is read is well formed, and keeps each `else`.
-/

namespace Scriptlet

open Resolving

/-! ### All commands of a tree -/

section

variable {ν : Type} (P : Command ν → Prop)

mutual

/-- It is true of the command, and of each command in it. -/
def Command.Everywhere : Command ν → Prop
  | .block ⟨body, declares, line⟩ =>
    P (.block ⟨body, declares, line⟩) ∧ Block.Everywhere body
  | .assign target value line => P (.assign target value line)
  | .print value line => P (.print value line)
  | .assert condition message line => P (.assert condition message line)
  | .cond a b none line => P (.cond a b none line) ∧ b.Everywhere
  | .cond a b (some c) line => P (.cond a b (some c) line) ∧ b.Everywhere ∧ c.Everywhere
  | .whileDo a b line => P (.whileDo a b line) ∧ b.Everywhere
  | .doWhile b a line => P (.doWhile b a line) ∧ b.Everywhere
  | .each v a b line => P (.each v a b line) ∧ b.Everywhere

/-- It is true of each command, and of each command in it. -/
def Block.Everywhere : List (Command ν) → Prop
  | [] => True
  | c :: cs => c.Everywhere ∧ Block.Everywhere cs

end

end

/-! ### Declarations and conditionals -/

/-- The variable that a command assigns to. -/
def Command.assigned? {ν : Type} : Command ν → Option ν
  | .assign (some (.var v _)) _ _ => some v
  | _ => none

/-- What a declaration is like. -/
structure Block.InOrder (b : Block Variable) : Prop where
  /-- All are declared alike. -/
  alike : ∀ v ∈ b.declares, ∀ w ∈ b.declares,
    v.constant = w.constant ∧ v.nullability = w.nullability
  /-- Some of them are assigned to, in their order, and nothing else is done. -/
  assigned : ∃ vs : List Variable, vs.Sublist b.declares ∧
    b.body.map Command.assigned? = vs.map some

/-- If the command is a declaration, it is like one. -/
def Command.InOrder : Command Variable → Prop
  | .block b => b.declares ≠ [] → b.InOrder
  | _ => True

/-- If the command is a conditional with an `else`, no other one would take that `else`. -/
def Command.KeepsElse {ν : Type} : Command ν → Prop
  | .cond _ b (some _) _ => b.hasDanglingIf = false
  | _ => True

/-- What a program is like that can be written down. -/
structure Block.WellFormed (b : Block Variable) : Prop where
  /-- The program is no declaration. -/
  declares : b.declares = []
  /-- Subscripts are on places, each `else` of a list is its conditional's own, and blocks that
  declare nothing are bodies. -/
  shaped : Block.ShapedAll b.body
  /-- Names are names, and numbers are in range. -/
  spellable : Block.SpellableAll Variable.name b.body
  /-- What is declared together is told apart by slots. -/
  distinct : Block.DistinctAll b.body
  /-- Declarations hold initial values in order. -/
  inOrder : Block.Everywhere Command.InOrder b.body

/-! ### Names with their initial values -/

/-- A declaration is names with their own initial values. -/
theorem Block.exists_declared {body : List (Command Variable)} {vs declares : List Variable}
    (hvs : vs.Sublist declares) (hbody : body.map Command.assigned? = vs.map some) :
    ∃ ds : List Declared, body = ds.filterMap Prod.snd ∧ declares = ds.map Prod.fst ∧
      ∀ d ∈ ds, Declared.IsOwn d := by
  induction hvs generalizing body with
  | slnil =>
    obtain rfl : body = [] := List.map_eq_nil_iff.1 hbody
    exact ⟨[], rfl, rfl, nofun⟩
  | cons v _ ih =>
    obtain ⟨ds, rfl, rfl, hown⟩ := ih hbody
    exact ⟨(v, none) :: ds, rfl, rfl, List.forall_mem_cons.2 ⟨nofun, hown⟩⟩
  | cons_cons v _ ih =>
    obtain ⟨c, cs, rfl, hc, hcs⟩ := List.map_eq_cons_iff.1 hbody
    obtain ⟨ds, rfl, rfl, hown⟩ := ih hcs
    refine ⟨(v, some c) :: ds, rfl, rfl, List.forall_mem_cons.2 ⟨?_, hown⟩⟩
    rintro _ ⟨⟩
    unfold Command.assigned? at hc
    split at hc
    · next line value line' =>
      obtain rfl := Option.some.inj hc
      exact ⟨value, line, line', rfl⟩
    · cases hc

/-- Names with their own initial values are a declaration. -/
theorem Declared.exists_assigned {ds : List Declared} (h : ∀ d ∈ ds, Declared.IsOwn d) :
    ∃ vs : List Variable, vs.Sublist (ds.map Prod.fst) ∧
      (ds.filterMap Prod.snd).map Command.assigned? = vs.map some := by
  induction ds with
  | nil => exact ⟨[], .slnil, rfl⟩
  | cons d ds ih =>
    obtain ⟨hd, hds⟩ := List.forall_mem_cons.1 h
    obtain ⟨vs, hvs, hassigned⟩ := ih hds
    obtain ⟨v, _ | c⟩ := d
    · exact ⟨vs, hvs.cons v, hassigned⟩
    · obtain ⟨value, line, line', hc⟩ := hd c rfl
      have hv : c.assigned? = some v := by rw [hc]; rfl
      refine ⟨v :: vs, hvs.cons_cons v, ?_⟩
      exact congrArg₂ List.cons hv hassigned

/-! ### What is read -/

section

variable {file : String} {P : Command Variable → Prop}

/-- It is true of all commands of a resolved phrase. -/
def Category.Everywhere (P : Command Variable → Prop) :
    (N : Category) → N.Resolved Variable → Prop
  | command, c | body, c => c.Everywhere P
  | code, cs => Block.Everywhere P cs
  | _, _ => True

theorem Block.everywhere_of_isOwn {ds : List Declared} (h : ∀ d ∈ ds, Declared.IsOwn d)
    (hassign : ∀ target value line, P (.assign target value line)) :
    Block.Everywhere P (ds.filterMap Prod.snd) := by
  induction ds with
  | nil => trivial
  | cons d ds ih =>
    obtain ⟨hd, hds⟩ := List.forall_mem_cons.1 h
    obtain ⟨v, _ | c⟩ := d
    · exact ih hds
    · obtain ⟨value, line, line', hc⟩ := hd c rfl
      refine ⟨?_, ih hds⟩
      rw [hc]
      exact hassign _ _ _

/-- What is true of assignments and of braces, and of each command that is read, is true of all
commands of a phrase that is read. -/
theorem Derives.everywhere (hassign : ∀ target value line, P (.assign target value line))
    (hbraces : ∀ body line, P (.block ⟨body, [], line⟩))
    (hcommand : ∀ ⦃k i x r c⦄ ⦃t t' : SymbolTable⦄, Derives .command k i x r →
      Category.command.resolve file x t = .ok (c, t') → P c)
    {N k i x r} (h : Derives N k i x r) {e : N.Resolved Variable} {t t' : SymbolTable}
    (he : N.resolve file x t = .ok (e, t')) : N.Everywhere P e := by
  induction h generalizing t t' with
  | unbraced _ h ih => exact ih he
  | printLine head opens closes stop =>
    have hp := hcommand (.printLine head opens closes stop) he
    obtain ⟨rfl, rfl⟩ := Prod.mk.inj (pure_eq_ok.1 he)
    exact hp
  | print head opens h closes stop =>
    have hp := hcommand (.print head opens h closes stop) he
    obtain ⟨a, -, rfl⟩ := bind_pure_eq_ok.1 he
    exact hp
  | assert head opens h closes stop =>
    have hp := hcommand (.assert head opens h closes stop) he
    obtain ⟨a, -, rfl⟩ := bind_pure_eq_ok.1 he
    exact hp
  | assertMessage head opens h comma h' closes stop =>
    have hp := hcommand (.assertMessage head opens h comma h' closes stop) he
    obtain ⟨a, t₁, b, -, -, rfl⟩ := bind_bind_pure_eq_ok.1 he
    exact hp
  | effect h stop =>
    obtain ⟨a, -, rfl⟩ := bind_pure_eq_ok.1 he
    exact hassign _ _ _
  | assignment h isTarget assign h' stop =>
    obtain ⟨a, t₁, b, -, -, rfl⟩ := bind_bind_pure_eq_ok.1 he
    exact hassign _ _ _
  | declaration final head mark h stop =>
    have hp := hcommand (.declaration final head mark h stop) he
    obtain ⟨ds, hds, rfl⟩ := h.resolve_declaration_eq_ok.1 he
    exact ⟨hp, Block.everywhere_of_isOwn (fun d hd => ((h.echoes hds).2 d hd).1) hassign⟩
  | conditional head opens h closes h' noElse ih ih' =>
    have hp := hcommand (.conditional head opens h closes h' noElse) he
    obtain ⟨c, t₁, b, -, hb, rfl⟩ := bind_bind_pure_eq_ok.1 he
    exact ⟨hp, ih' hb⟩
  | conditionalElse head opens h closes h' hasElse h'' ih ih' ih'' =>
    have hp := hcommand (.conditionalElse head opens h closes h' hasElse h'') he
    obtain ⟨c, t₁, -, he⟩ := bind_eq_ok.1 he
    obtain ⟨b, t₂, b', hb, hb', rfl⟩ := bind_bind_pure_eq_ok.1 he
    exact ⟨hp, ih' hb, ih'' hb'⟩
  | whileLoop head opens h closes h' ih ih' =>
    have hp := hcommand (.whileLoop head opens h closes h') he
    obtain ⟨c, t₁, b, -, hb, rfl⟩ := bind_bind_pure_eq_ok.1 he
    exact ⟨hp, ih' hb⟩
  | doWhileLoop head h separator opens h' closes stop ih ih' =>
    have hp := hcommand (.doWhileLoop head h separator opens h' closes stop) he
    obtain ⟨b, t₁, c, hb, -, rfl⟩ := bind_bind_pure_eq_ok.1 he
    exact ⟨hp, ih hb⟩
  | forLoop head opens name separator h closes h' ih ih' =>
    have hp := hcommand (.forLoop head opens name separator h closes h') he
    obtain ⟨c, t₁, v, t₂, b, t₃, -, -, hb, -, rfl⟩ := Command.resolve_each_eq_ok.1 he
    exact ⟨hp, ih' hb⟩
  | braced opens h closes ih =>
    obtain ⟨cs, t₁, hcs, rfl, rfl⟩ := Command.resolve_braces_eq_ok.1 he
    exact ⟨hbraces _ _, ih hcs⟩
  | noCode =>
    obtain ⟨rfl, rfl⟩ := Prod.mk.inj (pure_eq_ok.1 he)
    trivial
  | code h rest ih ih' =>
    obtain ⟨c, t₁, cs, hc, hcs, rfl⟩ := bind_bind_pure_eq_ok.1 he
    exact ⟨ih hc, ih' hcs⟩
  | _ => trivial

variable {k : Nat} {i r : Tape} {x : Command Mention} {c : Command Variable}
  {t t' : SymbolTable}

/-- A declaration that is read is names with their own initial values, all declared alike. -/
theorem Derives.inOrder (h : Derives .command k i x r)
    (hc : Category.command.resolve file x t = .ok (c, t')) : c.InOrder := by
  have hnames : c.relabel Variable.name id = x.relabel Mention.name id := h.resolve_sameNames hc
  cases c with
  | block b =>
    intro _
    cases h with
    | declaration final head mark h stop =>
      obtain ⟨ds, hds, hblock⟩ := h.resolve_declaration_eq_ok.1 hc
      cases hblock
      obtain ⟨-, hown⟩ := h.echoes hds
      refine ⟨fun v hv w hw => ?_, Declared.exists_assigned fun d hd => (hown d hd).1⟩
      obtain ⟨d, hd, rfl⟩ := List.mem_map.1 hv
      obtain ⟨d', hd', rfl⟩ := List.mem_map.1 hw
      obtain ⟨-, hconstant, hnullability⟩ := hown d hd
      obtain ⟨-, hconstant', hnullability'⟩ := hown d' hd'
      exact ⟨hconstant.trans hconstant'.symm, hnullability.trans hnullability'.symm⟩
    | _ => cases hnames
  | _ => trivial

/-- A conditional that is read keeps its `else`: one inside would have taken it. -/
theorem Derives.keepsElse (h : Derives .command k i x r)
    (hc : Category.command.resolve file x t = .ok (c, t')) : c.KeepsElse := by
  have hnames : c.relabel Variable.name id = x.relabel Mention.name id := h.resolve_sameNames hc
  cases c with
  | cond a b e line =>
    cases e with
    | none => trivial
    | some e =>
      cases h with
      | conditionalElse _ _ _ _ h' hasElse _ =>
        obtain ⟨-, hbody, -, -⟩ := Command.cond.inj hnames
        have hdangling := congrArg Command.hasDanglingIf hbody
        rw [Command.hasDanglingIf_relabel, Command.hasDanglingIf_relabel] at hdangling
        exact hdangling.trans (h'.noDangling hasElse)
      | conditional => cases (Command.cond.inj hnames).2.2.1
      | _ => cases hnames
  | _ => trivial

end

/-- A sentence whose names are resolved is a well-formed program that keeps each `else`. -/
theorem Sentence.wellFormed {text file : String} {mode : ScopeMode} {k : Nat}
    {cs : List (Command Mention)} {body : List (Command Variable)} {t : SymbolTable}
    (h : Sentence text k cs)
    (hr : Block.resolveAll file cs (SymbolTable.empty mode) = .ok (body, t)) :
    (Block.ofCode text body).WellFormed ∧ Block.Everywhere Command.KeepsElse body := by
  obtain ⟨r, hd, -⟩ := h
  have haccounts := Block.accountsAll file [] cs (.empty mode) hr
  have hin : Block.Everywhere Command.InOrder body :=
    hd.everywhere (fun _ _ _ => trivial) (fun _ _ h => absurd rfl h)
      (fun _ _ _ _ _ _ _ => Derives.inOrder) hr
  have hkeeps : Block.Everywhere Command.KeepsElse body :=
    hd.everywhere (fun _ _ _ => trivial) (fun _ _ => trivial)
      (fun _ _ _ _ _ _ _ => Derives.keepsElse) hr
  exact ⟨{ declares := rfl
           shaped := Block.shaped_of_resolved hd hr
           spellable := Block.spellable_of_resolved hd (Tape.isSpelled_ofText text) hr
           distinct := Block.distinct_of_declaredOnce body haccounts.declaredOnce
           inOrder := hin }, hkeeps⟩

/-- A program that is read is well formed, and each `else` in it is kept by its conditional. -/
theorem wellFormed_of_parse {text file : String} {mode : ScopeMode} {b : Block Variable}
    {p : Parser SymbolTable} (h : parseText text file mode = (.ok b, p)) :
    b.WellFormed ∧ Block.Everywhere Command.KeepsElse b.body := by
  rw [parseText_eq_read] at h
  obtain ⟨k, cs, body, -, hs, hr, rfl⟩ := exists_sentence_of_read h
  exact hs.wellFormed hr

/-- A declaration of which one name has a value, and conditionals in conditionals. -/
theorem wellFormed_of_parse_conditionals :
    ∃ b p, parseText ("final var a, b = [if (1) 2 else for (c in a) if (c) c];" ++
        "for (a in b) if (a) if (b) print(a[b]); else var c; else b[0][1] = 2;") "p" .lexical =
        (.ok b, p) ∧ b.WellFormed ∧ Block.Everywhere Command.KeepsElse b.body := by
  have hok : (parseText ("final var a, b = [if (1) 2 else for (c in a) if (c) c];" ++
      "for (a in b) if (a) if (b) print(a[b]); else var c; else b[0][1] = 2;") "p"
      .lexical).1.isOk = true := by
    decide +kernel
  obtain ⟨b, p, h⟩ := exists_parseText hok
  exact ⟨b, p, h, wellFormed_of_parse h⟩

end Scriptlet
