import Scriptlet.Proofs.Balance
import Scriptlet.Proofs.Consistency
import Scriptlet.Proofs.Soundness

/-!
# Where variables occur

A tree holds variables where the program uses a name, where a declaration lists what it
declares, and where a loop or a comprehension has its variable. This module relates all of
them to the table that the tree was read with: a variable in the tree is the declared one of
its slot, and every variable that was declared is bound somewhere in the tree.

## The model

`Block.occurrences` lists the variables of a tree, each with its `Role`. A table `Accounts`
for a list of occurrences if these are what the requests to it so far have put into the tree.
`Resolving.Accounts before c after` says that this goes on while `c` is computed.

## What is proved

* `SymbolTable.Accounts.declare`, `SymbolTable.Accounts.declareLoop` — what one declaration
  adds to the occurrences.
* `Command.accounts`, `Block.accounts` — resolving the names of a tree keeps account of them.
* `slots_of_parse` — the variables of a program that is read are those of its table.
-/

namespace Scriptlet

/-! ### Occurrences -/

/-- What a tree holds a variable for. -/
inductive Role where
  /-- The program uses its name. -/
  | use
  /-- A declaration lists it. -/
  | declaration
  /-- It is the variable of a loop or a comprehension. -/
  | loop
  deriving DecidableEq

/-- Variables of a tree, with what it holds them for. -/
abbrev Occurrences (ν : Type) : Type := List (Role × ν)

section

variable {ν : Type}

/-- The variables that are held for something. -/
def Occurrences.of (role : Role) (os : Occurrences ν) : List ν :=
  (os.filter fun o => o.1 = role).map Prod.snd

/-- The variables that are declared, by a declaration or a loop. -/
def Occurrences.bound (os : Occurrences ν) : List ν :=
  (os.filter fun o => o.1 ≠ .use).map Prod.snd

mutual

/-- The variables of an expression. -/
def Expr.occurrences : Expr ν → Occurrences ν
  | .const .. => []
  | .binary _ a b _ | .index a b _ => a.occurrences ++ b.occurrences
  | .unary _ a _ | .call _ a _ => a.occurrences
  | .var v _ => [(.use, v)]
  | .list es _ => Expr.occurrencesOfElements es
  | .map es _ => Expr.occurrencesOfEntries es

/-- The variables of an element of a list. -/
def Element.occurrences : Element ν → Occurrences ν
  | .single a | .spread a => a.occurrences
  | .cond c a none _ => c.occurrences ++ a.occurrences
  | .cond c a (some b) _ => c.occurrences ++ a.occurrences ++ b.occurrences
  | .each v a e _ => a.occurrences ++ [(.loop, v)] ++ e.occurrences

/-- The variables of each element. -/
def Expr.occurrencesOfElements : List (Element ν) → Occurrences ν
  | [] => []
  | e :: es => e.occurrences ++ Expr.occurrencesOfElements es

/-- The variables of each entry of a map. -/
def Expr.occurrencesOfEntries : List (Expr ν × Expr ν) → Occurrences ν
  | [] => []
  | (a, b) :: es => a.occurrences ++ b.occurrences ++ Expr.occurrencesOfEntries es

end

mutual

/-- The variables of a command. -/
def Command.occurrences : Command ν → Occurrences ν
  | .block b => b.occurrences
  | .assign none a _ | .print (some a) _ | .assert a none _ => a.occurrences
  | .assign (some t) a _ => t.toExpr.occurrences ++ a.occurrences
  | .print none _ => []
  | .assert a (some b) _ => a.occurrences ++ b.occurrences
  | .cond a b none _ | .whileDo a b _ => a.occurrences ++ b.occurrences
  | .cond a b (some c) _ => a.occurrences ++ b.occurrences ++ c.occurrences
  | .doWhile b a _ => b.occurrences ++ a.occurrences
  | .each v a b _ => a.occurrences ++ [(.loop, v)] ++ b.occurrences

/-- The variables of a block, with those that it declares. -/
def Block.occurrences : Block ν → Occurrences ν
  | ⟨body, declares, _⟩ =>
    declares.map (Prod.mk .declaration) ++ Block.occurrencesOfAll body

/-- The variables of each command. -/
def Block.occurrencesOfAll : List (Command ν) → Occurrences ν
  | [] => []
  | c :: cs => c.occurrences ++ Block.occurrencesOfAll cs

end

/-- The variables of the names of a declaration, each before those of its initial value. -/
def Block.occurrencesOfDeclarators : List (ν × Option (Command ν)) → Occurrences ν
  | [] => []
  | (v, none) :: ds => [(.declaration, v)] ++ Block.occurrencesOfDeclarators ds
  | (v, some c) :: ds =>
    [(.declaration, v)] ++ c.occurrences ++ Block.occurrencesOfDeclarators ds

/-- A declaration lists its names before all initial values. -/
theorem Block.perm_occurrences (ds : List (ν × Option (Command ν))) (line : Nat) :
    (Block.occurrencesOfDeclarators ds).Perm
      (Block.occurrences ⟨ds.filterMap Prod.snd, ds.map Prod.fst, line⟩) := by
  induction ds with
  | nil => exact .refl _
  | cons d ds ih =>
    obtain ⟨v, _ | c⟩ := d
    · exact ih.cons _
    · refine .cons _ ((List.Perm.append_left c.occurrences ih).trans ?_)
      exact List.perm_append_comm_assoc _ _ _

theorem Block.occurrencesOfDeclarators_append (ds ds' : List (ν × Option (Command ν))) :
    Block.occurrencesOfDeclarators (ds ++ ds') =
      Block.occurrencesOfDeclarators ds ++ Block.occurrencesOfDeclarators ds' := by
  induction ds with
  | nil => rfl
  | cons d ds ih =>
    obtain ⟨v, _ | c⟩ := d <;> simp [occurrencesOfDeclarators, ih]

end

/-! ### What a table accounts for -/

namespace SymbolTable

/-- What has been declared is what occurs in a tree. -/
structure Accounts (t : SymbolTable) (os : Occurrences Variable) : Prop where
  consistent : t.Consistent
  /-- What occurs is the declared variable of its slot. -/
  declared_of_mem : ∀ o ∈ os, t.declared[o.2.slot]? = some o.2
  /-- The variable of a loop can be assigned to. -/
  constant_of_loop : ∀ v ∈ os.of .loop, v.constant = false
  /-- In lexical mode each variable is bound once. -/
  lexical : t.mode = .lexical → (os.bound.map Variable.slot).Perm (List.range t.size)
  /-- In flat mode no variable is in two declarations. -/
  nodup : t.mode = .flat → ((os.of .declaration).map Variable.slot).Nodup
  /-- In flat mode each variable is in a declaration, or else in a loop. -/
  bound : t.mode = .flat → ∀ i < t.size,
    i ∈ (os.of .declaration).map Variable.slot ∨ i ∈ (os.of .loop).map Variable.slot

namespace Accounts

variable {t t' : SymbolTable} {os os' : Occurrences Variable} {name : String} {constant : Bool}
  {nullability : Nullability} {position : Position} {v : Variable}

theorem empty (mode : ScopeMode) : (SymbolTable.empty mode).Accounts [] where
  consistent := .empty mode
  declared_of_mem _ h := nomatch h
  constant_of_loop _ h := nomatch h
  lexical _ := .refl _
  nodup _ := List.nodup_nil
  bound _ _ h := nomatch h

/-- The order of occurrences does not matter. -/
theorem perm (h : t.Accounts os) (hp : os.Perm os') : t.Accounts os' where
  consistent := h.consistent
  declared_of_mem o ho := h.declared_of_mem o (hp.mem_iff.2 ho)
  constant_of_loop v hv := h.constant_of_loop v (((hp.filter _).map _).mem_iff.2 hv)
  lexical hm := (((hp.filter _).map _).map _).symm.trans (h.lexical hm)
  nodup hm := (((hp.filter _).map _).map _).nodup_iff.1 (h.nodup hm)
  bound hm i hi := (h.bound hm i hi).imp ((((hp.filter _).map _).map _).mem_iff.1)
    ((((hp.filter _).map _).map _).mem_iff.1)

/-- A table with the same variables, whatever scopes are open. -/
theorem of_declared (h : t.Accounts os) (hc : t'.Consistent) (hm : t'.mode = t.mode)
    (hd : t'.declared = t.declared) : t'.Accounts os where
  consistent := hc
  declared_of_mem := by
    rw [hd]
    exact h.declared_of_mem
  constant_of_loop := h.constant_of_loop
  lexical := by
    rw [hm, size, hd]
    exact h.lexical
  nodup := by
    rw [hm]
    exact h.nodup
  bound := by
    rw [hm, size, hd]
    exact h.bound

theorem enter (h : t.Accounts os) : t.enter.Accounts os := by
  refine h.of_declared h.consistent.enter (mode_enter t) ?_
  unfold SymbolTable.enter
  split <;> rfl

theorem leave (h : t.Accounts os) : t.leave.Accounts os := by
  refine h.of_declared h.consistent.leave (mode_leave t) ?_
  unfold SymbolTable.leave
  split <;> rfl

theorem slot_lt (h : t.Accounts os) {o : Role × Variable} (ho : o ∈ os) : o.2.slot < t.size :=
  (List.getElem?_eq_some_iff.1 (h.declared_of_mem o ho)).1

@[simp] theorem of_append_singleton (role role' : Role) :
    (os ++ [(role, v)]).of role' = os.of role' ++ if role = role' then [v] else [] := by
  simp only [Occurrences.of, List.filter_append, List.map_append]
  split <;> simp_all

@[simp] theorem bound_append_singleton (role : Role) :
    (os ++ [(role, v)]).bound = os.bound ++ if role = .use then [] else [v] := by
  simp only [Occurrences.bound, List.filter_append, List.map_append]
  split <;> simp_all

/-- A use of a variable. -/
theorem use (h : t.Accounts os) (hv : t.declared[v.slot]? = some v) :
    t.Accounts (os ++ [(.use, v)]) where
  consistent := h.consistent
  declared_of_mem o ho := by
    rcases List.mem_append.1 ho with ho | ho
    · exact h.declared_of_mem o ho
    · rw [List.mem_singleton.1 ho]
      exact hv
  constant_of_loop := by simpa using h.constant_of_loop
  lexical := by simpa using h.lexical
  nodup := by simpa using h.nodup
  bound := by simpa using h.bound

/-- One more variable that is bound. -/
theorem extended (h : t.Accounts os) (hname : t.innermost.find? v.name = none)
    (hslot : v.slot = t.size) {role : Role} (hrole : role ≠ .use)
    (hloop : role = .loop → v.constant = false) :
    (t.extended v).Accounts (os ++ [(role, v)]) where
  consistent := h.consistent.extended hname hslot
  declared_of_mem o ho := by
    change (t.declared ++ [v])[o.2.slot]? = some o.2
    rcases List.mem_append.1 ho with ho | ho
    · rw [List.getElem?_append_left (h.slot_lt ho)]
      exact h.declared_of_mem o ho
    · rw [List.mem_singleton.1 ho]
      exact hslot ▸ List.getElem?_concat_length
  constant_of_loop w hw := by
    rw [of_append_singleton, List.mem_append] at hw
    rcases hw with hw | hw
    · exact h.constant_of_loop w hw
    · split at hw
      next hr =>
        rw [List.mem_singleton.1 hw]
        exact hloop hr
      · cases hw
  lexical hm := by
    rw [bound_append_singleton, if_neg hrole, List.map_append, size_extended, List.range_succ]
    exact (h.lexical hm).append (by simp [hslot])
  nodup hm := by
    have hnew : t.size ∉ (os.of .declaration).map Variable.slot := by
      intro hmem
      obtain ⟨w, hw, hs⟩ := List.mem_map.1 hmem
      obtain ⟨o, ho, rfl⟩ := List.mem_map.1 hw
      exact Nat.lt_irrefl _ (hs ▸ h.slot_lt (List.mem_of_mem_filter ho))
    rw [of_append_singleton, List.map_append]
    refine List.nodup_append.2 ⟨h.nodup hm, by split <;> simp, fun i hi j hj => ?_⟩
    split at hj
    · rintro rfl
      rw [List.map_singleton, List.mem_singleton, hslot] at hj
      exact hnew (hj ▸ hi)
    · cases hj
  bound hm i hi := by
    rw [of_append_singleton, of_append_singleton, List.map_append, List.map_append,
      List.mem_append, List.mem_append]
    rw [size_extended] at hi
    rcases Nat.lt_succ_iff_lt_or_eq.1 hi with hi | rfl
    · exact (h.bound hm i hi).imp .inl .inl
    · cases role with
      | use => exact absurd rfl hrole
      | declaration => exact .inl (.inr (by simp [hslot]))
      | loop => exact .inr (.inr (by simp [hslot]))

theorem declare (h : t.Accounts os)
    (hd : t.declare name constant nullability position = .ok (v, t')) :
    t'.Accounts (os ++ [(.declaration, v)]) := by
  obtain ⟨hname, rfl, rfl⟩ := declare_eq_ok.1 hd
  exact h.extended hname rfl nofun nofun

/-- The variable of a loop that is taken over is one of the table already. -/
theorem loop (h : t.Accounts os) (hm : t.mode = .flat) (hv : t.declared[v.slot]? = some v)
    (hc : v.constant = false) : t.Accounts (os ++ [(.loop, v)]) where
  consistent := h.consistent
  declared_of_mem o ho := by
    rcases List.mem_append.1 ho with ho | ho
    · exact h.declared_of_mem o ho
    · rw [List.mem_singleton.1 ho]
      exact hv
  constant_of_loop w hw := by
    rw [of_append_singleton, if_pos rfl, List.mem_append, List.mem_singleton] at hw
    rcases hw with hw | rfl
    · exact h.constant_of_loop w hw
    · exact hc
  lexical hl := by
    rw [hm] at hl
    cases hl
  nodup := by simpa using h.nodup
  bound _ i hi := by
    rw [of_append_singleton, of_append_singleton, List.map_append, List.map_append,
      List.mem_append, List.mem_append]
    exact (h.bound hm i hi).imp .inl .inl

theorem declareLoop (h : t.Accounts os) (hd : t.declareLoop name position = .ok (v, t')) :
    t'.Accounts (os ++ [(.loop, v)]) := by
  rcases declareLoop_eq_ok.1 hd with ⟨hm, hl, hc, rfl⟩ | ⟨-, hd⟩
  · exact h.loop hm (h.consistent.declared_of_lookup? hl) hc
  · obtain ⟨hname, rfl, rfl⟩ := declare_eq_ok.1 hd
    exact h.extended hname rfl nofun fun _ => rfl

end Accounts

end SymbolTable

/-! ### Resolving -/

/-- While it is computed, a table that accounts for what was there before comes to account
for what is there after. -/
def Resolving.Accounts {α : Type} (before : Occurrences Variable)
    (c : Resolving SymbolTable α) (after : α → Occurrences Variable) : Prop :=
  ∀ ⦃s a s'⦄, s.Accounts before → c s = .ok (a, s') → s'.Accounts (after a)

namespace Resolving.Accounts

variable {α β : Type} {before : Occurrences Variable} {c : Resolving SymbolTable α}
  {f : α → Resolving SymbolTable β} {after : α → Occurrences Variable}
  {last : β → Occurrences Variable} {file : String} {m : Mention} {a : α}

theorem pure (h : before.Perm (after a)) : Accounts before (Pure.pure a) after := by
  intro s a s' hs he
  cases pure_eq_ok.1 he
  exact hs.perm h

theorem bind (hc : Accounts before c after) (hf : ∀ a, Accounts (after a) (f a) last) :
    Accounts before (c >>= f) last := by
  intro s b s' hs he
  obtain ⟨a, s₁, ha, hb⟩ := bind_eq_ok.1 he
  exact hf a (hc hs ha) hb

theorem inScope (hc : Accounts before c after) : Accounts before (inScope c) after := by
  intro s a s' hs he
  obtain ⟨a, s₁, ha, he⟩ := inScope_eq_ok.1 he
  cases he
  exact (hc hs.enter ha).leave

theorem resolve : Accounts before (m.resolve file) fun v => before ++ [(.use, v)] := by
  intro s v s' hs he
  unfold Mention.resolve at he
  cases hv : Scoping.resolve s m.name (m.position file) with
  | error d =>
    rw [hv] at he
    cases he
  | ok w =>
    rw [hv] at he
    cases he
    exact hs.use (hs.consistent.declared_of_lookup? (SymbolTable.resolve_eq_ok.1 hv))

theorem declare : Accounts before (m.declare file) fun v => before ++ [(.declaration, v)] :=
  fun _ _ _ hs he => hs.declare he

/-- The tree holds a name with an initial value once more, as what that is assigned to. -/
theorem declare_use :
    Accounts before (m.declare file) fun v => before ++ [(.declaration, v)] ++ [(.use, v)] := by
  intro s v s' hs he
  have ha := hs.declare he
  exact ha.use (ha.declared_of_mem (.declaration, v) (by simp))

theorem declareLoop : Accounts before (m.declareLoop file) fun v => before ++ [(.loop, v)] :=
  fun _ _ _ hs he => hs.declareLoop he

end Resolving.Accounts

section

open Resolving.Accounts

variable (file : String)

mutual

/-- Resolving the names of an expression keeps account of them. -/
theorem Expr.accounts (before : Occurrences Variable) (e : Expr Mention) :
    Resolving.Accounts before (e.resolve file) fun t => before ++ t.occurrences := by
  cases e with
  | const value line => exact pure (by simp [Expr.occurrences])
  | binary op a b line =>
    refine bind (Expr.accounts before a) fun a => bind (Expr.accounts _ b) fun b => ?_
    exact pure (by simp [Expr.occurrences])
  | unary op a line =>
    exact bind (Expr.accounts before a) fun a => pure (by simp [Expr.occurrences])
  | call function a line =>
    exact bind (Expr.accounts before a) fun a => pure (by simp [Expr.occurrences])
  | var m line => exact bind resolve fun v => pure (by simp [Expr.occurrences])
  | index a b line =>
    refine bind (Expr.accounts before a) fun a => bind (Expr.accounts _ b) fun b => ?_
    exact pure (by simp [Expr.occurrences])
  | list es line =>
    exact bind (Expr.accountsElements before es) fun es => pure (by simp [Expr.occurrences])
  | map es line =>
    exact bind (Expr.accountsEntries before es) fun es => pure (by simp [Expr.occurrences])

/-- Resolving the names of an element keeps account of them. -/
theorem Element.accounts (before : Occurrences Variable) (e : Element Mention) :
    Resolving.Accounts before (e.resolve file) fun t => before ++ t.occurrences := by
  cases e with
  | single a =>
    exact bind (Expr.accounts before a) fun a => pure (by simp [Element.occurrences])
  | spread a =>
    exact bind (Expr.accounts before a) fun a => pure (by simp [Element.occurrences])
  | cond c a b line =>
    cases b with
    | none =>
      refine bind (Expr.accounts before c) fun c => bind (Element.accounts _ a) fun a => ?_
      exact pure (by simp [Element.occurrences])
    | some b =>
      refine bind (Expr.accounts before c) fun c => bind (Element.accounts _ a) fun a => ?_
      exact bind (Element.accounts _ b) fun b => pure (by simp [Element.occurrences])
  | each m a e line =>
    refine bind (Expr.accounts before a) fun a => ?_
    have hloop : Resolving.Accounts (before ++ a.occurrences) (Resolving.inScope do
        let v ← m.declareLoop file
        let e ← e.resolve file
        Pure.pure (v, e)) fun x => before ++ a.occurrences ++ [(.loop, x.1)] ++ x.2.occurrences :=
      inScope (bind declareLoop fun v => bind (Element.accounts _ e) fun e => pure (.refl _))
    exact bind hloop fun x => pure (by simp [Element.occurrences])

/-- Resolving the names of elements keeps account of them. -/
theorem Expr.accountsElements (before : Occurrences Variable) (es : List (Element Mention)) :
    Resolving.Accounts before (Expr.resolveElements file es)
      fun ts => before ++ Expr.occurrencesOfElements ts := by
  cases es with
  | nil => exact pure (by simp [Expr.occurrencesOfElements])
  | cons e es =>
    refine bind (Element.accounts before e) fun e => bind (Expr.accountsElements _ es) fun es => ?_
    exact pure (by simp [Expr.occurrencesOfElements])

/-- Resolving the names of entries keeps account of them. -/
theorem Expr.accountsEntries (before : Occurrences Variable)
    (es : List (Expr Mention × Expr Mention)) :
    Resolving.Accounts before (Expr.resolveEntries file es)
      fun ts => before ++ Expr.occurrencesOfEntries ts := by
  cases es with
  | nil => exact pure (by simp [Expr.occurrencesOfEntries])
  | cons e es =>
    refine bind (Expr.accounts before e.1) fun a => bind (Expr.accounts _ e.2) fun b => ?_
    exact bind (Expr.accountsEntries _ es) fun es => pure (by simp [Expr.occurrencesOfEntries])

end

theorem Target.accounts (before : Occurrences Variable) (t : Target Mention) :
    Resolving.Accounts before (t.resolve file) fun t => before ++ t.toExpr.occurrences := by
  cases t with
  | var m line => exact bind Resolving.Accounts.resolve fun v => pure (.refl _)
  | index a b line =>
    refine bind (Expr.accounts file before a) fun a => bind (Expr.accounts file _ b) fun b => ?_
    exact pure (by simp [Target.toExpr, Expr.occurrences])

theorem Block.accountsDeclared (before : Occurrences Variable) (ms : List Mention) :
    Resolving.Accounts before (Block.declareAll file ms)
      fun ds => before ++ Block.occurrencesOfDeclarators ds := by
  induction ms generalizing before with
  | nil => exact pure (.of_eq (List.append_nil before).symm)
  | cons m ms ih =>
    refine bind declare fun v => bind (ih _) fun ds => ?_
    exact pure (by simp [Block.occurrencesOfDeclarators])

mutual

/-- Resolving the names of a command keeps account of them. -/
theorem Command.accounts (before : Occurrences Variable) (c : Command Mention) :
    Resolving.Accounts before (c.resolve file) fun t => before ++ t.occurrences := by
  cases c with
  | block b => exact bind (Block.accounts before b) fun b => pure (by simp [Command.occurrences])
  | assign t a line =>
    cases t with
    | none =>
      exact bind (Expr.accounts file before a) fun a => pure (by simp [Command.occurrences])
    | some t =>
      refine bind (Target.accounts file before t) fun t => bind (Expr.accounts file _ a) fun a => ?_
      exact pure (by simp [Command.occurrences])
  | print a line =>
    cases a with
    | none => exact pure (by simp [Command.occurrences])
    | some a =>
      exact bind (Expr.accounts file before a) fun a => pure (by simp [Command.occurrences])
  | assert a b line =>
    cases b with
    | none =>
      exact bind (Expr.accounts file before a) fun a => pure (by simp [Command.occurrences])
    | some b =>
      refine bind (Expr.accounts file before a) fun a => bind (Expr.accounts file _ b) fun b => ?_
      exact pure (by simp [Command.occurrences])
  | cond a b c line =>
    cases c with
    | none =>
      refine bind (Expr.accounts file before a) fun a => bind (Command.accounts _ b) fun b => ?_
      exact pure (by simp [Command.occurrences])
    | some c =>
      refine bind (Expr.accounts file before a) fun a => bind (Command.accounts _ b) fun b => ?_
      exact bind (Command.accounts _ c) fun c => pure (by simp [Command.occurrences])
  | whileDo a b line =>
    refine bind (Expr.accounts file before a) fun a => bind (Command.accounts _ b) fun b => ?_
    exact pure (by simp [Command.occurrences])
  | doWhile b a line =>
    refine bind (Command.accounts before b) fun b => bind (Expr.accounts file _ a) fun a => ?_
    exact pure (by simp [Command.occurrences])
  | each m a b line =>
    refine bind (Expr.accounts file before a) fun a => ?_
    have hloop : Resolving.Accounts (before ++ a.occurrences) (Resolving.inScope do
        let v ← m.declareLoop file
        let b ← b.resolve file
        Pure.pure (v, b)) fun x => before ++ a.occurrences ++ [(.loop, x.1)] ++ x.2.occurrences :=
      inScope (bind declareLoop fun v => bind (Command.accounts _ b) fun b => pure (.refl _))
    exact bind hloop fun x => pure (by simp [Command.occurrences])

/-- Resolving the names of a block keeps account of them. -/
theorem Block.accounts (before : Occurrences Variable) (b : Block Mention) :
    Resolving.Accounts before (b.resolve file) fun t => before ++ t.occurrences := by
  obtain ⟨body, declares, line⟩ := b
  cases declares with
  | nil =>
    refine bind (inScope (Block.accountsAll before body)) fun body => ?_
    exact pure (by simp [Block.occurrences])
  | cons m ms =>
    refine bind (Block.accountsDeclaration before (m :: ms) body) fun ds => ?_
    exact pure ((Block.perm_occurrences ds line).append_left before)

/-- Resolving the names of commands keeps account of them. -/
theorem Block.accountsAll (before : Occurrences Variable) (cs : List (Command Mention)) :
    Resolving.Accounts before (Block.resolveAll file cs)
      fun ts => before ++ Block.occurrencesOfAll ts := by
  cases cs with
  | nil => exact pure (by simp [Block.occurrencesOfAll])
  | cons c cs =>
    refine bind (Command.accounts before c) fun c => bind (Block.accountsAll _ cs) fun cs => ?_
    exact pure (by simp [Block.occurrencesOfAll])

/-- Resolving the names of a declaration keeps account of them. -/
theorem Block.accountsDeclaration (before : Occurrences Variable) (ms : List Mention)
    (cs : List (Command Mention)) :
    Resolving.Accounts before (Block.resolveDeclaration file ms cs)
      fun ds => before ++ Block.occurrencesOfDeclarators ds := by
  cases cs with
  | nil => exact Block.accountsDeclared file before ms
  | cons c cs =>
    cases c with
    | assign t a line =>
      cases t with
      | none => exact Block.accountsDeclaration before ms cs
      | some t =>
        cases t with
        | index => exact Block.accountsDeclaration before ms cs
        | var m l =>
          refine bind (Block.accountsDeclared file before _) fun ds => bind declare_use fun v => ?_
          refine bind (Expr.accounts file _ a) fun a => ?_
          refine bind (Block.accountsDeclaration _ _ cs) fun ds' => pure (.of_eq ?_)
          rw [Block.occurrencesOfDeclarators_append]
          simp [Block.occurrencesOfDeclarators, Command.occurrences, Target.toExpr,
            Expr.occurrences]
    | _ => exact Block.accountsDeclaration before ms cs

end

end

/-! ### Programs -/

/-- The table that a program is read with accounts for the variables of its tree. -/
theorem accounts_of_parse {source : TokenSource} {file : String} {mode : ScopeMode}
    {b : Block Variable} {p : Parser SymbolTable} (h : parse source file mode = (.ok b, p)) :
    p.symbols.Accounts b.occurrences ∧ p.symbols.mode = mode := by
  obtain ⟨m, s, rfl, cs, r, ⟨k, x, -, -, hr⟩, -, -, rfl⟩ :=
    Grammar.program_gives (Parser.start source file (SymbolTable.empty mode) .standard) rfl b p h
  have hb := Rule.Balanced.program (Parser.start source file (SymbolTable.empty mode) .standard)
  rw [show Grammar.program _ = _ from h] at hb
  exact ⟨Block.accountsAll file [] x (.empty mode) hr, hb.symbols.mode⟩

/-- The variables of a program that is read are those of its table. Wherever the tree holds a
variable, that is the declared one of its slot, and a loop has no constant one. In lexical mode
each slot is bound once. In flat mode no name is declared twice, and each slot is in one
declaration and no other, or in none but in some loop. -/
theorem slots_of_parse {source : TokenSource} {file : String} {mode : ScopeMode}
    {b : Block Variable} {p : Parser SymbolTable} (h : parse source file mode = (.ok b, p)) :
    (∀ o ∈ b.occurrences, p.symbols.declared[o.2.slot]? = some o.2) ∧
      (∀ v ∈ b.occurrences.of .loop, v.constant = false) ∧
      (mode = .lexical → ∀ i < p.symbols.size,
        (b.occurrences.bound.map Variable.slot).count i = 1) ∧
      (mode = .flat → (p.symbols.declared.map Variable.name).Nodup ∧ ∀ i < p.symbols.size,
        ((b.occurrences.of .declaration).map Variable.slot).count i = 1 ∨
          ((b.occurrences.of .declaration).map Variable.slot).count i = 0 ∧
            i ∈ (b.occurrences.of .loop).map Variable.slot) := by
  obtain ⟨ha, rfl⟩ := accounts_of_parse h
  refine ⟨ha.declared_of_mem, ha.constant_of_loop, fun hm i hi => ?_, fun hm =>
    ⟨(ha.consistent.names_of_flat hm).2, fun i hi => ?_⟩⟩
  · rw [(ha.lexical hm).count_eq]
    exact List.count_eq_one_of_mem List.nodup_range (List.mem_range.2 hi)
  · by_cases hd : i ∈ (b.occurrences.of .declaration).map Variable.slot
    · exact .inl (List.count_eq_one_of_mem (ha.nodup hm) hd)
    · exact .inr ⟨List.count_eq_zero.2 hd, (ha.bound hm i hi).resolve_left hd⟩

/-- Three variables of one name, two of them of loops that run over the one outside. -/
theorem slots_of_parse_shadowing :
    ∃ b p, parse (.ofText "var a; for (a in [for (a in [a]) a]) print(a);") "p" .lexical =
        (.ok b, p) ∧ p.symbols.size = 3 ∧
      (∀ o ∈ b.occurrences, p.symbols.declared[o.2.slot]? = some o.2) ∧
      ∀ i < 3, (b.occurrences.bound.map Variable.slot).count i = 1 := by
  have hok : ((parse (.ofText "var a; for (a in [for (a in [a]) a]) print(a);") "p"
      .lexical).1.isOk && (parse (.ofText "var a; for (a in [for (a in [a]) a]) print(a);") "p"
      .lexical).2.symbols.size == 3) = true := by
    decide +kernel
  rw [Bool.and_eq_true, beq_iff_eq] at hok
  rcases hb : parse (.ofText "var a; for (a in [for (a in [a]) a]) print(a);") "p" .lexical with
    ⟨b | b, p⟩
  · rw [hb] at hok
    cases hok.1
  · obtain ⟨hheld, -, hlexical, -⟩ := slots_of_parse hb
    rw [hb] at hok
    exact ⟨b, p, rfl, hok.2, hheld, hok.2 ▸ hlexical rfl⟩

end Scriptlet
