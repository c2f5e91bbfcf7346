import Scriptlet.Proofs.Relabel
import Scriptlet.Proofs.Sentences

/-!
# Reading first, and resolving afterwards

The rules of the grammar resolve names as they read them. They can also be run with a
table that takes every name: a `Tally`, which knows only how many names have been
declared. What they read then is a program with its mentions. Resolving that tree
afterwards, in the order of the text, gives what reading with a symbol table gives at
once: the same tree, the same table and the same first diagnostic.

A tree tells by itself which name of a declaration an initial value is for only because
the mentions of a declaration have different numbers, and whether a name is constant or
may be null only because mentions keep that too.

## What is proved

* `Derives.sameMeaning` — numbering names anew does not change what a tree resolves to.
* `parseText_eq_resolveProgram` — reading at once is reading first and resolving
  afterwards.
* `not_resolvable_by_name` — mentions with names and lines alone would not do.
-/

namespace Scriptlet

open Resolving

/-! ### Reading with no names known -/

/-- How many names have been declared. -/
structure Tally where
  /-- Their number. -/
  declared : Nat

/-- Every name is taken, and stands for its mention. -/
instance : Scoping Tally Mention where
  enter := id
  leave := id
  declare t name constant nullability position :=
    .ok (⟨name, position.line, constant, nullability, t.declared⟩, ⟨t.declared + 1⟩)
  declareLoop t name position := .ok (⟨name, position.line, false, .safe, 0⟩, t)
  resolve _ name position := .ok ⟨name, position.line, false, .safe, 0⟩

/-- Reads a program from its text, with its mentions. -/
def parseMentions (text file : String) : Except Diagnostic (Block Mention) × Parser Tally :=
  read text file ⟨0⟩

/-- Resolves the names of a program. -/
def Block.resolveProgram (b : Block Mention) (file : String) (mode : ScopeMode) :
    Except Diagnostic (Block Variable × SymbolTable) :=
  (Block.resolveAll file b.body (SymbolTable.empty mode)).map fun (body, table) =>
    (⟨body, [], b.line⟩, table)

@[simp] theorem enter_tally (t : Tally) : Scoping.enter t = t := rfl

@[simp] theorem leave_tally (t : Tally) : Scoping.leave t = t := rfl

section

variable {σ ν : Type} [Scoping σ ν] {file : String} {m v : Mention} {t t' : Tally}

theorem Mention.resolve_tally (h : m.resolve file t = .ok (v, t')) :
    (m.resolve file : Resolving σ ν) = v.resolve file ∧ t' = t := by
  obtain ⟨rfl, rfl⟩ := Prod.mk.inj (Except.ok.inj h)
  exact ⟨rfl, rfl⟩

theorem Mention.declareLoop_tally (h : m.declareLoop file t = .ok (v, t')) :
    (m.declareLoop file : Resolving σ ν) = v.declareLoop file ∧ t' = t := by
  obtain ⟨rfl, rfl⟩ := Prod.mk.inj (Except.ok.inj h)
  exact ⟨rfl, rfl⟩

theorem Mention.declare_tally (h : m.declare file t = .ok (v, t')) :
    (m.declare file : Resolving σ ν) = v.declare file ∧ v.line = m.line ∧
      v.number = t.declared ∧ t'.declared = t.declared + 1 := by
  obtain ⟨rfl, rfl⟩ := Prod.mk.inj (Except.ok.inj h)
  exact ⟨rfl, rfl, rfl, rfl⟩

end

/-! ### Numbering anew -/

section

variable (σ : Type) {ν : Type} [Scoping σ ν] (file : String)

/-- A phrase `x` that is read with a tally from `t` to `t'` as `e` resolves to the same
as `e`, in every table. The names of a declaration are numbered in order. -/
def Category.SameMeaning (t t' : Tally) : (N : Category) → N.Tree → N.Resolved Mention → Prop
  | expr _, x, e => t.declared ≤ t'.declared ∧
    (x.resolve file : Resolving σ (Expr ν)) = e.resolve file
  | operations _, x, e => t.declared ≤ t'.declared ∧
    (Expr.resolveOperations file x : Resolving σ (List (BinaryOp × Expr ν × Nat))) =
      Expr.resolveOperations file e
  | subscripts, x, e => t.declared ≤ t'.declared ∧
    (Expr.resolveSubscripts file x : Resolving σ (List (Expr ν × Nat))) =
      Expr.resolveSubscripts file e
  | element, x, e => t.declared ≤ t'.declared ∧
    (x.resolve file : Resolving σ (Element ν)) = e.resolve file
  | elements, x, e => t.declared ≤ t'.declared ∧
    (Expr.resolveElements file x : Resolving σ (List (Element ν))) = Expr.resolveElements file e
  | entries, x, e => t.declared ≤ t'.declared ∧
    (Expr.resolveEntries file x : Resolving σ (List (Expr ν × Expr ν))) =
      Expr.resolveEntries file e
  | declarator _ _ _, x, e => ∃ d : Declarator, e = (d.1, d.assignment?) ∧
    d.1.number = t.declared ∧ t.declared < t'.declared ∧
    (x.resolve file : Resolving σ (ν × Option (Command ν))) = d.resolve file
  | declarators _ _ _, xs, es => ∃ ds : List Declarator,
    es = ds.map (fun d => (d.1, d.assignment?)) ∧ ds ≠ [] ∧ t.declared ≤ t'.declared ∧
    (ds.map fun d => d.1.number).Nodup ∧ (∀ d ∈ ds, t.declared ≤ d.1.number) ∧
    (Declarator.resolveAll file xs : Resolving σ (List (ν × Option (Command ν)))) =
      Declarator.resolveAll file ds
  | command, x, e | body, x, e => t.declared ≤ t'.declared ∧
    (x.resolve file : Resolving σ (Command ν)) = e.resolve file
  | code, x, e => t.declared ≤ t'.declared ∧
    (Block.resolveAll file x : Resolving σ (List (Command ν))) = Block.resolveAll file e

variable {σ file} {t t' : Tally}

theorem declarator_sameMeaning {m : Mention} {e : Option (Expr Mention)} {constant : Bool}
    {nullability : Nullability} {number : Nat} {r : Mention × Option (Command Mention)}
    (he : ∀ x ∈ e, ∀ {t t' : Tally} {x'}, x.resolve file t = .ok (x', t') →
      (Category.expr .expression).SameMeaning σ file t t' x x')
    (h : Declarator.resolve file (m, e) t = .ok (r, t')) :
    (Category.declarator constant nullability number).SameMeaning σ file t t' (m, e) r := by
  obtain ⟨v, t₁, hv, h⟩ := bind_eq_ok.1 h
  obtain ⟨hm, hline, hnumber, ht⟩ := Mention.declare_tally (σ := σ) hv
  cases e with
  | none =>
    obtain ⟨rfl, rfl⟩ := Prod.mk.inj (pure_eq_ok.1 h)
    refine ⟨(v, none), rfl, hnumber, by omega, ?_⟩
    simp only [Declarator.resolve, hm]
  | some x =>
    obtain ⟨x', hx, rfl⟩ := bind_pure_eq_ok.1 h
    obtain ⟨hle, hx⟩ := he x rfl hx
    refine ⟨(v, some x'), ?_, hnumber, by omega, ?_⟩
    · simp [Declarator.assignment?, hline]
    · simp only [Declarator.resolve, hm, hx, hline]

/-- Numbering names anew does not change what a phrase resolves to. -/
theorem Derives.sameMeaning {N k i x r} (h : Derives N k i x r) {e : N.Resolved Mention}
    (he : N.resolve file x t = .ok (e, t')) : N.SameMeaning σ file t t' x e := by
  induction h generalizing t t' with
  | expression h ih | unsigned h ih | factor h ih | primary h ih | parenthesized _ h _ ih
  | place h ih | unbraced _ h ih => exact ih he
  | level left h chains ih ih' =>
    obtain ⟨a, t₁, ops, ha, hops, rfl⟩ := Expr.resolve_operated_eq_ok.1 he
    obtain ⟨hle, ha⟩ := ih ha
    obtain ⟨hle', hops⟩ := ih' hops
    refine ⟨Nat.le_trans hle hle', ?_⟩
    rw [Expr.resolve_operated, Expr.resolve_operated, ha, hops]
  | named head h ih =>
    obtain ⟨v, t₁, subs, hv, hsubs, rfl⟩ := Expr.resolve_place_eq_ok.1 he
    obtain ⟨hm, rfl⟩ := Mention.resolve_tally (σ := σ) hv
    obtain ⟨hle, hsubs⟩ := ih hsubs
    refine ⟨hle, ?_⟩
    rw [Expr.resolve_subscripted, Expr.resolve_subscripted, Expr.resolve, Expr.resolve, hm, hsubs]
  | elementFor head opens name separator h closes h' ih ih' =>
    obtain ⟨c, t₁, v, t₂, x, t₃, hc, hv, hx, rfl, rfl⟩ := Element.resolve_each_eq_ok.1 he
    obtain ⟨hm, rfl⟩ := Mention.declareLoop_tally (σ := σ) hv
    obtain ⟨hle, hc⟩ := ih hc
    obtain ⟨hle', hx⟩ := ih' hx
    refine ⟨Nat.le_trans hle hle', ?_⟩
    simp only [Element.resolve, hc, hm, hx]
  | forLoop head opens name separator h closes h' ih ih' =>
    obtain ⟨c, t₁, v, t₂, b, t₃, hc, hv, hb, rfl, rfl⟩ := Command.resolve_each_eq_ok.1 he
    obtain ⟨hm, rfl⟩ := Mention.declareLoop_tally (σ := σ) hv
    obtain ⟨hle, hc⟩ := ih hc
    obtain ⟨hle', hb⟩ := ih' hb
    refine ⟨Nat.le_trans hle hle', ?_⟩
    simp only [Command.resolve, hc, hm, hb]
  | declarator name =>
    exact declarator_sameMeaning (fun x hx => by cases hx) he
  | initialized name assign h ih =>
    refine declarator_sameMeaning (fun x hx => ?_) he
    cases hx
    exact ih
  | lastDeclarator h ih =>
    obtain ⟨d, hd, rfl⟩ := bind_pure_eq_ok.1 he
    obtain ⟨d', rfl, hnumber, hlt, hd⟩ := ih hd
    refine ⟨[d'], rfl, by simp, by omega, by simp, by simp [hnumber], ?_⟩
    simp only [Declarator.resolveAll, hd]
  | declarators h comma rest ih ih' =>
    obtain ⟨d, t₁, ds, hd, hds, rfl⟩ := bind_bind_pure_eq_ok.1 he
    obtain ⟨d', rfl, hnumber, hlt, hd⟩ := ih hd
    obtain ⟨ds', rfl, -, hle, hnodup, hds', hds⟩ := ih' hds
    refine ⟨d' :: ds', rfl, by simp, by omega, ?_, ?_, ?_⟩
    · refine List.nodup_cons.2 ⟨fun hmem => ?_, hnodup⟩
      obtain ⟨d, hmem, heq⟩ := List.mem_map.1 hmem
      have hle := hds' d hmem
      simp only at heq
      omega
    · intro d hd
      rcases List.mem_cons.1 hd with rfl | hd
      · omega
      · have := hds' d hd
        omega
    · simp only [Declarator.resolveAll, hd, hds]
  | declaration final head mark h stop ih =>
    obtain ⟨es, hes, rfl⟩ := h.resolve_declaration_eq_ok.1 he
    obtain ⟨ds, rfl, hne, hle, hnodup, -, hds⟩ := ih hes
    refine ⟨hle, ?_⟩
    have hblock (line : Nat) : (⟨(ds.map fun d => (d.1, d.assignment?)).filterMap Prod.snd,
        (ds.map fun d => (d.1, d.assignment?)).map Prod.fst, line⟩ : Block Mention) =
        .ofDeclarators ds line := by
      simp [Block.ofDeclarators, List.filterMap_map, Function.comp_def]
    rw [Command.resolve, Command.resolve, hblock, h.resolve_ofDeclarators,
      Block.resolve_ofDeclarators file hne hnodup, hds]
  | assignment h isTarget assign h' stop ih ih' =>
    obtain ⟨target', t₁, value, ha, hvalue, rfl⟩ := (Command.resolve_assign_eq_ok isTarget).1 he
    obtain ⟨hle, hplace⟩ := ih ha
    obtain ⟨hle', hvalue⟩ := ih' hvalue
    refine ⟨Nat.le_trans hle hle', ?_⟩
    rw [Command.resolve_assign file isTarget,
      Command.resolve_assign file (Target.target?_toExpr target'), hplace, hvalue]
  | _ =>
    simp only [Category.resolve, Expr.resolve, Element.resolve, Command.resolve, Block.resolve,
      Expr.resolveElements, Expr.resolveEntries, Block.resolveAll, Expr.resolveOperations,
      Expr.resolveSubscripts, bind_eq_ok, pure_eq_ok, inScope_eq_ok, enter_tally, leave_tally,
      Prod.mk.injEq, Category.SameMeaning] at *
    grind [Expr.resolve, Element.resolve, Command.resolve, Expr.resolveElements,
      Expr.resolveEntries, Block.resolve, Block.resolveAll, Expr.resolveOperations,
      Expr.resolveSubscripts]

end

/-! ### Programs -/

/-- Reading a program and resolving its names at once gives what reading it with its
mentions and resolving them afterwards does: the same tree and the same table, or the
same diagnostic. -/
theorem parseText_eq_resolveProgram {text file : String} {mode : ScopeMode} {e : Block Mention}
    (h : (parseMentions text file).1 = .ok e) :
    (parseText text file mode).1.map (·, (parseText text file mode).2.symbols) =
      e.resolveProgram file mode := by
  obtain ⟨k, x, body, hk, hx, hr, rfl⟩ := exists_sentence_of_read (Prod.ext h rfl)
  obtain ⟨r, hd, -⟩ := id hx
  obtain ⟨-, hsame⟩ := hd.sameMeaning (σ := SymbolTable) hr
  rw [parseText_eq_read, Block.resolveProgram, Block.ofCode, ← hsame]
  exact read_eq_of_sentence hx hk

/-- A loop whose variable hides the list that it runs over. -/
theorem parseText_eq_resolveProgram_shadowing :
    ∃ e, (parseMentions "var a = []; for (a in a) print(a);" "p").1 = .ok e ∧
      (parseText "var a = []; for (a in a) print(a);" "p" .lexical).1.map
        (·, (parseText "var a = []; for (a in a) print(a);" "p" .lexical).2.symbols) =
        e.resolveProgram "p" .lexical := by
  have hok : (parseMentions "var a = []; for (a in a) print(a);" "p").1.isOk = true := by
    decide +kernel
  cases he : (parseMentions "var a = []; for (a in a) print(a);" "p").1 with
  | error d =>
    rw [he] at hok
    cases hok
  | ok e => exact ⟨e, rfl, parseText_eq_resolveProgram he⟩

/-! ### What a tree must keep -/

/-- Resolving afterwards is possible if trees keep of a mention what `keep` gives. -/
def Resolvable {κ : Type} (keep : Mention → κ) : Prop :=
  ∃ resolver : Block κ → String → ScopeMode → Except Diagnostic (Block Variable × SymbolTable),
    ∀ text file mode e, (parseMentions text file).1 = .ok e →
      (parseText text file mode).1.map (·, (parseText text file mode).2.symbols) =
        resolver (e.relabel keep id) file mode

/-- Two sentences that are the same to `keep`, and that are read to different tables or
diagnostics. -/
theorem not_resolvable_of_sentences {κ : Type} {keep : Mention → κ} {text text' : String}
    {k k' : Nat} {cs cs' es es' : List (Command Mention)} {t t' : Tally}
    (h : Sentence text k cs) (hk : k ≤ maxDepth)
    (he : Block.resolveAll "" cs (⟨0⟩ : Tally) = .ok (es, t))
    (h' : Sentence text' k' cs') (hk' : k' ≤ maxDepth)
    (he' : Block.resolveAll "" cs' (⟨0⟩ : Tally) = .ok (es', t'))
    (same : (Block.ofCode text es).relabel keep id = (Block.ofCode text' es').relabel keep id)
    (differ : (Block.resolveAll "" cs (SymbolTable.empty .flat)).map Prod.snd ≠
      (Block.resolveAll "" cs' (SymbolTable.empty .flat)).map Prod.snd) : ¬ Resolvable keep := by
  rintro ⟨resolver, hr⟩
  have hm := hr text "" .flat _ (read_ok_of_sentence h hk he)
  have hm' := hr text' "" .flat _ (read_ok_of_sentence h' hk' he')
  rw [parseText_eq_read, read_eq_of_sentence h hk] at hm
  rw [parseText_eq_read, read_eq_of_sentence h' hk', ← same, ← hm] at hm'
  have hsnd := congrArg (Except.map Prod.snd) hm'
  refine differ ?_
  cases hc : Block.resolveAll "" cs (SymbolTable.empty .flat) <;>
    cases hc' : Block.resolveAll "" cs' (SymbolTable.empty .flat) <;>
    rw [hc, hc'] at hsnd <;> exact hsnd.symm

section

/-- Readings on the first line. -/
def Tape.onFirstLine (hand : TokenKind × String) (coming : List (TokenKind × String)) : Tape :=
  ⟨⟨⟨hand.1, hand.2, 1⟩, 1⟩, coming.map fun t => ⟨⟨t.1, t.2, 1⟩, 1⟩⟩

/-- A declaration of `x` twice on the first line, with initial values. -/
def declareTwice (first second : Option (Expr Mention)) : List (Command Mention) :=
  [.block (.ofDeclarators [(⟨"x", 1, false, .safe, 0⟩, first), (⟨"x", 1, false, .safe, 1⟩, second)]
    1)]

theorem sentence_useBefore :
    Sentence "var x = y, x;" 2 (declareTwice (some (.var ⟨"y", 1, false, .safe, 0⟩ 1)) none) := by
  have ht : Tape.ofText "var x = y, x;" = .onFirstLine (.keyword .varWord, "var")
      [(.name, "x"), (.symbol .assign, "="), (.name, "y"), (.symbol .comma, ","), (.name, "x"),
        (.symbol .semicolon, ";"), (.endOfInput, "")] := by decide +kernel
  unfold Sentence
  rw [ht]
  exact ⟨_, .code (.declaration .absent rfl .absent
    (.declarators (.initialized rfl rfl (.expression_of_place (.named rfl .noSubscript))) rfl
      (.lastDeclarator (.declarator rfl))) rfl) .noCode, rfl⟩

theorem sentence_useBehind :
    Sentence "var x, x = y;" 2 (declareTwice none (some (.var ⟨"y", 1, false, .safe, 0⟩ 1))) := by
  have ht : Tape.ofText "var x, x = y;" = .onFirstLine (.keyword .varWord, "var")
      [(.name, "x"), (.symbol .comma, ","), (.name, "x"), (.symbol .assign, "="), (.name, "y"),
        (.symbol .semicolon, ";"), (.endOfInput, "")] := by decide +kernel
  unfold Sentence
  rw [ht]
  exact ⟨_, .code (.declaration .absent rfl .absent
    (.declarators (.declarator rfl) rfl (.lastDeclarator (.initialized rfl rfl
      (.expression_of_place (.named rfl .noSubscript))))) rfl) .noCode, rfl⟩

/-- A declaration of `x` on the first line. -/
def declareOnce (constant : Bool) : List (Command Mention) :=
  [.block (.ofDeclarators [(⟨"x", 1, constant, .safe, 0⟩, none)] 1)]

theorem sentence_variable : Sentence "var x;" 1 (declareOnce false) := by
  have ht : Tape.ofText "var x;" = .onFirstLine (.keyword .varWord, "var")
      [(.name, "x"), (.symbol .semicolon, ";"), (.endOfInput, "")] := by decide +kernel
  unfold Sentence
  rw [ht]
  exact ⟨_, .code (.declaration .absent rfl .absent
    (.lastDeclarator (.declarator rfl)) rfl) .noCode, rfl⟩

theorem sentence_constant : Sentence "final var x;" 1 (declareOnce true) := by
  have ht : Tape.ofText "final var x;" = .onFirstLine (.keyword .finalWord, "final")
      [(.keyword .varWord, "var"), (.name, "x"), (.symbol .semicolon, ";"), (.endOfInput, "")] := by
    decide +kernel
  unfold Sentence
  rw [ht]
  exact ⟨_, .code (.declaration (.present rfl) rfl .absent
    (.lastDeclarator (.declarator rfl)) rfl) .noCode, rfl⟩

end

/-- Names and lines alone would not do. Neither would they with the numbers of the names
and without the words before them, nor with the words and without the numbers. -/
theorem not_resolvable_by_name :
    ¬ Resolvable (fun m => (m.name, m.line)) ∧
    ¬ Resolvable (fun m => (m.name, m.line, m.number)) ∧
    ¬ Resolvable (fun m => (m.name, m.line, m.constant, m.nullability)) := by
  have hline : (Tape.ofText "var x = y, x;").hand.token.line =
      (Tape.ofText "var x, x = y;").hand.token.line := by decide +kernel
  have hline' : (Tape.ofText "var x;").hand.token.line =
      (Tape.ofText "final var x;").hand.token.line := by decide +kernel
  refine ⟨?_, ?_, ?_⟩
  · refine not_resolvable_of_sentences sentence_useBefore (by decide) rfl sentence_useBehind
      (by decide) rfl ?_ ?_
    · rw [Block.ofCode, Block.ofCode, hline]
      rfl
    · intro h
      cases h
  · refine not_resolvable_of_sentences sentence_variable (by decide) rfl sentence_constant
      (by decide) rfl ?_ ?_
    · rw [Block.ofCode, Block.ofCode, hline']
      rfl
    · intro h
      cases h
  · refine not_resolvable_of_sentences sentence_useBefore (by decide) rfl sentence_useBehind
      (by decide) rfl ?_ ?_
    · rw [Block.ofCode, Block.ofCode, hline]
      rfl
    · intro h
      cases h

end Scriptlet
