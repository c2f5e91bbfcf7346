import Mathlib.Computability.ContextFreeGrammar

/-!
# Words of a context-free grammar

A sentential form of a grammar is a list of terminals and nonterminals. It spells the words
that can be derived from it, and it opens with the words that a form derived from it starts
with.

## What is proved

* `ContextFreeGrammar.Opens.exists_spells` — if every nonterminal spells a word, what a form
  opens with goes on to a word that it spells.
* `ContextFreeGrammar.Spells.denotes` — if every rule is true of words, so is every word of
  the grammar.
-/

/-- What a form has in a row. -/
abbrev ContextFreeRule.Item (T N : Type) : Type := Symbol T N

namespace ContextFreeGrammar

variable {T : Type} {g : ContextFreeGrammar T}

/-! ### Spelling and opening -/

section

variable {u v w : List (Symbol T g.NT)} {a b : List T}

/-- The word is derived from the form. -/
def Spells (g : ContextFreeGrammar T) (w : List (Symbol T g.NT)) (a : List T) : Prop :=
  g.Derives w (a.map .terminal)

/-- A form that starts with the word is derived from the form. -/
def Opens (g : ContextFreeGrammar T) (w : List (Symbol T g.NT)) (a : List T) : Prop :=
  ∃ w', g.Derives w (a.map .terminal ++ w')

theorem Spells.nil : g.Spells [] [] := .refl _

theorem Spells.terminal (t : T) : g.Spells [.terminal t] [t] := .refl _

/-- Words of two forms in a row. -/
theorem Spells.append (hu : g.Spells u a) (hv : g.Spells v b) : g.Spells (u ++ v) (a ++ b) := by
  have huv : g.Derives (u ++ v) (a.map .terminal ++ b.map .terminal) :=
    (hu.append_right v).trans (hv.append_left _)
  rwa [← List.map_append] at huv

/-- What a nonterminal stands for spells what the nonterminal does. -/
theorem Spells.of_rule {r : ContextFreeRule T g.NT} (hr : r ∈ g.rules)
    (h : g.Spells r.output a) : g.Spells [.nonterminal r.input] a :=
  Produces.trans_derives ⟨r, hr, .input_output⟩ h

/-- Any form opens with nothing. -/
theorem Opens.nil (w : List (Symbol T g.NT)) : g.Opens w [] := ⟨w, .refl _⟩

theorem Opens.append_right (h : g.Opens u a) (v : List (Symbol T g.NT)) :
    g.Opens (u ++ v) a := by
  obtain ⟨w', h⟩ := h
  refine ⟨w' ++ v, ?_⟩
  rw [← List.append_assoc]
  exact Derives.append_right h v

/-- A word of one form, and what the form behind it opens with. -/
theorem Spells.append_opens (hu : g.Spells u a) (hv : g.Opens v b) :
    g.Opens (u ++ v) (a ++ b) := by
  obtain ⟨w', hv⟩ := hv
  refine ⟨w', ?_⟩
  rw [List.map_append, List.append_assoc]
  exact (Derives.append_right hu v).trans (hv.append_left _)

theorem Opens.of_rule {r : ContextFreeRule T g.NT} (hr : r ∈ g.rules)
    (h : g.Opens r.output a) : g.Opens [.nonterminal r.input] a := by
  obtain ⟨w', h⟩ := h
  exact ⟨w', Produces.trans_derives ⟨r, hr, .input_output⟩ h⟩

/-- If every nonterminal spells a word, every form does. -/
theorem exists_spells (hg : ∀ n, ∃ a, g.Spells [.nonterminal n] a) (w : List (Symbol T g.NT)) :
    ∃ a, g.Spells w a := by
  induction w with
  | nil => exact ⟨[], .nil⟩
  | cons s w ih =>
    obtain ⟨b, hb⟩ := ih
    cases s with
    | terminal t => exact ⟨t :: b, (Spells.terminal t).append hb⟩
    | nonterminal n =>
      obtain ⟨a, ha⟩ := hg n
      exact ⟨a ++ b, ha.append hb⟩

/-- If every nonterminal spells a word, what a form opens with goes on to a word that it
spells. -/
theorem Opens.exists_spells (h : g.Opens w a) (hg : ∀ n, ∃ a, g.Spells [.nonterminal n] a) :
    ∃ b, g.Spells w (a ++ b) := by
  obtain ⟨w', h⟩ := h
  obtain ⟨b, hb⟩ := ContextFreeGrammar.exists_spells hg w'
  refine ⟨b, ?_⟩
  rw [Spells, List.map_append]
  exact h.trans (Derives.append_left hb _)

end

/-! ### What forms say of words -/

/-- What a form says of a word, if `M` is what nonterminals do. -/
def Denotes (M : g.NT → List T → Prop) : List (Symbol T g.NT) → List T → Prop
  | [], a => a = []
  | .terminal t :: w, a => ∃ b, a = t :: b ∧ Denotes M w b
  | .nonterminal n :: w, a => ∃ b c, a = b ++ c ∧ M n b ∧ Denotes M w c

variable {M : g.NT → List T → Prop}

theorem denotes_append {u v : List (Symbol T g.NT)} {a : List T} :
    Denotes M (u ++ v) a ↔ ∃ b c, a = b ++ c ∧ Denotes M u b ∧ Denotes M v c := by
  induction u generalizing a with
  | nil =>
    constructor
    · exact fun h => ⟨[], a, rfl, rfl, h⟩
    · rintro ⟨_, c, rfl, rfl, h⟩
      exact h
  | cons s u ih =>
    cases s with
    | terminal t =>
      constructor
      · rintro ⟨_, rfl, h⟩
        obtain ⟨b, c, rfl, hb, hc⟩ := ih.1 h
        exact ⟨t :: b, c, rfl, ⟨b, rfl, hb⟩, hc⟩
      · rintro ⟨_, c, rfl, ⟨b, rfl, hb⟩, hc⟩
        exact ⟨b ++ c, rfl, ih.2 ⟨b, c, rfl, hb, hc⟩⟩
    | nonterminal n =>
      constructor
      · rintro ⟨b, _, rfl, hn, h⟩
        obtain ⟨c, d, rfl, hc, hd⟩ := ih.1 h
        exact ⟨b ++ c, d, (List.append_assoc _ _ _).symm, ⟨b, c, rfl, hn, hc⟩, hd⟩
      · rintro ⟨_, d, rfl, ⟨b, c, rfl, hn, hc⟩, hd⟩
        exact ⟨b, c ++ d, List.append_assoc _ _ _, hn, ih.2 ⟨c, d, rfl, hc, hd⟩⟩

theorem denotes_terminals (a : List T) : Denotes M (a.map .terminal) a := by
  induction a with
  | nil => rfl
  | cons t a ih => exact ⟨a, rfl, ih⟩

/-- Rewriting by a rule that is true says less. -/
theorem Produces.denotes {u v : List (Symbol T g.NT)} {a : List T}
    (hM : ∀ r ∈ g.rules, ∀ b, Denotes M r.output b → M r.input b) (h : g.Produces u v)
    (hv : Denotes M v a) : Denotes M u a := by
  obtain ⟨r, hr, hrw⟩ := h
  obtain ⟨p, q, rfl, rfl⟩ := hrw.exists_parts
  obtain ⟨_, d, rfl, hbc, hd⟩ := denotes_append.1 hv
  obtain ⟨b, c, rfl, hb, hc⟩ := denotes_append.1 hbc
  have hn : Denotes M [.nonterminal r.input] c := ⟨c, [], c.append_nil.symm, hM r hr c hc, rfl⟩
  exact denotes_append.2 ⟨b ++ c, d, rfl, denotes_append.2 ⟨b, c, rfl, hb, hn⟩, hd⟩

/-- If every rule is true of words, so is what is derived. -/
theorem Spells.denotes {w : List (Symbol T g.NT)} {a : List T}
    (hM : ∀ r ∈ g.rules, ∀ b, Denotes M r.output b → M r.input b) (h : g.Spells w a) :
    Denotes M w a := by
  have key (v : List (Symbol T g.NT)) (h : g.Derives v (a.map .terminal)) : Denotes M v a := by
    induction h using Relation.ReflTransGen.head_induction_on with
    | refl => exact denotes_terminals a
    | head hstep _ ih => exact hstep.denotes hM ih
  exact key w h

/-- If every rule is true of words, so is every nonterminal. -/
theorem Spells.of_nonterminal {n : g.NT} {a : List T}
    (hM : ∀ r ∈ g.rules, ∀ b, Denotes M r.output b → M r.input b)
    (h : g.Spells [.nonterminal n] a) : M n a := by
  obtain ⟨b, _, rfl, hb, rfl⟩ := h.denotes hM
  rwa [List.append_nil]

end ContextFreeGrammar
