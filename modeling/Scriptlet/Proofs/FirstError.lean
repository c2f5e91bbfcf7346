import Scriptlet.Proofs.Beginnings
import Scriptlet.Proofs.Generated

/-!
# Errors are found at the first token that is wrong

A program that is refused because of a token is refused at the first one that cannot go on:
the tokens before it are the beginning of a program, and with it they are not. What comes
behind it has not been looked at.

## What is proved

* `parseText_firstError` — so it is for every text.
-/

namespace Scriptlet

/-- Tokens of these kinds can go on to a program. -/
def Viable (ks : List TokenKind) : Prop := ∃ rest, ks ++ rest ∈ grammar.language

/-- The kind of the token that is read. -/
def Reading.kind (r : Reading) : TokenKind := r.token.kind

/-! ### Parts of a tape -/

namespace Tape

/-- The readings before a place. -/
def before (i : Tape) : Nat → List Reading
  | 0 => []
  | n + 1 => i.hand :: i.next.before n

/-- The tape up to a place, with other readings behind it. -/
def upTo (i : Tape) : Nat → List Reading → Tape
  | 0, rest => ⟨i.hand, rest⟩
  | n + 1, rest => ⟨i.hand, (i.next.upTo n rest).readings⟩

variable {i m : Tape} {n : Nat} {ks : List TokenKind}

theorem readings_upTo (i : Tape) (n : Nat) (rest : List Reading) :
    (i.upTo n rest).readings = i.before n ++ (i.skip n).hand :: rest := by
  induction n generalizing i with
  | zero => rfl
  | succ n ih => exact congrArg (i.hand :: ·) (ih i.next)

theorem skip_upTo (i : Tape) (n : Nat) (rest : List Reading) :
    (i.upTo n rest).skip n = ⟨(i.skip n).hand, rest⟩ := by
  induction n generalizing i with
  | zero => rfl
  | succ n ih => exact ih i.next

theorem agreesUpTo_upTo (i : Tape) (n : Nat) (rest : List Reading) :
    i.AgreesUpTo n (i.upTo n rest) := by
  intro k hk
  induction n generalizing i k with
  | zero =>
    rw [Nat.le_zero.1 hk]
    rfl
  | succ n ih =>
    cases k with
    | zero => rfl
    | succ k => exact ih i.next k (Nat.le_of_succ_le_succ hk)

theorem IsSpelled.upTo (h : i.IsSpelled) (n : Nat) {rest : List Reading}
    (hrest : ∀ r ∈ rest, r.token.IsSpelled) : (i.upTo n rest).IsSpelled := by
  induction n generalizing i with
  | zero => exact List.forall_mem_cons.2 ⟨h.hand, hrest⟩
  | succ n ih => exact List.forall_mem_cons.2 ⟨h.hand, ih h.next⟩

/-- If there is something behind a place, what is before it is shown. -/
theorem Shows.exists_before (h : i.Shows ks m) (hm : m.coming ≠ []) :
    ∃ b, i.readings = b ++ m.readings ∧ ks = b.map Reading.kind := by
  induction ks generalizing i with
  | nil => exact ⟨[], congrArg Tape.readings h, rfl⟩
  | cons k ks ih =>
    obtain ⟨hk, hks⟩ := h
    obtain ⟨b, hb, rfl⟩ := ih hks
    obtain ⟨hand, _ | ⟨r, rest⟩⟩ := i
    · -- The mark of the end would be the only reading, but there are two behind the place.
      have hlength := congrArg List.length hb
      have hpos := List.length_pos_iff.2 hm
      simp only [next, readings, List.length_append, List.length_cons, List.length_nil] at hlength
      omega
    · refine ⟨hand :: b, congrArg (hand :: ·) hb, ?_⟩
      rw [List.map_cons, Reading.kind, hk]

/-- What is shown up to a place with something behind it is what stands before that place. -/
theorem Shows.eq_before {rest : List Reading}
    (h : (i.upTo n rest).Shows ks ((i.upTo n rest).skip n)) (hrest : rest ≠ []) :
    ks = (i.before n).map Reading.kind := by
  rw [skip_upTo] at h
  obtain ⟨b, hb, rfl⟩ := h.exists_before hrest
  rw [readings_upTo] at hb
  rw [List.append_cancel_right hb]

/-- Spelled tokens are offered up to the last. -/
theorem IsSpelled.exists_offers {k : TokenKind} (h : i.IsSpelled)
    (hks : i.readings.map Reading.kind = ks ++ [k]) : ∃ r, i.Offers ks r ∧ r.kind = k := by
  induction ks generalizing i with
  | nil => exact ⟨i, rfl, (List.cons.inj hks).1⟩
  | cons k' ks ih =>
    obtain ⟨hhand, hcoming⟩ := List.cons.inj hks
    obtain ⟨hand, _ | ⟨r, rest⟩⟩ := i
    · exact absurd hcoming.symm (by simp)
    · obtain ⟨r, hr, hk⟩ := ih h.next hcoming
      exact ⟨r, ⟨⟨hhand, h.hand⟩, hr⟩, hk⟩

/-- Before the mark of the end nothing is read twice. -/
theorem readings_eq_before (hlast : ∃ b e, i.readings = b ++ [e] ∧ e.kind = .endOfInput)
    (h : .endOfInput ∉ (i.before n).map Reading.kind) :
    i.readings = i.before n ++ (i.skip n).readings := by
  induction n generalizing i with
  | zero => rfl
  | succ n ih =>
    obtain ⟨hhand, hrest⟩ := not_or.1 (mt List.mem_cons.2 h)
    obtain ⟨b, e, hb, he⟩ := hlast
    obtain ⟨hand, coming⟩ := i
    cases b with
    | nil =>
      obtain ⟨rfl, -⟩ := List.cons.inj hb
      exact absurd he.symm hhand
    | cons r b =>
      obtain ⟨rfl, hcoming⟩ := List.cons.inj hb
      cases coming with
      | nil => exact absurd hcoming.symm (by simp)
      | cons r rest =>
        refine congrArg (hand :: ·) (ih ?_ hrest)
        exact ⟨b, e, hcoming, he⟩

end Tape

/-- The last reading of a text is the mark of its end. -/
theorem Cursor.readings_eq_append (c : Cursor) :
    ∃ b e, c.readings = b ++ [e] ∧ e.kind = .endOfInput := by
  fun_induction readings c with
  | case1 c hlast => exact ⟨[], _, rfl, hlast⟩
  | case2 c hlast ih =>
    obtain ⟨b, e, hb, he⟩ := ih
    exact ⟨_ :: b, e, congrArg (_ :: ·) hb, he⟩

/-! ### Marks -/

/-- The kinds of tokens that are no part of a phrase. Only a program has the mark of the end. -/
def TokenKind.IsMark (k : TokenKind) : Prop := k = .endOfInput ∨ k = .malformed ∨ k = .cutShort

/-- No production but that of programs has a mark, or a program. -/
theorem PhraseKind.allProductions_marks :
    (all.all fun n => n = .program || n.productions.all fun w => w.all fun x =>
      x ≠ .token .endOfInput && x ≠ .token .malformed && x ≠ .token .cutShort &&
        x ≠ .phrase .program) = true := by
  decide +kernel

theorem PhraseKind.ne_mark_of_mem {n : PhraseKind} (hn : n ≠ .program) {w : List Item}
    (hw : w ∈ n.productions) {k : TokenKind} (hk : k.IsMark) :
    ∀ x ∈ w, x ≠ .token k ∧ x ≠ .phrase .program := by
  have h := List.all_eq_true.1 allProductions_marks n n.mem_all
  simp only [hn, decide_false, Bool.false_or, List.all_eq_true] at h
  intro x hx
  have hne := h w hw x hx
  simp only [Bool.and_eq_true, decide_eq_true_eq] at hne
  obtain ⟨⟨⟨hend, hmalformed⟩, hcut⟩, hprogram⟩ := hne
  refine ⟨?_, hprogram⟩
  rcases hk with rfl | rfl | rfl
  · exact hend
  · exact hmalformed
  · exact hcut

/-- Phrases without a mark are put together to rows without it. -/
theorem mark_not_mem_of_denotes {w : List Item} {k : TokenKind} {ks : List TokenKind}
    (hw : ∀ x ∈ w, x ≠ .token k ∧ x ≠ .phrase .program)
    (h : ContextFreeGrammar.Denotes (g := grammar)
      (fun n a => n ≠ PhraseKind.program → k ∉ a) w ks) : k ∉ ks := by
  induction w generalizing ks with
  | nil => exact h ▸ List.not_mem_nil
  | cons x w ih =>
    obtain ⟨hx, hw'⟩ := List.forall_mem_cons.1 hw
    cases x with
    | terminal k' =>
      obtain ⟨a, rfl, ha⟩ := h
      rw [List.mem_cons]
      rintro (rfl | hmem)
      · exact hx.1 rfl
      · exact ih hw' ha hmem
    | nonterminal n =>
      obtain ⟨a, b, rfl, ha, hb⟩ := h
      rw [List.mem_append]
      rintro (hmem | hmem)
      · exact ha (fun hn => hx.2 (congrArg _ hn)) hmem
      · exact ih hw' hb hmem

/-- Marks are not in code. -/
theorem Generates.mark_not_mem {k : TokenKind} {ks : List TokenKind}
    (h : Generates [.phrase .code] ks) (hk : k.IsMark) : k ∉ ks := by
  have hcode : PhraseKind.code ≠ .program := by simp
  refine ContextFreeGrammar.Spells.of_nonterminal (g := grammar) (n := PhraseKind.code)
    (M := fun n a => n ≠ PhraseKind.program → k ∉ a) (fun r hr a ha hn => ?_) h hcode
  exact mark_not_mem_of_denotes
    (PhraseKind.ne_mark_of_mem hn (mem_grammar_rules.1 hr) hk) ha

/-- What code begins with is the beginning of a program. -/
theorem Opens.viable {ks : List TokenKind} (h : Opens [.phrase .code] ks) :
    Viable ks ∧ .endOfInput ∉ ks := by
  obtain ⟨rest, hrest⟩ := h.exists_spells PhraseKind.exists_generates
  constructor
  · refine ⟨rest ++ [.endOfInput], ?_⟩
    rw [← List.append_assoc]
    exact generates_of_production (n := .program) (List.mem_singleton_self _)
      (hrest.append (.terminal TokenKind.endOfInput))
  · exact fun hmem => Generates.mark_not_mem hrest (.inl rfl) (List.mem_append_left _ hmem)

/-! ### The first error -/

/-- A reading of this kind. -/
def Reading.sample (k : TokenKind) : Reading := ⟨⟨k, if k = .number then "0" else "a", 1⟩, 1⟩

theorem Reading.isSpelled_sample (k : TokenKind) : (sample k).token.IsSpelled := by
  by_cases hk : k = .number
  · subst hk
    exact ⟨by simp [sample], fun _ => by decide⟩
  · refine ⟨fun _ => ?_, fun h => absurd h hk⟩
    simp only [sample, hk, if_false]
    decide

section

variable {text file : String} {mode : ScopeMode} {d : Diagnostic} {p : Parser SymbolTable}

/-- A program is not refused because of a token. -/
theorem not_isSyntactic_of_mem_language {i : Tape} (hi : i.IsSpelled)
    (hks : i.readings.map Reading.kind ∈ grammar.language)
    (h : parse ⟨i.readings, 1⟩ file mode = (.error d, p)) : ¬ d.fault.IsSyntactic := by
  obtain ⟨a, ha, hcode⟩ : PhraseKind.program.Means _ := .of_generates hks
  obtain ⟨r, hr, hend⟩ := hi.exists_offers ha
  obtain ⟨-, k, cs, hcs⟩ := hcode hr (by simp [hend])
  let start := Parser.start ⟨i.readings, 1⟩ file (SymbolTable.empty mode) .standard
  rcases Grammar.program_meets (p := start) hcs hend rfl rfl with
    ⟨-, position, q, hq⟩ | ⟨d', q, hd', hq⟩ | ⟨-, b, s, -, hq⟩
  · cases hq.symm.trans h
    exact id
  · cases hq.symm.trans h
    rw [Resolving.map_apply] at hd'
    cases hc : Block.resolveAll file cs (SymbolTable.empty mode) with
    | ok c =>
      rw [show Block.resolveAll start.file cs start.symbols = .ok c from hc] at hd'
      cases hd'
    | error d' =>
      rw [show Block.resolveAll start.file cs start.symbols = .error d' from hc] at hd'
      cases hd'
      exact (Block.resolveAll_nameFault file cs hc).not_isSyntactic
  · cases hq.symm.trans h

/-- A program that is refused because of a token is refused at the first one with which it
cannot go on, and nothing behind it has been looked at. -/
theorem parseText_firstError (h : parseText text file mode = (.error d, p))
    (hd : d.fault.IsSyntactic) :
    ∃ before, (Cursor.ofText text).readings = before ++ p.tape.hand :: p.source.pending ∧
      Viable (before.map Reading.kind) ∧
      ¬ Viable ((before ++ [p.tape.hand]).map Reading.kind) ∧
      ∀ rest, parse ⟨before ++ p.tape.hand :: rest, 1⟩ file mode =
        (.error d, { p with source := ⟨rest, p.source.line⟩ }) := by
  let start := Parser.start (.ofText text) file (SymbolTable.empty mode) .standard
  let i : Tape := Tape.ofText text
  have hspelled : i.IsSpelled := Tape.isSpelled_ofText text
  obtain ⟨n, res, q, hq⟩ := Rule.Local.program start
  -- Whatever stands behind the place reached, reading ends alike.
  have hrun (rest : List Reading) : parse ⟨(i.upTo n rest).readings, 1⟩ file mode =
      (res, q.moved ⟨(i.skip n).hand, rest⟩ q.symbols) := by
    have hi := (hq (i.upTo n rest) (i.agreesUpTo_upTo n rest)).1
    rwa [Tape.skip_upTo] at hi
  have hp : (res, q.moved (i.skip n) q.symbols) = (Except.error d, p) :=
    (hq i (.refl n i)).1.symm.trans h
  obtain ⟨rfl, rfl⟩ := Prod.mk.inj hp
  obtain ⟨hviable, hend⟩ : Viable ((i.before n).map Reading.kind) ∧
      .endOfInput ∉ (i.before n).map Reading.kind := by
    -- With a reading behind the place reached, no token is taken twice up to there.
    let last := Reading.sample .endOfInput
    have hlast : ∀ r ∈ [last], r.token.IsSpelled :=
      List.forall_mem_singleton.2 (Reading.isSpelled_sample _)
    obtain ⟨ks, hks, hopens⟩ := (Grammar.program_refused
      (p := start.moved (i.upTo n [last]) _) rfl (hspelled.upTo n hlast) (hrun [last])).2 hd
    rw [Parser.tape_moved, ← Tape.skip_upTo] at hks
    rw [← hks.eq_before (List.cons_ne_nil _ _)]
    exact hopens.viable
  refine ⟨i.before n, ?_, hviable, ?_, fun rest => ?_⟩
  · rw [← Tape.readings_ofText]
    refine Tape.readings_eq_before ?_ hend
    rw [Tape.readings_ofText]
    exact Cursor.readings_eq_append _
  · rintro ⟨rest, hrest⟩
    have hsamples : ∀ r ∈ rest.map Reading.sample, r.token.IsSpelled :=
      List.forall_mem_map.2 fun k _ => Reading.isSpelled_sample k
    refine not_isSyntactic_of_mem_language (hspelled.upTo n hsamples) ?_ (hrun _) hd
    have hkind : (fun k => (Reading.sample k).kind) = id := rfl
    rw [Tape.readings_upTo]
    simpa [Function.comp_def, hkind] using hrest
  · have hrest := hrun rest
    rwa [Tape.readings_upTo] at hrest

/-- A declaration without its value is refused at the semicolon. -/
theorem parseText_firstError_semicolon :
    ∃ p before, parseText "var a = ;" "p" .lexical =
        (.error ⟨.unexpectedLexeme ";", 1, "p"⟩, p) ∧
      (Cursor.ofText "var a = ;").readings = before ++ p.tape.hand :: p.source.pending ∧
      Viable (before.map Reading.kind) ∧
      ¬ Viable ((before ++ [p.tape.hand]).map Reading.kind) ∧
      ∀ rest, parse ⟨before ++ p.tape.hand :: rest, 1⟩ "p" .lexical =
        (.error ⟨.unexpectedLexeme ";", 1, "p"⟩, { p with source := ⟨rest, p.source.line⟩ }) := by
  have herror : (match (parseText "var a = ;" "p" .lexical).1 with
      | .ok _ => false
      | .error d => d = ⟨.unexpectedLexeme ";", 1, "p"⟩) = true := by
    decide +kernel
  rcases hrun : parseText "var a = ;" "p" .lexical with ⟨d | b, p⟩
  · rw [hrun] at herror
    cases of_decide_eq_true herror
    obtain ⟨before, hbefore⟩ := parseText_firstError hrun trivial
    exact ⟨p, before, rfl, hbefore⟩
  · rw [hrun] at herror
    cases herror

end

end Scriptlet
