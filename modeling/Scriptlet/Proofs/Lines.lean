import Scriptlet.Proofs.Record
import Scriptlet.Proofs.Report

/-!
# Where lines come from

A tree keeps a line on each node, and a diagnostic has one. Each is the line of a place in the
text: some are taken from a token that has been read, others from how far reading has come.
This module says for every node, every variable and every diagnostic which place that is.

## The model

The text is read as a tape `o` of its offsets. A program that is read is the tree that is derived
from this tape, with the line of each offset put for it: `Block.Placed` says so, and where the
offsets of that tree are. `Diagnostic.Placed` says it of a diagnostic.

## What is proved

* `Diagnostic.placed_of_parse` — the lines of diagnostics.
* `Block.placed_of_parse` — the lines of programs.
* `lines_of_parse` — both, of every text.
-/

namespace Scriptlet

/-! ### Tokens on one line -/

/-- The token is read from one line, unless it is a quoted text. -/
def Reading.IsOneLine (r : Reading) : Prop := r.token.kind ≠ .text → r.reached = r.token.line

/-- The next token of a text is read from one line, unless it is a quoted text. -/
theorem Cursor.isOneLine_next (c : Cursor) : Reading.IsOneLine ⟨c.next.1, c.next.2.line⟩ := by
  fun_induction next c with
  | case1 | case2 | case4 => exact fun _ => rfl
  | case3 _ _ _ _ _ _ _ ih => exact ih
  | case5 c _ _ _ l hl kind value he =>
    intro hkind
    have hlines : Text.lineEnds l.text = 0 :=
      List.count_eq_zero.2 (Lexeme.newline_not_mem hl he hkind)
    simp only [past, hlines, Nat.add_zero]

theorem Tape.RestOf.isOneLine {text : String} {i : Tape} (h : i.RestOf (.ofText text)) :
    i.hand.IsOneLine := h.hand (fun _ _ => rfl) Cursor.isOneLine_next

/-! ### Diagnostics -/

/-- The diagnostic has the line of its place, where `j` is left of the tape `o` of the offsets of
the text: a name that fails and an `=` are where they start, and all else is where the token in
hand ends. -/
def Diagnostic.Placed (text : String) (o j : Tape) (d : Diagnostic) : Prop :=
  match d.fault with
  | .invalidLexeme _ | .unexpectedEnd | .unexpectedLexeme _ | .tooDeep _ =>
    d.position.line = Text.lineAt text.toList j.stop
  | .duplicateDeclaration name => ∃ i : Tape, i.RestOf o ∧ i.kind = .name ∧ i.Introduces j ∧
    i.hand.token.value = name ∧ d.position.line = Text.lineAt text.toList i.start
  | .undeclaredName name => ∃ i : Tape, i.RestOf o ∧ i.kind = .name ∧ j = i.next ∧
    i.hand.token.value = name ∧ d.position.line = Text.lineAt text.toList i.start
  | .invalidTarget _ => ∃ i : Tape, i.RestOf o ∧ i.kind = .symbol .assign ∧ j = i.next ∧
    d.position.line = Text.lineAt text.toList i.start

namespace Diagnostic

variable {text : String} {o j : Tape} {d : Diagnostic}

/-- The line of a diagnostic is the line of some place. -/
theorem Placed.exists_offset (h : d.Placed text o j) :
    ∃ offset, d.position.line = Text.lineAt text.toList offset := by
  unfold Placed at h
  split at h
  · exact ⟨_, h⟩
  · exact ⟨_, h⟩
  · exact ⟨_, h⟩
  · exact ⟨_, h⟩
  · obtain ⟨i, -, -, -, -, hline⟩ := h
    exact ⟨_, hline⟩
  · obtain ⟨i, -, -, -, -, hline⟩ := h
    exact ⟨_, hline⟩
  · obtain ⟨i, -, -, -, hline⟩ := h
    exact ⟨_, hline⟩

/-- A diagnostic that is accounted for on the tape of a text has the line of its place. -/
theorem Accounted.placed {q : Parser SymbolTable} (ho : o.IsOffsetsOf text)
    (h : d.Accounted (.ofText text) q) :
    ∃ j : Tape, j.RestOf o ∧ q.tape = j.relined (Text.lineAt text.toList) ∧ d.Placed text o j := by
  rw [← ho.relined] at h
  have hstop {j : Tape} (hqj : q.tape = j.relined (Text.lineAt text.toList)) :
      q.position.line = Text.lineAt text.toList j.stop :=
    congrArg (fun i : Tape => i.hand.reached) hqj
  cases h with
  | unexpected hq =>
    obtain ⟨j, hj, hqj⟩ := hq.of_relined
    refine ⟨j, hj, hqj, ?_⟩
    unfold Parser.unexpected
    split <;> exact hstop hqj
  | tooDeep hq =>
    obtain ⟨j, hj, hqj⟩ := hq.of_relined
    exact ⟨j, hj, hqj, hstop hqj⟩
  | duplicate ht =>
    obtain ⟨i', hi', hk, hr, rfl⟩ := ht
    obtain ⟨i, hi, rfl⟩ := hi'.of_relined
    obtain ⟨j, hj, hr⟩ := hr.of_relined
    exact ⟨j, hi.introduces hr, hj, i, hi, hk, hr, rfl, rfl⟩
  | undeclared hi' hk hq =>
    obtain ⟨i, hi, rfl⟩ := hi'.of_relined
    rw [Tape.next_relined] at hq
    exact ⟨i.next, hi.next, hq, i, hi, hk, rfl, rfl, rfl⟩
  | @target i' hi' hk hq ν parenthesized e fault hf =>
    have hstart : i'.hand.reached = i'.hand.token.line := by
      rw [ho.relined] at hi'
      have hkind : i'.hand.token.kind = .symbol .assign := hk
      exact hi'.isOneLine (by simp [hkind])
    obtain ⟨i, hi, rfl⟩ := hi'.of_relined
    rw [Tape.next_relined] at hq
    refine ⟨i.next, hi.next, hq, ?_⟩
    obtain ⟨description, rfl⟩ := Grammar.targetOf_eq_error hf
    exact ⟨i, hi, hk, rfl, hstart⟩

/-- Where reading a text fails, the diagnostic has the line of its place. -/
theorem placed_of_parse {file : String} {mode : ScopeMode} {p : Parser SymbolTable}
    (ho : o.IsOffsetsOf text) (h : parseText text file mode = (.error d, p)) :
    ∃ j : Tape, j.RestOf o ∧ p.tape = j.relined (Text.lineAt text.toList) ∧ d.Placed text o j :=
  (Grammar.program_refused
    (p := Parser.start (.ofText text) file (SymbolTable.empty mode) .standard) rfl
    (Tape.isSpelled_ofText text) h).1.placed ho

end Diagnostic

/-! ### Programs -/

/-- Where a text has no tokens its tape starts at the end. -/
theorem Tape.IsOffsetsOf.start_eq {o : Tape} {text : String} (h : o.IsOffsetsOf text)
    (hend : o.kind = .endOfInput) : o.start = text.toList.length := by
  obtain ⟨pieces, last, hcuts, ho⟩ := h
  have hhand : some o.hand = (Piece.offsets text.toList.length 0 pieces).head? :=
    congrArg List.head? ho
  cases pieces with
  | nil =>
    have hline := congrArg (fun r => r.token.line) (Option.some.inj hhand)
    exact hline
  | cons p ps =>
    have hkind := congrArg (fun r => r.token.kind) (Option.some.inj hhand)
    exact absurd (hkind.symm.trans hend) (hcuts.pull 0 (Nat.succ_pos _)).1.kind

/-- The names of commands that are held for something, with the lines of their offsets. -/
def Block.spotsAll (text : String) (role : Role) (cs : List (Command Mention)) :
    List (String × Nat) :=
  (Block.occurrencesOfAll cs).spots (fun m => (m.relined (Text.lineAt text.toList)).spot) role

/-- The program `b` with the table `t` is read from the commands `cs`, whose lines are offsets on
the tape `o`: with the line of each offset they are the same. -/
structure Block.Placed (text : String) (o : Tape) (mode : ScopeMode) (b : Block Variable)
    (t : SymbolTable) (cs : List (Command Mention)) : Prop where
  /-- The commands are what the grammar derives from the tape. -/
  derived : ∃ k r, Derives .code k o cs r ∧ r.kind = .endOfInput
  /-- The program is those commands, on the line on which the first starts. -/
  tree : b.relabel Variable.name id =
    (⟨cs, [], o.start⟩ : Block Mention).relabel Mention.name (Text.lineAt text.toList)
  /-- If there are none it is on the last line. -/
  empty : cs = [] → o.start = text.toList.length
  /-- The offsets on nodes are those of tokens. -/
  nodes : ∀ n ∈ Block.nodesOfAll cs, n.Located o
  /-- The offset of a name is where it starts. -/
  mentions : ∀ p ∈ Block.occurrencesOfAll cs, p.2.StandsOn o
  /-- The variables of the program are those of the table. -/
  uses : ∀ p ∈ b.occurrences, p.2 ∈ t.declared
  /-- Those of declarations have the lines of their names. -/
  declarations :
    b.occurrences.spots Variable.spot .declaration = Block.spotsAll text .declaration cs
  /-- So have those of loops, where they take over no other variable. -/
  loops : mode = .lexical →
    b.occurrences.spots Variable.spot .loop = Block.spotsAll text .loop cs
  /-- Each variable has the line of a name that declares it, in flat mode that of the first loop
  over its name if there is no declaration. -/
  declared : ∀ v ∈ t.declared, v.spot ∈ Block.spotsAll text .declaration cs ∨
    v.spot ∈ Block.spotsAll text .loop cs ∧ (mode = .flat →
      (Block.spotsAll text .loop cs).find? (fun s => s.1 = v.name) = some v.spot)

namespace Block

variable {text file : String} {o : Tape} {mode : ScopeMode} {b : Block Variable}
  {p : Parser SymbolTable}

/-- A program that is read has the lines of its places. -/
theorem placed_of_parse (ho : o.IsOffsetsOf text) (h : parseText text file mode = (.ok b, p)) :
    ∃ cs, b.Placed text o mode p.symbols cs := by
  obtain ⟨k, cs', body, -, hs, hr, rfl⟩ := exists_sentence_of_read (parseText_eq_read .. ▸ h)
  have htree := hs.sameNames hr
  obtain ⟨r', hd, hend⟩ := hs
  have hrecords := hd.records hr
  obtain ⟨cs, r, rfl, rfl, hcs⟩ := hd.of_relined ho.relined.symm
  have hcode : Block.ofCode text (Category.code.relined (Text.lineAt text.toList) cs) =
      (⟨cs, [], o.start⟩ : Block Mention).relabel (Mention.relined (Text.lineAt text.toList))
        (Text.lineAt text.toList) := by
    rw [Block.ofCode, ← ho.relined]
    rfl
  have hspots (role : Role) : Occurrences.spots Mention.spot role (Category.code.occurrences
      (Category.code.written (Category.code.relined (Text.lineAt text.toList) cs))) =
      spotsAll text role cs :=
    (congrArg (Occurrences.spots Mention.spot role) (occurrencesOfAll_relabel _ _ cs)).trans
      (Occurrences.spots_map _ _)
  refine ⟨cs, ⟨k, r, hcs, hend⟩, ?_, ?_, hcs.located (.refl o), hcs.standsOn (.refl o), ?_,
    hrecords.declarations.trans (hspots _), fun hm => (hrecords.loops hm).trans (hspots _), ?_⟩
  · rw [htree, hcode, Block.relabel_relabel]
    rfl
  · rintro rfl
    cases hcs
    exact ho.start_eq hend
  · exact fun q hq => List.mem_of_getElem? ((accounts_of_parse h).1.declared_of_mem q hq)
  · intro v hv
    rw [← hspots, ← hspots]
    rcases hrecords.declared (.empty mode) v hv with hv | hv | ⟨hv, hfirst⟩
    · cases hv
    · exact .inl hv
    · exact .inr ⟨hv, fun hm => (hfirst hm).2⟩

end Block

/-- The lines of what is read from a text are those of places in it, if it is a program and if it
is none. No diagnostic is on a line that the text does not have. -/
theorem lines_of_parse (text file : String) (mode : ScopeMode) :
    ∃ o : Tape, o.IsOffsetsOf text ∧
      (∀ b p, parseText text file mode = (.ok b, p) → ∃ cs, b.Placed text o mode p.symbols cs) ∧
      ∀ d p, parseText text file mode = (.error d, p) →
        (1 ≤ d.position.line ∧ d.position.line ≤ 1 + Text.lineEnds text.toList) ∧
        ∃ j : Tape, j.RestOf o ∧ p.tape = j.relined (Text.lineAt text.toList) ∧
          d.Placed text o j := by
  obtain ⟨o, ho⟩ := Tape.exists_isOffsetsOf text
  refine ⟨o, ho, fun b p h => Block.placed_of_parse ho h, fun d p h => ?_⟩
  obtain ⟨j, hj, hp, hd⟩ := Diagnostic.placed_of_parse ho h
  obtain ⟨offset, hline⟩ := hd.exists_offset
  rw [hline]
  exact ⟨⟨Text.one_le_lineAt _ _, Text.lineAt_le _ _⟩, j, hj, hp, hd⟩

/-- A sum over two lines, and a name on the second line that is not declared. -/
theorem lines_of_parse_two :
    (∃ b p o cs, parseText "print(1 +\n2);" "p" .lexical = (.ok b, p) ∧
      o.IsOffsetsOf "print(1 +\n2);" ∧
      b.Placed "print(1 +\n2);" o .lexical p.symbols cs) ∧
    ∃ p o j, parseText "print(\na);" "p" .lexical = (.error ⟨.undeclaredName "a", 2, "p"⟩, p) ∧
      o.IsOffsetsOf "print(\na);" ∧
      Diagnostic.Placed "print(\na);" o j ⟨.undeclaredName "a", 2, "p"⟩ := by
  constructor
  · obtain ⟨b, p, hb⟩ : ∃ b p, parseText "print(1 +\n2);" "p" .lexical = (.ok b, p) :=
      exists_parseText (by decide +kernel)
    obtain ⟨o, ho, hok, -⟩ := lines_of_parse "print(1 +\n2);" "p" .lexical
    obtain ⟨cs, hcs⟩ := hok b p hb
    exact ⟨b, p, o, cs, hb, ho, hcs⟩
  · have herror : (parseText "print(\na);" "p" .lexical).1.map (fun _ => ()) =
        .error ⟨.undeclaredName "a", 2, "p"⟩ := by decide +kernel
    rcases hp : parseText "print(\na);" "p" .lexical with ⟨d | b, p⟩
    · rw [hp] at herror
      cases herror
      obtain ⟨o, ho, -, hfail⟩ := lines_of_parse "print(\na);" "p" .lexical
      obtain ⟨-, j, -, -, hd⟩ := hfail _ p hp
      exact ⟨p, o, j, rfl, ho, hd⟩
    · rw [hp] at herror
      cases herror

end Scriptlet
