import Scriptlet.Proofs.Beginnings
import Scriptlet.Proofs.Partition

/-!
# The line that reports a diagnostic

A diagnostic is meant to be reported in one line. Most of what a message quotes cannot hold the
end of a line: names, malformed lexemes and all other tokens that are quoted as they are written
stand on one line, and so do the descriptions of targets. The exception is a quoted text. Where
one stands that fits nowhere, the message quotes its meaning, not how it is written, and so the
report goes over as many lines as that meaning does.

## What is proved

* `Fault.newline_mem_message` — a message is one line if what it quotes is.
* `Cursor.isPlain_next` — the tokens of a text are on one line each, but for quoted texts.
* `newline_mem_report_iff` — the report of a text that cannot be cut into tokens is one line, and
  that of a program is one line exactly if it is not of a quoted text that goes over lines.
* `exists_newline_mem_report` — a program whose report is not one line.
-/

namespace Scriptlet

/-! ### Messages -/

/-- What the message of a fault quotes. -/
def Fault.quoted? : Fault → Option String
  | invalidLexeme text | unexpectedLexeme text => some text
  | duplicateDeclaration name | undeclaredName name => some name
  | invalidTarget description => some description
  | unexpectedEnd | tooDeep _ => none

/-- A number is on one line. -/
theorem newline_not_mem_repr (n : Nat) : '\n' ∉ n.repr.toList := by
  rw [Nat.toList_repr]
  exact fun h => absurd (Nat.isDigit_of_mem_toDigits (by decide) (by decide) h) (by decide)

theorem newline_mem_between {before text after : String} (hbefore : '\n' ∉ before.toList)
    (hafter : '\n' ∉ after.toList) :
    '\n' ∈ (before ++ text ++ after).toList ↔ '\n' ∈ text.toList := by
  rw [String.toList_append, String.toList_append, List.mem_append, List.mem_append]
  simp only [hbefore, hafter, false_or, or_false]

/-- A message has the ends of lines that what it quotes has. -/
theorem Fault.newline_mem_message (f : Fault) :
    '\n' ∈ f.message.toList ↔ ∃ text, f.quoted? = some text ∧ '\n' ∈ text.toList := by
  have hquoted (text : String) :
      (∃ t, some text = some t ∧ '\n' ∈ t.toList) ↔ '\n' ∈ text.toList := by simp
  cases f with
  | invalidLexeme | unexpectedLexeme | duplicateDeclaration | undeclaredName | invalidTarget =>
    exact (newline_mem_between (by decide) (by decide)).trans (hquoted _).symm
  | unexpectedEnd => exact ⟨fun h => absurd h (by decide), nofun⟩
  | tooDeep limit =>
    refine ⟨fun h => absurd ?_ (newline_not_mem_repr limit), nofun⟩
    exact (newline_mem_between (by decide) (by decide)).1 h

/-- Before the message of a report there is only the number of a line. -/
theorem Diagnostic.newline_mem_report (d : Diagnostic) :
    '\n' ∈ d.report.toList ↔ '\n' ∈ d.fault.message.toList := by
  have hline : '\n' ∉ (Text.Decimal.twoDigits d.position.line).toList := by
    unfold Text.Decimal.twoDigits
    split
    · rw [String.toList_append, List.mem_append, not_or]
      exact ⟨by decide, newline_not_mem_repr _⟩
    · exact newline_not_mem_repr _
  have hcolon : '\n' ∉ ": ".toList := by decide
  rw [report, String.toList_append, String.toList_append, List.mem_append, List.mem_append]
  simp only [hline, hcolon, false_or]

/-! ### Tokens -/

/-- The token stands on one line, unless it is a quoted text. -/
def Token.IsPlain (t : Token) : Prop := t.kind ≠ .text → '\n' ∉ t.value.toList

theorem Token.isPlain_endAt (line : Nat) : (endAt line).IsPlain := by simp [IsPlain, endAt]

/-- The next token of a text is on one line, unless it is a quoted text. -/
theorem Cursor.isPlain_next (c : Cursor) : c.next.1.IsPlain := by
  fun_induction next c with
  | case1 c => exact Token.isPlain_endAt c.line
  | case2 c char rest hr hl =>
    -- The end of a line is a blank, which is a lexeme.
    rintro - hmem
    obtain rfl : '\n' = char := by simpa using hmem
    rw [hr, first?_blank (by decide)] at hl
    cases hl
  | case3 _ _ _ _ _ _ _ ih => exact ih
  | case4 => simp [Token.IsPlain]
  | case5 _ _ _ _ _ hl _ _ he =>
    intro hkind
    rw [(Lexeme.value_of_effect hl he).2.2 hkind]
    exact Lexeme.newline_not_mem hl he hkind

/-- What is left of a text has a token on one line in hand, unless that is a quoted text. -/
theorem Tape.RestOf.isPlain {text : String} {i : Tape} (h : i.RestOf (.ofText text)) :
    i.hand.token.IsPlain :=
  h.hand (P := fun r => r.token.IsPlain) Token.isPlain_endAt Cursor.isPlain_next

/-! ### Reports -/

theorem Expr.newline_not_mem_label {ν : Type} (e : Expr ν) : '\n' ∉ e.label.toList := by
  cases e <;> simp [label]

/-- A target that is refused is described in one line. -/
theorem Grammar.newline_not_mem_of_targetOf {ν : Type} {parenthesized : Bool} {e : Expr ν}
    {fault : Fault} (h : targetOf parenthesized e = .error fault) :
    '\n' ∉ fault.message.toList := by
  rw [Fault.newline_mem_message]
  rintro ⟨text, htext, hmem⟩
  unfold targetOf at h
  split at h
  · cases parenthesized <;> cases h
    cases htext
    exact absurd hmem (by decide)
  · cases h
    cases htext
    exact e.newline_not_mem_label hmem

/-- A token that is no part of a program is the fault of a text that has no tokens. -/
theorem exists_checked_of_tokenize {text file : String} {d : Diagnostic}
    (h : tokenize text file = .error d) :
    ∃ r ∈ (Cursor.ofText text).readings, r.token.checked file = .error d := by
  unfold tokenize at h
  generalize (Cursor.ofText text).readings = rs at h ⊢
  induction rs with
  | nil => cases h
  | cons r rs ih =>
    rw [List.mapM_cons] at h
    cases ht : r.token.checked file with
    | error e =>
      rw [ht] at h
      cases h
      exact ⟨r, List.mem_cons_self, ht⟩
    | ok t =>
      rw [ht] at h
      cases hrs : rs.mapM (fun r => r.token.checked file) with
      | ok ts =>
        rw [hrs] at h
        cases h
      | error e =>
        rw [hrs] at h
        cases h
        obtain ⟨r', hr', he⟩ := ih hrs
        exact ⟨r', List.mem_cons_of_mem _ hr', he⟩

/-- A name on the tape of a text is on one line. -/
theorem Tape.RestOf.newline_not_mem {text : String} {i : Tape} (h : i.RestOf (.ofText text))
    (hk : i.kind = .name) : '\n' ∉ i.hand.token.value.toList := by
  have hkind : i.hand.token.kind = .name := hk
  exact h.isPlain (by simp [hkind])

/-- The only message over several lines is that of a quoted text that fits nowhere. -/
theorem Diagnostic.Accounted.newline_mem_message_iff {text : String} {q : Parser SymbolTable}
    {d : Diagnostic} (h : d.Accounted (.ofText text) q) :
    '\n' ∈ d.fault.message.toList ↔
      d = ⟨.unexpectedLexeme q.lookahead.value, q.position⟩ ∧
        q.lookahead.kind = .text ∧ '\n' ∈ q.lookahead.value.toList := by
  constructor
  · intro hmem
    obtain ⟨quoted, hquoted, hnewline⟩ := d.fault.newline_mem_message.1 hmem
    cases h with
    | unexpected hq =>
      have hplain : q.lookahead.IsPlain := hq.isPlain
      by_cases hkind : q.lookahead.kind = .text
      · simp only [Parser.unexpected, hkind, Fault.quoted?, Option.some.injEq] at hquoted ⊢
        rw [hquoted]
        exact ⟨trivial, trivial, hnewline⟩
      · -- What is not a quoted text is quoted as it stands, on one line.
        unfold Parser.unexpected at hquoted
        split at hquoted <;> cases hquoted <;> exact absurd hnewline (hplain hkind)
    | tooDeep => cases hquoted
    | duplicate ht =>
      obtain ⟨i, hi, hk, -, rfl⟩ := ht
      cases hquoted
      exact absurd hnewline (hi.newline_not_mem hk)
    | undeclared hi hk =>
      cases hquoted
      exact absurd hnewline (hi.newline_not_mem hk)
    | target _ _ _ hf => exact absurd hmem (Grammar.newline_not_mem_of_targetOf hf)
  · rintro ⟨rfl, -, hmem⟩
    exact (Fault.newline_mem_message _).2 ⟨_, rfl, hmem⟩

/-- A text that cannot be cut into tokens is reported in one line. A program that is refused is
reported in one line too, unless it is for a quoted text that fits nowhere and has the end of a
line in its meaning. -/
theorem newline_mem_report_iff (text file : String) :
    (∀ d, tokenize text file = .error d → '\n' ∉ d.report.toList) ∧
    ∀ mode d p, parseText text file mode = (.error d, p) →
      ('\n' ∈ d.report.toList ↔
        d = ⟨.unexpectedLexeme p.lookahead.value, p.position⟩ ∧
          p.lookahead.kind = .text ∧ '\n' ∈ p.lookahead.value.toList) := by
  constructor
  · intro d h hmem
    obtain ⟨r, hr, hd⟩ := exists_checked_of_tokenize h
    have hplain : r.token.IsPlain :=
      Cursor.forall_readings (P := fun r => r.token.IsPlain) Cursor.isPlain_next _ r hr
    obtain ⟨quoted, hquoted, hnewline⟩ :=
      d.fault.newline_mem_message.1 (d.newline_mem_report.1 hmem)
    unfold Token.checked at hd
    split at hd
    next hkind =>
      cases hd
      cases hquoted
      exact hplain (by simp [hkind]) hnewline
    next =>
      cases hd
      cases hquoted
    next => cases hd
  · intro mode d p h
    rw [d.newline_mem_report]
    exact (Grammar.program_refused
      (p := Parser.start (.ofText text) file (SymbolTable.empty mode) .standard) rfl
      (Tape.isSpelled_ofText text) h).1.newline_mem_message_iff

/-- A malformed lexeme is reported in one line, a quoted text where none fits in two. -/
theorem newline_mem_report_quoted :
    (∃ d, tokenize "print(#);" "p" = .error d ∧ '\n' ∉ d.report.toList) ∧
    ∃ d p, parseText "print(1 \"a\\nb\");" "p" .flat = (.error d, p) ∧
      d = ⟨.unexpectedLexeme "a\nb", 1, "p"⟩ ∧ '\n' ∈ d.report.toList := by
  constructor
  · have htokens : tokenize "print(#);" "p" = .error ⟨.invalidLexeme "#", 1, "p"⟩ := by
      decide +kernel
    exact ⟨_, htokens, (newline_mem_report_iff "print(#);" "p").1 _ htokens⟩
  · have herror : (match parseText "print(1 \"a\\nb\");" "p" .flat with
        | (.ok _, _) => false
        | (.error d, p) => d = ⟨.unexpectedLexeme "a\nb", 1, "p"⟩ ∧
          d = ⟨.unexpectedLexeme p.lookahead.value, p.position⟩ ∧ p.lookahead.kind = .text) =
        true := by decide +kernel
    rcases h : parseText "print(1 \"a\\nb\");" "p" .flat with ⟨d | b, p⟩
    · rw [h] at herror
      obtain ⟨rfl, hd, hkind⟩ := of_decide_eq_true herror
      refine ⟨_, p, rfl, rfl, ?_⟩
      refine ((newline_mem_report_iff _ "p").2 .flat _ p h).2 ⟨hd, hkind, ?_⟩
      rw [← (Fault.unexpectedLexeme.inj (congrArg Diagnostic.fault hd))]
      decide
    · rw [h] at herror
      cases herror

/-- Not every diagnostic is reported in one line. -/
theorem exists_newline_mem_report :
    ¬ ∀ (text file : String) (mode : ScopeMode) (d : Diagnostic),
      (tokenize text file = .error d ∨ (parseText text file mode).1 = .error d) →
        '\n' ∉ d.report.toList := by
  intro hall
  have hreport : (match (parseText "print(1 \"a\\nb\");" "p" .flat).1 with
      | .ok _ => false
      | .error d => '\n' ∈ d.report.toList) = true := by decide +kernel
  cases h : (parseText "print(1 \"a\\nb\");" "p" .flat).1 with
  | ok b =>
    rw [h] at hreport
    cases hreport
  | error d =>
    rw [h] at hreport
    exact hall _ _ _ _ (.inr h) (of_decide_eq_true hreport)

end Scriptlet
