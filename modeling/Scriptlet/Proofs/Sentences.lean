import Scriptlet.Proofs.Completeness
import Scriptlet.Proofs.Soundness

/-!
# Programs and their derivations

A program is read from its text by the rule for code, up to the end of the input. Said
of derivations: the program read is a sentence, code that is derived from the readings
of the text, with its names resolved from the table that reading starts with.

## What is proved

* `exists_sentence_of_read` — a program that is read is a sentence.
* `read_of_sentence` — a sentence is read, unless a name fails or it is nested too deep.
* `read_eq_of_sentence` — within the limit, reading a sentence is resolving its names.
-/

namespace Scriptlet

variable {σ ν : Type} [Scoping σ ν]

/-- The tape of a text. -/
def Tape.ofText (text : String) : Tape :=
  ⟨⟨(TokenSource.ofText text).next.1, (TokenSource.ofText text).next.2.line⟩,
    (TokenSource.ofText text).next.2.pending⟩

/-- The readings on the tape of a text are those of the text. -/
theorem Tape.readings_ofText (text : String) :
    (Tape.ofText text).readings = (Cursor.ofText text).readings := by
  unfold Tape.ofText Tape.readings TokenSource.ofText
  rw [Cursor.readings]
  split <;> rfl

/-- The readings of a text up to its end are code with the tree `cs` and the nesting
`k`. -/
def Sentence (text : String) (k : Nat) (cs : List (Command Mention)) : Prop :=
  ∃ r, Derives .code k (.ofText text) cs r ∧ r.kind = .endOfInput

/-- Reads a program from its text, with a table to start with. -/
def read (text file : String) (s : σ) : Except Diagnostic (Block ν) × Parser σ :=
  Grammar.program (Parser.start (.ofText text) file s .standard)

/-- A program of these commands, read from a text. -/
def Block.ofCode (text : String) (cs : List (Command ν)) : Block ν :=
  ⟨cs, [], (Tape.ofText text).hand.token.line⟩

theorem parseText_eq_read (text file : String) (mode : ScopeMode) :
    parseText text file mode = read text file (SymbolTable.empty mode) := rfl

/-- Reading gives a program if it does not fail. -/
theorem exists_parseText {text file : String} {mode : ScopeMode}
    (h : (parseText text file mode).1.isOk = true) :
    ∃ b p, parseText text file mode = (.ok b, p) := by
  rcases hp : parseText text file mode with ⟨d | b, p⟩
  · rw [hp] at h
    cases h
  · exact ⟨b, p, rfl⟩

variable {text file : String} {s : σ}

/-- A program that is read is a sentence, nested at most as deep as the limit allows,
with its names resolved. -/
theorem exists_sentence_of_read {b : Block ν} {q : Parser σ}
    (h : read text file s = (.ok b, q)) :
    ∃ k cs body, k ≤ maxDepth ∧ Sentence text k cs ∧
      Block.resolveAll file cs s = .ok (body, q.symbols) ∧ b = .ofCode text body := by
  obtain ⟨m, s', rfl, body, r, ⟨k, cs, hk, hd, hr⟩, hend, -, rfl⟩ :=
    Grammar.program_gives (Parser.start (.ofText text) file s .standard) rfl b q h
  exact ⟨k, cs, body, hk, ⟨r, hd, hend⟩, hr, rfl⟩

/-- A sentence is read as its names are resolved, or its first name that cannot be
resolved is reported. If it is nested too deep that is reported instead, unless a name
fails before. -/
theorem read_of_sentence {k : Nat} {cs : List (Command Mention)} (h : Sentence text k cs)
    (file : String) (s : σ) :
    (maxDepth < k ∧ ∃ position q,
      read text file s = (.error ⟨.tooDeep maxDepth, position⟩, q)) ∨
    (∃ d q, Block.resolveAll file cs s = .error d ∧ read text file s = (.error d, q)) ∨
    k ≤ maxDepth ∧ ∃ body s' q, Block.resolveAll file cs s = .ok (body, s') ∧
      read text file s = (.ok (.ofCode text body), q) ∧ q.symbols = s' := by
  obtain ⟨r, hd, hend⟩ := h
  let p : Parser σ := Parser.start (.ofText text) file s .standard
  have hp : Derives .code k p.tape cs r := hd
  rcases Grammar.program_meets hp hend rfl rfl with h | ⟨d, q, hc, hq⟩ | ⟨hk, b, s', hc, hq⟩
  · exact .inl h
  · refine .inr (.inl ⟨d, q, ?_, hq⟩)
    rw [Resolving.map_apply] at hc
    cases ha : Block.resolveAll file cs s with
    | ok a =>
      rw [show Block.resolveAll p.file cs p.symbols = .ok a from ha] at hc
      cases hc
    | error d' =>
      rw [show Block.resolveAll p.file cs p.symbols = .error d' from ha] at hc
      cases hc
      rfl
  · refine .inr (.inr ⟨hk, ?_⟩)
    rw [map_eq_pure_bind] at hc
    obtain ⟨body, ha, rfl⟩ := Resolving.bind_pure_eq_ok.1 hc
    exact ⟨body, s', _, ha, hq, rfl⟩

/-- A sentence within the limit is read as its names are resolved. -/
theorem read_eq_of_sentence {k : Nat} {cs : List (Command Mention)} (h : Sentence text k cs)
    (hk : k ≤ maxDepth) :
    (read text file s).1.map (·, (read text file s).2.symbols) =
      (Block.resolveAll file cs s).map fun (body, s') => (.ofCode text body, s') := by
  rcases read_of_sentence h file s
    with ⟨hlt, -⟩ | ⟨d, q, hd, hq⟩ | ⟨-, b, s', q, hb, hq, rfl⟩
  · exact absurd hk (Nat.not_le.2 hlt)
  · rw [hd, hq]
    rfl
  · rw [hb, hq]
    rfl

/-- A sentence within the limit is read if its names are resolved. -/
theorem read_ok_of_sentence {k : Nat} {cs : List (Command Mention)} {body : List (Command ν)}
    {s' : σ} (h : Sentence text k cs) (hk : k ≤ maxDepth)
    (hb : Block.resolveAll file cs s = .ok (body, s')) :
    (read text file s).1 = .ok (.ofCode text body) := by
  rcases read_of_sentence h file s
    with ⟨hlt, -⟩ | ⟨d, q, hd, -⟩ | ⟨-, body', s'', q, hb', hq, -⟩
  · exact absurd hk (Nat.not_le.2 hlt)
  · rw [hb] at hd
    cases hd
  · rw [hb] at hb'
    obtain ⟨rfl, -⟩ := Prod.mk.inj (Except.ok.inj hb')
    rw [hq]

end Scriptlet
