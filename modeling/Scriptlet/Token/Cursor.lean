import Scriptlet.Diagnostic
import Scriptlet.Token.Basic
import Scriptlet.Token.Lexeme

/-!
# Reading tokens from a text

A `Cursor` is what is left of a text and the line it starts on. `Cursor.next`
skips blanks and comments and takes one token. At the end of the text it gives
the mark of the end, as often as it is asked.

A comment or a quoted text that is opened and not closed swallows the rest of the
text and gives the mark of an input cut short, on the last line. A character that
starts no lexeme is a malformed token of its own, and so is a run of digits that
is out of range.

## Main statements

* `Cursor.length_next_lt` — each token but the mark of the end leaves less to
  read, so `Cursor.readings` comes to an end.
-/

namespace Scriptlet

/-- A place in a text. -/
structure Cursor where
  /-- What is left to read. -/
  rest : List Char
  /-- The line on which it starts. -/
  line : Nat

/-- A token, and the line its source has reached when it was read: that of the
token's last character. -/
structure Reading where
  /-- The token. -/
  token : Token
  /-- The line reached. -/
  reached : Nat
  deriving DecidableEq

/-- What reading a lexeme amounts to. -/
inductive Lexeme.Effect where
  /-- Nothing: it only separates. -/
  | skip
  /-- The text ends inside it. -/
  | cutShort
  /-- A token of this kind and value. -/
  | token (kind : TokenKind) (value : String)

/-- What reading a lexeme amounts to. A word that is spelled like a keyword is one;
digits must have a value in range. -/
def Lexeme.effect (l : Lexeme) : Lexeme.Effect :=
  match l.kind with
  | .blank | .lineComment | .blockComment => .skip
  | .commentOpening | .quoteOpening => .cutShort
  | .word => .token (.ofWord (.ofList l.text)) (.ofList l.text)
  | .digits =>
    if Text.Decimal.value l.text ≤ Text.Decimal.greatest then .token .number (.ofList l.text)
    else .token .malformed (.ofList l.text)
  | .quoted => .token .text (Text.Quoted.decode l.text)
  | .symbol s => .token (.symbol s) s.spelling

namespace Cursor

/-- The start of a text. -/
def ofText (text : String) : Cursor := ⟨text.toList, 1⟩

/-- The cursor behind a lexeme. -/
def past (c : Cursor) (l : Lexeme) : Cursor := ⟨l.rest, c.line + Text.lineEnds l.text⟩

/-- The cursor at the end of the text. -/
def toEnd (c : Cursor) : Cursor := ⟨[], c.line + Text.lineEnds c.rest⟩

/-- The next token, and the cursor behind it. -/
def next (c : Cursor) : Token × Cursor :=
  match c.rest with
  | [] => (.endAt c.line, c)
  | char :: rest =>
    match _found : Lexeme.first? c.rest with
    | none => (⟨.malformed, char.toString, c.line⟩, ⟨rest, c.line⟩)
    | some l =>
      match l.effect with
      | .skip => (c.past l).next
      | .cutShort => (⟨.cutShort, "", c.toEnd.line⟩, c.toEnd)
      | .token kind value => (⟨kind, value, c.line⟩, c.past l)
termination_by c.rest.length
decreasing_by exact Lexeme.length_rest_lt _found

/-- Each token but the mark of the end leaves less to read. -/
theorem length_next_lt (c : Cursor) (h : c.next.1.kind ≠ .endOfInput) :
    c.next.2.rest.length < c.rest.length := by
  fun_induction next c with
  | case1 c hr => exact absurd rfl h
  | case2 c char rest hr => simp [hr]
  | case3 c char rest hr l hf _ ih => exact Nat.lt_trans (ih h) (Lexeme.length_rest_lt hf)
  | case4 c char rest hr => simp [toEnd, hr]
  | case5 c char rest hr l hf => exact Lexeme.length_rest_lt hf

/-- All readings up to the first end of the input, that one included. -/
def readings (c : Cursor) : List Reading :=
  if _last : c.next.1.kind = .endOfInput then [⟨c.next.1, c.next.2.line⟩]
  else ⟨c.next.1, c.next.2.line⟩ :: c.next.2.readings
termination_by c.rest.length
decreasing_by exact length_next_lt c _last

end Cursor

/-- A token that can be part of a program, or why it cannot. -/
def Token.checked (file : String) (t : Token) : Except Diagnostic Token :=
  match t.kind with
  | .malformed => .error ⟨.invalidLexeme t.value, t.line, file⟩
  | .cutShort => .error ⟨.unexpectedEnd, t.line, file⟩
  | _ => .ok t

/-- The tokens of a text, the mark of its end included, or what is wrong with the
first that cannot be part of a program. -/
def tokenize (text file : String) : Except Diagnostic (List Token) :=
  (Cursor.ofText text).readings.mapM fun r => r.token.checked file

end Scriptlet
