import Scriptlet.Token.Cursor

/-!
# Reading tokens from a place in a text

A `Scanner` keeps the whole text and a place in it, counted in bytes of its UTF-8
form, so that a caller can move the place by hand. Moved so, the place may lie
inside a character or beyond the end. Nothing can be read at a place inside a
character; at or beyond the end there is only the mark of the end.
-/

namespace Scriptlet

namespace Text

/-- The number of bytes in the UTF-8 form of a text. -/
def byteLength : List Char → Nat
  | [] => 0
  | c :: cs => c.utf8Size + byteLength cs

/-- What is left of a text after so many bytes of its UTF-8 form. `none` if that
place lies inside a character or beyond the end. -/
def dropBytes? : Nat → List Char → Option (List Char)
  | 0, cs => some cs
  | _ + 1, [] => none
  | n + 1, c :: cs => if c.utf8Size ≤ n + 1 then dropBytes? (n + 1 - c.utf8Size) cs else none

end Text

/-- A text and a place in it. -/
structure Scanner where
  /-- The whole text. -/
  text : List Char
  /-- The place, in bytes from the start. -/
  offset : Nat
  /-- The line that the place is taken to be on. -/
  line : Nat

namespace Scanner

/-- The start of a text. -/
def ofText (text : String) : Scanner := ⟨text.toList, 0, 1⟩

/-- The place is at the end of the text, or beyond it. -/
def atEnd (s : Scanner) : Bool := Text.byteLength s.text ≤ s.offset

/-- The text from the place on, unless the place is inside a character or beyond
the end. -/
def rest? (s : Scanner) : Option (List Char) := Text.dropBytes? s.offset s.text

/-- Moves the place by so many bytes. The line stays. -/
def advance (s : Scanner) (bytes : Nat) : Scanner := { s with offset := s.offset + bytes }

/-- Moves the place and the line as if a text had been read. -/
def advanceOver (s : Scanner) (text : String) : Scanner :=
  { s with
    offset := s.offset + Text.byteLength text.toList
    line := s.line + Text.lineEnds text.toList }

/-- The cursor at the place; at or beyond the end it has nothing to read. -/
def cursor? (s : Scanner) : Option Cursor :=
  if s.atEnd then some ⟨[], s.line⟩ else s.rest?.map (⟨·, s.line⟩)

/-- The scanner at a cursor that has been moved on from the place. A place beyond
the end stays where it is. -/
def moveTo (s : Scanner) (c : Cursor) : Scanner :=
  { s with
    offset := max s.offset (Text.byteLength s.text - Text.byteLength c.rest)
    line := c.line }

/-- The next token and the scanner behind it, unless the place is inside a
character. -/
def next? (s : Scanner) : Option (Token × Scanner) :=
  s.cursor?.map fun c => (c.next.1, s.moveTo c.next.2)

/-- All readings up to the end of the input, and the scanner there. -/
def readings? (s : Scanner) : Option (List Reading × Scanner) :=
  s.cursor?.map fun c => (c.readings, s.moveTo c.toEnd)

end Scanner

end Scriptlet
