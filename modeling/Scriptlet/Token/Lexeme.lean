import Scriptlet.Text.Characters
import Scriptlet.Text.Notation
import Scriptlet.Token.Kind

/-!
# Lexemes

A `LexicalClass` is a class of texts that may start what is left of a program:
blanks, comments, words, digits, quoted texts and symbols. `LexicalClass.split?`
takes the text of a class off the front of the input. The classes are tried in
the order of `LexicalClass.table`, and the first that matches wins: a closed
comment before one that is still open, both before the slash, a longer symbol
before a shorter one.

## Main statements

* `LexicalClass.split?_append` — what a class takes is not empty, and with what it
  leaves is the input.
* `Lexeme.length_rest_lt` — so reading on from a lexeme comes to an end.
-/

namespace Scriptlet

/-- A class of texts that the input may start with. -/
inductive LexicalClass where
  /-- A run of blanks. -/
  | blank
  /-- Two slashes and the rest of the line. -/
  | lineComment
  /-- A comment with its closing `*/`. -/
  | blockComment
  /-- The opening of a comment. -/
  | commentOpening
  /-- A letter or underscore, with the letters, digits and underscores after it. -/
  | word
  /-- A run of digits. -/
  | digits
  /-- A text with its closing quote. -/
  | quoted
  /-- An opening quote. -/
  | quoteOpening
  /-- A symbol. -/
  | symbol (s : Symbol)
  deriving DecidableEq

namespace LexicalClass

/-- All classes, in the order in which they are tried. -/
def table : List LexicalClass :=
  [blank, lineComment, blockComment, commentOpening, word, digits, quoted, quoteOpening] ++
    Symbol.all.map symbol

/-- A word starts with a Latin letter without accent, or an underscore. -/
def startsWord (c : Char) : Bool := c.isAlpha || c == '_'

/-- A word goes on with those and with decimal digits. -/
def continuesWord (c : Char) : Bool := startsWord c || c.isDigit

/-- Splits what follows the opening of a comment behind the first `*/`. -/
def closeComment? : List Char → Option (List Char × List Char)
  | '*' :: '/' :: r => some (['*', '/'], r)
  | c :: r => (closeComment? r).map fun (body, rest) => (c :: body, rest)
  | [] => none

/-- The longest run at the front of characters with a property, if it is not
empty. -/
def run? (p : Char → Bool) (cs : List Char) : Option (List Char × List Char) :=
  match cs with
  | [] => none
  | c :: r => if p c then some (c :: r.takeWhile p, r.dropWhile p) else none

/-- Takes a fixed text off the front. -/
def fixed? (text cs : List Char) : Option (List Char × List Char) :=
  if text.isPrefixOf cs then some (text, cs.drop text.length) else none

/-- Takes the text of a class off the front of the input: the text and what is
left, or `none` if the input does not start with the class. -/
def split? : LexicalClass → List Char → Option (List Char × List Char)
  | blank, cs => run? Text.isBlank cs
  | lineComment, '/' :: '/' :: r =>
    some ('/' :: '/' :: r.takeWhile (· ≠ '\n'), r.dropWhile (· ≠ '\n'))
  | lineComment, _ => none
  | blockComment, '/' :: '*' :: r =>
    (closeComment? r).map fun (body, rest) => ('/' :: '*' :: body, rest)
  | blockComment, _ => none
  | commentOpening, cs => fixed? ['/', '*'] cs
  | word, c :: r =>
    if startsWord c then some (c :: r.takeWhile continuesWord, r.dropWhile continuesWord) else none
  | word, [] => none
  | digits, cs => run? Char.isDigit cs
  | quoted, '"' :: r =>
    (Text.Quoted.close? r).map fun (body, rest) => ('"' :: body, rest)
  | quoted, _ => none
  | quoteOpening, cs => fixed? ['"'] cs
  | symbol s, cs => fixed? s.spelling.toList cs

/-! ### What a class takes -/

theorem closeComment?_append {cs body rest : List Char}
    (h : closeComment? cs = some (body, rest)) : body ++ rest = cs := by
  fun_induction closeComment? cs generalizing body with
  | case1 r =>
    cases h
    rfl
  | case2 c r _ ih =>
    obtain ⟨⟨b, t⟩, hb, he⟩ := Option.map_eq_some_iff.1 h
    cases he
    simp [ih hb]
  | case3 => simp at h

theorem run?_append {p : Char → Bool} {cs text rest : List Char}
    (h : run? p cs = some (text, rest)) : text ++ rest = cs ∧ text ≠ [] := by
  unfold run? at h
  split at h
  · simp at h
  · split at h
    · cases h
      simp [List.takeWhile_append_dropWhile]
    · simp at h

theorem fixed?_append {fix cs text rest : List Char}
    (h : fixed? fix cs = some (text, rest)) : text ++ rest = cs ∧ text = fix := by
  unfold fixed? at h
  split at h
  · next hp =>
    cases h
    obtain ⟨r, rfl⟩ := List.isPrefixOf_iff_prefix.1 hp
    simp
  · simp at h

/-- A class takes a text that is not empty, and leaves the rest. -/
theorem split?_append {k : LexicalClass} {cs text rest : List Char}
    (h : k.split? cs = some (text, rest)) : text ++ rest = cs ∧ text ≠ [] := by
  unfold split? at h
  split at h
  · exact run?_append h
  · cases h
    simp [List.takeWhile_append_dropWhile]
  · simp at h
  · obtain ⟨⟨b, t⟩, hb, he⟩ := Option.map_eq_some_iff.1 h
    cases he
    simp [closeComment?_append hb]
  · simp at h
  · obtain ⟨ha, rfl⟩ := fixed?_append h
    exact ⟨ha, by simp⟩
  · split at h
    · cases h
      simp [List.takeWhile_append_dropWhile]
    · simp at h
  · simp at h
  · exact run?_append h
  · obtain ⟨⟨b, t⟩, hb, he⟩ := Option.map_eq_some_iff.1 h
    cases he
    simp [Text.Quoted.close?_append hb]
  · simp at h
  · obtain ⟨ha, rfl⟩ := fixed?_append h
    exact ⟨ha, by simp⟩
  · obtain ⟨ha, rfl⟩ := fixed?_append h
    exact ⟨ha, Symbol.toList_spelling_ne_nil _⟩

end LexicalClass

/-- A text taken off the front of the input. -/
structure Lexeme where
  /-- The class it was taken for. -/
  kind : LexicalClass
  /-- Its characters. -/
  text : List Char
  /-- The input after it. -/
  rest : List Char

namespace Lexeme

/-- The text of the first class, in the order of the table, that the input starts
with. -/
def first? (cs : List Char) : Option Lexeme :=
  LexicalClass.table.findSome? fun k => (k.split? cs).map fun (text, rest) => ⟨k, text, rest⟩

/-- The first lexeme was split off by its own class. -/
theorem split?_of_first? {cs : List Char} {l : Lexeme} (h : first? cs = some l) :
    l.kind.split? cs = some (l.text, l.rest) := by
  obtain ⟨k, -, hk⟩ := List.exists_of_findSome?_eq_some h
  obtain ⟨⟨text, rest⟩, hs, rfl⟩ := Option.map_eq_some_iff.1 hk
  exact hs

theorem first?_append {cs : List Char} {l : Lexeme} (h : first? cs = some l) :
    l.text ++ l.rest = cs := (LexicalClass.split?_append (split?_of_first? h)).1

/-- Less is left after a lexeme than before it. -/
theorem length_rest_lt {cs : List Char} {l : Lexeme} (h : first? cs = some l) :
    l.rest.length < cs.length := by
  obtain ⟨ha, hn⟩ := LexicalClass.split?_append (split?_of_first? h)
  have := List.length_pos_iff.2 hn
  rw [← ha, List.length_append]
  omega

end Lexeme

end Scriptlet
