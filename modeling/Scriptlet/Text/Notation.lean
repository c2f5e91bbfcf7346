/-!
# Lines, numbers and quoted text

How values and trees are written as text, and how values are read from it.

Text is laid out as a list of lines, indented by four blanks for each level.

Numbers of the language are signed 32-bit integers. In a program they are runs of decimal
digits, so only their value can be out of range; a token made by hand may carry any text, and is
read with an optional sign.

A text is written between double quotes. Six characters are written as a backslash and a letter,
so that the written form fits on one line and its end is the first quote that no backslash
protects. Reading is more liberal than writing: a character may stand for itself, and a
backslash before any other character is kept with it.

## What is proved

* `Quoted.decodeBody_encodeBody` — reading what was written gives the text back.
* `Quoted.close?_encodeBody` — a written text ends at its own closing quote.
-/

/-! ### Lines -/

namespace Scriptlet.Text

/-- How many lines end in a text. Only the line feed ends a line. -/
def lineEnds (cs : List Char) : Nat := cs.count '\n'

@[simp] theorem lineEnds_nil : lineEnds [] = 0 := rfl

@[simp] theorem lineEnds_append (cs ds : List Char) :
    lineEnds (cs ++ ds) = lineEnds cs + lineEnds ds := List.count_append

/-- Texts one after the other, with a separator between two. -/
def separated (separator : String) : List String → String
  | [] => ""
  | [s] => s
  | s :: rest => s ++ separator ++ separated separator rest

/-- Lines, each with its line end. -/
def unlines : List String → String
  | [] => ""
  | l :: rest => l ++ "\n" ++ unlines rest

/-- Lines one level further in. -/
def indented (lines : List String) : List String := lines.map ("    " ++ ·)

/-- A text and lines: the text is put before the first of them, on its line. -/
def hang (text : String) : List String → List String
  | [] => [text]
  | l :: rest => (text ++ " " ++ l) :: rest

/-- Lines in braces. -/
def braced (lines : List String) : List String := "\x7b" :: indented lines ++ ["\x7d"]

/-- Lines with a text after the last of them. -/
def closedWith (text : String) : List String → List String
  | [] => [text]
  | [l] => [l ++ text]
  | l :: rest => l :: closedWith text rest

end Scriptlet.Text

/-! ### Decimal numbers -/

namespace Scriptlet.Text.Decimal

/-- The least number. -/
def least : Int := -2147483648

/-- The greatest number. -/
def greatest : Int := 2147483647

/-- The value of a run of decimal digits. -/
def value (digits : List Char) : Nat := Nat.ofDigitChars 10 digits 0

/-- The value of a text that is a run of decimal digits, with at least one. -/
def natural? (cs : List Char) : Option Nat :=
  if cs ≠ [] ∧ cs.all Char.isDigit then some (value cs) else none

/-- The value of a run of digits with an optional sign before it. -/
def signed? : List Char → Option Int
  | '+' :: r => (natural? r).map Int.ofNat
  | '-' :: r => (natural? r).map fun n => -Int.ofNat n
  | cs => (natural? cs).map Int.ofNat

/-- The number that a text spells, if it spells one in range. -/
def number? (s : String) : Option Int :=
  (signed? s.toList).filter fun n => decide (least ≤ n ∧ n ≤ greatest)

/-- A number in decimal digits, with a sign if it is negative. -/
def spelling : Int → String
  | .ofNat n => n.repr
  | .negSucc n => "-" ++ (n + 1).repr

/-- A number in at least two digits, with a zero in front if one is too few. -/
def twoDigits (n : Nat) : String :=
  if n < 10 then "0" ++ n.repr else n.repr

end Scriptlet.Text.Decimal

/-! ### Quoted text -/

namespace Scriptlet.Text.Quoted

/-- The letter that stands for a character behind a backslash, for the six
characters that are written so. -/
def letter? : Char → Option Char
  | '\n' => some 'n'
  | '\t' => some 't'
  | '\r' => some 'r'
  | '\x00' => some '0'
  | '\\' => some '\\'
  | '"' => some '"'
  | _ => none

/-- The character that a letter stands for behind a backslash. -/
def meaning? : Char → Option Char
  | 'n' => some '\n'
  | 't' => some '\t'
  | 'r' => some '\r'
  | '0' => some '\x00'
  | '\\' => some '\\'
  | '"' => some '"'
  | _ => none

/-- What is written between the quotes. -/
def encodeBody : List Char → List Char
  | [] => []
  | c :: r =>
    match letter? c with
    | some l => '\\' :: l :: encodeBody r
    | none => c :: encodeBody r

/-- The written form of a text, quotes included. -/
def encode (s : String) : String :=
  String.ofList ('"' :: encodeBody s.toList ++ ['"'])

/-- What the characters between the quotes mean. A backslash before a letter that
stands for nothing is kept, and so is a last one. -/
def decodeBody : List Char → List Char
  | '\\' :: c :: r =>
    match meaning? c with
    | some d => d :: decodeBody r
    | none => '\\' :: c :: decodeBody r
  | c :: r => c :: decodeBody r
  | [] => []

/-- The text that a quoted lexeme means: its first and last characters are the
quotes. -/
def decode (lexeme : List Char) : String :=
  String.ofList (decodeBody lexeme.tail.dropLast)

/-- Splits what follows an opening quote at the closing one: the part up to and
with the first quote that no backslash protects, and the rest. `none` if there is
no such quote. -/
def close? : List Char → Option (List Char × List Char)
  | '"' :: r => some (['"'], r)
  | '\\' :: c :: r => (close? r).map fun (body, rest) => ('\\' :: c :: body, rest)
  | c :: r => (close? r).map fun (body, rest) => (c :: body, rest)
  | [] => none

/-! ### Reading back what was written -/

theorem meaning?_of_letter? {c l : Char} (h : letter? c = some l) : meaning? l = some c := by
  unfold letter? at h
  split at h <;> cases h <;> rfl

/-- A character without a letter is neither the quote nor the backslash. -/
theorem ne_of_letter?_eq_none {c : Char} (h : letter? c = none) : c ≠ '\\' ∧ c ≠ '"' := by
  constructor <;> rintro rfl <;> simp [letter?] at h

/-- Reading what was written gives the text back. -/
theorem decodeBody_encodeBody (s : List Char) : decodeBody (encodeBody s) = s := by
  induction s with
  | nil => rfl
  | cons c r ih =>
    unfold encodeBody
    split
    · next l hl => simp [decodeBody, meaning?_of_letter? hl, ih]
    · next hl =>
      have hc := (ne_of_letter?_eq_none hl).1
      rw [decodeBody.eq_2 _ _ (by simp [hc]), ih]

/-- What a closing quote leaves and what stands before it are the text. -/
theorem close?_append {cs body rest : List Char} (h : close? cs = some (body, rest)) :
    body ++ rest = cs := by
  fun_induction close? cs generalizing body with
  | case1 r =>
    cases h
    rfl
  | case2 c r ih =>
    obtain ⟨⟨b, t⟩, hb, he⟩ := Option.map_eq_some_iff.1 h
    cases he
    simp [ih hb]
  | case3 c r _ _ ih =>
    obtain ⟨⟨b, t⟩, hb, he⟩ := Option.map_eq_some_iff.1 h
    cases he
    simp [ih hb]
  | case4 => simp at h

/-- A written text ends at its own closing quote, whatever follows. -/
theorem close?_encodeBody (s rest : List Char) :
    close? (encodeBody s ++ '"' :: rest) = some (encodeBody s ++ ['"'], rest) := by
  induction s with
  | nil => rfl
  | cons c r ih =>
    unfold encodeBody
    split
    · simp [close?, ih]
    · next hl =>
      obtain ⟨hb, hq⟩ := ne_of_letter?_eq_none hl
      rw [List.cons_append, close?.eq_3 _ _ (by simp [hq]) (by simp [hb]), ih]
      rfl

end Scriptlet.Text.Quoted
