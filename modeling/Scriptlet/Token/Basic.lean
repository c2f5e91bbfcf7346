import Scriptlet.Text.Notation
import Scriptlet.Token.Kind

/-!
# Tokens

A token is a kind, the text it carries and the line it starts on.
-/

namespace Scriptlet

/-- A lexical unit. -/
structure Token where
  /-- What it is. -/
  kind : TokenKind
  /-- Its text: the lexeme, the meaning of a quoted text, nothing for the end of
  the input. -/
  value : String
  /-- The line it starts on. -/
  line : Nat
  deriving DecidableEq

namespace Token

/-- The mark of the end of the input, on a line. -/
def endAt (line : Nat) : Token := ⟨.endOfInput, "", line⟩

/-- A token in words. -/
def describe (t : Token) : String :=
  "Token \x7b\nkind: " ++ t.kind.label ++ ",\nvalue: " ++ t.value ++ "\x7d"

/-- The text that a listing shows: that of the kinds whose text is not fixed. -/
def shownText (t : Token) : String :=
  match t.kind with
  | .text | .name | .number => t.value
  | _ => ""

/-- The line of a listing for a token. -/
def listing (t : Token) : String :=
  Text.Decimal.twoDigits t.line ++ ": " ++ t.kind.label ++ " (" ++ t.shownText ++ ")"

end Token

end Scriptlet
