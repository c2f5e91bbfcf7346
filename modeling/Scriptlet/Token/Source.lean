import Scriptlet.Token.Cursor

/-!
# Sources of tokens

A parser takes its tokens from a `TokenSource`: the readings that are still to
come, and the line that has been reached. When they are used up the source gives
the mark of the end, on that line, as often as it is asked.

A source is made from a text, where the line reached is that of the last
character read, or from tokens made elsewhere, where it is the line on the token.
-/

namespace Scriptlet

/-- Tokens to be taken one at a time. -/
structure TokenSource where
  /-- The readings to come. -/
  pending : List Reading
  /-- The line reached. -/
  line : Nat

namespace TokenSource

/-- The tokens of a text. -/
def ofText (text : String) : TokenSource := ⟨(Cursor.ofText text).readings, 1⟩

/-- Tokens that end with the mark of the end: one is put after them if their last
is none, on the line of that last token. -/
def closed (tokens : List Token) : List Token :=
  match tokens.getLast? with
  | none => [.endAt 1]
  | some last => if last.kind = .endOfInput then tokens else tokens ++ [.endAt last.line]

/-- Tokens made elsewhere. -/
def ofTokens (tokens : List Token) : TokenSource :=
  ⟨(closed tokens).map fun t => ⟨t, t.line⟩, 1⟩

/-- The next token, and the source behind it. -/
def next (s : TokenSource) : Token × TokenSource :=
  match s.pending with
  | [] => (.endAt s.line, s)
  | r :: rest => (r.token, ⟨rest, r.reached⟩)

end TokenSource

end Scriptlet
