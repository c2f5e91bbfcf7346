/-!
# Kinds of tokens

A token is a name, a number or a text, one of a fixed set of symbols or keywords,
or one of three marks: the end of the input, an input that ends inside a lexeme,
and a lexeme that is malformed.

Symbols are listed so that a symbol stands before every other that starts it
(`==` before `=`), which is the order in which they are tried.
-/

namespace Scriptlet

/-- Punctuation and operators. -/
inductive Symbol where
  /-- The symbol `...`. -/
  | spread
  /-- The symbol `[`. -/
  | openBracket
  /-- The symbol `]`. -/
  | closeBracket
  /-- The opening brace. -/
  | openCurly
  /-- The closing brace. -/
  | closeCurly
  /-- The symbol `(`. -/
  | openParen
  /-- The symbol `)`. -/
  | closeParen
  /-- The symbol `==`. -/
  | equals
  /-- The symbol `!=`. -/
  | notEquals
  /-- The symbol `!`. -/
  | not
  /-- The symbol `=`. -/
  | assign
  /-- The symbol `<=`. -/
  | lessEquals
  /-- The symbol `<`. -/
  | less
  /-- The symbol `>=`. -/
  | greaterEquals
  /-- The symbol `>`. -/
  | greater
  /-- The symbol `||`. -/
  | or
  /-- The symbol `&&`. -/
  | and
  /-- The symbol `??`. -/
  | ifNull
  /-- The symbol `?`. -/
  | nullable
  /-- The symbol `;`. -/
  | semicolon
  /-- The symbol `:`. -/
  | colon
  /-- The symbol `,`. -/
  | comma
  /-- The symbol `++`. -/
  | plusPlus
  /-- The symbol `--`. -/
  | minusMinus
  /-- The symbol `+`. -/
  | plus
  /-- The symbol `-`. -/
  | dash
  /-- The symbol `/`. -/
  | slash
  /-- The symbol `*`. -/
  | star
  /-- The symbol `%`. -/
  | percent
  deriving DecidableEq

/-- The words that are not names. -/
inductive Keyword where
  /-- The word `final`. -/
  | finalWord
  /-- The word `var`. -/
  | varWord
  /-- The word `print`. -/
  | printWord
  /-- The word `assert`. -/
  | assertWord
  /-- The word `if`. -/
  | ifWord
  /-- The word `else`. -/
  | elseWord
  /-- The word `while`. -/
  | whileWord
  /-- The word `do`. -/
  | doWord
  /-- The word `for`. -/
  | forWord
  /-- The word `in`. -/
  | inWord
  /-- The word `null`. -/
  | nullWord
  /-- The word `false`. -/
  | falseWord
  /-- The word `true`. -/
  | trueWord
  /-- The word `read`. -/
  | readWord
  /-- The word `random`. -/
  | randomWord
  /-- The word `length`. -/
  | lengthWord
  /-- The word `keys`. -/
  | keysWord
  /-- The word `values`. -/
  | valuesWord
  /-- The word `tobool`. -/
  | toboolWord
  /-- The word `toint`. -/
  | tointWord
  /-- The word `tostr`. -/
  | tostrWord
  deriving DecidableEq

/-- What a token is. -/
inductive TokenKind where
  /-- The end of the input. -/
  | endOfInput
  /-- The input ends inside a lexeme. -/
  | cutShort
  /-- Not a lexeme of the language. -/
  | malformed
  /-- A number in range. -/
  | number
  /-- A quoted text. -/
  | text
  /-- A name. -/
  | name
  /-- Punctuation or an operator. -/
  | symbol (s : Symbol)
  /-- A word that is not a name. -/
  | keyword (k : Keyword)
  deriving DecidableEq

/-! ### Spelling -/

/-- How a symbol is written. -/
def Symbol.spelling : Symbol → String
  | .spread => "..."
  | .openBracket => "["
  | .closeBracket => "]"
  | .openCurly => "\x7b"
  | .closeCurly => "\x7d"
  | .openParen => "("
  | .closeParen => ")"
  | .equals => "=="
  | .notEquals => "!="
  | .not => "!"
  | .assign => "="
  | .lessEquals => "<="
  | .less => "<"
  | .greaterEquals => ">="
  | .greater => ">"
  | .or => "||"
  | .and => "&&"
  | .ifNull => "??"
  | .nullable => "?"
  | .semicolon => ";"
  | .colon => ":"
  | .comma => ","
  | .plusPlus => "++"
  | .minusMinus => "--"
  | .plus => "+"
  | .dash => "-"
  | .slash => "/"
  | .star => "*"
  | .percent => "%"

/-- How a keyword is written. -/
def Keyword.spelling : Keyword → String
  | .finalWord => "final"
  | .varWord => "var"
  | .printWord => "print"
  | .assertWord => "assert"
  | .ifWord => "if"
  | .elseWord => "else"
  | .whileWord => "while"
  | .doWord => "do"
  | .forWord => "for"
  | .inWord => "in"
  | .nullWord => "null"
  | .falseWord => "false"
  | .trueWord => "true"
  | .readWord => "read"
  | .randomWord => "random"
  | .lengthWord => "length"
  | .keysWord => "keys"
  | .valuesWord => "values"
  | .toboolWord => "tobool"
  | .tointWord => "toint"
  | .tostrWord => "tostr"

/-- All symbols, in the order in which they are tried. -/
def Symbol.all : List Symbol :=
  [.spread, .openBracket, .closeBracket, .openCurly, .closeCurly, .openParen, .closeParen,
    .equals, .notEquals, .not, .assign, .lessEquals, .less, .greaterEquals, .greater, .or, .and,
    .ifNull, .nullable, .semicolon, .colon, .comma, .plusPlus, .minusMinus, .plus, .dash, .slash,
    .star, .percent]

/-- All keywords. -/
def Keyword.all : List Keyword :=
  [.finalWord, .varWord, .printWord, .assertWord, .ifWord, .elseWord, .whileWord, .doWord,
    .forWord, .inWord, .nullWord, .falseWord, .trueWord, .readWord, .randomWord, .lengthWord,
    .keysWord, .valuesWord, .toboolWord, .tointWord, .tostrWord]

/-- All kinds of tokens. -/
def TokenKind.all : List TokenKind :=
  [.endOfInput, .cutShort, .malformed, .number, .text, .name] ++ Symbol.all.map .symbol ++
    Keyword.all.map .keyword

theorem Symbol.toList_spelling_ne_nil (s : Symbol) : s.spelling.toList ≠ [] := by
  cases s <;> decide

theorem Symbol.mem_all (s : Symbol) : s ∈ Symbol.all := by cases s <;> decide

theorem Keyword.mem_all (k : Keyword) : k ∈ Keyword.all := by cases k <;> decide

theorem TokenKind.mem_all (k : TokenKind) : k ∈ TokenKind.all := by
  cases k <;> simp [TokenKind.all, Symbol.mem_all, Keyword.mem_all]

/-- The kind of a word: a keyword if it is spelled like one, else a name. -/
def TokenKind.ofWord (word : String) : TokenKind :=
  match Keyword.all.find? (·.spelling = word) with
  | some k => .keyword k
  | none => .name

/-! ### Labels -/

/-- What a symbol is called in a listing. -/
def Symbol.label : Symbol → String
  | .spread => "Spread"
  | .openBracket => "OpenBracket"
  | .closeBracket => "CloseBracket"
  | .openCurly => "OpenCurly"
  | .closeCurly => "CloseCurly"
  | .openParen => "OpenParen"
  | .closeParen => "CloseParen"
  | .equals => "Equals"
  | .notEquals => "NotEquals"
  | .not => "Not"
  | .assign => "Assignment"
  | .lessEquals => "LessEquals"
  | .less => "Less"
  | .greaterEquals => "GreaterEquals"
  | .greater => "Greater"
  | .or => "Or"
  | .and => "And"
  | .ifNull => "IfNull"
  | .nullable => "Nullable"
  | .semicolon => "Semicolon"
  | .colon => "Colon"
  | .comma => "Comma"
  | .plusPlus => "PlusPlus"
  | .minusMinus => "MinusMinus"
  | .plus => "Plus"
  | .dash => "Dash"
  | .slash => "Slash"
  | .star => "Star"
  | .percent => "Percent"

/-- What a keyword is called in a listing. -/
def Keyword.label : Keyword → String
  | .finalWord => "Final"
  | .varWord => "Var"
  | .printWord => "Print"
  | .assertWord => "Assert"
  | .ifWord => "If"
  | .elseWord => "Else"
  | .whileWord => "While"
  | .doWord => "Do"
  | .forWord => "For"
  | .inWord => "In"
  | .nullWord => "Null"
  | .falseWord => "False"
  | .trueWord => "True"
  | .readWord => "Read"
  | .randomWord => "Random"
  | .lengthWord => "Length"
  | .keysWord => "Keys"
  | .valuesWord => "Values"
  | .toboolWord => "ToBool"
  | .tointWord => "ToInt"
  | .tostrWord => "ToStr"

/-- What a kind of token is called in a listing. -/
def TokenKind.label : TokenKind → String
  | .endOfInput => "EOF"
  | .cutShort => "UnexpectedEof"
  | .malformed => "Invalid"
  | .number => "Number"
  | .text => "Text"
  | .name => "Name"
  | .symbol s => s.label
  | .keyword k => k.label

/-- The kind that a label names. -/
def TokenKind.ofLabel? (label : String) : Option TokenKind :=
  TokenKind.all.find? (·.label = label)

end Scriptlet
