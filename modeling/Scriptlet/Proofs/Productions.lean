import Scriptlet.Proofs.ContextFree
import Scriptlet.Proofs.Derivation
import Scriptlet.Proofs.Word

/-!
# The grammar as a context-free one

Which sequences of kinds of tokens are programs, said by the productions of a context-free
grammar, without lookahead, trees or nesting. It is the grammar of the derivations, but for
two things that productions cannot ask:

* An `else` may belong to any conditional before it that has none. This makes the grammar
  ambiguous, but generates nothing more.
* A body that does not start with a brace is a kind of phrase of its own. Commands and
  expressions are `bare` if they may not start with a brace.

## What is proved

* `PhraseKind.exists_generates` — every kind of phrase stands for some sequence.
-/

namespace Scriptlet

/-- The kinds of phrases. -/
inductive PhraseKind where
  /-- Code up to the end of the input. -/
  | program
  /-- Commands in order. -/
  | code
  /-- The body of a conditional or a loop. -/
  | body
  /-- A command. -/
  | command (bare : Bool)
  /-- Names of a declaration with commas between them. -/
  | declarators
  /-- A name of a declaration, with its initial value if it has one. -/
  | declarator
  /-- A phrase that stands for an expression. -/
  | expr (rank : Rank) (bare : Bool)
  /-- Operators of a level, each with its right operand. -/
  | operations (l : Level)
  /-- Subscripts. -/
  | subscripts
  /-- Elements of a list with commas between them. -/
  | elements
  /-- An element of a list. -/
  | element
  /-- Entries of a map with commas between them. -/
  | entries
  /-- An entry of a map. -/
  | entry
  deriving DecidableEq

/-! ### Tokens and phrases in a row -/

/-- What a production has in a row: kinds of tokens and kinds of phrases. -/
abbrev Item : Type := ContextFreeRule.Item TokenKind PhraseKind

/-- A token. -/
abbrev Item.token (k : TokenKind) : Item := .terminal k

/-- A symbol. -/
abbrev Item.symbol (s : Symbol) : Item := .terminal (.symbol s)

/-- A keyword. -/
abbrev Item.keyword (k : Keyword) : Item := .terminal (.keyword k)

/-- A phrase. -/
abbrev Item.phrase (n : PhraseKind) : Item := .nonterminal n

/-- An expression. -/
abbrev Item.expression : Item := .nonterminal (.expr .expression false)

/-! ### Tables -/

/-- The symbols of the operators of a level. -/
def Level.symbols : Level → List Symbol
  | fallback => [.ifNull]
  | logical => [.and, .or]
  | relational => [.less, .greater, .lessEquals, .greaterEquals, .equals, .notEquals]
  | additive => [.plus, .dash]
  | multiplicative => [.star, .slash, .percent]

/-- What may stand behind an operation of a level: further ones, if they chain. -/
def Level.furtherOperations (l : Level) : List Item :=
  if l.chains then [.phrase (.operations l)] else []

/-- The symbols of operators before their operand. -/
def UnaryOp.symbolsBefore : List Symbol := [.not, .dash, .plusPlus, .minusMinus]

/-- The symbols of operators after their operand. -/
def UnaryOp.symbolsAfter : List Symbol := [.plusPlus, .minusMinus]

/-- The kinds of tokens that are constants. -/
def Literal.kinds : List TokenKind :=
  [.keyword .nullWord, .keyword .falseWord, .keyword .trueWord, .number, .text]

/-- The names of the built-in functions. -/
def Builtin.keywords : List Keyword :=
  [.readWord, .randomWord, .lengthWord, .keysWord, .valuesWord, .toboolWord, .tointWord,
    .tostrWord]

/-! ### What a token opens -/

/-- A look-up that agrees with a table on every kind of token finds those of the table. -/
theorem TokenKind.exists_some_iff {α : Type} {f : TokenKind → Option α} {ks : List TokenKind}
    (h : (all.all fun k => (f k).isSome == ks.contains k) = true) {k : TokenKind} :
    (∃ a, f k = some a) ↔ k ∈ ks := by
  have hk : (f k).isSome = ks.contains k :=
    beq_iff_eq.1 (List.all_eq_true.1 h k k.mem_all)
  rw [← Option.isSome_iff_exists, hk, List.contains_iff_mem]

theorem Level.exists_op?_iff {l : Level} {k : TokenKind} :
    (∃ op, l.op? k = some op) ↔ k ∈ l.symbols.map .symbol := by
  refine TokenKind.exists_some_iff ?_
  cases l <;> decide +kernel

theorem UnaryOp.exists_before?_iff {k : TokenKind} :
    (∃ op, before? k = some op) ↔ k ∈ symbolsBefore.map .symbol :=
  TokenKind.exists_some_iff (by decide +kernel)

theorem UnaryOp.exists_after?_iff {k : TokenKind} :
    (∃ op, after? k = some op) ↔ k ∈ symbolsAfter.map .symbol :=
  TokenKind.exists_some_iff (by decide +kernel)

theorem Builtin.exists_ofKind?_iff {k : TokenKind} :
    (∃ function, ofKind? k = some function) ↔ k ∈ keywords.map .keyword :=
  TokenKind.exists_some_iff (by decide +kernel)

/-- A constant opens with a literal. -/
theorem Literal.mem_kinds {k : TokenKind} (h : Dispatch.standardOperand? k = some .constant) :
    k ∈ kinds := by
  cases k with
  | keyword w => cases w <;> first | decide | cases h
  | symbol s => cases s <;> cases h
  | number | text => decide
  | _ => cases h

/-- A call opens with the name of a built-in function. -/
theorem Builtin.ofKind?_of_call {k : TokenKind} (h : Dispatch.standardOperand? k = some .call) :
    ∃ function, ofKind? k = some function := by
  cases k with
  | keyword w => cases w <;> first | exact ⟨_, rfl⟩ | cases h
  | symbol s => cases s <;> cases h
  | _ => cases h

/-- A map opens with a brace. -/
theorem kind_of_map {k : TokenKind} (h : Dispatch.standardOperand? k = some .map) :
    k = .symbol .openCurly := by
  cases k with
  | keyword w => cases w <;> cases h
  | symbol s => cases s <;> first | rfl | cases h
  | _ => cases h

/-- A literal of a text stands for a constant. -/
theorem Literal.exists_ofToken {t : Token} (hk : t.kind ∈ kinds) (ht : t.IsSpelled) :
    ∃ value, ofToken t = .ok value := by
  unfold ofToken
  simp only [kinds, List.mem_cons, List.not_mem_nil, or_false] at hk
  rcases hk with hk | hk | hk | hk | hk <;> rw [hk]
  · exact ⟨_, rfl⟩
  · exact ⟨_, rfl⟩
  · exact ⟨_, rfl⟩
  · rw [Text.Decimal.number?_of_isNumber (ht.2 hk)]
    exact ⟨_, rfl⟩
  · exact ⟨_, rfl⟩

/-! ### The productions -/

/-- The productions for commands. -/
def commandProductions (bare : Bool) : List (List Item) :=
  [[.keyword .varWord, .phrase .declarators, .symbol .semicolon],
    [.keyword .varWord, .symbol .nullable, .phrase .declarators, .symbol .semicolon],
    [.keyword .finalWord, .keyword .varWord, .phrase .declarators, .symbol .semicolon],
    [.keyword .finalWord, .keyword .varWord, .symbol .nullable, .phrase .declarators,
      .symbol .semicolon],
    [.keyword .printWord, .symbol .openParen, .symbol .closeParen, .symbol .semicolon],
    [.keyword .printWord, .symbol .openParen, .expression, .symbol .closeParen,
      .symbol .semicolon],
    [.keyword .assertWord, .symbol .openParen, .expression, .symbol .closeParen,
      .symbol .semicolon],
    [.keyword .assertWord, .symbol .openParen, .expression, .symbol .comma, .expression,
      .symbol .closeParen, .symbol .semicolon],
    [.keyword .ifWord, .symbol .openParen, .expression, .symbol .closeParen, .phrase .body],
    [.keyword .ifWord, .symbol .openParen, .expression, .symbol .closeParen, .phrase .body,
      .keyword .elseWord, .phrase .body],
    [.keyword .whileWord, .symbol .openParen, .expression, .symbol .closeParen, .phrase .body],
    [.keyword .doWord, .phrase .body, .keyword .whileWord, .symbol .openParen, .expression,
      .symbol .closeParen, .symbol .semicolon],
    [.keyword .forWord, .symbol .openParen, .token .name, .keyword .inWord, .expression,
      .symbol .closeParen, .phrase .body],
    [.phrase (.expr .place false), .symbol .assign, .expression, .symbol .semicolon],
    [.phrase (.expr .expression bare), .symbol .semicolon]]

/-- The productions for elements of lists. -/
def elementProductions : List (List Item) :=
  [[.expression],
    [.symbol .spread, .expression],
    [.keyword .ifWord, .symbol .openParen, .expression, .symbol .closeParen, .phrase .element],
    [.keyword .ifWord, .symbol .openParen, .expression, .symbol .closeParen, .phrase .element,
      .keyword .elseWord, .phrase .element],
    [.keyword .forWord, .symbol .openParen, .token .name, .keyword .inWord, .expression,
      .symbol .closeParen, .phrase .element]]

/-- The productions for operands. -/
def operandProductions (bare : Bool) : List (List Item) :=
  Literal.kinds.map (fun k => [.token k]) ++
    Builtin.keywords.map
      (fun k => [.keyword k, .symbol .openParen, .expression, .symbol .closeParen]) ++
    [[.phrase (.expr .place false)],
      [.symbol .openBracket, .symbol .closeBracket],
      [.symbol .openBracket, .phrase .elements, .symbol .closeBracket]] ++
    if bare then []
    else [[.symbol .openCurly, .symbol .closeCurly],
      [.symbol .openCurly, .phrase .entries, .symbol .closeCurly]]

/-- The productions for expressions. -/
def Rank.productions (bare : Bool) : Rank → List (List Item)
  | expression => [[.phrase (.expr (.level .fallback) bare)]]
  | level l => [[.phrase (.expr l.operand bare), .phrase (.operations l)]]
  | signed =>
    [.phrase (.expr .factor bare)] ::
      UnaryOp.symbolsBefore.map fun s => [.symbol s, .phrase (.expr .factor false)]
  | factor =>
    [.phrase (.expr .primary bare)] ::
      UnaryOp.symbolsAfter.map fun s => [.phrase (.expr .primary bare), .symbol s]
  | primary =>
    [[.phrase (.expr .operand bare)],
      [.symbol .openParen, .expression, .symbol .closeParen]]
  | operand => operandProductions bare
  | place => [[.token .name, .phrase .subscripts]]

/-- What a kind of phrase stands for. -/
def PhraseKind.productions : PhraseKind → List (List Item)
  | program => [[.phrase .code, .token .endOfInput]]
  | code => [[], [.phrase (.command false), .phrase .code]]
  | body =>
    [[.symbol .openCurly, .phrase .code, .symbol .closeCurly], [.phrase (.command true)]]
  | command bare => commandProductions bare
  | declarators =>
    [[.phrase .declarator], [.phrase .declarator, .symbol .comma, .phrase .declarators]]
  | declarator => [[.token .name], [.token .name, .symbol .assign, .expression]]
  | expr rank bare => rank.productions bare
  | operations l =>
    [] :: l.symbols.map fun s =>
      [.symbol s, .phrase (.expr l.operand false)] ++ l.furtherOperations
  | subscripts =>
    [[], [.symbol .openBracket, .expression, .symbol .closeBracket, .phrase .subscripts]]
  | elements => [[.phrase .element], [.phrase .element, .symbol .comma, .phrase .elements]]
  | element => elementProductions
  | entries => [[.phrase .entry], [.phrase .entry, .symbol .comma, .phrase .entries]]
  | entry => [[.expression, .symbol .colon, .expression]]

/-! ### The grammar -/

/-- All levels. -/
def Level.all : List Level := [.fallback, .logical, .relational, .additive, .multiplicative]

/-- All ranks. -/
def Rank.all : List Rank :=
  [.expression, .signed, .factor, .primary, .operand, .place] ++ Level.all.map .level

/-- All kinds of phrases. -/
def PhraseKind.all : List PhraseKind :=
  [.program, .code, .body, .command false, .command true, .declarators, .declarator,
    .subscripts, .elements, .element, .entries, .entry] ++
    Rank.all.flatMap (fun rank => [.expr rank false, .expr rank true]) ++
    Level.all.map .operations

theorem Level.mem_all (l : Level) : l ∈ Level.all := by cases l <;> decide

theorem Rank.mem_all (rank : Rank) : rank ∈ Rank.all := by
  cases rank <;> simp [Rank.all, Level.mem_all]

theorem PhraseKind.mem_all (n : PhraseKind) : n ∈ PhraseKind.all := by
  cases n with
  | command bare => cases bare <;> simp [PhraseKind.all]
  | expr rank bare => cases bare <;> simp [PhraseKind.all, Rank.mem_all]
  | operations l => simp [PhraseKind.all, Level.mem_all]
  | _ => simp [PhraseKind.all]

/-- The grammar of the language. -/
def grammar : ContextFreeGrammar TokenKind where
  NT := PhraseKind
  initial := .program
  rules := (PhraseKind.all.flatMap fun n => n.productions.map (.mk n)).toFinset

theorem mem_grammar_rules {r : ContextFreeRule TokenKind PhraseKind} :
    r ∈ grammar.rules ↔ r.output ∈ r.input.productions := by
  obtain ⟨n, w⟩ := r
  refine List.mem_toFinset.trans ?_
  simp [PhraseKind.mem_all]

/-- The kinds of tokens are a row of these items. -/
abbrev Generates (w : List Item) (ks : List TokenKind) : Prop := grammar.Spells w ks

/-- The kinds of tokens are the beginning of a row of these items. -/
abbrev Opens (w : List Item) (ks : List TokenKind) : Prop := grammar.Opens w ks

/-! ### Every kind of phrase is there -/

section

variable {n : PhraseKind} {w : List Item} {ks : List TokenKind}

/-- A token spells its kind. -/
theorem generates_token (k : TokenKind) : Generates [.token k] [k] :=
  ContextFreeGrammar.Spells.terminal k

/-- A phrase spells what its productions do. -/
theorem generates_of_production (hw : w ∈ n.productions) (h : Generates w ks) :
    Generates [.phrase n] ks :=
  ContextFreeGrammar.Spells.of_rule (r := ⟨n, w⟩) (mem_grammar_rules.2 hw) h

/-- A phrase opens with what its productions do. -/
theorem opens_of_production (hw : w ∈ n.productions) (h : Opens w ks) :
    Opens [.phrase n] ks :=
  ContextFreeGrammar.Opens.of_rule (r := ⟨n, w⟩) (mem_grammar_rules.2 hw) h

theorem generates_level (l : Level) (bare : Bool)
    (h : Generates [.phrase (.expr l.operand bare)] ks) :
    Generates [.phrase (.expr (.level l) bare)] ks := by
  have ho : Generates [.phrase (.operations l)] [] :=
    generates_of_production (w := []) (by simp [PhraseKind.productions]) .nil
  have hl : Generates [.phrase (.expr l.operand bare), .phrase (.operations l)] (ks ++ []) :=
    h.append ho
  rw [List.append_nil] at hl
  exact generates_of_production (by simp [PhraseKind.productions, Rank.productions]) hl

/-- A name may stand for any expression. -/
theorem generates_name (rank : Rank) (bare : Bool) :
    Generates [.phrase (.expr rank bare)] [.name] := by
  have subscripts : Generates [.phrase .subscripts] [] :=
    generates_of_production (w := []) (by simp [PhraseKind.productions]) .nil
  have place (bare : Bool) : Generates [.phrase (.expr .place bare)] [.name] :=
    generates_of_production (w := [.token .name, .phrase .subscripts])
      (by simp [PhraseKind.productions, Rank.productions])
      ((generates_token .name).append subscripts)
  have operand : Generates [.phrase (.expr .operand bare)] [.name] :=
    generates_of_production (by simp [PhraseKind.productions, Rank.productions, operandProductions])
      (place false)
  have primary : Generates [.phrase (.expr .primary bare)] [.name] :=
    generates_of_production (by simp [PhraseKind.productions, Rank.productions]) operand
  have factor : Generates [.phrase (.expr .factor bare)] [.name] :=
    generates_of_production (by simp [PhraseKind.productions, Rank.productions]) primary
  have signed : Generates [.phrase (.expr .signed bare)] [.name] :=
    generates_of_production (by simp [PhraseKind.productions, Rank.productions]) factor
  have multiplicative := generates_level .multiplicative bare signed
  have additive := generates_level .additive bare multiplicative
  have relational := generates_level .relational bare additive
  have logical := generates_level .logical bare relational
  have fallback := generates_level .fallback bare logical
  cases rank with
  | level l => cases l <;> assumption
  | expression =>
    exact generates_of_production (by simp [PhraseKind.productions, Rank.productions]) fallback
  | place => exact place bare
  | _ => assumption

/-- Every kind of phrase stands for some sequence. -/
theorem PhraseKind.exists_generates (n : PhraseKind) : ∃ ks, Generates [.phrase n] ks := by
  have expression : Generates [.expression] [.name] := generates_name .expression false
  have code : Generates [.phrase .code] [] :=
    generates_of_production (w := []) (by simp [productions]) .nil
  have command (bare : Bool) :
      Generates [.phrase (.command bare)] [.name, .symbol .semicolon] :=
    generates_of_production (w := [.phrase (.expr .expression bare), .symbol .semicolon])
      (by simp [productions, commandProductions])
      ((generates_name .expression bare).append (generates_token (.symbol .semicolon)))
  have declarator : Generates [.phrase .declarator] [.name] :=
    generates_of_production (by simp [productions]) (generates_token .name)
  have element : Generates [.phrase .element] [.name] :=
    generates_of_production (by simp [productions, elementProductions]) expression
  have entry : Generates [.phrase .entry] [.name, .symbol .colon, .name] :=
    generates_of_production (w := [.expression, .symbol .colon, .expression])
      (by simp [productions])
      (expression.append ((generates_token (.symbol .colon)).append expression))
  cases n with
  | program =>
    exact ⟨_, generates_of_production (w := [.phrase .code, .token .endOfInput])
      (by simp [productions]) (code.append (generates_token .endOfInput))⟩
  | code => exact ⟨_, code⟩
  | body => exact ⟨_, generates_of_production (by simp [productions]) (command true)⟩
  | command bare => exact ⟨_, command bare⟩
  | declarators => exact ⟨_, generates_of_production (by simp [productions]) declarator⟩
  | declarator => exact ⟨_, declarator⟩
  | expr rank bare => exact ⟨_, generates_name rank bare⟩
  | operations l =>
    exact ⟨_, generates_of_production (w := []) (by simp [productions]) .nil⟩
  | subscripts => exact ⟨_, generates_of_production (w := []) (by simp [productions]) .nil⟩
  | elements => exact ⟨_, generates_of_production (by simp [productions]) element⟩
  | element => exact ⟨_, element⟩
  | entries => exact ⟨_, generates_of_production (by simp [productions]) entry⟩
  | entry => exact ⟨_, entry⟩

end

end Scriptlet
