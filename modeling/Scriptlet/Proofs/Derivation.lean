import Scriptlet.Grammar.Expression
import Scriptlet.Proofs.Mention
import Scriptlet.Proofs.Tape

/-!
# The grammar

What the phrases of the language are, and which tree each stands for:

    expression  ::=  condition [ ?? condition ]
    condition   ::=  comparison { (&& | ||) comparison }
    comparison  ::=  sum [ (< | > | <= | >= | == | !=) sum ]
    sum         ::=  product { (+ | -) product }
    product     ::=  signed { (* | / | %) signed }
    signed      ::=  [ ! | - | ++ | -- ] factor
    factor      ::=  primary [ ++ | -- ]
    primary     ::=  '(' expression ')' | operand
    operand     ::=  constant | function '(' expression ')' | place
                       | '[' [ elements ] ']' | '{' [ entries ] '}'
    place       ::=  name { '[' expression ']' }
    elements    ::=  element { , element }
    element     ::=  expression | ... expression
                       | if '(' expression ')' element [ else element ]
                       | for '(' name in expression ')' element
    entries     ::=  expression : expression { , expression : expression }
    code        ::=  { command }
    body        ::=  '{' code '}' | command
    command     ::=  [ final ] var [ ? ] declarators ;
                       | print '(' [ expression ] ')' ;
                       | assert '(' expression [ , expression ] ')' ;
                       | if '(' expression ')' body [ else body ]
                       | while '(' expression ')' body
                       | do body while '(' expression ')' ;
                       | for '(' name in expression ')' body
                       | place = expression ;
                       | expression ;
    declarators ::=  name [ = expression ] { , name [ = expression ] }

An `else` belongs to the nearest conditional that has none: a conditional without `else`
is not followed by one. A brace at the start of a body opens a block: a body without
braces does not start with one. Nothing else in the rules looks ahead.

## The model

`Derives N k i x r` says that the readings on the tape from `i` up to `r` are a phrase of
category `N`, and that `x` is its tree. Only the kinds of tokens decide what is a phrase;
values go into the leaves of the tree, and lines onto its nodes. The trees keep mentions,
since the grammar knows nothing of what names mean. The number `k` is the nesting of the
phrase: how many expressions, elements and commands are open at once in it.
-/

namespace Scriptlet

/-! ### Categories -/

/-- The levels of operators between two operands, the loosest first. -/
inductive Level where
  /-- The operator `??`. -/
  | fallback
  /-- The operators `&&` and `||`. -/
  | logical
  /-- The comparisons. -/
  | relational
  /-- The operators `+` and `-`. -/
  | additive
  /-- The operators `*`, `/` and `%`. -/
  | multiplicative
  deriving DecidableEq

/-- The categories of phrases that stand for an expression. -/
inductive Rank where
  /-- An expression, one level deeper than what it stands in. -/
  | expression
  /-- Operands with operators of a level between them. -/
  | level (l : Level)
  /-- A factor, with at most one operator before it. -/
  | signed
  /-- A primary, with at most one operator after it. -/
  | factor
  /-- An operand, or an expression in parentheses. -/
  | primary
  /-- A constant, a call, a place, a list or a map. -/
  | operand
  /-- A variable with any number of subscripts. -/
  | place
  deriving DecidableEq

namespace Level

/-- The operators of a level. -/
def op? : Level → TokenKind → Option BinaryOp
  | fallback => BinaryOp.fallback?
  | logical => BinaryOp.logical?
  | relational => BinaryOp.relational?
  | additive => BinaryOp.additive?
  | multiplicative => BinaryOp.multiplicative?

/-- What stands between the operators of a level. -/
def operand : Level → Rank
  | fallback => .level .logical
  | logical => .level .relational
  | relational => .level .additive
  | additive => .level .multiplicative
  | multiplicative => .signed

/-- More than one operator of the level may stand in a row. -/
def chains : Level → Bool
  | fallback | relational => false
  | logical | additive | multiplicative => true

end Level

/-- The categories of phrases. -/
inductive Category where
  /-- A phrase that stands for an expression. -/
  | expr (rank : Rank)
  /-- Operators of a level, each with its right operand. -/
  | operations (l : Level)
  /-- Subscripts. -/
  | subscripts
  /-- An element of a list. -/
  | element
  /-- Elements with commas between them, at least one. -/
  | elements
  /-- Entries of a map with commas between them, at least one. -/
  | entries
  /-- A name of a declaration of this kind, with its initial value if it has one. -/
  | declarator (constant : Bool) (nullability : Nullability) (number : Nat)
  /-- Names of a declaration with commas between them, at least one. The first has this
  number. -/
  | declarators (constant : Bool) (nullability : Nullability) (number : Nat)
  /-- A command. -/
  | command
  /-- The body of a conditional or a loop. -/
  | body
  /-- Commands in order. -/
  | code

/-- What the phrases of a category stand for. An operation is an operator with its right
operand, and it and a subscript have the line for the node that they become. -/
@[reducible] def Category.Tree : Category → Type
  | expr _ => Expr Mention
  | operations _ => List (BinaryOp × Expr Mention × Nat)
  | subscripts => List (Expr Mention × Nat)
  | element => Element Mention
  | elements => List (Element Mention)
  | entries => List (Expr Mention × Expr Mention)
  | declarator _ _ _ => Declarator
  | declarators _ _ _ => List Declarator
  | command | body => Command Mention
  | code => List (Command Mention)

/-! ### Parts of trees -/

/-- An expression with operations applied to it, from the left. -/
def Expr.operated {ν : Type} (e : Expr ν) (ops : List (BinaryOp × Expr ν × Nat)) : Expr ν :=
  ops.foldl (fun left o => .binary o.1 left o.2.1 o.2.2) e

@[simp] theorem Expr.operated_nil {ν : Type} (e : Expr ν) : e.operated [] = e := rfl

@[simp] theorem Expr.operated_cons {ν : Type} (e right : Expr ν) (op : BinaryOp) (line : Nat)
    (ops : List (BinaryOp × Expr ν × Nat)) :
    e.operated ((op, right, line) :: ops) = (Expr.binary op e right line).operated ops := rfl

/-- What goes through from the operands to an operation is true of operations one after the
other. -/
theorem Expr.operated_induction {ν : Type} {P : Expr ν → Prop}
    (hbinary : ∀ op left right line, P left → P right → P (.binary op left right line))
    {ops : List (BinaryOp × Expr ν × Nat)} {e : Expr ν} (h : P e) (hops : ∀ o ∈ ops, P o.2.1) :
    P (e.operated ops) := by
  induction ops generalizing e with
  | nil => exact h
  | cons o ops ih =>
    obtain ⟨ho, hops⟩ := List.forall_mem_cons.1 hops
    exact ih (hbinary o.1 e o.2.1 o.2.2 h ho) hops

/-- An expression with subscripts applied to it, from the left. -/
def Expr.subscripted {ν : Type} (e : Expr ν) (subs : List (Expr ν × Nat)) : Expr ν :=
  subs.foldl (fun base s => .index base s.1 s.2) e

@[simp] theorem Expr.subscripted_nil {ν : Type} (e : Expr ν) : e.subscripted [] = e := rfl

@[simp] theorem Expr.subscripted_cons {ν : Type} (e subscript : Expr ν) (line : Nat)
    (subs : List (Expr ν × Nat)) :
    e.subscripted ((subscript, line) :: subs) = (Expr.index e subscript line).subscripted subs :=
  rfl

/-- The mention of a name that a token declares. -/
def Mention.declaredBy (t : Token) (constant : Bool) (nullability : Nullability)
    (number : Nat) : Mention :=
  ⟨t.value, t.line, constant, nullability, number⟩

/-- The nullability of a variable declared with or without `?`. -/
def Nullability.ofMark (marked : Bool) : Nullability := if marked then .nullable else .safe

/-- A token of this kind may stand between two places of a tape, and does if `taken`. -/
def Tape.Optional (i : Tape) (k : TokenKind) (taken : Bool) (m : Tape) : Prop :=
  if taken then i.kind = k ∧ m = i.next else m = i

theorem Tape.Optional.absent {i : Tape} {k : TokenKind} : i.Optional k false i := rfl

theorem Tape.Optional.present {i : Tape} {k : TokenKind} (h : i.kind = k) :
    i.Optional k true i.next := ⟨h, rfl⟩

/-! ### The rules -/

/-- The readings from `i` up to `r` are a phrase of category `N` with the tree `x` and the
nesting `k`. -/
inductive Derives : (N : Category) → (k : Nat) → (i : Tape) → (x : N.Tree) → (r : Tape) → Prop
  /-- An expression is a phrase of the loosest level. -/
  | expression {k i e r} (h : Derives (.expr (.level .fallback)) k i e r) :
    Derives (.expr .expression) (k + 1) i e r
  /-- A phrase of a level is an operand and operations on it. -/
  | level {l : Level} {k k' i e m ops r} (left : Derives (.expr l.operand) k i e m)
    (h : Derives (.operations l) k' m ops r) (chains : l.chains = true ∨ ops.length ≤ 1) :
    Derives (.expr (.level l)) (max k k') i (e.operated ops) r
  | noOperation {l i} : Derives (.operations l) 0 i [] i
  | operation {l : Level} {k k' i op e m ops r} (head : l.op? i.kind = some op)
    (right : Derives (.expr l.operand) k i.next e m)
    (h : Derives (.operations l) k' m ops r) :
    Derives (.operations l) (max k k') i ((op, e, i.next.hand.reached) :: ops) r
  /-- A phrase with a sign is a factor, alone or behind an operator. -/
  | unsigned {k i e r} (h : Derives (.expr .factor) k i e r) : Derives (.expr .signed) k i e r
  | signed {k i op e r} (head : UnaryOp.before? i.kind = some op)
    (h : Derives (.expr .factor) k i.next e r) :
    Derives (.expr .signed) k i (.unary op e i.next.hand.reached) r
  /-- A factor is a primary, alone or before an operator. -/
  | factor {k i e r} (h : Derives (.expr .primary) k i e r) : Derives (.expr .factor) k i e r
  | postfixed {k i e m op} (h : Derives (.expr .primary) k i e m)
    (mark : UnaryOp.after? m.kind = some op) :
    Derives (.expr .factor) k i (.unary op e m.next.hand.reached) m.next
  /-- A primary is an operand, or an expression in parentheses. -/
  | primary {k i e r} (h : Derives (.expr .operand) k i e r) : Derives (.expr .primary) k i e r
  | parenthesized {k i e m} (opens : i.kind = .symbol .openParen)
    (h : Derives (.expr .expression) k i.next e m) (closes : m.kind = .symbol .closeParen) :
    Derives (.expr .primary) k i e m.next
  /-- The operands. -/
  | constant {i value} (head : Literal.ofToken i.hand.token = .ok value) :
    Derives (.expr .operand) 0 i (.const value i.hand.token.line) i.next
  | call {k i function e m} (head : Builtin.ofKind? i.kind = some function)
    (opens : i.next.kind = .symbol .openParen)
    (h : Derives (.expr .expression) k i.next.next e m)
    (closes : m.kind = .symbol .closeParen) :
    Derives (.expr .operand) k i (.call function e i.hand.token.line) m.next
  | place {k i e r} (h : Derives (.expr .place) k i e r) : Derives (.expr .operand) k i e r
  | emptyList {i} (opens : i.kind = .symbol .openBracket)
    (closes : i.next.kind = .symbol .closeBracket) :
    Derives (.expr .operand) 0 i (.list [] i.hand.token.line) i.next.next
  | list {k i es m} (opens : i.kind = .symbol .openBracket)
    (h : Derives .elements k i.next es m) (closes : m.kind = .symbol .closeBracket) :
    Derives (.expr .operand) k i (.list es i.hand.token.line) m.next
  | emptyMap {i} (opens : i.kind = .symbol .openCurly)
    (closes : i.next.kind = .symbol .closeCurly) :
    Derives (.expr .operand) 0 i (.map [] i.hand.token.line) i.next.next
  | map {k i es m} (opens : i.kind = .symbol .openCurly)
    (h : Derives .entries k i.next es m) (closes : m.kind = .symbol .closeCurly) :
    Derives (.expr .operand) k i (.map es i.hand.token.line) m.next
  /-- A place is a variable and subscripts. -/
  | named {k i subs r} (head : i.kind = .name) (h : Derives .subscripts k i.next subs r) :
    Derives (.expr .place) k i
      ((Expr.var (.ofToken i.hand.token) i.hand.token.line).subscripted subs) r
  | noSubscript {i} : Derives .subscripts 0 i [] i
  | subscript {k k' i e m subs r} (opens : i.kind = .symbol .openBracket)
    (h : Derives (.expr .expression) k i.next e m) (closes : m.kind = .symbol .closeBracket)
    (rest : Derives .subscripts k' m.next subs r) :
    Derives .subscripts (max k k') i ((e, i.next.hand.reached) :: subs) r
  /-- Elements and entries have commas between them. -/
  | lastElement {k i e r} (h : Derives .element k i e r) : Derives .elements k i [e] r
  | elements {k k' i e m es r} (h : Derives .element k i e m) (comma : m.kind = .symbol .comma)
    (rest : Derives .elements k' m.next es r) : Derives .elements (max k k') i (e :: es) r
  | lastEntry {k k' i key m value r} (h : Derives (.expr .expression) k i key m)
    (colon : m.kind = .symbol .colon) (h' : Derives (.expr .expression) k' m.next value r) :
    Derives .entries (max k k') i [(key, value)] r
  | entries {k k' k'' i key m value m' es r} (h : Derives (.expr .expression) k i key m)
    (colon : m.kind = .symbol .colon) (h' : Derives (.expr .expression) k' m.next value m')
    (comma : m'.kind = .symbol .comma) (rest : Derives .entries k'' m'.next es r) :
    Derives .entries (max (max k k') k'') i ((key, value) :: es) r
  /-- The elements of a list. -/
  | single {k i e r} (h : Derives (.expr .expression) k i e r) :
    Derives .element (k + 1) i (.single e) r
  | spread {k i e r} (head : i.kind = .symbol .spread)
    (h : Derives (.expr .expression) k i.next e r) : Derives .element (k + 1) i (.spread e) r
  | elementIf {k k' i c m e r} (head : i.kind = .keyword .ifWord)
    (opens : i.next.kind = .symbol .openParen)
    (h : Derives (.expr .expression) k i.next.next c m) (closes : m.kind = .symbol .closeParen)
    (h' : Derives .element k' m.next e r) (noElse : r.kind ≠ .keyword .elseWord) :
    Derives .element (max k k' + 1) i (.cond c e none i.hand.token.line) r
  | elementIfElse {k k' k'' i c m e m' e' r} (head : i.kind = .keyword .ifWord)
    (opens : i.next.kind = .symbol .openParen)
    (h : Derives (.expr .expression) k i.next.next c m) (closes : m.kind = .symbol .closeParen)
    (h' : Derives .element k' m.next e m') (hasElse : m'.kind = .keyword .elseWord)
    (h'' : Derives .element k'' m'.next e' r) :
    Derives .element (max k (max k' k'') + 1) i (.cond c e (some e') i.hand.token.line) r
  | elementFor {k k' i c m e r} (head : i.kind = .keyword .forWord)
    (opens : i.next.kind = .symbol .openParen) (name : i.next.next.kind = .name)
    (separator : i.next.next.next.kind = .keyword .inWord)
    (h : Derives (.expr .expression) k i.next.next.next.next c m)
    (closes : m.kind = .symbol .closeParen) (h' : Derives .element k' m.next e r) :
    Derives .element (max k k' + 1) i
      (.each (.ofToken i.next.next.hand.token) c e i.hand.token.line) r
  /-- The names of a declaration. -/
  | declarator {constant nullability number i} (name : i.kind = .name) :
    Derives (.declarator constant nullability number) 0 i
      (.declaredBy i.hand.token constant nullability number, none) i.next
  | initialized {constant nullability number k i e r} (name : i.kind = .name)
    (assign : i.next.kind = .symbol .assign) (h : Derives (.expr .expression) k i.next.next e r) :
    Derives (.declarator constant nullability number) k i
      (.declaredBy i.hand.token constant nullability number, some e) r
  | lastDeclarator {constant nullability number k i d r}
    (h : Derives (.declarator constant nullability number) k i d r) :
    Derives (.declarators constant nullability number) k i [d] r
  | declarators {constant nullability number k k' i d m ds r}
    (h : Derives (.declarator constant nullability number) k i d m)
    (comma : m.kind = .symbol .comma)
    (rest : Derives (.declarators constant nullability (number + 1)) k' m.next ds r) :
    Derives (.declarators constant nullability number) (max k k') i (d :: ds) r
  /-- The commands. -/
  | declaration {constant marked k i m m' ds r}
    (final : i.Optional (.keyword .finalWord) constant m) (head : m.kind = .keyword .varWord)
    (mark : m.next.Optional (.symbol .nullable) marked m')
    (h : Derives (.declarators constant (.ofMark marked) 0) k m' ds r)
    (stop : r.kind = .symbol .semicolon) :
    Derives .command (k + 1) i (.block (.ofDeclarators ds i.hand.token.line)) r.next
  | printLine {i} (head : i.kind = .keyword .printWord)
    (opens : i.next.kind = .symbol .openParen)
    (closes : i.next.next.kind = .symbol .closeParen)
    (stop : i.next.next.next.kind = .symbol .semicolon) :
    Derives .command 1 i (.print none i.hand.token.line) i.next.next.next.next
  | print {k i e m} (head : i.kind = .keyword .printWord)
    (opens : i.next.kind = .symbol .openParen)
    (h : Derives (.expr .expression) k i.next.next e m)
    (closes : m.kind = .symbol .closeParen) (stop : m.next.kind = .symbol .semicolon) :
    Derives .command (k + 1) i (.print (some e) i.hand.token.line) m.next.next
  | assert {k i e m} (head : i.kind = .keyword .assertWord)
    (opens : i.next.kind = .symbol .openParen)
    (h : Derives (.expr .expression) k i.next.next e m)
    (closes : m.kind = .symbol .closeParen) (stop : m.next.kind = .symbol .semicolon) :
    Derives .command (k + 1) i (.assert e none i.hand.token.line) m.next.next
  | assertMessage {k k' i e m e' m'} (head : i.kind = .keyword .assertWord)
    (opens : i.next.kind = .symbol .openParen)
    (h : Derives (.expr .expression) k i.next.next e m) (comma : m.kind = .symbol .comma)
    (h' : Derives (.expr .expression) k' m.next e' m')
    (closes : m'.kind = .symbol .closeParen) (stop : m'.next.kind = .symbol .semicolon) :
    Derives .command (max k k' + 1) i (.assert e (some e') i.hand.token.line) m'.next.next
  | conditional {k k' i c m b r} (head : i.kind = .keyword .ifWord)
    (opens : i.next.kind = .symbol .openParen)
    (h : Derives (.expr .expression) k i.next.next c m) (closes : m.kind = .symbol .closeParen)
    (h' : Derives .body k' m.next b r) (noElse : r.kind ≠ .keyword .elseWord) :
    Derives .command (max k k' + 1) i (.cond c b none i.hand.token.line) r
  | conditionalElse {k k' k'' i c m b m' b' r} (head : i.kind = .keyword .ifWord)
    (opens : i.next.kind = .symbol .openParen)
    (h : Derives (.expr .expression) k i.next.next c m) (closes : m.kind = .symbol .closeParen)
    (h' : Derives .body k' m.next b m') (hasElse : m'.kind = .keyword .elseWord)
    (h'' : Derives .body k'' m'.next b' r) :
    Derives .command (max k (max k' k'') + 1) i (.cond c b (some b') i.hand.token.line) r
  | whileLoop {k k' i c m b r} (head : i.kind = .keyword .whileWord)
    (opens : i.next.kind = .symbol .openParen)
    (h : Derives (.expr .expression) k i.next.next c m) (closes : m.kind = .symbol .closeParen)
    (h' : Derives .body k' m.next b r) :
    Derives .command (max k k' + 1) i (.whileDo c b i.hand.token.line) r
  | doWhileLoop {k k' i b m c m'} (head : i.kind = .keyword .doWord)
    (h : Derives .body k i.next b m) (separator : m.kind = .keyword .whileWord)
    (opens : m.next.kind = .symbol .openParen)
    (h' : Derives (.expr .expression) k' m.next.next c m')
    (closes : m'.kind = .symbol .closeParen) (stop : m'.next.kind = .symbol .semicolon) :
    Derives .command (max k k' + 1) i (.doWhile b c i.hand.token.line) m'.next.next
  | forLoop {k k' i c m b r} (head : i.kind = .keyword .forWord)
    (opens : i.next.kind = .symbol .openParen) (name : i.next.next.kind = .name)
    (separator : i.next.next.next.kind = .keyword .inWord)
    (h : Derives (.expr .expression) k i.next.next.next.next c m)
    (closes : m.kind = .symbol .closeParen) (h' : Derives .body k' m.next b r) :
    Derives .command (max k k' + 1) i
      (.each (.ofToken i.next.next.hand.token) c b i.hand.token.line) r
  | effect {k i e m} (h : Derives (.expr .expression) k i e m)
    (stop : m.kind = .symbol .semicolon) :
    Derives .command (k + 1) i (.assign none e i.hand.token.line) m.next
  | assignment {k k' i e target m e' m'} (h : Derives (.expr .place) k i e m)
    (isTarget : e.target? = some target) (assign : m.kind = .symbol .assign)
    (h' : Derives (.expr .expression) k' m.next e' m') (stop : m'.kind = .symbol .semicolon) :
    Derives .command (max (k + 1) k' + 1) i (.assign (some target) e' i.hand.token.line) m'.next
  /-- A body is commands in braces, or one command. -/
  | braced {k i cs m} (opens : i.kind = .symbol .openCurly) (h : Derives .code k i.next cs m)
    (closes : m.kind = .symbol .closeCurly) :
    Derives .body k i (.block ⟨cs, [], i.hand.token.line⟩) m.next
  | unbraced {k i c r} (head : i.kind ≠ .symbol .openCurly) (h : Derives .command k i c r) :
    Derives .body k i c r
  /-- Code is any number of commands. -/
  | noCode {i} : Derives .code 0 i [] i
  | code {k k' i c m cs r} (h : Derives .command k i c m) (rest : Derives .code k' m cs r) :
    Derives .code (max k k') i (c :: cs) r

end Scriptlet
