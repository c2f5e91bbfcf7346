import Mathlib.Data.List.Forall2
import Scriptlet.Proofs.Spelling
import Scriptlet.Tree.Printer

/-!
# What printed programs spell

The words of a tree are given by the recursion that prints it: a word in place of each
text, and nothing for the blanks and line ends between them. The text that is printed
spells these words, if its names are names and its numbers are numbers of the language.
No two words are written so close that they would be read as one.

## What is proved

* `Expr.spells` — the text of an expression spells its words.
* `Block.spells` — the text of a program spells its words.
* `tokenize_render` — the tokens of that text are those words, and the end.
-/

namespace Scriptlet

/-! ### Operators and literals as words -/

/-- The symbol of an operator. -/
def BinaryOp.symbol : BinaryOp → Symbol
  | ifNull => .ifNull
  | and => .and
  | or => .or
  | lowerThan => .less
  | greaterThan => .greater
  | lowerEqual => .lessEquals
  | greaterEqual => .greaterEquals
  | equal => .equals
  | notEqual => .notEquals
  | add => .plus
  | sub => .dash
  | mul => .star
  | div => .slash
  | mod => .percent

/-- The symbol of an operator. -/
def UnaryOp.symbol : UnaryOp → Symbol
  | not => .not
  | neg => .dash
  | incBefore | incAfter => .plusPlus
  | decBefore | decAfter => .minusMinus

/-- The keyword of a function. -/
def Builtin.keyword : Builtin → Keyword
  | read => .readWord
  | random => .randomWord
  | length => .lengthWord
  | keys => .keysWord
  | values => .valuesWord
  | tobool => .toboolWord
  | toint => .tointWord
  | tostr => .tostrWord

/-- The word of a literal. -/
def Literal.word : Literal → Word
  | null => .keyword .nullWord
  | bool true => .keyword .trueWord
  | bool false => .keyword .falseWord
  | number n => .number (Text.Decimal.spelling n)
  | text s => .text s

@[simp] theorem BinaryOp.spelling_symbol (op : BinaryOp) : op.symbol.spelling = op.spelling := by
  cases op <;> rfl

@[simp] theorem UnaryOp.spelling_symbol (op : UnaryOp) : op.symbol.spelling = op.spelling := by
  cases op <;> rfl

@[simp] theorem Builtin.spelling_keyword (f : Builtin) : f.keyword.spelling = f.spelling := by
  cases f <;> rfl

theorem Literal.spelling_word (v : Literal) : v.word.spelling = v.spelling := by
  rcases v with _ | (_ | _) | _ | _ <;> rfl

/-- The literal can be written: a number is in range and not negative. -/
def Literal.Spellable : Literal → Prop
  | number n => 0 ≤ n ∧ n ≤ Text.Decimal.greatest
  | _ => True

theorem isNumber_spelling {n : Int} (h : 0 ≤ n) (hn : n ≤ Text.Decimal.greatest) :
    isNumber (Text.Decimal.spelling n) = true := by
  cases n with
  | negSucc n => omega
  | ofNat n =>
    have hdigits : ∀ c ∈ Nat.toDigits 10 n, c.isDigit = true :=
      fun c hc => Nat.isDigit_of_mem_toDigits (by decide) (by decide) hc
    simp only [isNumber, Text.Decimal.spelling, Text.Decimal.value, Nat.toList_repr,
      Nat.ofDigitChars_ten_toDigits, Bool.and_eq_true, decide_eq_true_eq]
    exact ⟨⟨Nat.toDigits_ne_nil, List.all_eq_true.2 hdigits⟩, hn⟩

/-! ### Words -/

/-- Words with commas between them. -/
def Word.separated : List (List Word) → List Word
  | [] => []
  | [ws] => ws
  | ws :: rest => ws ++ .symbol .comma :: Word.separated rest

/-- Words in parentheses. -/
def Word.parenthesized (ws : List Word) : List Word :=
  .symbol .openParen :: (ws ++ [.symbol .closeParen])

/-- Words in braces. -/
def Word.braced (ws : List Word) : List Word :=
  .symbol .openCurly :: (ws ++ [.symbol .closeCurly])

mutual

/-- The words of an expression. -/
def Expr.words : Expr Variable → List Word
  | .const value _ => [value.word]
  | .binary op left right _ =>
    Word.parenthesized (left.words ++ .symbol op.symbol :: right.words)
  | .unary op operand _ =>
    if op.standsAfter then Word.parenthesized operand.words ++ [.symbol op.symbol]
    else .symbol op.symbol :: Word.parenthesized operand.words
  | .call function argument _ => .keyword function.keyword :: Word.parenthesized argument.words
  | .var v _ => [.name v.name]
  | .index base subscript _ =>
    base.words ++ .symbol .openBracket :: (subscript.words ++ [.symbol .closeBracket])
  | .list elements _ =>
    .symbol .openBracket :: (Word.separated (Expr.wordsOfElements elements) ++
      [.symbol .closeBracket])
  | .map entries _ => Word.braced (Word.separated (Expr.wordsOfEntries entries))

/-- The words of an element of a list. -/
def Element.words : Element Variable → List Word
  | .single value => value.words
  | .spread value => .symbol .spread :: value.words
  | .cond condition thenElement none _ =>
    .keyword .ifWord :: (Word.parenthesized condition.words ++ thenElement.words)
  | .cond condition thenElement (some elseElement) _ =>
    .keyword .ifWord :: (Word.parenthesized condition.words ++
      (thenElement.words ++ .keyword .elseWord :: elseElement.words))
  | .each v iterable element _ =>
    .keyword .forWord :: (Word.parenthesized
      (.name v.name :: .keyword .inWord :: iterable.words) ++ element.words)

/-- The words of each element. -/
def Expr.wordsOfElements : List (Element Variable) → List (List Word)
  | [] => []
  | element :: rest => element.words :: Expr.wordsOfElements rest

/-- The words of each entry of a map. -/
def Expr.wordsOfEntries : List (Expr Variable × Expr Variable) → List (List Word)
  | [] => []
  | (key, value) :: rest =>
    (key.words ++ .symbol .colon :: value.words) :: Expr.wordsOfEntries rest

end

/-- The words of an expression that stands as a command. -/
def Expr.wordsAlone (e : Expr Variable) : List Word :=
  match e with
  | .map .. => Word.parenthesized e.words
  | _ => e.words

/-- The words of a declared name, with the first value that the commands of its block
give it. -/
def Variable.wordsDeclared (body : List (Command Variable)) (v : Variable) : List Word :=
  match body.findSome? (Command.initialValue? v) with
  | some value => .name v.name :: .symbol .assign :: value.words
  | none => [.name v.name]

/-- The words before the names of a declaration. -/
def Block.declarationWords (declares : List Variable) : List Word :=
  match declares with
  | [] => []
  | first :: _ =>
    (if first.constant then [.keyword .finalWord] else []) ++
      (.keyword .varWord :: if first.isNullable then [.symbol .nullable] else [])

mutual

/-- The words of a command. -/
def Command.words : Command Variable → List Word
  | .block ⟨body, declares, _⟩ =>
    if declares.isEmpty then Word.braced (Block.wordsOf body)
    else Block.declarationWords declares ++
      (Word.separated (declares.map (Variable.wordsDeclared body)) ++ [.symbol .semicolon])
  | .assign none value _ => value.wordsAlone ++ [.symbol .semicolon]
  | .assign (some target) value _ =>
    target.toExpr.words ++ .symbol .assign :: (value.words ++ [.symbol .semicolon])
  | .print none _ => .keyword .printWord :: (Word.parenthesized [] ++ [.symbol .semicolon])
  | .print (some value) _ =>
    .keyword .printWord :: (Word.parenthesized value.words ++ [.symbol .semicolon])
  | .assert condition none _ =>
    .keyword .assertWord :: (Word.parenthesized condition.words ++ [.symbol .semicolon])
  | .assert condition (some message) _ =>
    .keyword .assertWord :: (Word.parenthesized
      (condition.words ++ .symbol .comma :: message.words) ++ [.symbol .semicolon])
  | .cond condition thenBody none _ =>
    .keyword .ifWord :: (Word.parenthesized condition.words ++ thenBody.words)
  | .cond condition thenBody (some elseBody) _ =>
    .keyword .ifWord :: (Word.parenthesized condition.words ++
      ((if thenBody.hasDanglingIf then Word.braced thenBody.words else thenBody.words) ++
        .keyword .elseWord :: elseBody.words))
  | .whileDo condition body _ =>
    .keyword .whileWord :: (Word.parenthesized condition.words ++ body.words)
  | .doWhile body condition _ =>
    .keyword .doWord :: (body.words ++ .keyword .whileWord ::
      (Word.parenthesized condition.words ++ [.symbol .semicolon]))
  | .each v iterable body _ =>
    .keyword .forWord :: (Word.parenthesized
      (.name v.name :: .keyword .inWord :: iterable.words) ++ body.words)

/-- The words of commands in order. -/
def Block.wordsOf : List (Command Variable) → List Word
  | [] => []
  | c :: rest => c.words ++ Block.wordsOf rest

end

/-! ### What can be written -/

section

variable {ν : Type} (name : ν → String)

mutual

/-- The names of an expression are names, and its numbers can be written. -/
def Expr.Spellable : Expr ν → Prop
  | .const value _ => value.Spellable
  | .binary _ a b _ | .index a b _ => a.Spellable ∧ b.Spellable
  | .unary _ a _ | .call _ a _ => a.Spellable
  | .var v _ => isName (name v) = true
  | .list es _ => Expr.SpellableElements es
  | .map es _ => Expr.SpellableEntries es

/-- The names of an element are names, and its numbers can be written. -/
def Element.Spellable : Element ν → Prop
  | .single a | .spread a => a.Spellable
  | .cond c a none _ => c.Spellable ∧ a.Spellable
  | .cond c a (some b) _ => c.Spellable ∧ a.Spellable ∧ b.Spellable
  | .each v a e _ => isName (name v) = true ∧ a.Spellable ∧ e.Spellable

/-- Each element can be written. -/
def Expr.SpellableElements : List (Element ν) → Prop
  | [] => True
  | e :: es => e.Spellable ∧ Expr.SpellableElements es

/-- Each entry can be written. -/
def Expr.SpellableEntries : List (Expr ν × Expr ν) → Prop
  | [] => True
  | (a, b) :: es => a.Spellable ∧ b.Spellable ∧ Expr.SpellableEntries es

end

mutual

/-- The names of a command are names, and its numbers can be written. -/
def Command.Spellable : Command ν → Prop
  | .block ⟨body, declares, _⟩ =>
    Block.SpellableAll body ∧ ∀ v ∈ declares, isName (name v) = true
  | .assign none a _ | .print (some a) _ | .assert a none _ => a.Spellable name
  | .assign (some t) a _ => t.toExpr.Spellable name ∧ a.Spellable name
  | .print none _ => True
  | .assert a (some b) _ => a.Spellable name ∧ b.Spellable name
  | .cond a b none _ | .whileDo a b _ | .doWhile b a _ => a.Spellable name ∧ b.Spellable
  | .cond a b (some c) _ => a.Spellable name ∧ b.Spellable ∧ c.Spellable
  | .each v a b _ => isName (name v) = true ∧ a.Spellable name ∧ b.Spellable

/-- Each command can be written. -/
def Block.SpellableAll : List (Command ν) → Prop
  | [] => True
  | c :: cs => c.Spellable ∧ Block.SpellableAll cs

end

end

/-! ### Expressions are spelled -/

section

variable {text : String} {ws : List Word}

theorem open_name {n : String} (h : isName n = true) : Open n [.name n] :=
  Spells.open_word (w := .name n) h

theorem open_symbol (s : Symbol) : Open s.spelling [.symbol s] :=
  Spells.open_word (w := .symbol s) trivial

theorem open_keyword (k : Keyword) : Open k.spelling [.keyword k] :=
  Spells.open_word (w := .keyword k) trivial

theorem Literal.spells {v : Literal} (h : v.Spellable) : Open v.spelling [v.word] := by
  rw [← v.spelling_word]
  refine Spells.open_word ?_
  cases v with
  | number n => exact isNumber_spelling h.1 h.2
  | null | text => trivial
  | bool b => cases b <;> trivial

/-- What stands between two parts of a text: a symbol and a blank behind it. -/
theorem closed_symbol_blank (s : Symbol) (h : s.isClosed = true := by decide) :
    Closed (s.spelling ++ " ") [.symbol s] := (Spells.symbol s h).andThen closed_blank

/-- What stands between two parts of a text: a word with blanks around it. -/
theorem closed_between {w : Word} (h : w.Valid) : Closed (" " ++ w.spelling ++ " ") [w] :=
  (closed_blank.andThen (Spells.open_word h)).stoppedBy closed_blank (by decide)

theorem Spells.parenthesized (h : Open text ws) :
    Closed ("(" ++ text ++ ")") (Word.parenthesized ws) :=
  ((Spells.symbol .openParen).andThen h).stoppedBy (Spells.symbol .closeParen) (by decide)

/-- The keyword of a construct, and what follows it in parentheses. -/
theorem closed_header (k : Keyword) (h : Open text ws) :
    Closed (k.spelling ++ " (" ++ text ++ ")") (.keyword k :: Word.parenthesized ws) := by
  have ht := ((open_keyword k).stoppedBy closed_blank (by decide)).andThen h.parenthesized
  have hopening : " (" = " " ++ "(" := by decide
  rw [hopening]
  simpa only [String.append_assoc, List.append_nil, List.singleton_append] using ht

/-- The header of a construct that goes on behind it. -/
theorem closed_header_blank (k : Keyword) (h : Open text ws) :
    Closed (k.spelling ++ " (" ++ text ++ ") ") (.keyword k :: Word.parenthesized ws) := by
  have ht := (closed_header k h).andThen closed_blank
  have hclosing : ") " = ")" ++ " " := by decide
  rw [hclosing]
  simpa only [String.append_assoc, List.append_nil, List.singleton_append] using ht

/-- A command that is a keyword and something in parentheses. -/
theorem closed_statement (k : Keyword) (h : Open text ws) :
    Closed (k.spelling ++ "(" ++ text ++ ");")
      (.keyword k :: (Word.parenthesized ws ++ [.symbol .semicolon])) := by
  have ht := ((open_keyword k).stoppedBy h.parenthesized (by simp [startsStopping, stops])).andThen
    (Spells.symbol .semicolon)
  have hclosing : ");" = ")" ++ Symbol.semicolon.spelling := by decide
  rw [hclosing]
  simpa only [String.append_assoc, List.cons_append, List.nil_append] using ht

/-- The end of a command that stands behind its header. -/
theorem closed_header_semicolon (k : Keyword) (h : Open text ws) :
    Closed (k.spelling ++ " (" ++ text ++ ");")
      (.keyword k :: (Word.parenthesized ws ++ [.symbol .semicolon])) := by
  have ht := (closed_header k h).andThen (Spells.symbol .semicolon)
  have hclosing : ");" = ")" ++ Symbol.semicolon.spelling := by decide
  rw [hclosing]
  simpa only [String.append_assoc, List.cons_append, List.nil_append] using ht

/-- What a loop runs over. -/
theorem open_each {n : String} (hn : isName n = true) (h : Open text ws) :
    Open (n ++ " in " ++ text) (.name n :: .keyword .inWord :: ws) := by
  have hin : Closed " in " [.keyword .inWord] := closed_between (w := .keyword .inWord) trivial
  exact ((open_name hn).stoppedBy hin (by decide)).andThen h

/-- Texts with a comma between each two. -/
theorem Spells.separated {texts : List String} {wss : List (List Word)}
    (h : List.Forall₂ Open texts wss) : Open (Text.separated ", " texts) (Word.separated wss) := by
  induction h with
  | nil => exact Spells.empty
  | cons h hs ih =>
    cases hs with
    | nil => exact h
    | cons h' hs =>
      have hc : Closed ", " [.symbol .comma] := closed_symbol_blank .comma
      have ht := (h.stoppedBy hc (by decide)).andThen ih
      rw [List.append_assoc] at ht
      exact ht

end

mutual

/-- The text of an expression spells its words. -/
theorem Expr.spells : (e : Expr Variable) → e.Spellable Variable.name → Open e.render e.words
  | .const v _, h => by
    rw [Expr.render, Expr.words]
    exact Literal.spells h
  | .binary op a b _, h => by
    have hop := closed_between (w := .symbol op.symbol) trivial
    have ht := (((Expr.spells a h.1).stoppedBy hop (by simp [startsStopping, stops])).andThen
      (Expr.spells b h.2)).parenthesized
    simpa [Expr.render, Expr.words, Word.spelling, Word.value, String.append_assoc]
      using ht.opened
  | .unary op a _, h => by
    have ha := (Expr.spells a h).parenthesized
    rw [Expr.render, Expr.words]
    split
    · have ht := ha.andThen (open_symbol op.symbol)
      simpa using ht
    · have ht := (open_symbol op.symbol).stoppedBy ha (by simp [startsStopping, stops])
      simpa [String.append_assoc] using ht.opened
  | .call f a _, h => by
    have ha := (Expr.spells a h).parenthesized
    have ht := (open_keyword f.keyword).stoppedBy ha (by simp [startsStopping, stops])
    simpa [Expr.render, Expr.words, String.append_assoc] using ht.opened
  | .var v _, h => by
    rw [Expr.render, Expr.words]
    exact open_name h
  | .index a b _, h => by
    have ht := (((Expr.spells a h.1).stoppedBy (Spells.symbol .openBracket) (by decide)).andThen
      (Expr.spells b h.2)).stoppedBy (Spells.symbol .closeBracket) (by decide)
    simpa [Expr.render, Expr.words, Symbol.spelling] using ht.opened
  | .list es _, h => by
    have hes := Spells.separated (Expr.spells_elements es h)
    have ht := ((Spells.symbol .openBracket).andThen hes).stoppedBy (Spells.symbol .closeBracket)
      (by decide)
    simpa [Expr.render, Expr.words, Symbol.spelling] using ht.opened
  | .map es _, h => by
    have hes := Spells.separated (Expr.spells_entries es h)
    have ht := ((Spells.symbol .openCurly).andThen hes).stoppedBy (Spells.symbol .closeCurly)
      (by decide)
    simpa [Expr.render, Expr.words, Word.braced, Symbol.spelling] using ht.opened

/-- The text of an element spells its words. -/
theorem Element.spells : (e : Element Variable) → e.Spellable Variable.name → Open e.render e.words
  | .single a, h => Expr.spells a h
  | .spread a, h => by
    have ht := (Spells.symbol .spread).andThen (Expr.spells a h)
    simpa [Element.render, Element.words, Symbol.spelling] using ht
  | .cond c a none _, h => by
    have ht := (closed_header_blank .ifWord (Expr.spells c h.1)).andThen (Element.spells a h.2)
    simpa [Element.render, Element.words, Keyword.spelling] using ht
  | .cond c a (some b) _, h => by
    have helse : Closed " else " [.keyword .elseWord] :=
      closed_between (w := .keyword .elseWord) trivial
    have ht := (((closed_header_blank .ifWord (Expr.spells c h.1)).andThen
      (Element.spells a h.2.1)).stoppedBy helse (by decide)).andThen (Element.spells b h.2.2)
    simpa [Element.render, Element.words, Keyword.spelling] using ht
  | .each v a e _, h => by
    have ht := (closed_header_blank .forWord (open_each h.1 (Expr.spells a h.2.1))).andThen
      (Element.spells e h.2.2)
    simpa [Element.render, Element.words, Keyword.spelling, String.append_assoc] using ht

theorem Expr.spells_elements : (es : List (Element Variable)) →
    Expr.SpellableElements Variable.name es →
    List.Forall₂ Open (Expr.renderElements es) (Expr.wordsOfElements es)
  | [], _ => .nil
  | e :: es, h => .cons (Element.spells e h.1) (Expr.spells_elements es h.2)

theorem Expr.spells_entries :
    (es : List (Expr Variable × Expr Variable)) → Expr.SpellableEntries Variable.name es →
      List.Forall₂ Open (Expr.renderEntries es) (Expr.wordsOfEntries es)
  | [], _ => .nil
  | (a, b) :: es, h => by
    have ht := ((Expr.spells a h.1).stoppedBy (closed_symbol_blank .colon) (by decide)).andThen
      (Expr.spells b h.2.1)
    refine .cons ?_ (Expr.spells_entries es h.2.2)
    simpa [Symbol.spelling] using ht

end

/-! ### Commands are spelled -/

theorem Expr.spells_alone {e : Expr Variable} (h : e.Spellable Variable.name) :
    Open e.renderAlone e.wordsAlone := by
  cases e with
  | map es line => exact (Expr.spells _ h).parenthesized.opened
  | _ => exact Expr.spells _ h

/-- The text starts as a name does. -/
def StartsName (cs : List Char) : Prop := ∃ c ∈ cs.head?, LexicalClass.startsWord c = true

theorem StartsName.append {cs : List Char} (h : StartsName cs) (rest : List Char) :
    StartsName (cs ++ rest) := by
  obtain ⟨c, hc, hs⟩ := h
  exact ⟨c, by rw [List.head?_append, hc]; rfl, hs⟩

theorem startsName_of_isName {n : String} (h : isName n = true) : StartsName n.toList := by
  unfold isName at h
  split at h
  · cases h
  · next c r hs =>
    simp only [Bool.and_eq_true] at h
    exact ⟨c, by rw [hs]; rfl, h.1.1⟩

/-- The mark of a name that may hold null is not read as one with the name. -/
theorem endsBefore_nullable {c : Char} (h : LexicalClass.startsWord c = true) :
    Symbol.nullable.endsBefore c = true := by
  have hc : c ≠ '?' := by
    rintro rfl
    cases h
  simp [Symbol.endsBefore, Symbol.spelling, clusters, List.isPrefixOf, hc]

section

variable {body : List (Command Variable)} {v : Variable} {value : Expr Variable}

theorem Block.SpellableAll.of_mem (h : Block.SpellableAll Variable.name body)
    {c : Command Variable} (hc : c ∈ body) : c.Spellable Variable.name := by
  induction body with
  | nil => cases hc
  | cons c' body ih =>
    rcases List.mem_cons.1 hc with rfl | hc
    · exact h.1
    · exact ih h.2 hc

/-- An initial value is part of the block that it is found in. -/
theorem Command.exists_of_initialValue?
    (h : body.findSome? (Command.initialValue? v) = some value) :
    ∃ w line line', .assign (some (.var w line)) value line' ∈ body ∧ w.slot = v.slot := by
  obtain ⟨c, hc, hvalue⟩ := List.exists_of_findSome?_eq_some h
  unfold Command.initialValue? at hvalue
  split at hvalue
  · split at hvalue
    · next hslot =>
      cases hvalue
      exact ⟨_, _, _, hc, hslot⟩
    · cases hvalue
  · cases hvalue

theorem Variable.spells_declared (hv : isName v.name = true)
    (hbody : Block.SpellableAll Variable.name body) :
    Open (v.renderDeclared body) (v.wordsDeclared body) ∧
      StartsName (v.renderDeclared body).toList := by
  unfold Variable.renderDeclared Variable.wordsDeclared
  cases hvalue : body.findSome? (Command.initialValue? v) with
  | none => exact ⟨open_name hv, startsName_of_isName hv⟩
  | some value =>
    obtain ⟨w, line, line', hmem, -⟩ := Command.exists_of_initialValue? hvalue
    have hassign : Closed " = " [.symbol .assign] := closed_between (w := .symbol .assign) trivial
    refine ⟨((open_name hv).stoppedBy hassign (by decide)).andThen
      (Expr.spells value (hbody.of_mem hmem).2), ?_⟩
    rw [String.toList_append, String.toList_append]
    exact ((startsName_of_isName hv).append _).append _

theorem startsName_separated {text : String} (h : StartsName text.toList) (texts : List String) :
    StartsName (Text.separated ", " (text :: texts)).toList := by
  cases texts with
  | nil => exact h
  | cons text' texts =>
    have ht : (Text.separated ", " (text :: text' :: texts)).toList =
        text.toList ++ ", ".toList ++ (Text.separated ", " (text' :: texts)).toList := by
      rw [← String.toList_append, ← String.toList_append]
      rfl
    rw [ht]
    exact (h.append _).append _

/-- The text of a declaration spells its words. -/
theorem Block.spells_declaration {declares : List Variable} (hne : declares ≠ [])
    (hbody : Block.SpellableAll Variable.name body)
    (hdeclares : ∀ v ∈ declares, isName v.name = true) :
    Open (Block.renderDeclaration body declares)
      (Block.declarationWords declares ++
        (Word.separated (declares.map (Variable.wordsDeclared body)) ++ [.symbol .semicolon])) := by
  obtain ⟨v, vs, rfl⟩ := List.exists_cons_of_ne_nil hne
  have hfinal : Closed (if v.constant then "final " else "")
      (if v.constant then [.keyword .finalWord] else []) := by
    split
    · exact (open_keyword .finalWord).stoppedBy closed_blank (by decide)
    · exact Spells.empty
  have hvar : Closed "var " [.keyword .varWord] :=
    (open_keyword .varWord).stoppedBy closed_blank (by decide)
  have hmark : Spells StartsName (if v.isNullable then "?" else "")
      (if v.isNullable then [.symbol .nullable] else []) := by
    split
    · refine Spells.word (w := .symbol .nullable) trivial fun rest hrest c hc => ?_
      obtain ⟨c', hc', hs⟩ := hrest
      obtain rfl := Option.some.inj (hc'.symm.trans hc)
      exact endsBefore_nullable hs
    · exact Spells.empty
  have hnames : Open (Text.separated ", " ((v :: vs).map (Variable.renderDeclared body)))
      (Word.separated ((v :: vs).map (Variable.wordsDeclared body))) := by
    refine Spells.separated ?_
    rw [List.forall₂_map_left_iff, List.forall₂_map_right_iff, List.forall₂_same]
    exact fun w hw => (Variable.spells_declared (hdeclares w hw) hbody).1
  have hstarts := startsName_separated
    (Variable.spells_declared (hdeclares v List.mem_cons_self) hbody).2
    (vs.map (Variable.renderDeclared body))
  have ht := ((hfinal.andThen (hvar.andThen hmark)).append hnames
    fun rest _ => hstarts.append rest).stoppedBy (Spells.symbol .semicolon) (by decide)
  rw [Block.renderDeclaration, Block.declarationHead, Block.declarationWords]
  simpa [Symbol.spelling, String.append_assoc] using ht.opened

end

/-- The lines of a body under its header spell its words, in braces if it is put so. -/
theorem LinesSpell.underHeader {header : String} {ws ws' : List Word} {lines : List String}
    (hheader : Open header ws) (body : Command Variable) (inBraces : Bool)
    (h : LinesSpell lines ws') :
    LinesSpell (Command.underHeader header body inBraces lines)
      (ws ++ if !body.isBraced && inBraces then Word.braced ws' else ws') := by
  unfold Command.underHeader
  cases body.isBraced with
  | true => exact h.hang hheader
  | false =>
    cases inBraces with
    | true => exact h.braced.hang hheader
    | false => exact LinesSpell.cons hheader h.indented

theorem Command.isBraced_eq_false_of_hasDanglingIf {c : Command Variable}
    (h : c.hasDanglingIf = true) : c.isBraced = false := by
  cases c with
  | block => cases h
  | _ => rfl

mutual

/-- The lines of a command spell its words. -/
theorem Command.spells : (c : Command Variable) → c.Spellable Variable.name →
    LinesSpell c.lines c.words
  | .block ⟨body, [], _⟩, h => (Block.spells_lines body h.1).braced
  | .block ⟨body, v :: vs, _⟩, h =>
    .single (Block.spells_declaration (List.cons_ne_nil v vs) h.1 h.2)
  | .assign none a _, h => by
    have ht := (Expr.spells_alone h).stoppedBy (Spells.symbol .semicolon) (by decide)
    exact .single ht.opened
  | .assign (some t) a _, h => by
    have hassign : Closed " = " [.symbol .assign] := closed_between (w := .symbol .assign) trivial
    have ht := (((Expr.spells _ h.1).stoppedBy hassign (by decide)).andThen
      (Expr.spells a h.2)).stoppedBy (Spells.symbol .semicolon) (by decide)
    rw [Command.lines, Command.words]
    refine .single ?_
    simpa [Symbol.spelling] using ht.opened
  | .print none _, _ => .single (closed_statement .printWord Spells.empty).opened
  | .print (some a) _, h =>
    .single (closed_statement .printWord (Expr.spells a h)).opened
  | .assert a none _, h => .single (closed_statement .assertWord (Expr.spells a h)).opened
  | .assert a (some b) _, h => by
    have hcomma : Closed ", " [.symbol .comma] := closed_symbol_blank .comma
    have hab := ((Expr.spells a h.1).stoppedBy hcomma (by decide)).andThen (Expr.spells b h.2)
    have ht := closed_statement .assertWord hab
    rw [Command.lines, Command.words]
    refine .single ?_
    simpa [Keyword.spelling, String.append_assoc] using ht.opened
  | .cond a b none _, h => by
    have ht := LinesSpell.underHeader (closed_header .ifWord (Expr.spells a h.1)).opened b false
      (Command.spells b h.2)
    rw [Command.lines, Command.words]
    simpa [Keyword.spelling] using ht
  | .cond a b (some c) _, h => by
    have hb := LinesSpell.underHeader (closed_header .ifWord (Expr.spells a h.1)).opened b
      b.hasDanglingIf (Command.spells b h.2.1)
    have hc := LinesSpell.underHeader (open_keyword .elseWord) c false (Command.spells c h.2.2)
    have hbraces : (!b.isBraced && b.hasDanglingIf) = b.hasDanglingIf := by
      cases hd : b.hasDanglingIf with
      | false => rw [Bool.and_false]
      | true => rw [Command.isBraced_eq_false_of_hasDanglingIf hd]; rfl
    rw [hbraces] at hb
    rw [Command.lines, Command.words]
    simpa [Keyword.spelling] using hb.append hc
  | .whileDo a b _, h => by
    have ht := LinesSpell.underHeader (closed_header .whileWord (Expr.spells a h.1)).opened b false
      (Command.spells b h.2)
    rw [Command.lines, Command.words]
    simpa [Keyword.spelling] using ht
  | .doWhile b a _, h => by
    have hb := LinesSpell.underHeader (open_keyword .doWord) b false (Command.spells b h.2)
    have ht := LinesSpell.single (closed_header_semicolon .whileWord (Expr.spells a h.1)).opened
    rw [Command.lines, Command.words]
    simpa [Keyword.spelling] using hb.append ht
  | .each v a b _, h => by
    have hheader := closed_header .forWord (open_each h.1 (Expr.spells a h.2.1))
    have ht := LinesSpell.underHeader hheader.opened b false (Command.spells b h.2.2)
    rw [Command.lines, Command.words]
    simpa [Keyword.spelling, String.append_assoc] using ht

theorem Block.spells_lines : (cs : List (Command Variable)) → Block.SpellableAll Variable.name cs →
    LinesSpell (Block.linesOf cs) (Block.wordsOf cs)
  | [], _ => .nil
  | c :: cs, h => (Command.spells c h.1).append (Block.spells_lines cs h.2)

end

/-- The text of a program spells its words. -/
theorem Block.spells {b : Block Variable} (h : Block.SpellableAll Variable.name b.body) :
    Closed b.render (Block.wordsOf b.body) := (Block.spells_lines b.body h).unlines

/-! ### Tokens -/

/-- The tokens of a text that spells words are those words, and the end. -/
theorem Spells.exists_tokens {text : String} {ws : List Word} (h : Closed text ws)
    (file : String) :
    ∃ ts, tokenize text file = .ok ts ∧
      ts.map (fun t => (t.kind, t.value)) = ws.map Word.item ++ [(.endOfInput, "")] := by
  have hitems : ((Cursor.ofText text).readings.map Reading.token).map
      (fun t => (t.kind, t.value)) = ws.map Word.item ++ [(.endOfInput, "")] := by
    rw [List.map_map]
    exact h.words_ofText
  refine ⟨_, tokenize_eq_ok_iff.2 ⟨rfl, fun t ht => ?_⟩, hitems⟩
  have hmem : (t.kind, t.value) ∈ ws.map Word.item ++ [(.endOfInput, "")] := by
    rw [← hitems]
    exact List.mem_map_of_mem ht
  rcases List.mem_append.1 hmem with hword | hend
  · obtain ⟨w, -, hw⟩ := List.mem_map.1 hword
    have hkind : w.kind = t.kind := congrArg Prod.fst hw
    rw [← hkind]
    exact w.kind_ne.2
  · have hkind : t.kind = .endOfInput := congrArg Prod.fst (List.mem_singleton.1 hend)
    rw [hkind]
    decide

/-- A printed program is cut into the tokens that its tree stands for, whatever the tree is: it
need not be one that is read from a text. -/
theorem tokenize_render {b : Block Variable} (h : Block.SpellableAll Variable.name b.body)
    (file : String) :
    ∃ ts, tokenize b.render file = .ok ts ∧
      ts.map (fun t => (t.kind, t.value)) =
        (Block.wordsOf b.body).map Word.item ++ [(.endOfInput, "")] :=
  (Block.spells h).exists_tokens file

/-- A tree that is read from no text: a subscript on a sum, braces among commands, and an `else`
that would go to the conditional before it. Signs stand next to signs in it, and a literal holds
quotes and the marks of a comment. -/
def thicket : Block Variable :=
  let a : Variable := ⟨"a", 1, false, .safe, 0⟩
  let minus : Expr Variable := .unary .neg (.unary .decBefore (.var a 1) 1) 1
  let sum : Expr Variable := .binary .add (.unary .incAfter (.var a 1) 1) minus 1
  let quoted : Expr Variable := .const (.text "\"/*\n\\") 1
  ⟨[.block ⟨[.block ⟨[], [], 1⟩], [], 1⟩,
    .assign (some (.index sum quoted 1)) (.list [.cond sum (.cond minus (.spread quoted) none 1)
      (some (.each a (.map [(quoted, sum)] 1) (.single minus) 1)) 1] 1) 1,
    .cond sum (.whileDo minus (.cond quoted (.assign none (.map [] 1) 1) none 1) 1)
      (some (.block ⟨[.assign (some (.var a 1)) minus 1], [a], 1⟩)) 1], [], 1⟩

theorem tokenize_render_thicket :
    ∃ ts, tokenize thicket.render "p" = .ok ts ∧
      ts.map (fun t => (t.kind, t.value)) =
        (Block.wordsOf thicket.body).map Word.item ++ [(.endOfInput, "")] := by
  have hname : isName "a" = true := by decide
  refine tokenize_render ?_ "p"
  simp [thicket, Block.SpellableAll, Command.Spellable, Expr.Spellable, Element.Spellable,
    Expr.SpellableElements, Expr.SpellableEntries, Literal.Spellable, Target.toExpr, hname]

end Scriptlet
