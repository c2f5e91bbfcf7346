import Scriptlet.Proofs.Word
import Scriptlet.Text.Notation

/-!
# Texts that spell words

A text spells a list of words if, put before any other text, it is read as those words
and the other text is then read as if it stood alone. This holds only before texts that
do not go on with the last word, so `Spells` has a condition on them: before some texts a
text is `Open`, before all texts it is `Closed`.

## What is proved

* `Spells.append` — texts that spell words may be put together.
* `LinesSpell.unlines` — lines that spell words do so one below the other.
* `Closed.words_ofText` — a text that spells words is read as those words.
-/

namespace Scriptlet

/-- The kinds and values of the tokens up to the end of the input. -/
def Cursor.words (c : Cursor) : List (TokenKind × String) :=
  c.readings.map fun r => (r.token.kind, r.token.value)

/-- The kind and the value of the token that a word is. -/
def Word.item (w : Word) : TokenKind × String := (w.kind, w.value)

namespace Cursor

theorem words_of_next {c c' : Cursor} {w : Word} {line : Nat}
    (h : c.next = (⟨w.kind, w.value, line⟩, c')) : c.words = w.item :: c'.words := by
  unfold words
  rw [readings, dif_neg (by rw [h]; exact w.kind_ne.1), h]
  rfl

theorem words_eq_of_next_eq {c c' : Cursor} (h : c.next = c'.next) : c.words = c'.words := by
  rw [words, words, readings_congr h]

theorem words_end (line : Nat) : words ⟨[], line⟩ = [(.endOfInput, "")] := by
  unfold words
  rw [readings, next_nil]
  rfl

end Cursor

/-! ### Spelling -/

/-- Before texts with a property, `text` is read as the words `ws`. -/
structure Spells (P : List Char → Prop) (text : String) (ws : List Word) : Prop where
  /-- The words come first, and then those of the text behind. -/
  words : ∀ ⦃rest : List Char⦄, P rest → ∀ line, Cursor.words ⟨text.toList ++ rest, line⟩ =
    ws.map Word.item ++ Cursor.words ⟨rest, line + Text.lineEnds text.toList⟩

/-- The characters that end every word before them. -/
def stops : List Char := [' ', '\n', '(', ')', '[', ']', '}', ',', ':', ';']

/-- What does not go on with a word before it, whatever the word. -/
def Stopping (rest : List Char) : Prop := ∀ c ∈ rest.head?, c ∈ stops

/-- The text starts with a character that ends every word before it. -/
def startsStopping (text : String) : Bool := text.toList.head?.any (· ∈ stops)

/-- Before texts that do not go on with a word, `text` is read as the words `ws`. -/
abbrev Open (text : String) (ws : List Word) : Prop := Spells Stopping text ws

/-- Before all texts, `text` is read as the words `ws`. -/
abbrev Closed (text : String) (ws : List Word) : Prop := Spells (fun _ => True) text ws

theorem Word.endsBefore_of_mem_stops (w : Word) {c : Char} (h : c ∈ stops) :
    w.endsBefore c = true := by
  have hsymbols : (Symbol.all.all fun s => stops.all s.endsBefore) = true := by decide +kernel
  have hothers : (stops.all fun c => !LexicalClass.continuesWord c && !c.isDigit) = true := by
    decide +kernel
  cases w with
  | symbol s => exact List.all_eq_true.1 (List.all_eq_true.1 hsymbols s s.mem_all) c h
  | keyword | name | number =>
    have hother := List.all_eq_true.1 hothers c h
    rw [Bool.and_eq_true] at hother
    simp [Word.endsBefore, hother]
  | text => rfl

namespace Spells

variable {P Q : List Char → Prop} {text text' : String} {ws ws' : List Word}

/-- Texts that spell words may be put together, if the second does not go on with the
last word of the first. -/
theorem append (h : Spells P text ws) (h' : Spells Q text' ws')
    (hP : ∀ rest, Q rest → P (text'.toList ++ rest)) : Spells Q (text ++ text') (ws ++ ws') := by
  refine ⟨fun rest hrest line => ?_⟩
  rw [String.toList_append, List.append_assoc, h.words (hP rest hrest), h'.words hrest,
    Text.lineEnds_append, List.map_append, List.append_assoc, Nat.add_assoc]

theorem mono (h : Spells P text ws) (hPQ : ∀ rest, Q rest → P rest) : Spells Q text ws :=
  ⟨fun rest hrest => h.words (hPQ rest hrest)⟩

theorem empty : Spells P "" [] := ⟨fun _ _ _ => rfl⟩

theorem blank {text : String} {c : Char} (ht : text.toList = [c])
    (hc : Text.isBlank c = true) : Spells P text [] := by
  refine ⟨fun rest _ line => ?_⟩
  rw [ht]
  exact Cursor.words_eq_of_next_eq (Cursor.next_blank hc rest line)

/-- A word spells itself. -/
theorem word {w : Word} (hw : w.Valid)
    (hP : ∀ rest, P rest → ∀ c ∈ rest.head?, w.endsBefore c = true) : Spells P w.spelling [w] :=
  ⟨fun rest hrest line => Cursor.words_of_next (Cursor.next_word hw (hP rest hrest) line)⟩

theorem open_word {w : Word} (hw : w.Valid) : Open w.spelling [w] :=
  word hw fun _ hrest c hc => w.endsBefore_of_mem_stops (hrest c hc)

theorem opened (h : Closed text ws) : Open text ws := h.mono fun _ _ => trivial

/-- Behind a text that is closed anything may stand. -/
theorem andThen (h : Closed text ws) (h' : Spells P text' ws') :
    Spells P (text ++ text') (ws ++ ws') := h.append h' fun _ _ => trivial

/-- Behind a text that is open there must stand one that does not go on with a word. -/
theorem stoppedBy (h : Open text ws) (h' : Spells P text' ws')
    (hstop : startsStopping text' = true) : Spells P (text ++ text') (ws ++ ws') := by
  refine h.append h' fun rest _ => ?_
  obtain ⟨c, hc, hmem⟩ := (Option.any_eq_true _ _).1 hstop
  intro c' hc'
  rw [List.head?_append, hc, Option.some_or, Option.mem_some] at hc'
  subst hc'
  exact of_decide_eq_true hmem

end Spells

/-- Nothing longer starts with the symbol. -/
def Symbol.isClosed (s : Symbol) : Bool :=
  clusters.all fun longer =>
    longer.length ≤ s.spelling.toList.length || !s.spelling.toList.isPrefixOf longer

theorem Symbol.endsBefore_of_isClosed {s : Symbol} (h : s.isClosed = true) (c : Char) :
    s.endsBefore c = true := by
  refine List.all_eq_true.2 fun longer hl => ?_
  have hs := List.all_eq_true.1 h longer hl
  rw [Bool.not_eq_true', ← Bool.not_eq_true, List.isPrefixOf_iff_prefix]
  intro hp
  simp only [Bool.or_eq_true, decide_eq_true_eq, Bool.not_eq_true'] at hs
  rcases hs with hs | hs
  · have hle := hp.length_le
    rw [List.length_append, List.length_singleton] at hle
    omega
  · have hprefix := (List.prefix_append s.spelling.toList [c]).trans hp
    rw [List.isPrefixOf_iff_prefix.2 hprefix] at hs
    cases hs

/-- A symbol that nothing longer starts with spells itself before all texts. -/
theorem Spells.symbol (s : Symbol) (h : s.isClosed = true := by decide) :
    Closed s.spelling [.symbol s] :=
  Spells.word (w := .symbol s) trivial fun _ _ c _ => Symbol.endsBefore_of_isClosed h c

/-! ### Lines -/

/-- Each line spells some words, and all of them together are `ws`. -/
inductive LinesSpell : List String → List Word → Prop
  | nil : LinesSpell [] []
  | cons {line lines ws ws'} (h : Open line ws) (rest : LinesSpell lines ws') :
    LinesSpell (line :: lines) (ws ++ ws')

theorem closed_blank : Closed " " [] := Spells.blank rfl (by decide)

namespace LinesSpell

variable {lines lines' : List String} {ws ws' : List Word} {text : String}

theorem single (h : Open text ws) : LinesSpell [text] ws := by
  have hl := cons h nil
  rwa [List.append_nil] at hl

theorem append (h : LinesSpell lines ws) (h' : LinesSpell lines' ws') :
    LinesSpell (lines ++ lines') (ws ++ ws') := by
  induction h with
  | nil => exact h'
  | cons h rest ih =>
    rw [List.cons_append, List.append_assoc]
    exact cons h ih

theorem indented (h : LinesSpell lines ws) : LinesSpell (Text.indented lines) ws := by
  have hblanks : Closed "    " [] :=
    ((closed_blank.andThen closed_blank).andThen closed_blank).andThen closed_blank
  induction h with
  | nil => exact nil
  | cons h rest ih => exact cons (hblanks.andThen h) ih

theorem braced (h : LinesSpell lines ws) :
    LinesSpell (Text.braced lines) (.symbol .openCurly :: (ws ++ [.symbol .closeCurly])) :=
  cons (Spells.symbol .openCurly).opened
    (h.indented.append (single (Spells.symbol .closeCurly).opened))

/-- Lines below a text, the first of them on its line. -/
theorem hang (h : LinesSpell lines ws) (ht : Open text ws') :
    LinesSpell (Text.hang text lines) (ws' ++ ws) := by
  cases h with
  | nil =>
    rw [List.append_nil]
    exact single ht
  | cons h rest =>
    have hl := ((ht.stoppedBy closed_blank (by decide)).andThen h)
    rw [List.append_nil] at hl
    rw [← List.append_assoc]
    exact cons hl rest

/-- Lines that spell words do so one below the other, each with its line end. -/
theorem unlines (h : LinesSpell lines ws) : Closed (Text.unlines lines) ws := by
  induction h with
  | nil => exact Spells.empty
  | cons h rest ih =>
    have hend : Closed "\n" [] := Spells.blank rfl (by decide)
    have hl := (h.stoppedBy hend (by decide)).andThen ih
    rwa [List.append_nil] at hl

end LinesSpell

/-! ### The whole text -/

/-- A text that spells words is read as those words, up to its end. -/
theorem Spells.words_ofText {text : String} {ws : List Word} (h : Closed text ws) :
    (Cursor.ofText text).words = ws.map Word.item ++ [(.endOfInput, "")] := by
  have hw : Cursor.words ⟨text.toList ++ [], 1⟩ = _ := h.words trivial 1
  rw [List.append_nil, Cursor.words_end] at hw
  exact hw

end Scriptlet
