import Scriptlet.Proofs.Gap

/-!
# Words that stand apart are read as they are

Words are spelled out one behind the other, with blanks and comments between two of them. As long
as what stands between starts with a blank, no word runs on into the next, and a text so written
has just these words for tokens, each on the line on which it starts.

## What is proved

* `Word.endsBefore_blank` — a blank goes on with no word.
* `Cursor.readings_written` — the words of such a text, from any line.
* `tokenize_written` — so reading such a text as a whole gives the words back.
-/

namespace Scriptlet

/-- What keeps two words apart: a blank, and then blanks and closed comments. -/
def Separates (g : List Char) : Prop :=
  ∃ c g', g = c :: g' ∧ Text.isBlank c = true ∧ Gap g'

theorem Separates.gap {g : List Char} (h : Separates g) : Gap g := by
  obtain ⟨c, g', rfl, hc, hg⟩ := h
  exact .blank hc hg

/-- A word that is written, with what stands behind it. -/
structure WrittenWord where
  /-- The word. -/
  word : Word
  /-- What stands between it and the next word, or the end. -/
  behind : List Char

namespace WrittenWord

/-- The text of the word and of what stands behind it. -/
def text (w : WrittenWord) : List Char := w.word.spelling.toList ++ w.behind

/-- The text of words, one behind the other. -/
def texts (ws : List WrittenWord) : List Char := ws.flatMap text

@[simp] theorem texts_nil : texts [] = [] := rfl

@[simp] theorem texts_cons (w : WrittenWord) (ws : List WrittenWord) :
    texts (w :: ws) = w.text ++ texts ws := rfl

/-- There are such words, and they are kept apart. Behind the last there may be nothing. -/
def StandApart : List WrittenWord → Prop
  | [] => True
  | [w] => w.word.Valid ∧ (w.behind = [] ∨ Separates w.behind)
  | w :: w' :: ws => w.word.Valid ∧ Separates w.behind ∧ StandApart (w' :: ws)

end WrittenWord

/-! ### One word -/

/-- Nothing that is longer than one character goes on with a blank. -/
theorem clusters_not_blank {longer : List Char} (h : longer ∈ clusters) {c : Char}
    (hc : c ∈ longer) : Text.isBlank c = false := by
  have hall : (clusters.all fun longer => longer.all fun c => !Text.isBlank c) = true := by decide
  simpa using List.all_eq_true.1 (List.all_eq_true.1 hall longer h) c hc

/-- A blank goes on with no word. -/
theorem Word.endsBefore_blank (w : Word) {c : Char} (hc : Text.isBlank c = true) :
    w.endsBefore c = true := by
  have hword : LexicalClass.continuesWord c = false := by
    rw [Bool.eq_false_iff]
    intro h
    rw [isBlank_of_continuesWord h] at hc
    cases hc
  cases w with
  | symbol s =>
    refine List.all_eq_true.2 fun longer hmem => ?_
    rw [Bool.not_eq_true', ← Bool.not_eq_true, List.isPrefixOf_iff_prefix]
    intro hp
    rw [clusters_not_blank hmem (hp.subset (by simp))] at hc
    cases hc
  | keyword k => simp [endsBefore, hword]
  | name n => simp [endsBefore, hword]
  | number d =>
    simp only [LexicalClass.continuesWord, Bool.or_eq_false_iff] at hword
    simp [endsBefore, hword.2]
  | text m => rfl

/-! ### All words of a text -/

theorem Cursor.readings_gap {g : List Char} (hg : Gap g) (rest : List Char) (line : Nat) :
    readings ⟨g ++ rest, line⟩ = readings ⟨rest, line + Text.lineEnds g⟩ :=
  readings_congr (next_gap hg rest line)

namespace WrittenWord

/-- A word that stands apart from the next is read, and what stands behind it is skipped. -/
theorem readings_cons {w : WrittenWord} {ws : List WrittenWord} (h : StandApart (w :: ws))
    (line : Nat) :
    (Cursor.readings ⟨texts (w :: ws), line⟩).map Reading.token =
      ⟨w.word.kind, w.word.value, line⟩ ::
        (Cursor.readings ⟨texts ws, line + Text.lineEnds w.text⟩).map Reading.token := by
  have hw : w.word.Valid := by
    cases ws with
    | nil => exact h.1
    | cons w' ws => exact h.1
  have hgap : Gap w.behind := by
    cases ws with
    | nil => exact h.2.elim (fun hb => hb ▸ .nil) Separates.gap
    | cons w' ws => exact h.2.1.gap
  have hstop : ∀ c ∈ (w.behind ++ texts ws).head?, w.word.endsBefore c = true := by
    have hblank (hs : Separates w.behind) :
        ∀ c ∈ (w.behind ++ texts ws).head?, w.word.endsBefore c = true := by
      obtain ⟨d, g, hd, hd', -⟩ := hs
      rw [hd]
      rintro c ⟨⟩
      exact w.word.endsBefore_blank hd'
    cases ws with
    | nil =>
      rcases h.2 with hb | hs
      · simp [hb]
      · exact hblank hs
    | cons w' ws => exact hblank h.2.1
  have hnext := Cursor.next_word hw hstop line
  rw [texts_cons, text, List.append_assoc, Cursor.readings, hnext, dif_neg w.word.kind_ne.1,
    List.map_cons, Cursor.readings_gap hgap, Text.lineEnds_append, Nat.add_assoc]

end WrittenWord

open WrittenWord in
/-- The words of a text, from any line. -/
theorem Cursor.readings_written {ws : List WrittenWord} (h : StandApart ws) (line : Nat) :
    (readings ⟨texts ws, line⟩).map Reading.token =
      (ws.mapIdx fun n w =>
        ⟨w.word.kind, w.word.value, line + Text.lineEnds (texts (ws.take n))⟩) ++
      [.endAt (line + Text.lineEnds (texts ws))] := by
  induction ws generalizing line with
  | nil =>
    rw [texts_nil, readings, next_nil]
    rfl
  | cons w ws ih =>
    have h' : StandApart ws := by
      cases ws with
      | nil => trivial
      | cons w' ws => exact h.2.2
    rw [readings_cons h, ih h', List.mapIdx_cons, List.cons_append]
    simp [Nat.add_assoc]

/-- Reading a text of words that stand apart gives these words back, each on the line on which it
starts, and the end of the input behind them. -/
theorem tokenize_written (lead : List Char) (ws : List WrittenWord) (file : String)
    (hlead : lead = [] ∨ Separates lead) (hws : WrittenWord.StandApart ws) :
    tokenize (.ofList (lead ++ WrittenWord.texts ws)) file = .ok
      ((ws.mapIdx fun n w =>
        ⟨w.word.kind, w.word.value,
          1 + Text.lineEnds (lead ++ WrittenWord.texts (ws.take n))⟩) ++
      [.endAt (1 + Text.lineEnds (lead ++ WrittenWord.texts ws))]) := by
  have hgap : Gap lead := hlead.elim (fun h => h ▸ .nil) Separates.gap
  rw [tokenize_eq_ok_iff]
  constructor
  · rw [Cursor.ofText, String.toList_ofList, Cursor.readings_gap hgap, Cursor.readings_written hws]
    simp only [Text.lineEnds_append, Nat.add_assoc]
  · intro t ht
    rcases List.mem_append.1 ht with ht | ht
    · obtain ⟨n, hn, rfl⟩ := List.mem_mapIdx.1 ht
      exact (ws[n].word.kind_ne).2
    · rw [List.mem_singleton.1 ht]
      simp [Token.endAt]

/-- A name that starts like a keyword, a number with zeros before it and a text with a line end in
it, kept apart by comments and a line end. -/
theorem tokenize_written_comments :
    tokenize (.ofList ("\n".toList ++ WrittenWord.texts
      [⟨.name "iffy", " /***/".toList⟩, ⟨.number "007", "\t// *\n".toList⟩,
        ⟨.text "a\nb", [' ']⟩, ⟨.symbol .slash, []⟩])) "shell" =
    .ok [⟨.name, "iffy", 2⟩, ⟨.number, "007", 2⟩, ⟨.text, "a\nb", 3⟩, ⟨.symbol .slash, "/", 3⟩,
      .endAt 3] := by
  refine tokenize_written _ _ "shell" (.inr ⟨'\n', [], rfl, by decide, .nil⟩) ?_
  have hname : isName "iffy" = true := by decide
  have hnumber : isNumber "007" = true := by decide
  refine ⟨hname, ⟨' ', _, rfl, by decide, ?_⟩, hnumber, ⟨'\t', _, rfl, by decide, ?_⟩,
    trivial, ⟨' ', [], rfl, by decide, .nil⟩, trivial, .inl rfl⟩
  · exact .blockComment (by decide : ¬ ['*', '/'] <:+: ['*']) .nil
  · exact .lineComment (by decide : '\n' ∉ [' ', '*']) .nil

end Scriptlet
