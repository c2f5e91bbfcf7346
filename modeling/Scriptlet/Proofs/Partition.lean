import Scriptlet.Proofs.Gap
import Scriptlet.Token.Scanner

/-!
# A text is cut into tokens without loss

Taking tokens from a scanner one after the other cuts its text into pieces: what is skipped in
front of a token, and the lexeme it is read from. Behind the last piece there are blanks and
comments only, and the scanner gives the mark of the end for ever.

## What is proved

* `Cursor.next_cut` — one token: the text in front of the cursor is a last gap, or starts with the
  piece of the next token.
* `Scanner.exists_cut` — the run: from wherever a scanner stands, its text is cut into pieces.
* `Scanner.cut_without_loss` — so it is from the start of every text, with every place on a
  character boundary and every line counted.
* `Scanner.Cuts.readings` — the readings of a text are the tokens of its pieces.
-/

namespace Scriptlet

/-- A token with the part of the text it was read from. -/
structure Piece where
  /-- What is skipped in front of the token. -/
  gap : List Char
  /-- What is read as the token. -/
  lexeme : List Char
  /-- The token. -/
  token : Token

namespace Piece

/-- The part of the text that the piece takes up. -/
def text (p : Piece) : List Char := p.gap ++ p.lexeme

/-- The part of the text that pieces take up, one behind the other. -/
def texts (ps : List Piece) : List Char := ps.flatMap text

@[simp] theorem texts_nil : texts [] = [] := rfl

@[simp] theorem texts_cons (p : Piece) (ps : List Piece) : texts (p :: ps) = p.text ++ texts ps :=
  rfl

/-- Pieces with characters of their own are no more than characters. -/
theorem length_le_texts {ps : List Piece} (h : ∀ p ∈ ps, 1 ≤ p.text.length) :
    ps.length ≤ (texts ps).length := by
  induction ps with
  | nil => exact Nat.zero_le _
  | cons p ps ih =>
    obtain ⟨hp, hps⟩ := List.forall_mem_cons.1 h
    have := ih hps
    rw [texts_cons, List.length_append, List.length_cons]
    omega

/-- The piece is cut rightly from a text, between what is before it and what is behind it. -/
structure Fits (p : Piece) (before rest : List Char) : Prop where
  /-- What is skipped are blanks and closed comments. -/
  gap : Gap p.gap
  /-- The lexeme is not empty, and starts with no blank. -/
  lexeme : ∃ c r, p.lexeme = c :: r ∧ Text.isBlank c = false
  /-- It is no mark of the end. -/
  kind : p.token.kind ≠ .endOfInput
  /-- The value is the lexeme, but for a quoted text and for what the end of the text cuts
  short. -/
  value : p.token.kind ≠ .text → p.token.kind ≠ .cutShort → p.token.value.toList = p.lexeme
  /-- Nothing but those two goes over the end of a line. -/
  oneLine : p.token.kind ≠ .text → p.token.kind ≠ .cutShort → '\n' ∉ p.lexeme
  /-- The line is the one on which the lexeme starts. -/
  line : p.token.kind ≠ .cutShort → p.token.line = 1 + Text.lineEnds (before ++ p.gap)
  /-- What is cut short is on the last line. -/
  lastLine : p.token.kind = .cutShort →
    p.token.line = 1 + Text.lineEnds (before ++ p.text ++ rest)

end Piece

/-! ### One token -/

/-- The kind and the value of the token that a lexeme amounts to. -/
theorem Lexeme.value_of_effect {cs : List Char} {l : Lexeme} {kind : TokenKind} {value : String}
    (hl : first? cs = some l) (h : l.effect = .token kind value) :
    kind ≠ .endOfInput ∧ kind ≠ .cutShort ∧ (kind ≠ .text → value.toList = l.text) := by
  obtain ⟨k, text, rest⟩ := l
  cases k with
  | word =>
    cases h
    refine ⟨?_, ?_, fun _ => by simp⟩
    all_goals
      unfold TokenKind.ofWord
      split <;> simp
  | digits =>
    unfold effect at h
    split at h <;> try contradiction
    split at h
    all_goals
      cases h
      simp
  | quoted =>
    cases h
    simp
  | symbol s =>
    cases h
    have hs : LexicalClass.fixed? s.spelling.toList cs = some (text, rest) := split?_of_first? hl
    exact ⟨by simp, by simp, fun _ => (LexicalClass.fixed?_append hs).2.symm⟩
  | blank | lineComment | blockComment | commentOpening | quoteOpening => cases h

/-- No token but a quoted text goes over the end of a line. -/
theorem Lexeme.newline_not_mem {cs : List Char} {l : Lexeme} {kind : TokenKind} {value : String}
    (hl : first? cs = some l) (h : l.effect = .token kind value) (hkind : kind ≠ .text) :
    '\n' ∉ l.text := by
  obtain ⟨k, text, rest⟩ := l
  have hs : k.split? cs = some (text, rest) := split?_of_first? hl
  cases k with
  | word =>
    cases cs with
    | nil => cases hs
    | cons c r =>
      by_cases hc : LexicalClass.startsWord c = true
      · simp only [LexicalClass.split?, hc, if_true, Option.some.injEq, Prod.mk.injEq] at hs
        obtain ⟨rfl, -⟩ := hs
        rw [List.mem_cons]
        rintro (rfl | hmem)
        · cases hc
        · cases List.all_eq_true.1 List.all_takeWhile _ hmem
      · simp [LexicalClass.split?, hc] at hs
  | digits => exact fun hmem => absurd (LexicalClass.run?_all hs _ hmem) (by decide)
  | quoted =>
    cases h
    exact absurd rfl hkind
  | symbol s =>
    have hspelling : '\n' ∉ s.spelling.toList := by cases s <;> decide
    rwa [← (LexicalClass.fixed?_append hs).2] at hspelling
  | blank | lineComment | blockComment | commentOpening | quoteOpening => cases h

/-- What is not skipped starts with no blank. -/
theorem Lexeme.isBlank_of_effect {c : Char} {r : List Char} {l : Lexeme}
    (hl : first? (c :: r) = some l) (h : l.effect ≠ .skip) : Text.isBlank c = false := by
  rw [Bool.eq_false_iff]
  intro hc
  rw [first?_blank hc] at hl
  cases hl
  exact h rfl

/-- What is skipped, and then a piece, is a piece. -/
theorem Piece.Fits.skip {cs before rest : List Char} {l : Lexeme} {p : Piece}
    (h : p.Fits (before ++ l.text) rest) (hl : Lexeme.first? cs = some l)
    (he : l.effect = .skip) (hrest : l.rest = p.text ++ rest) :
    Fits { p with gap := l.text ++ p.gap } before rest := by
  obtain ⟨c, r, hlex, hc⟩ := h.lexeme
  have hgap : Gap (l.text ++ p.gap) := by
    rcases Lexeme.text_of_skip hl he with hg | ⟨body, htext, hbody, hstop⟩
    · exact hg.append h.gap
    · have hg := h.gap
      rw [hrest, text, hlex] at hstop
      rw [htext]
      cases hgap : p.gap with
      | nil =>
        -- The lexeme would start with the end of the line, which is a blank.
        rw [hgap] at hstop
        obtain rfl : c = '\n' := hstop c rfl
        cases hc
      | cons d g =>
        rw [hgap] at hstop hg
        obtain rfl : d = '\n' := hstop d rfl
        exact .lineComment hbody hg.tail_of_newline
  constructor
  · exact hgap
  · exact h.lexeme
  · exact h.kind
  · exact h.value
  · exact h.oneLine
  · intro hkind
    rw [h.line hkind, List.append_assoc]
  · intro hkind
    rw [h.lastLine hkind]
    simp [text]

/-- What is skipped, and then a last gap, is a last gap. -/
theorem LastGap.skip {cs : List Char} {l : Lexeme} (h : LastGap l.rest)
    (hl : Lexeme.first? cs = some l) (he : l.effect = .skip) : LastGap (l.text ++ l.rest) := by
  rcases Lexeme.text_of_skip hl he with hg | ⟨body, htext, hbody, hstop⟩
  · rcases h with hg' | ⟨g', body, hg', hbody, hrest⟩
    · exact .inl (hg.append hg')
    · exact .inr ⟨l.text ++ g', body, hg.append hg', hbody, by simp [hrest]⟩
  · rw [htext]
    cases hrest : l.rest with
    | nil => exact .inr ⟨[], body, .nil, hbody, by simp⟩
    | cons d r =>
      rw [hrest] at h hstop
      obtain rfl : d = '\n' := hstop d rfl
      rcases h with hg | ⟨g', body', hg', hbody', hg⟩
      · exact .inl (.lineComment hbody hg.tail_of_newline)
      · cases g' with
        | nil => cases hg
        | cons e g' =>
          obtain ⟨rfl, rfl⟩ := List.cons.inj hg
          refine .inr ⟨_, body', .lineComment hbody hg'.tail_of_newline, hbody', ?_⟩
          simp

/-- In front of a cursor is a last gap, or the piece of the next token. -/
theorem Cursor.next_cut (c : Cursor) (before : List Char)
    (hline : c.line = 1 + Text.lineEnds before) :
    LastGap c.rest ∨ ∃ (p : Piece) (rest : List Char), c.rest = p.text ++ rest ∧
      p.Fits before rest ∧ c.next = (p.token, ⟨rest, 1 + Text.lineEnds (before ++ p.text)⟩) := by
  -- Along the recursion of `next`: what is skipped goes before the gap of the piece behind it.
  fun_induction next c generalizing before with
  | case1 c hr =>
    left
    rw [hr]
    exact .inl .nil
  | case2 c char rest hr hl =>
    right
    have hblank : Text.isBlank char = false := by
      rw [Bool.eq_false_iff]
      intro hc
      rw [hr, first?_blank hc] at hl
      cases hl
    have hline' : '\n' ∉ [char] := by
      intro h
      rw [← List.mem_singleton.1 h] at hblank
      cases hblank
    have hlines : Text.lineEnds [char] = 0 := List.count_eq_zero.2 hline'
    refine ⟨⟨[], [char], ⟨.malformed, char.toString, c.line⟩⟩, rest, hr, ?_, ?_⟩
    · constructor
      · exact .nil
      · exact ⟨char, [], rfl, hblank⟩
      · simp
      · simp
      · exact fun _ _ => hline'
      all_goals simp [hline]
    · simp [Piece.text, hline, hlines]
  | case3 c char rest hr l hl he ih =>
    have hcs := Lexeme.first?_append hl
    rw [← hcs]
    have hpast : (c.past l).line = 1 + Text.lineEnds (before ++ l.text) := by
      simp only [past, hline, Text.lineEnds_append, Nat.add_assoc]
    rcases ih _ hpast with hg | ⟨p, rest', hrest, hp, hnext⟩
    · exact .inl (hg.skip hl he)
    · right
      have hrest' : l.rest = p.text ++ rest' := hrest
      refine ⟨{ p with gap := l.text ++ p.gap }, rest', ?_, hp.skip hl he hrest, ?_⟩
      · simp [hrest', Piece.text]
      · rw [hnext]
        simp [Piece.text]
  | case4 c char rest hr l hl he =>
    right
    rw [hr] at hl
    have hblank := Lexeme.isBlank_of_effect hl (by simp [he])
    refine ⟨⟨[], c.rest, ⟨.cutShort, "", c.toEnd.line⟩⟩, [], by simp [Piece.text], ?_, ?_⟩
    · constructor
      · exact .nil
      · exact ⟨char, rest, hr, hblank⟩
      all_goals simp [Piece.text, toEnd, hline, Nat.add_assoc]
    · simp [Piece.text, toEnd, hline, Nat.add_assoc]
  | case5 c char rest hr l hl kind value he =>
    right
    obtain ⟨hend, hcut, hvalue⟩ := Lexeme.value_of_effect hl he
    have hcs := Lexeme.first?_append hl
    obtain ⟨d, r, htext⟩ := List.exists_cons_of_ne_nil
      (LexicalClass.split?_append (Lexeme.split?_of_first? hl)).2
    have hd : char = d := by
      rw [hr, htext] at hcs
      exact (List.cons.inj hcs).1.symm
    rw [hr] at hl
    have hblank := Lexeme.isBlank_of_effect hl (by simp [he])
    refine ⟨⟨[], l.text, ⟨kind, value, c.line⟩⟩, l.rest, hcs.symm, ?_, ?_⟩
    · constructor
      · exact .nil
      · exact ⟨d, r, htext, hd ▸ hblank⟩
      · exact hend
      · exact fun hk _ => hvalue hk
      · exact fun hk _ => Lexeme.newline_not_mem hl he hk
      · simp [hline]
      · exact fun hk => absurd hk hcut
    · simp [Piece.text, past, hline, Nat.add_assoc]

/-! ### Places in bytes -/

namespace Text

theorem byteLength_append (cs ds : List Char) :
    byteLength (cs ++ ds) = byteLength cs + byteLength ds := by
  induction cs with
  | nil => simp [byteLength]
  | cons c cs ih =>
    simp only [List.cons_append, byteLength, ih]
    omega

theorem byteLength_eq_zero_iff {cs : List Char} : byteLength cs = 0 ↔ cs = [] := by
  cases cs with
  | nil => simp [byteLength]
  | cons c cs =>
    have := c.utf8Size_pos
    simp only [byteLength, reduceCtorEq, iff_false]
    omega

/-- Behind the bytes of a text is what follows it. -/
theorem dropBytes?_byteLength (cs ds : List Char) :
    dropBytes? (byteLength cs) (cs ++ ds) = some ds := by
  induction cs with
  | nil => cases ds <;> rfl
  | cons c cs ih =>
    obtain ⟨n, hn⟩ : ∃ n, byteLength (c :: cs) = n + 1 :=
      Nat.exists_eq_succ_of_ne_zero fun h => by cases byteLength_eq_zero_iff.1 h
    have hsize : c.utf8Size + byteLength cs = n + 1 := hn
    rw [hn, List.cons_append, dropBytes?, if_pos (by omega)]
    rwa [show n + 1 - c.utf8Size = byteLength cs by omega]

end Text

namespace Scanner

/-- The scanner stands in its text, between two characters of it: on the line of that place. -/
structure StandsBetween (s : Scanner) (before rest : List Char) : Prop where
  /-- The two parts are the whole text. -/
  text : s.text = before ++ rest
  /-- The place is behind the bytes of the first. -/
  offset : s.offset = Text.byteLength before
  /-- It is not beyond the end. -/
  offset_le : s.offset ≤ Text.byteLength s.text
  /-- It is not inside a character. -/
  rest? : s.rest? = some rest
  /-- The line is the one it is taken to be on. -/
  line : s.line = 1 + Text.lineEnds before

/-- The number of the pull from a scanner is how many have come before it: the token it gives and
the scanner behind it. -/
def pull? (s : Scanner) : Nat → Option (Token × Scanner)
  | 0 => s.next?
  | n + 1 => s.next?.bind fun r => r.2.pull? n

theorem pull?_succ {s s' : Scanner} {t : Token} (h : s.next? = some (t, s')) (n : Nat) :
    s.pull? (n + 1) = s'.pull? n := by
  rw [pull?, h]
  rfl

theorem standsBetween_of_text {s : Scanner} {before rest : List Char}
    (htext : s.text = before ++ rest) (hoffset : s.offset = Text.byteLength before)
    (hline : s.line = 1 + Text.lineEnds before) : s.StandsBetween before rest := by
  refine ⟨htext, hoffset, ?_, ?_, hline⟩
  · rw [htext, hoffset, Text.byteLength_append]
    omega
  · rw [Scanner.rest?, htext, hoffset, Text.dropBytes?_byteLength]

/-- At the start of a text there is nothing behind. -/
theorem standsBetween_ofText (text : String) : (ofText text).StandsBetween [] text.toList :=
  standsBetween_of_text rfl rfl rfl

namespace StandsBetween

variable {s : Scanner} {before rest : List Char}

theorem cursor? (h : s.StandsBetween before rest) :
    s.cursor? = some ⟨rest, 1 + Text.lineEnds before⟩ := by
  unfold Scanner.cursor?
  split
  · next hend =>
    have hle : Text.byteLength s.text ≤ s.offset := by simpa [atEnd] using hend
    rw [h.text, h.offset, Text.byteLength_append] at hle
    have hrest : rest = [] := Text.byteLength_eq_zero_iff.1 (by omega)
    rw [hrest, h.line]
  · rw [h.rest?, h.line, Option.map_some]

/-- Moved over the front of the rest. -/
theorem moveTo (h : s.StandsBetween before rest) {front back : List Char}
    (hrest : rest = front ++ back) :
    (s.moveTo ⟨back, 1 + Text.lineEnds (before ++ front)⟩).StandsBetween (before ++ front)
      back := by
  have htext : s.text = before ++ front ++ back := by rw [h.text, hrest, List.append_assoc]
  refine standsBetween_of_text htext ?_ rfl
  simp only [Scanner.moveTo, htext, h.offset, Text.byteLength_append]
  omega

/-- In front of a scanner is a last gap, or the piece of the token that it gives. -/
theorem next? (h : s.StandsBetween before rest) :
    LastGap rest ∨ ∃ (p : Piece) (back : List Char) (s' : Scanner), rest = p.text ++ back ∧
      p.Fits before back ∧ s.next? = some (p.token, s') ∧
      s'.StandsBetween (before ++ p.text) back := by
  refine (Cursor.next_cut ⟨rest, 1 + Text.lineEnds before⟩ before rfl).imp_right ?_
  rintro ⟨p, back, hrest, hp, hnext⟩
  refine ⟨p, back, _, hrest, hp, ?_, h.moveTo hrest⟩
  rw [Scanner.next?, h.cursor?, Option.map_some, hnext]

/-- From behind the last piece there is only the end. -/
theorem pull?_of_lastGap (h : s.StandsBetween before rest) (hrest : LastGap rest) (n : Nat) :
    ∃ s', s.pull? n = some (.endAt (1 + Text.lineEnds (before ++ rest)), s') ∧
      s'.StandsBetween (before ++ rest) [] := by
  have hnext : s.next? = some (.endAt (1 + Text.lineEnds (before ++ rest)),
      s.moveTo ⟨[], 1 + Text.lineEnds (before ++ rest)⟩) := by
    rw [Scanner.next?, h.cursor?, Option.map_some, Cursor.next_lastGap hrest, Text.lineEnds_append,
      Nat.add_assoc]
  have hmoved := h.moveTo (List.append_nil rest).symm
  induction n generalizing s before rest with
  | zero => exact ⟨_, hnext, hmoved⟩
  | succ n ih =>
    have hlast := Cursor.next_lastGap (.inl .nil) (1 + Text.lineEnds (before ++ rest))
    have hagain := hmoved.moveTo (List.append_nil []).symm
    obtain ⟨s', hs', hstands⟩ := ih hmoved (.inl .nil) (by
      rw [Scanner.next?, hmoved.cursor?, Option.map_some, hlast]
      simp) hagain
    rw [List.append_nil] at hs' hstands
    exact ⟨s', (pull?_succ hnext n).trans hs', hstands⟩

end StandsBetween

/-! ### The run -/

/-- The tokens that are taken from a scanner cut what is left of its text into pieces and a last
gap. -/
structure Cuts (s : Scanner) (before rest : List Char) (pieces : List Piece) (last : List Char) :
    Prop where
  /-- Nothing is lost. -/
  text : rest = Piece.texts pieces ++ last
  /-- Behind the last token there are blanks and comments. -/
  gap : LastGap last
  /-- Each pull gives the token of its piece, and the scanner stands behind that piece. -/
  pull (n : Nat) (hn : n < pieces.length) :
    pieces[n].Fits (before ++ Piece.texts (pieces.take n))
      (Piece.texts (pieces.drop (n + 1)) ++ last) ∧
    ∃ s', s.pull? n = some (pieces[n].token, s') ∧
      s'.StandsBetween (before ++ Piece.texts (pieces.take (n + 1)))
        (Piece.texts (pieces.drop (n + 1)) ++ last)
  /-- Behind the pieces, each pull gives the same mark of the end. -/
  ended (n : Nat) (hn : pieces.length ≤ n) :
    ∃ s', s.pull? n = some (.endAt (1 + Text.lineEnds (before ++ rest)), s') ∧
      s'.StandsBetween (before ++ rest) []

/-- A piece goes before the pieces that are cut behind it. -/
theorem Cuts.cons {s s' : Scanner} {before rest : List Char} {p : Piece} {ps : List Piece}
    {last : List Char} (hp : p.Fits before rest) (hnext : s.next? = some (p.token, s'))
    (hstands : s'.StandsBetween (before ++ p.text) rest)
    (h : s'.Cuts (before ++ p.text) rest ps last) :
    s.Cuts before (p.text ++ rest) (p :: ps) last := by
  constructor
  · rw [h.text, Piece.texts_cons, List.append_assoc]
  · exact h.gap
  · intro n hn
    cases n with
    | zero =>
      refine ⟨?_, s', hnext, ?_⟩
      · simpa [← h.text] using hp
      · simpa [← h.text] using hstands
    | succ n =>
      obtain ⟨hfits, s'', hs, hs'⟩ := h.pull n (Nat.lt_of_succ_lt_succ hn)
      refine ⟨?_, s'', (pull?_succ hnext n).trans hs, ?_⟩
      · simpa using hfits
      · simpa using hs'
  · intro n hn
    cases n with
    | zero => cases hn
    | succ n =>
      rw [pull?_succ hnext, ← List.append_assoc]
      exact h.ended n (Nat.le_of_succ_le_succ hn)

/-- From wherever a scanner stands, what is left of its text is cut into pieces. -/
theorem exists_cut {s : Scanner} {before rest : List Char} (h : s.StandsBetween before rest) :
    ∃ pieces last, s.Cuts before rest pieces last := by
  -- The induction is on what is left: a piece takes one character of it at least.
  induction hlen : rest.length using Nat.strong_induction_on generalizing s before rest with
  | _ len ih =>
    rcases h.next? with hlast | ⟨p, back, s', rfl, hp, hnext, hstands⟩
    · exact ⟨[], rest, rfl, hlast, nofun, fun n _ => h.pull?_of_lastGap hlast n⟩
    · obtain ⟨c, r, hlex, -⟩ := hp.lexeme
      have hlt : back.length < len := by
        rw [← hlen, Piece.text, hlex]
        simp
        omega
      obtain ⟨ps, last, hcuts⟩ := ih _ hlt hstands rfl
      exact ⟨p :: ps, last, hcuts.cons hp hnext hstands⟩

/-- Each piece has a character of its own. -/
theorem Cuts.length_le {s : Scanner} {before rest : List Char} {pieces : List Piece}
    {last : List Char} (h : s.Cuts before rest pieces last) : pieces.length ≤ rest.length := by
  have hne : ∀ p ∈ pieces, 1 ≤ p.text.length := by
    intro p hp
    obtain ⟨n, hn, rfl⟩ := List.getElem_of_mem hp
    obtain ⟨c, r, hlex, -⟩ := (h.pull n hn).1.lexeme
    simp only [Piece.text, hlex, List.length_append, List.length_cons]
    omega
  have htexts := Piece.length_le_texts hne
  rw [h.text, List.length_append]
  omega

/-- From the start, every text is cut into pieces: nothing of it is lost, every place is on a
character boundary within it, every line is counted, and reading never fails. -/
theorem cut_without_loss (text : String) :
    ∃ pieces last, (ofText text).Cuts [] text.toList pieces last ∧
      pieces.length ≤ text.toList.length := by
  obtain ⟨pieces, last, h⟩ := exists_cut (standsBetween_ofText text)
  exact ⟨pieces, last, h, h.length_le⟩

/-! ### The readings of a text -/

theorem StandsBetween.unique {s : Scanner} {before rest before' rest' : List Char}
    (h : s.StandsBetween before rest) (h' : s.StandsBetween before' rest') :
    before = before' ∧ rest = rest' := by
  have hrest : rest = rest' := Option.some.inj (h.rest?.symm.trans h'.rest?)
  have htext : before ++ rest = before' ++ rest' := h.text.symm.trans h'.text
  rw [hrest] at htext
  exact ⟨List.append_cancel_right htext, hrest⟩

/-- A scanner reads what its cursor reads. -/
theorem StandsBetween.next_cursor {s s' : Scanner} {before rest before' rest' : List Char}
    {t : Token} (h : s.StandsBetween before rest) (hnext : s.next? = some (t, s'))
    (h' : s'.StandsBetween before' rest') :
    Cursor.next ⟨rest, 1 + Text.lineEnds before⟩ = (t, ⟨rest', 1 + Text.lineEnds before'⟩) := by
  have hcursor : s.next? = some ((Cursor.next ⟨rest, 1 + Text.lineEnds before⟩).1,
      s.moveTo (Cursor.next ⟨rest, 1 + Text.lineEnds before⟩).2) := by
    rw [Scanner.next?, h.cursor?, Option.map_some]
  obtain ⟨front, back, hrest, hback⟩ : ∃ front back, rest = front ++ back ∧
      (Cursor.next ⟨rest, 1 + Text.lineEnds before⟩).2 =
        ⟨back, 1 + Text.lineEnds (before ++ front)⟩ := by
    rcases Cursor.next_cut ⟨rest, 1 + Text.lineEnds before⟩ before rfl with
      hlast | ⟨p, back, hrest, -, hnext⟩
    · refine ⟨rest, [], (List.append_nil rest).symm, ?_⟩
      rw [Cursor.next_lastGap hlast, Text.lineEnds_append, Nat.add_assoc]
    · exact ⟨p.text, back, hrest, congrArg Prod.snd hnext⟩
  obtain ⟨ht, hs⟩ := Prod.mk.inj (Option.some.inj (hcursor.symm.trans hnext))
  rw [hback] at hs
  obtain ⟨hfront, rfl⟩ := (h.moveTo hrest).unique (hs ▸ h')
  refine Prod.ext ht ?_
  rw [hback, hfront]

/-- Behind its first piece a text is cut into the others. -/
theorem Cuts.tail {s : Scanner} {before rest : List Char} {p : Piece} {ps : List Piece}
    {last : List Char} (h : s.Cuts before rest (p :: ps) last) :
    ∃ s', s.next? = some (p.token, s') ∧
      s'.StandsBetween (before ++ p.text) (Piece.texts ps ++ last) ∧
      s'.Cuts (before ++ p.text) (Piece.texts ps ++ last) ps last := by
  obtain ⟨-, s', hnext, hstands⟩ := h.pull 0 (Nat.succ_pos _)
  have hnext' : s.next? = some (p.token, s') := hnext
  refine ⟨s', hnext', by simpa using hstands, rfl, h.gap, ?_, ?_⟩
  · intro n hn
    obtain ⟨hfits, s'', hs, hs'⟩ := h.pull (n + 1) (Nat.succ_lt_succ hn)
    refine ⟨by simpa using hfits, s'', (pull?_succ hnext' n).symm.trans hs, by simpa using hs'⟩
  · intro n hn
    have hend := h.ended (n + 1) (Nat.succ_le_succ hn)
    rw [h.text, pull?_succ hnext'] at hend
    simpa using hend

/-- The first reading of a text is the token of its first piece. -/
theorem Cuts.readings_cons {s : Scanner} {before rest : List Char} {p : Piece} {ps : List Piece}
    {last : List Char} (h : s.Cuts before rest (p :: ps) last) (hs : s.StandsBetween before rest) :
    ∃ s' : Scanner, s'.StandsBetween (before ++ p.text) (Piece.texts ps ++ last) ∧
      s'.Cuts (before ++ p.text) (Piece.texts ps ++ last) ps last ∧
      Cursor.readings ⟨rest, 1 + Text.lineEnds before⟩ =
        ⟨p.token, 1 + Text.lineEnds (before ++ p.text)⟩ ::
          Cursor.readings ⟨Piece.texts ps ++ last, 1 + Text.lineEnds (before ++ p.text)⟩ := by
  have hkind : p.token.kind ≠ .endOfInput := (h.pull 0 (Nat.succ_pos _)).1.kind
  obtain ⟨s', hnext, hstands, htail⟩ := h.tail
  refine ⟨s', hstands, htail, ?_⟩
  rw [Cursor.readings, hs.next_cursor hnext hstands, dif_neg hkind]

/-- The readings of a text are the tokens of its pieces, each with the line on which it ends. -/
theorem Cuts.readings {s : Scanner} {before rest : List Char} {pieces : List Piece}
    {last : List Char} (h : s.Cuts before rest pieces last) (hs : s.StandsBetween before rest) :
    Cursor.readings ⟨rest, 1 + Text.lineEnds before⟩ =
      (pieces.mapIdx fun n p =>
        ⟨p.token, 1 + Text.lineEnds (before ++ Piece.texts (pieces.take (n + 1)))⟩) ++
      [⟨.endAt (1 + Text.lineEnds (before ++ rest)), 1 + Text.lineEnds (before ++ rest)⟩] := by
  induction pieces generalizing s before rest with
  | nil =>
    have hlast : LastGap rest := by
      rw [h.text]
      exact h.gap
    rw [Cursor.readings, Cursor.next_lastGap hlast, Nat.add_assoc, ← Text.lineEnds_append]
    rfl
  | cons p ps ih =>
    obtain ⟨s', hstands, htail, hreadings⟩ := h.readings_cons hs
    rw [hreadings, ih htail hstands, h.text, List.mapIdx_cons]
    simp

end Scanner

end Scriptlet
