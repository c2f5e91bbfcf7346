import Scriptlet.Token.Cursor

/-!
# Words and how they are spelled

A `Word` is a token without its line: what a text says, apart from how it is laid out.
A word that is spelled out is read back as that word, as long as the character behind it
does not go on with it.

## What is proved

* `Cursor.next_word` — a word that is spelled out is the next token.
* `Cursor.next_blank` — a blank before a token does not change it.
* `Cursor.isSpelled_of_mem` — the names and numbers of a text are spelled as such.
* `tokenize_eq_ok_iff` — when a text has tokens, and which they are.
-/

namespace Scriptlet

/-- What a text says at a place: a token without its line. -/
inductive Word where
  /-- A symbol. -/
  | symbol (s : Symbol)
  /-- A keyword. -/
  | keyword (k : Keyword)
  /-- A name. -/
  | name (name : String)
  /-- A number, in digits. -/
  | number (digits : String)
  /-- A text, as it is meant. -/
  | text (meaning : String)
  deriving DecidableEq

/-- The text is a name: spelled like a word, and no keyword. -/
def isName (s : String) : Bool :=
  match s.toList with
  | [] => false
  | c :: r => LexicalClass.startsWord c && r.all LexicalClass.continuesWord &&
      TokenKind.ofWord s = .name

/-- The text is a number in range. -/
def isNumber (s : String) : Bool :=
  s.toList ≠ [] && s.toList.all Char.isDigit &&
    decide (Text.Decimal.value s.toList ≤ Text.Decimal.greatest)

/-- What starts like a symbol and is longer than one character: longer symbols, and the
openings of comments. -/
def clusters : List (List Char) :=
  [['.', '.', '.'], ['=', '='], ['!', '='], ['<', '='], ['>', '='], ['|', '|'], ['&', '&'],
    ['?', '?'], ['+', '+'], ['-', '-'], ['/', '/'], ['/', '*']]

/-- With the character behind it, the symbol does not start anything longer. -/
def Symbol.endsBefore (s : Symbol) (c : Char) : Bool :=
  clusters.all fun longer => !(s.spelling.toList ++ [c]).isPrefixOf longer

namespace Word

/-- The kind of token that the word is. -/
def kind : Word → TokenKind
  | symbol s => .symbol s
  | keyword k => .keyword k
  | name _ => .name
  | number _ => .number
  | text _ => .text

/-- The value of the token that the word is. -/
def value : Word → String
  | symbol s => s.spelling
  | keyword k => k.spelling
  | name n => n
  | number d => d
  | text m => m

/-- How the word is written. -/
def spelling : Word → String
  | text m => Text.Quoted.encode m
  | w => w.value

theorem spelling_text (m : String) : (text m).spelling = Text.Quoted.encode m := rfl

/-- A word is no mark. -/
theorem kind_ne (w : Word) : w.kind ≠ .endOfInput ∧ w.kind ≠ .malformed ∧ w.kind ≠ .cutShort := by
  cases w <;> simp [kind]

/-- There is such a word. -/
def Valid : Word → Prop
  | name n => isName n = true
  | number d => isNumber d = true
  | _ => True

/-- The character does not go on with the word. -/
def endsBefore : Word → Char → Bool
  | symbol s, c => s.endsBefore c
  | keyword _, c | name _, c => !LexicalClass.continuesWord c
  | number _, c => !c.isDigit
  | text _, _ => true

end Word

/-! ### One lexeme -/

/-- The first class of the table that splits something off. -/
theorem Lexeme.first?_of_split? {k : LexicalClass} (before : List LexicalClass)
    {after : List LexicalClass}
    (htable : LexicalClass.table = before ++ k :: after) {cs text rest : List Char}
    (hk : k.split? cs = some (text, rest)) (hbefore : ∀ k' ∈ before, k'.split? cs = none) :
    Lexeme.first? cs = some ⟨k, text, rest⟩ := by
  unfold Lexeme.first?
  rw [htable, List.findSome?_append, List.findSome?_eq_none_iff.2]
  · simp [hk]
  · intro k' hk'
    rw [hbefore k' hk', Option.map_none]

theorem takeWhile_append_of_stop {p : Char → Bool} {cs rest : List Char} (hcs : cs.all p = true)
    (hrest : ∀ c ∈ rest.head?, p c = false) :
    (cs ++ rest).takeWhile p = cs ∧ (cs ++ rest).dropWhile p = rest := by
  have hall : ∀ c ∈ cs, p c = true := List.all_eq_true.1 hcs
  rw [List.takeWhile_append_of_pos hall, List.dropWhile_append_of_pos hall]
  cases rest with
  | nil => simp
  | cons c rest => simp [hrest c rfl]

/-- Letters, as numbers. -/
theorem isAlpha_iff {c : Char} :
    c.isAlpha = true ↔ 65 ≤ c.toNat ∧ c.toNat ≤ 90 ∨ 97 ≤ c.toNat ∧ c.toNat ≤ 122 := by
  have h : c.isAlpha = (c.isUpper || c.isLower) := rfl
  have h' : c.isUpper = decide ((65 : UInt32) ≤ c.val ∧ c.val ≤ 90) := rfl
  have h'' : c.isLower = (decide ((97 : UInt32) ≤ c.val) && decide (c.val ≤ 122)) := rfl
  simp only [h, h', h'', Bool.or_eq_true, Bool.and_eq_true, decide_eq_true_eq,
    UInt32.le_iff_toNat_le]
  rfl

theorem isDigit_iff {c : Char} : c.isDigit = true ↔ 48 ≤ c.toNat ∧ c.toNat ≤ 57 := by
  have h : c.isDigit = (decide ((48 : UInt32) ≤ c.val) && decide (c.val ≤ 57)) := rfl
  simp only [h, Bool.and_eq_true, decide_eq_true_eq, UInt32.le_iff_toNat_le]
  rfl

theorem eq_underscore_iff {c : Char} : c = '_' ↔ c.toNat = 95 := by
  rw [← Char.toNat_inj]
  rfl

/-- Characters of words, as numbers. -/
theorem continuesWord_iff {c : Char} :
    LexicalClass.continuesWord c = true ↔
      48 ≤ c.toNat ∧ c.toNat ≤ 57 ∨ 65 ≤ c.toNat ∧ c.toNat ≤ 90 ∨ c.toNat = 95 ∨
        97 ≤ c.toNat ∧ c.toNat ≤ 122 := by
  simp only [LexicalClass.continuesWord, LexicalClass.startsWord, Bool.or_eq_true, beq_iff_eq,
    isAlpha_iff, isDigit_iff, eq_underscore_iff]
  omega

/-- A character of a word is no blank. -/
theorem isBlank_of_continuesWord {c : Char} (h : LexicalClass.continuesWord c = true) :
    Text.isBlank c = false := by
  rw [continuesWord_iff] at h
  rw [Text.isBlank, Bool.eq_false_iff, ne_eq, Text.Ranges.covers_eq_true_iff]
  rintro ⟨r, hr, hlo, hhi⟩
  simp only [Text.blankRanges, List.mem_cons, List.not_mem_nil, or_false] at hr
  rcases hr with rfl | rfl | rfl | rfl | rfl | rfl | rfl | rfl | rfl | rfl
  all_goals
    simp only at hlo hhi
    omega

theorem ne_slash_of_continuesWord {c : Char} (h : LexicalClass.continuesWord c = true) :
    c ≠ '/' := by
  rintro rfl
  cases h

theorem not_startsWord_of_isDigit {c : Char} (h : c.isDigit = true) :
    LexicalClass.startsWord c = false := by
  rw [Bool.eq_false_iff]
  intro hs
  simp only [LexicalClass.startsWord, Bool.or_eq_true, beq_iff_eq, isAlpha_iff,
    eq_underscore_iff] at hs
  rw [isDigit_iff] at h
  omega

theorem fixed?_eq_none {fix cs : List Char} (h : ¬ fix <+: cs) :
    LexicalClass.fixed? fix cs = none := by
  rw [LexicalClass.fixed?, if_neg]
  rwa [List.isPrefixOf_iff_prefix]

/-- What starts with a blank. -/
theorem first?_blank {c : Char} (hc : Text.isBlank c = true) (r : List Char) :
    Lexeme.first? (c :: r) =
      some ⟨.blank, c :: r.takeWhile Text.isBlank, r.dropWhile Text.isBlank⟩ := by
  refine Lexeme.first?_of_split? [] rfl ?_ (by simp)
  simp [LexicalClass.split?, LexicalClass.run?, hc]

/-- The classes of blanks and comments, which are tried first. -/
def LexicalClass.layout : List LexicalClass := [blank, lineComment, blockComment, commentOpening]

/-- What starts with no blank and with no slash that is followed by a slash or a star is
neither blank nor a comment. -/
theorem split?_eq_none_of_head {c : Char} {r : List Char} (hblank : Text.isBlank c = false)
    (hline : ¬ ['/', '/'] <+: c :: r) (hblock : ¬ ['/', '*'] <+: c :: r) :
    ∀ k ∈ LexicalClass.layout, k.split? (c :: r) = none := by
  intro k hk
  simp only [LexicalClass.layout, List.mem_cons, List.not_mem_nil, or_false] at hk
  rcases hk with rfl | rfl | rfl | rfl
  · simp [LexicalClass.split?, LexicalClass.run?, hblank]
  · unfold LexicalClass.split?
    split
    all_goals simp_all
  · unfold LexicalClass.split?
    split
    all_goals simp_all
  · exact fixed?_eq_none hblock

/-! ### Symbols -/

/-- No symbol stands behind one that starts it. -/
theorem Symbol.all_pairwise :
    Symbol.all.Pairwise fun s s' => ¬ s.spelling.toList <+: s'.spelling.toList := by
  decide +kernel

theorem Symbol.spelling_head (s : Symbol) :
    ∃ c r, s.spelling.toList = c :: r ∧ Text.isBlank c = false ∧
      LexicalClass.startsWord c = false ∧ c.isDigit = false ∧ c ≠ '"' := by
  cases s <;> exact ⟨_, _, rfl, by decide⟩

theorem Symbol.not_comment (s : Symbol) :
    ¬ ['/', '/'] <+: s.spelling.toList ∧ ¬ ['/', '*'] <+: s.spelling.toList := by
  cases s <;> decide

theorem Symbol.mem_clusters (s : Symbol) :
    s.spelling.toList.length = 1 ∨ s.spelling.toList ∈ clusters := by
  cases s <;> decide

/-- What starts with a symbol that ends there is nothing that is tried before it. -/
theorem Symbol.first?_spelling (s : Symbol) {rest : List Char}
    (h : ∀ c ∈ rest.head?, s.endsBefore c = true) :
    Lexeme.first? (s.spelling.toList ++ rest) = some ⟨.symbol s, s.spelling.toList, rest⟩ := by
  obtain ⟨before, after, hall, -⟩ := List.eq_append_cons_of_mem s.mem_all
  have htable : LexicalClass.table =
      (LexicalClass.layout ++ ([LexicalClass.word, .digits, .quoted, .quoteOpening] ++
        before.map LexicalClass.symbol)) ++ .symbol s :: after.map LexicalClass.symbol := by
    simp [LexicalClass.table, LexicalClass.layout, hall]
  have hlonger (longer : List Char) (hl : longer.length = 1 ∨ longer ∈ clusters)
      (hn : ¬ longer <+: s.spelling.toList) : ¬ longer <+: s.spelling.toList ++ rest := by
    intro hp
    have hlt : s.spelling.toList.length < longer.length := by
      refine Nat.lt_of_not_le fun hle => hn ?_
      exact List.prefix_of_prefix_length_le hp (List.prefix_append _ _) hle
    have hpos := List.length_pos_iff.2 s.toList_spelling_ne_nil
    obtain ⟨c, tail, rfl⟩ : ∃ c tail, longer = s.spelling.toList ++ c :: tail := by
      obtain ⟨u, hu⟩ := List.prefix_of_prefix_length_le (List.prefix_append _ rest) hp
        (Nat.le_of_lt hlt)
      cases u with
      | nil => simp [← hu] at hlt
      | cons c tail => exact ⟨c, tail, hu.symm⟩
    rw [List.prefix_append_right_inj] at hp
    obtain ⟨u, rfl⟩ := hp
    have hmem := hl.resolve_left (by omega)
    have he := List.all_eq_true.1 (h c rfl) _ hmem
    rw [Bool.not_eq_true', ← Bool.not_eq_true, List.isPrefixOf_iff_prefix] at he
    exact he (by simp)
  have hline := hlonger ['/', '/'] (by decide) s.not_comment.1
  have hblock := hlonger ['/', '*'] (by decide) s.not_comment.2
  refine Lexeme.first?_of_split? _ htable ?_ ?_
  · simp [LexicalClass.split?, LexicalClass.fixed?]
  · intro k hk
    obtain ⟨c, r, hs, hblank, hword, hdigit, hquote⟩ := s.spelling_head
    rcases List.mem_append.1 hk with hk | hk
    · rw [hs, List.cons_append] at hline hblock ⊢
      exact split?_eq_none_of_head hblank hline hblock k hk
    · rcases List.mem_append.1 hk with hk | hk
      · simp only [List.mem_cons, List.not_mem_nil, or_false] at hk
        rw [hs, List.cons_append]
        rcases hk with rfl | rfl | rfl | rfl
        · simp [LexicalClass.split?, hword]
        · simp [LexicalClass.split?, LexicalClass.run?, hdigit]
        · simp [LexicalClass.split?, hquote]
        · simp [LexicalClass.split?, LexicalClass.fixed?, hquote.symm]
      · obtain ⟨s', hs', rfl⟩ := List.mem_map.1 hk
        refine fixed?_eq_none (hlonger _ s'.mem_clusters ?_)
        have hpair := Symbol.all_pairwise
        rw [hall, List.pairwise_append] at hpair
        exact hpair.2.2 s' hs' s List.mem_cons_self

/-! ### Names, numbers and texts -/

theorem Keyword.spelling_word (k : Keyword) :
    ∃ c r, k.spelling.toList = c :: r ∧ LexicalClass.startsWord c = true ∧
      r.all LexicalClass.continuesWord = true ∧ TokenKind.ofWord k.spelling = .keyword k := by
  cases k <;> exact ⟨_, _, rfl, by decide⟩

theorem not_slash_start {c d : Char} {r : List Char} (h : c ≠ '/') : ¬ ['/', d] <+: c :: r := by
  rintro ⟨u, hu⟩
  exact h (List.cons.inj hu).1.symm

/-- What starts with a word that ends there. -/
theorem first?_word {c : Char} {cs rest : List Char} (hc : LexicalClass.startsWord c = true)
    (hcs : cs.all LexicalClass.continuesWord = true)
    (h : ∀ c ∈ rest.head?, LexicalClass.continuesWord c = false) :
    Lexeme.first? (c :: cs ++ rest) = some ⟨.word, c :: cs, rest⟩ := by
  have hw : LexicalClass.continuesWord c = true := by simp [LexicalClass.continuesWord, hc]
  have hslash := ne_slash_of_continuesWord hw
  obtain ⟨htake, hdrop⟩ := takeWhile_append_of_stop hcs h
  refine Lexeme.first?_of_split? LexicalClass.layout rfl ?_ ?_
  · simp [LexicalClass.split?, hc, htake, hdrop]
  · exact split?_eq_none_of_head (isBlank_of_continuesWord hw) (not_slash_start hslash)
      (not_slash_start hslash)

/-- What starts with digits that end there. -/
theorem first?_digits {cs rest : List Char} (hne : cs ≠ []) (hcs : cs.all Char.isDigit = true)
    (h : ∀ c ∈ rest.head?, c.isDigit = false) :
    Lexeme.first? (cs ++ rest) = some ⟨.digits, cs, rest⟩ := by
  obtain ⟨c, cs, rfl⟩ := List.exists_cons_of_ne_nil hne
  simp only [List.all_cons, Bool.and_eq_true] at hcs
  have hw : LexicalClass.continuesWord c = true := by simp [LexicalClass.continuesWord, hcs.1]
  have hslash := ne_slash_of_continuesWord hw
  obtain ⟨htake, hdrop⟩ := takeWhile_append_of_stop hcs.2 h
  refine Lexeme.first?_of_split? (LexicalClass.layout ++ [LexicalClass.word]) rfl ?_ ?_
  · simp [LexicalClass.split?, LexicalClass.run?, hcs.1, htake, hdrop]
  · intro k hk
    rcases List.mem_append.1 hk with hk | hk
    · exact split?_eq_none_of_head (isBlank_of_continuesWord hw) (not_slash_start hslash)
        (not_slash_start hslash) k hk
    · rw [List.mem_singleton.1 hk]
      simp [LexicalClass.split?, not_startsWord_of_isDigit hcs.1]

/-- What starts with a text in quotes. -/
theorem first?_quoted (s : String) (rest : List Char) :
    Lexeme.first? ((Text.Quoted.encode s).toList ++ rest) =
      some ⟨.quoted, (Text.Quoted.encode s).toList, rest⟩ := by
  have hs : (Text.Quoted.encode s).toList =
      '"' :: (Text.Quoted.encodeBody s.toList ++ ['"']) := by
    simp [Text.Quoted.encode]
  rw [hs, List.cons_append]
  refine Lexeme.first?_of_split? (LexicalClass.layout ++ [LexicalClass.word, .digits]) rfl ?_ ?_
  · rw [List.append_assoc]
    simp [LexicalClass.split?, Text.Quoted.close?_encodeBody]
  · intro k hk
    rcases List.mem_append.1 hk with hk | hk
    · exact split?_eq_none_of_head (by decide) (not_slash_start (by decide))
        (not_slash_start (by decide)) k hk
    · simp only [List.mem_cons, List.not_mem_nil, or_false] at hk
      rcases hk with rfl | rfl <;> rfl

theorem effect_word {s : String} {kind : TokenKind} (h : TokenKind.ofWord s = kind)
    (rest : List Char) : Lexeme.effect ⟨.word, s.toList, rest⟩ = .token kind s := by
  simp [Lexeme.effect, h]

theorem effect_digits {d : String} (h : isNumber d = true) (rest : List Char) :
    Lexeme.effect ⟨.digits, d.toList, rest⟩ = .token .number d := by
  simp only [isNumber, Bool.and_eq_true, decide_eq_true_eq] at h
  simp [Lexeme.effect, h.2]

theorem effect_quoted (s : String) (rest : List Char) :
    Lexeme.effect ⟨.quoted, (Text.Quoted.encode s).toList, rest⟩ = .token .text s := by
  simp [Lexeme.effect, Text.Quoted.decode, Text.Quoted.encode, Text.Quoted.decodeBody_encodeBody]

/-! ### The next token -/

namespace Cursor

theorem next_of_first? {cs text rest : List Char} {line : Nat} {k : LexicalClass}
    {kind : TokenKind} {value : String} (hl : Lexeme.first? cs = some ⟨k, text, rest⟩)
    (he : Lexeme.effect ⟨k, text, rest⟩ = .token kind value) :
    next ⟨cs, line⟩ = (⟨kind, value, line⟩, ⟨rest, line + Text.lineEnds text⟩) := by
  unfold next
  split
  · next h =>
    obtain rfl : cs = [] := h
    cases hl
  · split
    · next h => cases hl.symm.trans h
    · next h =>
      obtain rfl := Option.some.inj (hl.symm.trans h)
      rw [he]
      rfl

theorem next_of_skip {cs text rest : List Char} {line : Nat} {k : LexicalClass}
    (hl : Lexeme.first? cs = some ⟨k, text, rest⟩)
    (he : Lexeme.effect ⟨k, text, rest⟩ = .skip) :
    next ⟨cs, line⟩ = next ⟨rest, line + Text.lineEnds text⟩ := by
  rw [next]
  split
  · next h =>
    obtain rfl : cs = [] := h
    cases hl
  · split
    · next h => cases hl.symm.trans h
    · next h =>
      obtain rfl := Option.some.inj (hl.symm.trans h)
      rw [he]
      rfl

/-- At the end of the text is the mark of it. -/
theorem next_nil (line : Nat) : next ⟨[], line⟩ = (.endAt line, ⟨[], line⟩) := by
  rw [next]

/-- Only the next token decides what is read. -/
theorem readings_congr {c c' : Cursor} (h : c.next = c'.next) : c.readings = c'.readings := by
  rw [readings.eq_1 c, readings.eq_1 c', h]

/-- A word that is spelled out is the next token. -/
theorem next_word {w : Word} (hw : w.Valid) {rest : List Char}
    (h : ∀ c ∈ rest.head?, w.endsBefore c = true) (line : Nat) :
    next ⟨w.spelling.toList ++ rest, line⟩ =
      (⟨w.kind, w.value, line⟩, ⟨rest, line + Text.lineEnds w.spelling.toList⟩) := by
  have hword {s : String} {kind : TokenKind} {c : Char} {r : List Char} (hs : s.toList = c :: r)
      (hc : LexicalClass.startsWord c = true) (hr : r.all LexicalClass.continuesWord = true)
      (hkind : TokenKind.ofWord s = kind)
      (h : ∀ c ∈ rest.head?, (!LexicalClass.continuesWord c) = true) :
      next ⟨s.toList ++ rest, line⟩ = (⟨kind, s, line⟩, ⟨rest, line + Text.lineEnds s.toList⟩) := by
    have hl := first?_word hc hr (fun c hc => by simpa using h c hc : ∀ c ∈ rest.head?, _ = false)
    rw [← hs] at hl
    exact next_of_first? hl (effect_word hkind rest)
  cases w with
  | symbol s => exact next_of_first? (s.first?_spelling h) rfl
  | keyword k =>
    obtain ⟨c, r, hs, hc, hr, hkind⟩ := k.spelling_word
    exact hword hs hc hr hkind h
  | name n =>
    have hn : isName n = true := hw
    unfold isName at hn
    split at hn
    · cases hn
    · next c r hs =>
      simp only [Bool.and_eq_true, decide_eq_true_eq] at hn
      exact hword hs hn.1.1 hn.1.2 hn.2 h
  | number d =>
    have hd : isNumber d = true := hw
    have heffect := effect_digits hd rest
    simp only [isNumber, Bool.and_eq_true, decide_eq_true_eq] at hd
    have hrest : ∀ c ∈ rest.head?, c.isDigit = false := fun c hc => by
      simpa [Word.endsBefore] using h c hc
    exact next_of_first? (first?_digits hd.1.1 hd.1.2 hrest) heffect
  | text m =>
    rw [Word.spelling_text]
    exact next_of_first? (first?_quoted m rest) (effect_quoted m rest)

/-- Blanks before a token are skipped. -/
theorem next_dropWhile (cs : List Char) (line : Nat) :
    next ⟨cs, line⟩ =
      next ⟨cs.dropWhile Text.isBlank, line + Text.lineEnds (cs.takeWhile Text.isBlank)⟩ := by
  cases cs with
  | nil => rfl
  | cons c r =>
    cases hc : Text.isBlank c with
    | false => simp [hc]
    | true =>
      rw [next_of_skip (first?_blank hc r) rfl, List.takeWhile_cons_of_pos hc,
        List.dropWhile_cons_of_pos hc]

/-- A blank before a token does not change it. -/
theorem next_blank {c : Char} (hc : Text.isBlank c = true) (r : List Char) (line : Nat) :
    next ⟨c :: r, line⟩ = next ⟨r, line + Text.lineEnds [c]⟩ := by
  rw [next_dropWhile, next_dropWhile r, List.takeWhile_cons_of_pos hc,
    List.dropWhile_cons_of_pos hc, Nat.add_assoc, ← Text.lineEnds_append]
  rfl

end Cursor

/-! ### Tokens of a text -/

/-- A name is spelled as a name is, and a number as a number in range. -/
def Token.IsSpelled (t : Token) : Prop :=
  (t.kind = .name → isName t.value = true) ∧ (t.kind = .number → isNumber t.value = true)

theorem Token.isSpelled_of_kind {t : Token} (hname : t.kind ≠ .name) (hnumber : t.kind ≠ .number) :
    t.IsSpelled :=
  ⟨fun h => absurd h hname, fun h => absurd h hnumber⟩

theorem Token.isSpelled_endAt (line : Nat) : (Token.endAt line).IsSpelled :=
  isSpelled_of_kind (by simp [endAt]) (by simp [endAt])

/-- A number in range is read as the value of its digits. -/
theorem Text.Decimal.number?_of_isNumber {s : String} (h : isNumber s = true) :
    number? s = some (.ofNat (value s.toList)) := by
  simp only [isNumber, Bool.and_eq_true, decide_eq_true_eq] at h
  obtain ⟨⟨hne, hall⟩, hvalue⟩ := h
  have hdigits : ∀ c ∈ s.toList, c.isDigit = true := List.all_eq_true.1 hall
  have hnatural : natural? s.toList = some (value s.toList) := if_pos ⟨hne, hall⟩
  have hsigned : signed? s.toList = some (.ofNat (value s.toList)) := by
    unfold signed?
    split
    next heq => exact absurd (hdigits '+' (by simp [heq])) (by decide)
    next heq => exact absurd (hdigits '-' (by simp [heq])) (by decide)
    · rw [hnatural]
      rfl
  have hleast : least ≤ Int.ofNat (value s.toList) :=
    Int.le_trans (by decide) (Int.natCast_nonneg _)
  rw [number?, hsigned]
  exact if_pos (decide_eq_true ⟨hleast, hvalue⟩)

/-- A word is a name, or spelled like a keyword. -/
theorem isName_of_word {cs text rest : List Char}
    (h : LexicalClass.word.split? cs = some (text, rest))
    (hkind : TokenKind.ofWord (String.ofList text) = .name) :
    isName (String.ofList text) = true := by
  cases cs with
  | nil => cases h
  | cons c r =>
    by_cases hc : LexicalClass.startsWord c = true
    · simp only [LexicalClass.split?, hc, if_true, Option.some.injEq, Prod.mk.injEq] at h
      obtain ⟨rfl, -⟩ := h
      simp [isName, hc, hkind, -String.ofList_cons]
    · simp [LexicalClass.split?, hc] at h

/-- Digits of a value in range are a number. -/
theorem isNumber_of_digits {cs text rest : List Char}
    (h : LexicalClass.digits.split? cs = some (text, rest))
    (hvalue : Text.Decimal.value text ≤ Text.Decimal.greatest) :
    isNumber (String.ofList text) = true := by
  cases cs with
  | nil => cases h
  | cons c r =>
    by_cases hc : c.isDigit = true
    · simp only [LexicalClass.split?, LexicalClass.run?, hc, if_true, Option.some.injEq,
        Prod.mk.injEq] at h
      obtain ⟨rfl, -⟩ := h
      simp [isNumber, hc, hvalue]
    · simp [LexicalClass.split?, LexicalClass.run?, hc] at h

/-- The token that a lexeme amounts to is spelled as its kind is. -/
theorem Lexeme.isSpelled_of_effect {cs : List Char} {l : Lexeme} {kind : TokenKind}
    {value : String} {line : Nat} (hl : Lexeme.first? cs = some l)
    (h : l.effect = .token kind value) : Token.IsSpelled ⟨kind, value, line⟩ := by
  obtain ⟨k, text, rest⟩ := l
  have hs : k.split? cs = some (text, rest) := Lexeme.split?_of_first? hl
  cases k with
  | word =>
    cases h
    refine ⟨isName_of_word hs, fun hkind => ?_⟩
    simp only [TokenKind.ofWord] at hkind
    split at hkind <;> cases hkind
  | digits =>
    by_cases hvalue : Text.Decimal.value text ≤ Text.Decimal.greatest
    · simp only [effect, hvalue, if_true, Effect.token.injEq] at h
      obtain ⟨rfl, rfl⟩ := h
      exact ⟨by simp, fun _ => isNumber_of_digits hs hvalue⟩
    · simp only [effect, hvalue, if_false, Effect.token.injEq] at h
      obtain ⟨rfl, -⟩ := h
      exact Token.isSpelled_of_kind (by simp) (by simp)
  | quoted | symbol =>
    cases h
    exact Token.isSpelled_of_kind (by simp) (by simp)
  | blank | lineComment | blockComment | commentOpening | quoteOpening => cases h

/-- The next token of a text is spelled as its kind is. -/
theorem Cursor.isSpelled_next (c : Cursor) : c.next.1.IsSpelled := by
  fun_induction next c with
  | case1 c => exact Token.isSpelled_endAt c.line
  | case2 | case4 => exact Token.isSpelled_of_kind (by simp) (by simp)
  | case3 _ _ _ _ _ _ _ ih => exact ih
  | case5 _ _ _ _ _ hl _ _ h => exact Lexeme.isSpelled_of_effect hl h

/-- What is true of the next reading from every place on is true of all readings of a text. -/
theorem Cursor.forall_readings {P : Reading → Prop} (h : ∀ c : Cursor, P ⟨c.next.1, c.next.2.line⟩)
    (c : Cursor) : ∀ r ∈ c.readings, P r := by
  fun_induction readings c with
  | case1 c hlast => exact List.forall_mem_singleton.2 (h c)
  | case2 c hlast ih => exact List.forall_mem_cons.2 ⟨h c, ih⟩

/-- All tokens of a text are spelled as their kinds are. -/
theorem Cursor.isSpelled_of_mem (c : Cursor) {r : Reading} (h : r ∈ c.readings) :
    r.token.IsSpelled :=
  forall_readings (P := fun r => r.token.IsSpelled) isSpelled_next c r h

/-- A token can be part of a program, unless it is one of two marks. -/
theorem Token.checked_eq_ok_iff {file : String} {t t' : Token} :
    t.checked file = .ok t' ↔ t' = t ∧ t.kind ≠ .malformed ∧ t.kind ≠ .cutShort := by
  unfold checked
  split
  · next h => simp [h]
  · next h => simp [h]
  · next hmalformed hcut =>
    constructor
    · rintro ⟨⟩
      exact ⟨rfl, hmalformed, hcut⟩
    · rintro ⟨rfl, -⟩
      rfl

/-- A text has tokens when all that is read from it can be part of a program. -/
theorem tokenize_eq_ok_iff {text file : String} {ts : List Token} :
    tokenize text file = .ok ts ↔ ts = (Cursor.ofText text).readings.map Reading.token ∧
      ∀ t ∈ ts, t.kind ≠ .malformed ∧ t.kind ≠ .cutShort := by
  unfold tokenize
  generalize (Cursor.ofText text).readings = rs
  induction rs generalizing ts with
  | nil =>
    rw [List.mapM_nil]
    constructor
    · rintro ⟨⟩
      exact ⟨rfl, nofun⟩
    · rintro ⟨rfl, -⟩
      rfl
  | cons r rs ih =>
    rw [List.mapM_cons]
    constructor
    · intro h
      cases ht : r.token.checked file with
      | error e =>
        rw [ht] at h
        cases h
      | ok t =>
        cases hrs : rs.mapM (fun r => r.token.checked file) with
        | error e =>
          rw [ht, hrs] at h
          cases h
        | ok ts' =>
          rw [ht, hrs] at h
          cases h
          obtain ⟨rfl, hkind⟩ := Token.checked_eq_ok_iff.1 ht
          obtain ⟨rfl, hall⟩ := ih.1 hrs
          exact ⟨rfl, List.forall_mem_cons.2 ⟨hkind, hall⟩⟩
    · rintro ⟨rfl, hall⟩
      obtain ⟨hkind, hall⟩ := List.forall_mem_cons.1 hall
      rw [Token.checked_eq_ok_iff.2 ⟨rfl, hkind⟩, ih.2 ⟨rfl, hall⟩]
      rfl

end Scriptlet
