import Scriptlet.Proofs.Pattern
import Scriptlet.Proofs.Tape

/-!
# The first match is the longest

The classes of lexemes are tried in order, and the first that matches wins. Still no other class
would have taken more, or as much: a class stands before every other that may match at the same
place and take less.

## The model

Of a pattern three things are computed: the classes of the first characters of all its matches,
whether these characters are the whole match, and how many characters a match has at least. They
are enough to compare any two classes. Either there is a place at which both ask for characters,
and for different ones, so that they never match together, or the later class is a fixed text and
shorter than any match of the earlier one.

## What is proved

* `Pattern.length_lt_of_precedes` — the comparison is right.
* `LexicalClass.table_precedes` — the table is in order.
* `Lexeme.first?_longest` — so the first match is longer than any other.
* `Cursor.next_longest` — what this means for words and numbers.
-/

namespace Scriptlet

/-- No character is in both classes. -/
def Text.Ranges.disjoint (rs ss : Text.Ranges) : Bool :=
  rs.all fun r => ss.all fun s => r.2 < s.1 || s.2 < r.1

theorem Text.Ranges.not_covers_of_disjoint {rs ss : Text.Ranges} (h : rs.disjoint ss = true)
    {c : Char} (hc : rs.covers c = true) : ss.covers c = false := by
  rw [Bool.eq_false_iff]
  intro hc'
  obtain ⟨r, hr, hrlo, hrhi⟩ := covers_eq_true_iff.1 hc
  obtain ⟨s, hs, hslo, hshi⟩ := covers_eq_true_iff.1 hc'
  have hrs := List.all_eq_true.1 (List.all_eq_true.1 h r hr) s hs
  simp only [Bool.or_eq_true, decide_eq_true_eq] at hrs
  omega

namespace Pattern

/-! ### Beginnings of texts -/

/-- The text begins with characters of these classes, one of each. -/
def begins : List Text.Ranges → List Char → Bool
  | [], _ => true
  | _ :: _, [] => false
  | rs :: front, c :: r => rs.covers c && begins front r

theorem begins_append {front : List Text.Ranges} {x : List Char} (h : begins front x = true)
    (y : List Char) : begins front (x ++ y) = true := by
  fun_induction begins front x with
  | case1 => rfl
  | case2 => cases h
  | case3 rs front c r ih =>
    simp only [Bool.and_eq_true] at h
    simp [begins, h.1, ih h.2]

theorem begins_append_append {front front' : List Text.Ranges} {x y : List Char}
    (h : begins front x = true) (hx : x.length = front.length) (h' : begins front' y = true) :
    begins (front ++ front') (x ++ y) = true := by
  fun_induction begins front x with
  | case1 x =>
    obtain rfl := List.length_eq_zero_iff.1 hx
    exact h'
  | case2 => cases h
  | case3 rs front c r ih =>
    simp only [Bool.and_eq_true] at h
    simp [begins, h.1, ih h.2 (Nat.succ.inj hx)]

/-- At some place the two ask for different characters. -/
def clash : List Text.Ranges → List Text.Ranges → Bool
  | rs :: front, ss :: front' => rs.disjoint ss || clash front front'
  | _, _ => false

theorem not_begins_of_clash {front front' : List Text.Ranges} (h : clash front front' = true)
    {cs : List Char} (hcs : begins front cs = true) : begins front' cs = false := by
  fun_induction clash front front' generalizing cs with
  | case1 rs front ss front' ih =>
    cases cs with
    | nil => cases hcs
    | cons c r =>
      simp only [begins, Bool.and_eq_true] at hcs
      rcases Bool.or_eq_true_iff.1 h with h | h
      · simp [begins, Text.Ranges.not_covers_of_disjoint h hcs.1]
      · simp [begins, ih h hcs.2]
  | case2 => cases h

/-! ### What is known of all matches -/

/-- Every match of the pattern is as long as its front. -/
def isExact : Pattern → Bool
  | text _ | oneOf _ => true
  | seq a b => a.isExact && b.isExact
  | either _ _ | many _ | few _ => false

/-- The classes of the first characters of all matches, as far as each is one class. -/
def front : Pattern → List Text.Ranges
  | text t => t.map fun c => [(c.toNat, c.toNat)]
  | oneOf rs => [rs]
  | seq a b => if a.isExact then a.front ++ b.front else a.front
  | either _ _ | many _ | few _ => []

/-- How many characters a match has at least. -/
def least : Pattern → Nat
  | text t => t.length
  | oneOf _ => 1
  | seq a b => a.least + b.least
  | either a b => min a.least b.least
  | many _ | few _ => 0

/-- What is known of a match of the pattern. -/
structure Fits (p : Pattern) (taken : List Char) : Prop where
  front : begins p.front taken = true
  least : p.least ≤ taken.length
  exact : p.isExact = true → taken.length = p.front.length

theorem begins_text (t : List Char) : begins (text t).front t = true := by
  induction t with
  | nil => rfl
  | cons c t ih =>
    have hc : Text.Ranges.covers [(c.toNat, c.toNat)] c = true := by simp [Text.Ranges.covers]
    exact Bool.and_eq_true_iff.2 ⟨hc, ih⟩

theorem Fits.seq {a b : Pattern} {x y : List Char} (ha : a.Fits x) (hb : b.Fits y) :
    (Pattern.seq a b).Fits (x ++ y) where
  front := by
    unfold Pattern.front
    split
    · next hexact => exact begins_append_append ha.front (ha.exact hexact) hb.front
    · exact begins_append ha.front y
  least := by
    rw [List.length_append]
    exact Nat.add_le_add ha.least hb.least
  exact h := by
    obtain ⟨hexact, hexact'⟩ := Bool.and_eq_true_iff.1 h
    rw [List.length_append, ha.exact hexact, hb.exact hexact', Pattern.front, if_pos hexact,
      List.length_append]

/-- Every way to match is as is known of the pattern. -/
theorem fits_of_mem_ways {p : Pattern} {cs : List Char} {w : Way} (h : w ∈ p.ways cs) :
    p.Fits w.1 := by
  induction p generalizing cs w with
  | text t =>
    unfold ways at h
    split at h
    · obtain rfl := List.mem_singleton.1 h
      exact ⟨begins_text t, Nat.le_refl _, fun _ => by simp [Pattern.front]⟩
    · cases h
  | oneOf rs =>
    cases cs with
    | nil => cases h
    | cons c r =>
      unfold ways at h
      split at h
      · next hc =>
        obtain rfl := List.mem_singleton.1 h
        exact ⟨by simp [Pattern.front, begins, hc], Nat.le_refl _, fun _ => rfl⟩
      · cases h
  | seq a b iha ihb =>
    obtain ⟨u, hu, v, hv, rfl⟩ := mem_followed.1 h
    exact (iha hu).seq (ihb hv)
  | either a b iha ihb =>
    refine ⟨rfl, ?_, fun hexact => absurd hexact Bool.false_ne_true⟩
    rcases List.mem_append.1 h with h | h
    · exact Nat.le_trans (Nat.min_le_left _ _) (iha h).least
    · exact Nat.le_trans (Nat.min_le_right _ _) (ihb h).least
  | many a | few a => exact ⟨rfl, Nat.zero_le _, fun hexact => absurd hexact Bool.false_ne_true⟩

/-- The second pattern takes less than the first, wherever both match. -/
def precedes (p q : Pattern) : Bool :=
  clash p.front q.front || (q.isExact && decide (q.front.length < p.least))

/-- The comparison of patterns is right. -/
theorem length_lt_of_precedes {p q : Pattern} (h : p.precedes q = true) {cs : List Char}
    {w w' : Way} (hw : p.first? cs = some w) (hw' : q.first? cs = some w') :
    w'.1.length < w.1.length := by
  have hmem := List.mem_of_mem_head? hw
  have hmem' := List.mem_of_mem_head? hw'
  have hp := fits_of_mem_ways hmem
  have hq := fits_of_mem_ways hmem'
  rcases Bool.or_eq_true_iff.1 h with h | h
  · have hfront := begins_append hp.front w.2
    have hfront' := begins_append hq.front w'.2
    rw [splits_ways p cs w hmem] at hfront
    rw [splits_ways q cs w' hmem', not_begins_of_clash h hfront] at hfront'
    cases hfront'
  · simp only [Bool.and_eq_true, decide_eq_true_eq] at h
    rw [hq.exact h.1]
    exact Nat.lt_of_lt_of_le h.2 hp.least

end Pattern

/-- The table of classes is in order. This is checked for each of its pairs. -/
theorem LexicalClass.table_precedes :
    LexicalClass.table.Pairwise fun k k' => k.pattern.precedes k'.pattern = true := by
  decide +kernel

theorem LexicalClass.mem_table (k : LexicalClass) : k ∈ LexicalClass.table := by
  cases k with
  | symbol s => simp [table, Symbol.mem_all]
  | _ => simp [table]

/-- The first lexeme is that of a class behind those that do not match. -/
theorem Lexeme.first?_eq_some_iff {cs : List Char} {l : Lexeme} :
    Lexeme.first? cs = some l ↔ ∃ before after, LexicalClass.table = before ++ l.kind :: after ∧
      l.kind.pattern.first? cs = some (l.text, l.rest) ∧
      ∀ k ∈ before, k.pattern.first? cs = none := by
  simp only [LexicalClass.first?_pattern]
  constructor
  · intro h
    obtain ⟨before, k, after, htable, hk, hbefore⟩ := List.findSome?_eq_some_iff.1 h
    obtain ⟨⟨text, rest⟩, hsplit, rfl⟩ := Option.map_eq_some_iff.1 hk
    exact ⟨before, after, htable, hsplit, fun k' hk' => Option.map_eq_none_iff.1 (hbefore k' hk')⟩
  · rintro ⟨before, after, htable, hsplit, hbefore⟩
    exact first?_of_split? before htable hsplit hbefore

/-- Where something matches there is a first match. It is that of the first pattern of the table
that matches, and whatever else matches takes less. -/
theorem Lexeme.first?_longest {cs : List Char} {k : LexicalClass} {w : Pattern.Way}
    (hk : k.pattern.first? cs = some w) :
    ∃ l, Lexeme.first? cs = some l ∧
      LexicalClass.table.find? (fun k => (k.pattern.first? cs).isSome) = some l.kind ∧
      l.kind.pattern.first? cs = some (l.text, l.rest) ∧
      ∀ k' ≠ l.kind, ∀ w', k'.pattern.first? cs = some w' →
        w'.1 <+: l.text ∧ w'.1.length < l.text.length := by
  obtain ⟨l, hl⟩ : ∃ l, Lexeme.first? cs = some l := by
    refine Option.ne_none_iff_exists'.1 fun hnone => ?_
    have hsplit := List.findSome?_eq_none_iff.1 hnone k k.mem_table
    rw [Option.map_eq_none_iff, ← k.first?_pattern, hk] at hsplit
    cases hsplit
  obtain ⟨before, after, htable, hmatch, hbefore⟩ := first?_eq_some_iff.1 hl
  refine ⟨l, hl, ?_, hmatch, fun k' hne w' hw' => ?_⟩
  · refine List.find?_eq_some_iff_append.2 ⟨by simp [hmatch], before, after, htable, ?_⟩
    intro k' hk'
    simp [hbefore k' hk']
  · -- What matches and is not the first stands behind it, and there the table decides.
    have hafter : k' ∈ after := by
      have hmem := k'.mem_table
      rw [htable, List.mem_append, List.mem_cons] at hmem
      rcases hmem with hmem | hmem | hmem
      · rw [hbefore k' hmem] at hw'
        cases hw'
      · exact absurd hmem hne
      · exact hmem
    have hpairs := LexicalClass.table_precedes
    rw [htable, List.pairwise_append, List.pairwise_cons] at hpairs
    have hlt := Pattern.length_lt_of_precedes (hpairs.2.1.1 k' hafter) hmatch hw'
    have hfront : w'.1 <+: cs := ⟨w'.2, Pattern.splits_ways _ cs w' (List.mem_of_mem_head? hw')⟩
    have hfront' : l.text <+: cs := ⟨l.rest, first?_append hl⟩
    exact ⟨List.prefix_of_prefix_length_le hfront hfront' (Nat.le_of_lt hlt), hlt⟩

/-! ### Words and numbers -/

/-- The longest text with a property that another text begins with. -/
structure IsLongest (P : List Char → Prop) (cs w : List Char) : Prop where
  begins : w <+: cs
  holds : P w
  longest : ∀ v, v <+: cs → P v → v.length ≤ w.length

/-- Behind the longest text stands nothing that could be added to it. -/
theorem IsLongest.exists_rest {P : List Char → Prop} {cs w : List Char} (h : IsLongest P cs w)
    {p : Char → Bool} (hp : ∀ c, p c = true → P (w ++ [c])) :
    ∃ rest, cs = w ++ rest ∧ ∀ c ∈ rest.head?, p c = false := by
  obtain ⟨rest, rfl⟩ := h.begins
  refine ⟨rest, rfl, fun c hc => Bool.eq_false_iff.2 fun hpc => ?_⟩
  obtain ⟨r, rfl⟩ := List.head?_eq_some_iff.1 hc
  have hlonger := h.longest (w ++ [c]) (by simp) (hp c hpc)
  rw [List.length_append] at hlonger
  exact Nat.not_succ_le_self _ hlonger

/-- A text is the longest if what stands behind it cannot be part of such a text. -/
theorem IsLongest.of_stop {P : List Char → Prop} {p : Char → Bool} {w rest : List Char} (hw : P w)
    (hp : ∀ v, P v → v.all p = true) (hstop : ∀ c ∈ rest.head?, p c = false) :
    IsLongest P (w ++ rest) w where
  begins := List.prefix_append w rest
  holds := hw
  longest v hv hPv := by
    refine Nat.le_of_not_lt fun hlt => ?_
    obtain ⟨u, rfl⟩ := List.prefix_of_prefix_length_le (List.prefix_append w rest) hv
      (Nat.le_of_lt hlt)
    rw [List.prefix_append_right_inj] at hv
    cases u with
    | nil => simp at hlt
    | cons c u =>
      obtain ⟨r, rfl⟩ := hv
      have hall := hp _ hPv
      simp [hstop c rfl] at hall

/-- A letter or underscore, and then letters, underscores and digits. -/
def IsIdentifier : List Char → Prop
  | [] => False
  | c :: r => LexicalClass.startsWord c = true ∧ r.all LexicalClass.continuesWord = true

instance : (cs : List Char) → Decidable (IsIdentifier cs)
  | [] => .isFalse id
  | _ :: _ => inferInstanceAs (Decidable (_ ∧ _))

/-- Digits, at least one. -/
def IsDigits (cs : List Char) : Prop := cs ≠ [] ∧ cs.all Char.isDigit = true

instance (cs : List Char) : Decidable (IsDigits cs) := inferInstanceAs (Decidable (_ ∧ _))

theorem IsIdentifier.append {w : List Char} (h : IsIdentifier w) {c : Char}
    (hc : LexicalClass.continuesWord c = true) : IsIdentifier (w ++ [c]) := by
  cases w with
  | nil => exact h.elim
  | cons d r => exact ⟨h.1, by simp [hc, h.2]⟩

theorem IsIdentifier.all {w : List Char} (h : IsIdentifier w) :
    w.all LexicalClass.continuesWord = true := by
  cases w with
  | nil => rfl
  | cons c r =>
    have hc : LexicalClass.continuesWord c = true := by simp [LexicalClass.continuesWord, h.1]
    exact Bool.and_eq_true_iff.2 ⟨hc, h.2⟩

theorem IsDigits.append {w : List Char} (h : IsDigits w) {c : Char} (hc : c.isDigit = true) :
    IsDigits (w ++ [c]) :=
  ⟨by simp, by simp [hc, h.2]⟩

/-- A word is a keyword if that is how the keyword is spelled. -/
theorem TokenKind.ofWord_eq_keyword_iff {word : String} {k : Keyword} :
    TokenKind.ofWord word = .keyword k ↔ k.spelling = word := by
  constructor
  · intro h
    unfold TokenKind.ofWord at h
    split at h
    · next k' hk' =>
      cases h
      simpa using List.find?_some hk'
    · cases h
  · rintro rfl
    exact k.spelling_word.choose_spec.choose_spec.2.2.2

/-- A word is a name if no keyword is spelled like it. -/
theorem TokenKind.ofWord_eq_name_iff {word : String} :
    TokenKind.ofWord word = .name ↔ ∀ k : Keyword, k.spelling ≠ word := by
  constructor
  · rintro h k hk
    rw [ofWord_eq_keyword_iff.2 hk] at h
    cases h
  · intro h
    unfold TokenKind.ofWord
    split
    · next k hk => exact absurd (by simpa using List.find?_some hk) (h k)
    · rfl

namespace Cursor

/-- A word is read as a whole. -/
theorem next_identifier {cs w : List Char} (h : IsLongest IsIdentifier cs w) (line : Nat) :
    (next ⟨cs, line⟩).1 = ⟨.ofWord (.ofList w), .ofList w, line⟩ := by
  obtain ⟨rest, rfl, hstop⟩ := h.exists_rest fun c hc => h.holds.append hc
  cases w with
  | nil => exact h.holds.elim
  | cons c r =>
    have hfirst := first?_word h.holds.1 h.holds.2 hstop
    exact congrArg Prod.fst (next_of_first? hfirst rfl)

/-- Digits are read as a whole. They are a number if their value is in range. -/
theorem next_digits {cs w : List Char} (h : IsLongest IsDigits cs w) (line : Nat) :
    (next ⟨cs, line⟩).1 =
      ⟨if Text.Decimal.value w ≤ 2147483647 then .number else .malformed, .ofList w, line⟩ := by
  obtain ⟨rest, rfl, hstop⟩ := h.exists_rest fun c hc => h.holds.append hc
  have hfirst := first?_digits h.holds.1 h.holds.2 hstop
  by_cases hvalue : Text.Decimal.value w ≤ 2147483647
  · have hrange : (Text.Decimal.value w : Int) ≤ Text.Decimal.greatest :=
      Int.ofNat_le.2 hvalue
    rw [if_pos hvalue]
    exact congrArg Prod.fst (next_of_first? hfirst (by simp [Lexeme.effect, hrange]))
  · have hrange : ¬ (Text.Decimal.value w : Int) ≤ Text.Decimal.greatest :=
      fun h => hvalue (Int.ofNat_le.1 h)
    rw [if_neg hvalue]
    exact congrArg Prod.fst (next_of_first? hfirst (by simp [Lexeme.effect, hrange]))

end Cursor

/-- A number in hand is read as a constant of its value. -/
theorem Grammar.constant_number {σ ν : Type} {w : List Char} (hw : IsDigits w)
    (hvalue : Text.Decimal.value w ≤ 2147483647) {p : Parser σ} {line : Nat}
    (hp : p.lookahead = ⟨.number, .ofList w, line⟩) :
    (Grammar.constant (ν := ν) p).1 = .ok (.const (.number (Text.Decimal.value w)) line) := by
  have hnumber : isNumber (.ofList w) = true := by
    have hrange : (Text.Decimal.value w : Int) ≤ Text.Decimal.greatest := Int.ofNat_le.2 hvalue
    simpa [isNumber, hw.1, hrange] using List.all_eq_true.1 hw.2
  have hliteral : Literal.ofToken p.lookahead = .ok (.number (Text.Decimal.value w)) := by
    simp [Literal.ofToken, hp, Text.Decimal.number?_of_isNumber hnumber]
  have hadvance : Rule.advance p = (.ok p.lookahead, (Rule.advance p).2) := rfl
  rw [Grammar.constant, Rule.bind_apply_ok hadvance, hliteral, hp]
  rfl

/-- Trying one class after another finds the longest match, at whatever text. If a pattern
matches, then the lexeme is what the first one of the table that matches takes, and it is longer
than what any other takes. A word is a keyword just if the whole of the longest word is spelled
like it. Digits are a number just if the longest run of them has a value in range, and that is the
value of the constant that is read. -/
theorem Cursor.next_longest {σ ν : Type} (cs : List Char) (line : Nat) :
    (∀ (k : LexicalClass) (w : Pattern.Way), k.pattern.first? cs = some w →
      ∃ l, Lexeme.first? cs = some l ∧
        LexicalClass.table.find? (fun k => (k.pattern.first? cs).isSome) = some l.kind ∧
        l.kind.pattern.first? cs = some (l.text, l.rest) ∧
        ∀ k' ≠ l.kind, ∀ w', k'.pattern.first? cs = some w' →
          w'.1 <+: l.text ∧ w'.1.length < l.text.length) ∧
    (∀ w, IsLongest IsIdentifier cs w → (next ⟨cs, line⟩).1.value = .ofList w ∧
      (∀ k, (next ⟨cs, line⟩).1.kind = .keyword k ↔ k.spelling = .ofList w) ∧
      ((next ⟨cs, line⟩).1.kind = .name ↔ ∀ k : Keyword, k.spelling ≠ .ofList w)) ∧
    (∀ w, IsLongest IsDigits cs w → (next ⟨cs, line⟩).1.value = .ofList w ∧
      ((next ⟨cs, line⟩).1.kind = .number ↔ Text.Decimal.value w ≤ 2147483647) ∧
      ((next ⟨cs, line⟩).1.kind = .number → ∀ p : Parser σ, p.lookahead = (next ⟨cs, line⟩).1 →
        (Grammar.constant (ν := ν) p).1 =
          .ok (.const (.number (Text.Decimal.value w)) line))) := by
  refine ⟨fun k w hk => Lexeme.first?_longest hk, fun w h => ?_, fun w h => ?_⟩
  · rw [next_identifier h line]
    exact ⟨rfl, fun k => TokenKind.ofWord_eq_keyword_iff, TokenKind.ofWord_eq_name_iff⟩
  · rw [next_digits h line]
    by_cases hvalue : Text.Decimal.value w ≤ 2147483647
    · simp only [if_pos hvalue]
      exact ⟨trivial, iff_of_true trivial hvalue, fun _ p hp =>
        Grammar.constant_number h.holds hvalue hp⟩
    · simp only [if_neg hvalue]
      exact ⟨trivial, iff_of_false nofun hvalue, nofun⟩

/-- A name that begins like a keyword, and the greatest number there is. -/
theorem Cursor.next_longest_iffy :
    (next ⟨"iffy(".toList, 1⟩).1.kind = .name ∧
      (next ⟨"2147483647;".toList, 1⟩).1.kind = .number := by
  have hword : IsLongest IsIdentifier ("iffy".toList ++ ['(']) "iffy".toList :=
    .of_stop (by decide +kernel) (fun _ => IsIdentifier.all) (by rintro _ ⟨⟩; rfl)
  have hdigits : IsLongest IsDigits ("2147483647".toList ++ [';']) "2147483647".toList :=
    .of_stop (by decide +kernel) (fun _ => And.right) (by rintro _ ⟨⟩; rfl)
  obtain ⟨-, hname, -⟩ := next_longest (σ := Unit) (ν := Unit) "iffy(".toList 1
  obtain ⟨-, -, hnumber⟩ := next_longest (σ := Unit) (ν := Unit) "2147483647;".toList 1
  refine ⟨(hname _ hword).2.2.2 fun k => ?_, (hnumber _ hdigits).2.1.2 (by decide +kernel)⟩
  cases k <;> decide

end Scriptlet
