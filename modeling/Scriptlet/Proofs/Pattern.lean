import Scriptlet.Proofs.Word

/-!
# Classes of lexemes as patterns

Each class of lexemes is what a pattern matches: a run of blanks, a comment up to the first `*/`,
a quote and all up to the next quote that no backslash protects. A pattern may match in several
ways. They come in an order of preference, as they are found by trying one thing after another,
and the first is the match: repeating prefers more rounds to fewer, or fewer to more, and of two
alternatives the first is preferred.

## The model

`Pattern.ways` lists all ways in which a pattern matches at the front of a text, in order of
preference. A repetition has no more rounds than there are characters. That is enough as long as
no round is empty, and in the patterns here none is.

## What is proved

* `Pattern.splits_ways` — however a pattern matches, it takes the front of the text.
* `LexicalClass.first?_pattern` — what a class splits off is the first match of its pattern.
-/

namespace Scriptlet

/-- A pattern of texts. -/
inductive Pattern where
  /-- A fixed text. -/
  | text (t : List Char)
  /-- A character of a class. -/
  | oneOf (rs : Text.Ranges)
  /-- One pattern and then another. -/
  | seq (front back : Pattern)
  /-- One of two patterns, rather the first. -/
  | either (first second : Pattern)
  /-- Any number of rounds, rather more of them. -/
  | many (round : Pattern)
  /-- Any number of rounds, rather fewer of them. -/
  | few (round : Pattern)
  deriving DecidableEq

namespace Pattern

/-- A way to match: what is taken off the front of a text, and the rest. -/
abbrev Way := List Char × List Char

/-- The way behind what was taken before. -/
def Way.after (front : List Char) (w : Way) : Way := (front ++ w.1, w.2)

/-- The ways to go on from others. -/
def followed (ws : List Way) (next : List Char → List Way) : List Way :=
  ws.flatMap fun w => (next w.2).map (Way.after w.1)

/-- At most so many rounds, rather more of them. -/
def manyWithin (round : List Char → List Way) : Nat → List Char → List Way
  | 0, cs => [([], cs)]
  | n + 1, cs => followed (round cs) (manyWithin round n) ++ [([], cs)]

/-- At most so many rounds, rather fewer of them. -/
def fewWithin (round : List Char → List Way) : Nat → List Char → List Way
  | 0, cs => [([], cs)]
  | n + 1, cs => ([], cs) :: followed (round cs) (fewWithin round n)

/-- The ways in which the pattern matches at the front of a text, the preferred ones first. -/
def ways : Pattern → List Char → List Way
  | text t, cs => if t.isPrefixOf cs then [(t, cs.drop t.length)] else []
  | oneOf _, [] => []
  | oneOf rs, c :: r => if rs.covers c then [([c], r)] else []
  | seq a b, cs => followed (a.ways cs) b.ways
  | either a b, cs => a.ways cs ++ b.ways cs
  | many a, cs => manyWithin a.ways cs.length cs
  | few a, cs => fewWithin a.ways cs.length cs

/-- The match of the pattern at the front of a text. -/
def first? (p : Pattern) (cs : List Char) : Option Way := (p.ways cs).head?

/-- At least one round, rather more of them. -/
def more (round : Pattern) : Pattern := seq round (many round)

/-! ### Going on -/

@[simp] theorem Way.after_mk (front text rest : List Char) :
    Way.after front (text, rest) = (front ++ text, rest) := rfl

theorem Way.after_after (front front' : List Char) (w : Way) :
    Way.after front (Way.after front' w) = Way.after (front ++ front') w := by
  simp [Way.after]

@[simp] theorem followed_nil (next : List Char → List Way) : followed [] next = [] := rfl

@[simp] theorem followed_cons (w : Way) (ws : List Way) (next : List Char → List Way) :
    followed (w :: ws) next = (next w.2).map (Way.after w.1) ++ followed ws next := rfl

@[simp] theorem followed_append (ws ws' : List Way) (next : List Char → List Way) :
    followed (ws ++ ws') next = followed ws next ++ followed ws' next := List.flatMap_append

@[simp] theorem followed_map_after (front : List Char) (ws : List Way)
    (next : List Char → List Way) :
    followed (ws.map (Way.after front)) next = (followed ws next).map (Way.after front) := by
  simp only [followed, List.flatMap_map, List.map_flatMap, List.map_map, Function.comp_def,
    Way.after_after]
  rfl

theorem mem_followed {ws : List Way} {next : List Char → List Way} {w : Way} :
    w ∈ followed ws next ↔ ∃ u ∈ ws, ∃ v ∈ next u.2, v.after u.1 = w := by
  simp [followed]

/-- Each way takes the front of a text and leaves the rest. -/
def Splits (ws : List Way) (cs : List Char) : Prop := ∀ w ∈ ws, w.1 ++ w.2 = cs

namespace Splits

variable {ws ws' : List Way} {cs : List Char} {next : List Char → List Way}

theorem one {w : Way} (h : w.1 ++ w.2 = cs) : Splits [w] cs := List.forall_mem_singleton.2 h

theorem append (h : Splits ws cs) (h' : Splits ws' cs) : Splits (ws ++ ws') cs :=
  List.forall_mem_append.2 ⟨h, h'⟩

theorem followed (h : Splits ws cs) (hnext : ∀ cs, Splits (next cs) cs) :
    Splits (followed ws next) cs := by
  intro w hw
  obtain ⟨u, hu, v, hv, rfl⟩ := mem_followed.1 hw
  rw [← h u hu, ← hnext u.2 v hv]
  exact List.append_assoc _ _ _

theorem manyWithin (h : ∀ cs, Splits (next cs) cs) (n : Nat) (cs : List Char) :
    Splits (manyWithin next n cs) cs := by
  induction n generalizing cs with
  | zero => exact one rfl
  | succ n ih => exact ((h cs).followed ih).append (one rfl)

theorem fewWithin (h : ∀ cs, Splits (next cs) cs) (n : Nat) (cs : List Char) :
    Splits (fewWithin next n cs) cs := by
  induction n generalizing cs with
  | zero => exact one rfl
  | succ n ih => exact (one rfl).append ((h cs).followed ih)

end Splits

/-- However a pattern matches, it takes the front of the text. -/
theorem splits_ways (p : Pattern) (cs : List Char) : Splits (p.ways cs) cs := by
  induction p generalizing cs with
  | text t =>
    unfold ways
    split
    · next ht =>
      obtain ⟨r, rfl⟩ := List.isPrefixOf_iff_prefix.1 ht
      exact .one (by simp)
    · exact List.forall_mem_nil _
  | oneOf rs =>
    cases cs with
    | nil => exact List.forall_mem_nil _
    | cons c r =>
      unfold ways
      split
      · exact .one rfl
      · exact List.forall_mem_nil _
  | seq a b iha ihb => exact (iha cs).followed ihb
  | either a b iha ihb => exact (iha cs).append (ihb cs)
  | many a ih => exact .manyWithin ih _ cs
  | few a ih => exact .fewWithin ih _ cs

/-! ### First matches -/

theorem first?_text (t cs : List Char) : (text t).first? cs = LexicalClass.fixed? t cs := by
  unfold first? ways LexicalClass.fixed?
  split <;> rfl

/-- What follows a fixed text. -/
theorem first?_text_seq (t : List Char) (p : Pattern) (cs : List Char) :
    (seq (text t) p).first? (t ++ cs) = (p.first? cs).map (Way.after t) := by
  simp [first?, ways]

/-- Where there is another text there is no match. -/
theorem first?_text_seq_of_ne {t cs : List Char} (h : ¬ t <+: cs) (p : Pattern) :
    (seq (text t) p).first? cs = none := by
  simp [first?, ways, h]

theorem head?_manyWithin_oneOf (rs : Text.Ranges) {cs : List Char} {n : Nat} (h : cs.length ≤ n) :
    (manyWithin (oneOf rs).ways n cs).head? =
      some (cs.takeWhile rs.covers, cs.dropWhile rs.covers) := by
  induction cs generalizing n with
  | nil => cases n <;> rfl
  | cons c r ih =>
    cases n with
    | zero => cases h
    | succ n =>
      have hr := ih (Nat.le_of_succ_le_succ h)
      cases hc : rs.covers c with
      | false => simp [manyWithin, ways, hc]
      | true => simp [manyWithin, ways, hc, hr]

/-- A run of characters of a class, of any length. -/
theorem first?_many_oneOf (rs : Text.Ranges) (cs : List Char) :
    (many (oneOf rs)).first? cs = some (cs.takeWhile rs.covers, cs.dropWhile rs.covers) :=
  head?_manyWithin_oneOf rs (Nat.le_refl _)

/-- A character of a class and a run of characters of another. -/
theorem first?_oneOf_many (rs rs' : Text.Ranges) (c : Char) (r : List Char) :
    (seq (oneOf rs) (many (oneOf rs'))).first? (c :: r) =
      if rs.covers c then some (c :: r.takeWhile rs'.covers, r.dropWhile rs'.covers) else none := by
  have hr := first?_many_oneOf rs' r
  unfold first? at hr
  cases hc : rs.covers c with
  | false => simp [first?, ways, hc]
  | true => simp [first?, ways.eq_4, ways.eq_3, hc, hr]

/-- A run of characters of a class that is not empty. -/
theorem first?_more_oneOf (rs : Text.Ranges) (cs : List Char) :
    (more (oneOf rs)).first? cs = LexicalClass.run? rs.covers cs := by
  cases cs with
  | nil => rfl
  | cons c r => exact first?_oneOf_many rs rs c r

/-! ### Classes of characters -/

/-- All characters. -/
def anyChar : Text.Ranges := [(0, 0x10FFFF)]

/-- All characters but the line feed. -/
def inLine : Text.Ranges := [(0, 9), (11, 0x10FFFF)]

/-- All characters but the quote and the backslash. -/
def plain : Text.Ranges := [(0, 33), (35, 91), (93, 0x10FFFF)]

/-- Latin letters without accents, and the underscore. -/
def letters : Text.Ranges := [(65, 90), (95, 95), (97, 122)]

/-- Decimal digits. -/
def digits : Text.Ranges := [(48, 57)]

theorem toNat_le (c : Char) : c.toNat ≤ 0x10FFFF := by
  rcases c.valid with h | ⟨-, h⟩
  · exact Nat.le_of_lt (Nat.lt_trans h (by decide))
  · exact Nat.le_of_lt_succ h

theorem covers_anyChar (c : Char) : anyChar.covers c = true := by
  simp [anyChar, Text.Ranges.covers, toNat_le]

theorem covers_inLine : inLine.covers = fun c => decide (c ≠ '\n') := by
  funext c
  have hle := toNat_le c
  have hne : c ≠ '\n' ↔ c.toNat ≠ 10 := by rw [ne_eq, ← Char.toNat_inj]; rfl
  rw [Bool.eq_iff_iff]
  simp only [decide_eq_true_iff, hne, Text.Ranges.covers_eq_true_iff, inLine,
    List.mem_cons, List.not_mem_nil, or_false, exists_eq_or_imp, exists_eq_left]
  omega

theorem covers_plain (c : Char) : plain.covers c = true ↔ c ≠ '"' ∧ c ≠ '\\' := by
  have hle := toNat_le c
  have hquote : c ≠ '"' ↔ c.toNat ≠ 34 := by rw [ne_eq, ← Char.toNat_inj]; rfl
  have hback : c ≠ '\\' ↔ c.toNat ≠ 92 := by rw [ne_eq, ← Char.toNat_inj]; rfl
  simp only [hquote, hback, Text.Ranges.covers_eq_true_iff, plain, List.mem_cons,
    List.not_mem_nil, or_false, exists_eq_or_imp, exists_eq_left]
  omega

theorem covers_letters : letters.covers = LexicalClass.startsWord := by
  funext c
  rw [Bool.eq_iff_iff]
  simp only [LexicalClass.startsWord, Bool.or_eq_true, beq_iff_eq, isAlpha_iff,
    eq_underscore_iff, Text.Ranges.covers_eq_true_iff, letters, List.mem_cons, List.not_mem_nil,
    or_false, exists_eq_or_imp, exists_eq_left]
  omega

theorem covers_digits : digits.covers = Char.isDigit := by
  funext c
  rw [Bool.eq_iff_iff]
  simp only [isDigit_iff, Text.Ranges.covers_eq_true_iff, digits,
    List.mem_singleton, exists_eq_left]

theorem covers_digits_letters : (digits ++ letters).covers = LexicalClass.continuesWord := by
  funext c
  have hletters := congrFun covers_letters c
  have hdigits := congrFun covers_digits c
  unfold Text.Ranges.covers at hletters hdigits ⊢
  rw [List.any_append, hletters, hdigits, LexicalClass.continuesWord, Bool.or_comm]

/-! ### Comments and texts -/

/-- The bound on rounds is left open for the induction on the text: each round takes one character
and is one round less. -/
theorem head?_closeComment {cs : List Char} {n : Nat} (h : cs.length ≤ n) :
    (followed (fewWithin (oneOf anyChar).ways n cs) (text ['*', '/']).ways).head? =
      LexicalClass.closeComment? cs := by
  fun_induction LexicalClass.closeComment? cs generalizing n with
  | case1 r => cases n <;> simp [fewWithin, ways]
  | case2 c r hne ih =>
    cases n with
    | zero => cases h
    | succ n =>
      have hstart : ¬ ['*', '/'] <+: c :: r := by
        rintro ⟨u, hu⟩
        obtain ⟨rfl, rfl⟩ := List.cons.inj hu
        exact hne u rfl rfl
      rw [← ih (Nat.le_of_succ_le_succ h)]
      simp [fewWithin, ways, hstart, covers_anyChar]
      rfl
  | case3 => cases n <;> simp [fewWithin, ways]

/-- What stands before the first `*/`, and that. -/
theorem first?_closeComment (cs : List Char) :
    (seq (few (oneOf anyChar)) (text ['*', '/'])).first? cs = LexicalClass.closeComment? cs :=
  head?_closeComment (Nat.le_refl _)

/-- A character between quotes, or two if the first is a backslash. -/
def quotable : Pattern := either (oneOf plain) (seq (text ['\\']) (oneOf anyChar))

/-- At a quote no round goes on. At any other place at most one does, so there is nothing to go
back to. -/
theorem ways_quotable_quote (r : List Char) : quotable.ways ('"' :: r) = [] := by
  have hplain : plain.covers '"' = false := by decide
  simp [quotable, ways, hplain]

theorem ways_quotable_escape (c : Char) (r : List Char) :
    quotable.ways ('\\' :: c :: r) = [(['\\', c], r)] := by
  have hplain : plain.covers '\\' = false := by decide
  simp [quotable, ways, hplain, covers_anyChar]

theorem ways_quotable {c : Char} {r : List Char} (hquote : c ≠ '"') (hback : c ≠ '\\') :
    quotable.ways (c :: r) = [([c], r)] := by
  have hplain : plain.covers c = true := (covers_plain c).2 ⟨hquote, hback⟩
  simp [quotable, ways, hplain, hback.symm]

theorem head?_closeQuote {cs : List Char} {n : Nat} (h : cs.length ≤ n) :
    (followed (manyWithin quotable.ways n cs) (text ['"']).ways).head? =
      Text.Quoted.close? cs := by
  fun_induction Text.Quoted.close? cs generalizing n with
  | case1 r => cases n <;> simp [manyWithin, ways_quotable_quote, ways]
  | case2 c r ih =>
    cases n with
    | zero => cases h
    | succ n =>
      have hr : r.length ≤ n := Nat.le_of_succ_le (Nat.le_of_succ_le_succ h)
      rw [← ih hr]
      simp [manyWithin, ways_quotable_escape, ways]
      rfl
  | case3 c r hquote hback ih =>
    cases n with
    | zero => cases h
    | succ n =>
      rw [← ih (Nat.le_of_succ_le_succ h)]
      by_cases hc : c = '\\'
      · -- A last backslash protects nothing and stands for nothing.
        cases r with
        | nil =>
          subst hc
          cases n <;> rfl
        | cons d r => exact (hback d r hc rfl).elim
      · simp [manyWithin, ways_quotable (fun h => hquote h) hc, ways, Ne.symm hquote]
        rfl
  | case4 => cases n <;> rfl

/-- What stands before the first quote that no backslash protects, and that. -/
theorem first?_closeQuote (cs : List Char) :
    (seq (many quotable) (text ['"'])).first? cs = Text.Quoted.close? cs :=
  head?_closeQuote (Nat.le_refl _)

end Pattern

namespace LexicalClass

open Pattern

/-- The pattern of a class. -/
def pattern : LexicalClass → Pattern
  | blank => .more (.oneOf Text.blankRanges)
  | lineComment => .seq (.text ['/', '/']) (.many (.oneOf inLine))
  | blockComment => .seq (.text ['/', '*']) (.seq (.few (.oneOf anyChar)) (.text ['*', '/']))
  | commentOpening => .text ['/', '*']
  | word => .seq (.oneOf letters) (.many (.oneOf (Pattern.digits ++ letters)))
  | digits => .more (.oneOf Pattern.digits)
  | quoted => .seq (.text ['"']) (.seq (.many quotable) (.text ['"']))
  | quoteOpening => .text ['"']
  | symbol s => .text s.spelling.toList

/-- A class whose pattern begins with a fixed text and goes on as the class does. -/
theorem first?_pattern_of_opening {k : LexicalClass} {t : List Char} {p : Pattern}
    (hk : k.pattern = .seq (.text t) p)
    (hopen : ∀ r, k.split? (t ++ r) = (p.first? r).map (Way.after t))
    (hother : ∀ cs, ¬ t <+: cs → k.split? cs = none) (cs : List Char) :
    k.pattern.first? cs = k.split? cs := by
  rw [hk]
  by_cases h : t <+: cs
  · obtain ⟨r, rfl⟩ := h
    rw [first?_text_seq, hopen]
  · rw [first?_text_seq_of_ne h, hother cs h]

/-- What a class splits off is the first match of its pattern. -/
theorem first?_pattern (k : LexicalClass) (cs : List Char) :
    k.pattern.first? cs = k.split? cs := by
  cases k with
  | blank => exact first?_more_oneOf _ cs
  | lineComment =>
    refine first?_pattern_of_opening rfl (fun r => ?_) (fun cs h => ?_) cs
    · rw [first?_many_oneOf, covers_inLine]
      rfl
    · unfold split?
      split
      all_goals simp_all
  | blockComment =>
    refine first?_pattern_of_opening rfl (fun r => ?_) (fun cs h => ?_) cs
    · rw [first?_closeComment]
      rfl
    · unfold split?
      split
      all_goals simp_all
  | commentOpening => exact first?_text _ cs
  | word =>
    cases cs with
    | nil => rfl
    | cons c r =>
      refine (first?_oneOf_many _ _ c r).trans ?_
      rw [covers_letters, covers_digits_letters]
      rfl
  | digits =>
    refine (first?_more_oneOf _ cs).trans ?_
    rw [covers_digits]
    rfl
  | quoted =>
    refine first?_pattern_of_opening rfl (fun r => ?_) (fun cs h => ?_) cs
    · rw [first?_closeQuote]
      rfl
    · unfold split?
      split
      all_goals simp_all
  | quoteOpening => exact first?_text _ cs
  | symbol s => exact first?_text _ cs

end LexicalClass

end Scriptlet
