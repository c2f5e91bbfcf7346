import Mathlib.Algebra.Group.Nat.Even
import Mathlib.Data.Nat.Find
import Scriptlet.Proofs.Partition
import Scriptlet.Tree.Printer

/-!
# Where a quoted text ends

A quoted text ends at the first quote that no backslash protects. Said of a single quote, that
is a matter of counting: a quote closes the text if the backslashes right before it are even in
number, since two of them in a row are one that is written out and protects nothing. A text in
which no quote closes is cut short. What is written for a text ends at its own last quote,
whatever is put behind it, and means that text.

## What is proved

* `Text.Quoted.close?_eq_some_iff` — a quoted text is closed by the first quote that an even
  number of backslashes stands before.
* `Scanner.next_quote` — so it is read from wherever a scanner stands before a quote, and what
  is written for a text is read as that text.
-/

namespace Scriptlet

namespace Text.Quoted

/-! ### Counting backslashes -/

/-- How many backslashes stand in a row right before a place. -/
def backslashes (cs : List Char) (n : Nat) : Nat :=
  ((cs.take n).reverse.takeWhile (· = '\\')).length

/-- At this place behind the opening quote is a quote that closes the text. -/
def ClosesAt (cs : List Char) (n : Nat) : Prop := cs[n]? = some '"' ∧ Even (backslashes cs n)

/-- This is the first place at which the text is closed. -/
def ClosesFirstAt (cs : List Char) (n : Nat) : Prop := ClosesAt cs n ∧ ∀ m < n, ¬ ClosesAt cs m

/-- What is put in front counts only if all behind it is counted. -/
theorem backslashes_append (front cs : List Char) (n : Nat) :
    backslashes (front ++ cs) (front.length + n) =
      backslashes cs n + if backslashes cs n = (cs.take n).length then
        (front.reverse.takeWhile (· = '\\')).length else 0 := by
  unfold backslashes
  rw [List.take_length_add_append, List.reverse_append, List.takeWhile_append, List.length_reverse]
  split
  next h => rw [List.length_append, List.length_reverse, h]
  next => rfl

/-- A character that is no backslash ends the count. -/
theorem closesAt_cons {c : Char} (hc : c ≠ '\\') (cs : List Char) (n : Nat) :
    ClosesAt (c :: cs) (n + 1) ↔ ClosesAt cs n := by
  have hcount := backslashes_append [c] cs n
  rw [show [c].length + n = n + 1 by simp [Nat.add_comm]] at hcount
  simp only [ClosesAt, List.getElem?_cons_succ]
  rw [show c :: cs = [c] ++ cs from rfl, hcount]
  simp [hc]

/-- A backslash and the character behind it do not change whether the count is even. -/
theorem closesAt_escape (c : Char) (cs : List Char) (n : Nat) :
    ClosesAt ('\\' :: c :: cs) (n + 2) ↔ ClosesAt cs n := by
  have hcount := backslashes_append ['\\', c] cs n
  rw [show ['\\', c].length + n = n + 2 by simp [Nat.add_comm]] at hcount
  simp only [ClosesAt, List.getElem?_cons_succ]
  rw [show '\\' :: c :: cs = ['\\', c] ++ cs from rfl, hcount]
  by_cases hc : c = '\\'
  · split
    · simp [hc, Nat.even_add, (by decide : Even 2)]
    · simp
  · simp [hc]

/-- A first quote closes the text at once. -/
theorem closesFirstAt_zero (cs : List Char) : ClosesFirstAt ('"' :: cs) 0 :=
  ⟨⟨rfl, Even.zero⟩, nofun⟩

theorem closesAt_zero_iff {c : Char} {cs : List Char} : ClosesAt (c :: cs) 0 ↔ c = '"' := by
  simp [ClosesAt, backslashes]

/-- The character behind a backslash does not close the text. -/
theorem not_closesAt_one (c : Char) (cs : List Char) : ¬ ClosesAt ('\\' :: c :: cs) 1 := by
  simp [ClosesAt, backslashes]

/-! ### The closing quote -/

theorem closesFirstAt_cons {c : Char} (hc : c ≠ '\\') (hq : c ≠ '"') (cs : List Char) (n : Nat) :
    ClosesFirstAt (c :: cs) (n + 1) ↔ ClosesFirstAt cs n := by
  unfold ClosesFirstAt
  rw [closesAt_cons hc]
  refine and_congr_right fun _ => ⟨fun h m hm => ?_, fun h m hm => ?_⟩
  · rw [← closesAt_cons hc]
    exact h (m + 1) (Nat.succ_lt_succ hm)
  · cases m with
    | zero => rwa [closesAt_zero_iff]
    | succ m =>
      rw [closesAt_cons hc]
      exact h m (Nat.lt_of_succ_lt_succ hm)

theorem closesFirstAt_escape (c : Char) (cs : List Char) (n : Nat) :
    ClosesFirstAt ('\\' :: c :: cs) (n + 2) ↔ ClosesFirstAt cs n := by
  unfold ClosesFirstAt
  rw [closesAt_escape]
  refine and_congr_right fun _ => ⟨fun h m hm => ?_, fun h m hm => ?_⟩
  · rw [← closesAt_escape c]
    exact h (m + 2) (Nat.add_lt_add_right hm 2)
  · match m with
    | 0 => simp [closesAt_zero_iff]
    | 1 => exact not_closesAt_one c cs
    | m + 2 =>
      rw [closesAt_escape]
      exact h m (Nat.lt_of_add_lt_add_right hm)

/-- Where the text is closed first it is split. -/
theorem ClosesFirstAt.close? {cs : List Char} {n : Nat} (h : ClosesFirstAt cs n) :
    close? cs = some (cs.take (n + 1), cs.drop (n + 1)) := by
  fun_induction Quoted.close? cs generalizing n with
  | case1 r =>
    cases n with
    | zero => rfl
    | succ n => exact absurd (closesFirstAt_zero r).1 (h.2 0 n.succ_pos)
  | case2 c r ih =>
    obtain _ | _ | n := n
    · simp [ClosesFirstAt, closesAt_zero_iff] at h
    · exact absurd h.1 (not_closesAt_one c r)
    · simp [ih ((closesFirstAt_escape c r n).1 h)]
  | case3 c r hquote hescape ih =>
    cases n with
    | zero => exact absurd (closesAt_zero_iff.1 h.1) hquote
    | succ n =>
      by_cases hc : c = '\\'
      · -- A last backslash protects nothing, but there is no quote behind it either.
        cases r with
        | nil => simp [ClosesFirstAt, ClosesAt] at h
        | cons d r => exact (hescape d r hc rfl).elim
      · simp [ih ((closesFirstAt_cons hc hquote r n).1 h)]
  | case4 => simp [ClosesFirstAt, ClosesAt] at h

/-- A text that is split is closed somewhere. -/
theorem exists_closesFirstAt {cs : List Char} (h : (Quoted.close? cs).isSome) :
    ∃ n, ClosesFirstAt cs n := by
  fun_induction Quoted.close? cs with
  | case1 r => exact ⟨0, closesFirstAt_zero r⟩
  | case2 c r ih =>
    obtain ⟨n, hn⟩ := ih (by simpa using h)
    exact ⟨n + 2, (closesFirstAt_escape c r n).2 hn⟩
  | case3 c r hquote hescape ih =>
    obtain ⟨n, hn⟩ := ih (by simpa using h)
    have hc : c ≠ '\\' := by
      rintro rfl
      cases r with
      | nil => simp [ClosesFirstAt, ClosesAt] at hn
      | cons d r => exact hescape d r rfl rfl
    exact ⟨n + 1, (closesFirstAt_cons hc hquote r n).2 hn⟩
  | case4 => simp at h

/-- A quoted text is closed by the first quote that an even number of backslashes stands
before. -/
theorem close?_eq_some_iff {cs body rest : List Char} :
    Quoted.close? cs = some (body, rest) ↔
      ∃ n, ClosesFirstAt cs n ∧ body = cs.take (n + 1) ∧ rest = cs.drop (n + 1) := by
  constructor
  · intro h
    obtain ⟨n, hn⟩ := exists_closesFirstAt (Option.isSome_of_mem h)
    obtain ⟨rfl, rfl⟩ := Prod.mk.inj (Option.some.inj (hn.close?.symm.trans h))
    exact ⟨n, hn, rfl, rfl⟩
  · rintro ⟨n, hn, rfl, rfl⟩
    exact hn.close?

theorem ClosesFirstAt.unique {cs : List Char} {m n : Nat} (hm : ClosesFirstAt cs m)
    (hn : ClosesFirstAt cs n) : m = n := by
  rcases Nat.lt_trichotomy m n with hlt | heq | hlt
  · exact absurd hm.1 (hn.2 m hlt)
  · exact heq
  · exact absurd hn.1 (hm.2 n hlt)

/-- A place that closes the text has a first one before it or is the first. -/
theorem ClosesAt.exists_first {cs : List Char} {n : Nat} (h : ClosesAt cs n) :
    ∃ m, ClosesFirstAt cs m := by
  classical
  exact ⟨Nat.find ⟨n, h⟩, Nat.find_spec ⟨n, h⟩, fun m hm => Nat.find_min ⟨n, h⟩ hm⟩

end Text.Quoted

/-! ### Reading from a scanner -/

/-- What is left behind some bytes of a text is a part of it. -/
theorem Text.dropBytes?_eq_some {n : Nat} {cs rest : List Char}
    (h : dropBytes? n cs = some rest) : ∃ before, cs = before ++ rest ∧ byteLength before = n := by
  fun_induction dropBytes? n cs with
  | case1 cs =>
    cases h
    exact ⟨[], rfl, rfl⟩
  | case2 => cases h
  | case3 n c cs hsize ih =>
    obtain ⟨before, rfl, hlength⟩ := ih h
    refine ⟨c :: before, rfl, ?_⟩
    rw [byteLength, hlength]
    omega
  | case4 => cases h

namespace Scanner

variable {s : Scanner} {back : List Char}

/-- A scanner that is moved over the front of what is left stands before the back. -/
theorem rest?_moveTo (front : List Char) (h : s.rest? = some (front ++ back)) (line : Nat) :
    (s.moveTo ⟨back, line⟩).rest? = some back := by
  obtain ⟨before, htext, hoffset⟩ := Text.dropBytes?_eq_some h
  have hmoved : (s.moveTo ⟨back, line⟩).offset = Text.byteLength (before ++ front) := by
    simp only [moveTo, htext, ← hoffset, Text.byteLength_append]
    omega
  rw [Scanner.rest?, hmoved, moveTo, htext, ← List.append_assoc, Text.dropBytes?_byteLength]

/-- A scanner that has something left reads what its cursor reads. -/
theorem next?_of_rest? {c : Char} {cs : List Char} (h : s.rest? = some (c :: cs)) :
    s.next? = some ((Cursor.next ⟨c :: cs, s.line⟩).1,
      s.moveTo (Cursor.next ⟨c :: cs, s.line⟩).2) := by
  obtain ⟨before, htext, hoffset⟩ := Text.dropBytes?_eq_some h
  have hend : s.atEnd = false := by
    have hsize := c.utf8Size_pos
    simp only [atEnd, htext, ← hoffset, Text.byteLength_append, Text.byteLength]
    exact decide_eq_false (by omega)
  have hcursor : s.cursor? = some ⟨c :: cs, s.line⟩ := by
    rw [cursor?, hend, h]
    rfl
  rw [next?, hcursor, Option.map_some]

end Scanner

/-! ### Reading a quoted text -/

/-- What starts with a quote is nothing that is tried before quoted texts. -/
theorem split?_quote_eq_none (cs : List Char) :
    ∀ k ∈ LexicalClass.layout ++ [LexicalClass.word, .digits], k.split? ('"' :: cs) = none := by
  intro k hk
  rcases List.mem_append.1 hk with hk | hk
  · exact split?_eq_none_of_head (by decide) (not_slash_start (by decide))
      (not_slash_start (by decide)) k hk
  · simp only [List.mem_cons, List.not_mem_nil, or_false] at hk
    rcases hk with rfl | rfl <;> rfl

namespace Cursor

/-- Where a lexeme is cut short, it is all that is left. -/
theorem next_of_cutShort {cs text rest : List Char} {k : LexicalClass}
    (hl : Lexeme.first? cs = some ⟨k, text, rest⟩)
    (he : Lexeme.effect ⟨k, text, rest⟩ = .cutShort) (line : Nat) :
    next ⟨cs, line⟩ = (⟨.cutShort, "", line + Text.lineEnds cs⟩,
      ⟨[], line + Text.lineEnds cs⟩) := by
  unfold next
  split
  · next h =>
    obtain rfl : cs = [] := h
    cases hl
  · split
    · next h => cases hl.symm.trans h
    · next h =>
      obtain rfl := Option.some.inj (hl.symm.trans h)
      rw [he]
      rfl

/-- A quoted text that is closed is a token, and what it means is its value. -/
theorem next_quoted {cs body rest : List Char} (h : Text.Quoted.close? cs = some (body, rest))
    (line : Nat) :
    next ⟨'"' :: cs, line⟩ = (⟨.text, Text.Quoted.decode ('"' :: body), line⟩,
      ⟨rest, line + Text.lineEnds body⟩) := by
  have hl : Lexeme.first? ('"' :: cs) = some ⟨.quoted, '"' :: body, rest⟩ :=
    Lexeme.first?_of_split? (LexicalClass.layout ++ [LexicalClass.word, .digits]) rfl
      (by simp [LexicalClass.split?, h]) (split?_quote_eq_none cs)
  rw [next_of_first? hl rfl]
  simp [Text.lineEnds]

/-- One that is not closed is cut short by the end of the text. -/
theorem next_openQuote {cs : List Char} (h : Text.Quoted.close? cs = none) (line : Nat) :
    next ⟨'"' :: cs, line⟩ = (⟨.cutShort, "", line + Text.lineEnds cs⟩,
      ⟨[], line + Text.lineEnds cs⟩) := by
  have hl : Lexeme.first? ('"' :: cs) = some ⟨.quoteOpening, ['"'], cs⟩ := by
    refine Lexeme.first?_of_split?
      (LexicalClass.layout ++ [LexicalClass.word, .digits] ++ [LexicalClass.quoted]) rfl rfl
      fun k hk => ?_
    rcases List.mem_append.1 hk with hk | hk
    · exact split?_quote_eq_none cs k hk
    · rw [List.mem_singleton.1 hk]
      simp [LexicalClass.split?, h]
  exact next_of_cutShort hl rfl line

end Cursor

namespace Text.Quoted

/-- What is written for a text is on one line. -/
theorem lineEnds_encode (v : String) : lineEnds (encode v).toList = 0 := by
  have hbody (cs : List Char) : '\n' ∉ encodeBody cs := by
    induction cs with
    | nil => exact List.not_mem_nil
    | cons c r ih =>
      unfold encodeBody
      split
      · next l hl =>
        have hline : '\n' ≠ l := by
          rintro rfl
          cases meaning?_of_letter? hl
        simp [ih, hline]
      · next hl =>
        have hline : '\n' ≠ c := by
          rintro rfl
          cases hl
        simp [ih, hline]
  rw [lineEnds, List.count_eq_zero]
  simp [encode, hbody]

end Text.Quoted

namespace Scanner

/-- In front of a quote a scanner reads a quoted text if some quote behind it has an even number
of backslashes before it. The text ends at the first such quote. If there is none, all that is
left is cut short. What is written for a text is read as that text, whatever stands behind. -/
theorem next_quote {s : Scanner} {cs : List Char} (h : s.rest? = some ('"' :: cs)) :
    ∃ t s', s.next? = some (t, s') ∧
      (t.kind = .text ↔ ∃ n, Text.Quoted.ClosesAt cs n) ∧
      (∀ n, Text.Quoted.ClosesFirstAt cs n →
        t = ⟨.text, Text.Quoted.decode ('"' :: cs.take (n + 1)), s.line⟩ ∧
        s'.rest? = some (cs.drop (n + 1)) ∧
        s'.line = s.line + Text.lineEnds (cs.take (n + 1))) ∧
      ((∀ n, ¬ Text.Quoted.ClosesAt cs n) → t.kind = .cutShort ∧ s'.rest? = some []) ∧
      ∀ v r, '"' :: cs = (Literal.text v).spelling.toList ++ r →
        t = ⟨.text, v, s.line⟩ ∧ s'.line = s.line ∧ s'.rest? = some r := by
  have hwritten (v : String) (r : List Char)
      (hv : '"' :: cs = (Literal.text v).spelling.toList ++ r) :
      (Cursor.next ⟨'"' :: cs, s.line⟩).1 = ⟨.text, v, s.line⟩ ∧
        (Cursor.next ⟨'"' :: cs, s.line⟩).2.line = s.line ∧
        (Cursor.next ⟨'"' :: cs, s.line⟩).2.rest = r := by
    rw [hv, Literal.spelling, Cursor.next_of_first? (first?_quoted v r) (effect_quoted v r),
      Text.Quoted.lineEnds_encode]
    exact ⟨rfl, rfl, rfl⟩
  refine ⟨_, _, next?_of_rest? h, ?_⟩
  cases hclose : Text.Quoted.close? cs with
  | some split =>
    obtain ⟨body, rest⟩ := split
    obtain ⟨n, hn, rfl, rfl⟩ := Text.Quoted.close?_eq_some_iff.1 hclose
    have hrest (line : Nat) :
        (s.moveTo ⟨cs.drop (n + 1), line⟩).rest? = some (cs.drop (n + 1)) := by
      refine rest?_moveTo ('"' :: cs.take (n + 1)) ?_ line
      rw [h, List.cons_append, List.take_append_drop]
    rw [Cursor.next_quoted hclose] at hwritten ⊢
    refine ⟨⟨fun _ => ⟨n, hn.1⟩, fun _ => rfl⟩, fun m hm => ?_, fun hnone => absurd hn.1 (hnone n),
      fun v r hv => ?_⟩
    · obtain rfl := hm.unique hn
      exact ⟨rfl, hrest _, rfl⟩
    · obtain ⟨htoken, hline, rfl⟩ := hwritten v r hv
      exact ⟨htoken, hline, hrest _⟩
  | none =>
    have hnone (n : Nat) : ¬ Text.Quoted.ClosesAt cs n := by
      intro hn
      obtain ⟨m, hm⟩ := hn.exists_first
      cases hclose.symm.trans hm.close?
    rw [Cursor.next_openQuote hclose] at hwritten ⊢
    refine ⟨⟨nofun, fun ⟨n, hn⟩ => absurd hn (hnone n)⟩, fun n hn => absurd hn.1 (hnone n),
      fun _ => ⟨rfl, ?_⟩, fun v r hv => ?_⟩
    · exact rest?_moveTo ('"' :: cs) (by rw [h, List.append_nil]) _
    · cases (hwritten v r hv).1

/-- A text that ends in a backslash is read up to its own quote, not up to the one behind. -/
theorem next_quote_backslash :
    ∃ t s', next? ⟨"b\"a\\\\\"\"".toList, 1, 7⟩ = some (t, s') ∧
      t = ⟨.text, "a\\", 7⟩ ∧ s'.line = 7 ∧ s'.rest? = some ['"'] := by
  have h : rest? ⟨"b\"a\\\\\"\"".toList, 1, 7⟩ = some ('"' :: "a\\\\\"\"".toList) := by
    decide +kernel
  obtain ⟨t, s', hnext, -, -, -, hwritten⟩ := next_quote h
  exact ⟨t, s', hnext, hwritten "a\\" ['"'] (by decide +kernel)⟩

end Scanner

end Scriptlet
