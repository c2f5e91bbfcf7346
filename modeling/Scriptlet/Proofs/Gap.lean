import Mathlib.Data.List.Infix
import Scriptlet.Proofs.Word

/-!
# What may stand between tokens

Blanks and comments separate tokens and are none themselves. A `Gap` is a text of them that
ends by itself: each comment in it is closed, by `*/` or by the end of its line.

## What is proved

* `closeComment?_eq_some_iff` — a comment is closed by the first `*/` behind its opening.
* `Lexeme.text_of_skip` — what is skipped in one go is a gap, or a comment up to the end of its
  line.
* `Cursor.next_gap`, `Cursor.next_lastGap` — a gap before a token does not change it, and behind
  the last gap there is only the end.
-/

namespace Scriptlet

/-- Blanks and closed comments, one behind the other. -/
inductive Gap : List Char → Prop
  /-- There may be nothing between two tokens. -/
  | nil : Gap []
  /-- A blank. -/
  | blank {c : Char} {g : List Char} : Text.isBlank c = true → Gap g → Gap (c :: g)
  /-- A comment that the first `*/` behind its opening closes. -/
  | blockComment {body g : List Char} : ¬ ['*', '/'] <:+: body → Gap g →
      Gap ('/' :: '*' :: (body ++ '*' :: '/' :: g))
  /-- A comment up to the end of its line, and that line end. -/
  | lineComment {body g : List Char} : '\n' ∉ body → Gap g →
      Gap ('/' :: '/' :: (body ++ '\n' :: g))

/-- A gap, or one with a comment behind it that the end of the text closes. -/
def LastGap (g : List Char) : Prop :=
  Gap g ∨ ∃ g' body, Gap g' ∧ '\n' ∉ body ∧ g = g' ++ '/' :: '/' :: body

namespace Gap

variable {g g' : List Char}

theorem append (h : Gap g) (h' : Gap g') : Gap (g ++ g') := by
  induction h with
  | nil => exact h'
  | blank hc _ ih => exact blank hc ih
  | blockComment hb _ ih =>
    simp only [List.cons_append, List.append_assoc]
    exact blockComment hb ih
  | lineComment hb _ ih =>
    simp only [List.cons_append, List.append_assoc]
    exact lineComment hb ih

theorem blanks (h : ∀ c ∈ g, Text.isBlank c = true) : Gap g := by
  induction g with
  | nil => exact nil
  | cons c g ih =>
    obtain ⟨hc, hg⟩ := List.forall_mem_cons.1 h
    exact blank hc (ih hg)

theorem tail_of_newline (h : Gap ('\n' :: g)) : Gap g := by
  cases h with
  | blank _ h => exact h

end Gap

/-! ### Comments -/

/-- A comment is closed by the first `*/` behind its opening. -/
theorem closeComment?_eq_some_iff {cs text rest : List Char} :
    LexicalClass.closeComment? cs = some (text, rest) ↔
      ∃ body, text = body ++ ['*', '/'] ∧ ¬ ['*', '/'] <:+: body ∧ cs = text ++ rest := by
  constructor
  · intro h
    fun_induction LexicalClass.closeComment? cs generalizing text with
    | case1 r =>
      cases h
      exact ⟨[], rfl, by simp, rfl⟩
    | case2 c r hne ih =>
      obtain ⟨⟨b, t⟩, hb, he⟩ := Option.map_eq_some_iff.1 h
      cases he
      obtain ⟨body, rfl, hbody, rfl⟩ := ih hb
      refine ⟨c :: body, rfl, ?_, by simp⟩
      rw [List.infix_cons_iff]
      rintro (hp | hp)
      · obtain ⟨u, hu⟩ := hp
        obtain ⟨rfl, hslash⟩ := List.cons.inj hu
        refine hne (u ++ ['*', '/'] ++ rest) rfl ?_
        rw [← hslash]
        rfl
      · exact hbody hp
    | case3 => cases h
  · rintro ⟨body, rfl, hbody, rfl⟩
    induction body with
    | nil => rfl
    | cons c body ih =>
      rw [List.infix_cons_iff, not_or] at hbody
      have hne : ∀ r, c = '*' → body ++ ['*', '/'] ++ rest = '/' :: r → False := by
        rintro r rfl hr
        cases body with
        | nil => simp at hr
        | cons d body =>
          obtain ⟨rfl, -⟩ := List.cons.inj hr
          exact hbody.1 ⟨body, rfl⟩
      rw [List.cons_append, List.cons_append, LexicalClass.closeComment?.eq_2 _ _ hne, ih hbody.2]
      rfl

/-! ### Skipping -/

/-- What starts with a comment up to the end of its line. -/
theorem first?_lineComment {body rest : List Char} (hbody : '\n' ∉ body)
    (hrest : ∀ c ∈ rest.head?, c = '\n') :
    Lexeme.first? ('/' :: '/' :: (body ++ rest)) =
      some ⟨.lineComment, '/' :: '/' :: body, rest⟩ := by
  have hall : body.all (fun c => decide (c ≠ '\n')) = true := by
    refine List.all_eq_true.2 fun c hc => decide_eq_true ?_
    rintro rfl
    exact hbody hc
  have hstop : ∀ c ∈ rest.head?, decide (c ≠ '\n') = false := fun c hc => by simp [hrest c hc]
  obtain ⟨htake, hdrop⟩ := takeWhile_append_of_stop hall hstop
  refine Lexeme.first?_of_split? [LexicalClass.blank] rfl ?_ ?_
  · rw [LexicalClass.split?, htake, hdrop]
  · intro k hk
    rw [List.mem_singleton.1 hk]
    rfl

/-- What starts with a comment that is closed. -/
theorem first?_blockComment {body : List Char} (h : ¬ ['*', '/'] <:+: body) (rest : List Char) :
    Lexeme.first? ('/' :: '*' :: (body ++ '*' :: '/' :: rest)) =
      some ⟨.blockComment, '/' :: '*' :: (body ++ ['*', '/']), rest⟩ := by
  have hclose : LexicalClass.closeComment? (body ++ '*' :: '/' :: rest) =
      some (body ++ ['*', '/'], rest) :=
    closeComment?_eq_some_iff.2 ⟨body, rfl, h, by simp⟩
  refine Lexeme.first?_of_split? [LexicalClass.blank, .lineComment] rfl ?_ ?_
  · simp [LexicalClass.split?, hclose]
  · intro k hk
    simp only [List.mem_cons, List.not_mem_nil, or_false] at hk
    rcases hk with rfl | rfl <;> rfl

/-- A run is of characters with the property. -/
theorem LexicalClass.run?_all {p : Char → Bool} {cs text rest : List Char}
    (h : run? p cs = some (text, rest)) : ∀ c ∈ text, p c = true := by
  unfold run? at h
  split at h
  · cases h
  · split at h
    · next hc =>
      cases h
      exact List.forall_mem_cons.2 ⟨hc, List.all_eq_true.1 List.all_takeWhile⟩
    · cases h

/-- What is skipped in one go is a gap, or a comment up to the end of its line. -/
theorem Lexeme.text_of_skip {cs : List Char} {l : Lexeme} (hl : first? cs = some l)
    (he : l.effect = .skip) :
    Gap l.text ∨ ∃ body, l.text = '/' :: '/' :: body ∧ '\n' ∉ body ∧
      ∀ c ∈ l.rest.head?, c = '\n' := by
  obtain ⟨k, text, rest⟩ := l
  have hs : k.split? cs = some (text, rest) := split?_of_first? hl
  cases k with
  | blank =>
    left
    exact Gap.blanks (LexicalClass.run?_all hs)
  | lineComment =>
    right
    unfold LexicalClass.split? at hs
    split at hs <;> try contradiction
    next r _ =>
    cases hs
    refine ⟨_, rfl, fun h => ?_, fun c hc => ?_⟩
    · simpa using List.all_eq_true.1 List.all_takeWhile _ h
    · have hstop := List.head?_dropWhile_not (· ≠ '\n') r
      rw [Option.mem_def.1 hc] at hstop
      simpa using hstop
  | blockComment =>
    left
    unfold LexicalClass.split? at hs
    split at hs <;> try contradiction
    obtain ⟨⟨b, t⟩, hb, ht⟩ := Option.map_eq_some_iff.1 hs
    cases ht
    obtain ⟨body, rfl, hbody, -⟩ := closeComment?_eq_some_iff.1 hb
    exact .blockComment hbody .nil
  | digits =>
    unfold effect at he
    split at he <;> try contradiction
    split at he <;> cases he
  | commentOpening | word | quoted | quoteOpening | symbol => cases he

/-- A gap before a token does not change it. -/
theorem Cursor.next_gap {g : List Char} (h : Gap g) (rest : List Char) (line : Nat) :
    next ⟨g ++ rest, line⟩ = next ⟨rest, line + Text.lineEnds g⟩ := by
  induction h generalizing line with
  | nil => rfl
  | @blank c g hc _ ih =>
    have hlines : Text.lineEnds (c :: g) = Text.lineEnds [c] + Text.lineEnds g :=
      Text.lineEnds_append [c] g
    rw [List.cons_append, next_blank hc, ih, hlines, Nat.add_assoc]
  | @blockComment body g hb _ ih =>
    have hlines : Text.lineEnds ('/' :: '*' :: (body ++ '*' :: '/' :: g)) =
        Text.lineEnds ('/' :: '*' :: (body ++ ['*', '/'])) + Text.lineEnds g := by
      rw [← Text.lineEnds_append]
      simp
    have hfirst := first?_blockComment hb (g ++ rest)
    simp only [List.cons_append, List.append_assoc]
    rw [next_of_skip hfirst rfl, ih, hlines, Nat.add_assoc]
  | @lineComment body g hb _ ih =>
    have hfirst := first?_lineComment hb (by simp : ∀ c ∈ ('\n' :: (g ++ rest)).head?, c = '\n')
    have hlines : Text.lineEnds ('/' :: '/' :: (body ++ '\n' :: g)) =
        Text.lineEnds ('/' :: '/' :: body) + (Text.lineEnds ['\n'] + Text.lineEnds g) := by
      rw [← Text.lineEnds_append, ← Text.lineEnds_append]
      simp
    simp only [List.cons_append, List.append_assoc]
    rw [next_of_skip hfirst rfl, next_blank (by decide), ih, hlines, Nat.add_assoc, Nat.add_assoc]

/-- Behind the last gap there is only the end. -/
theorem Cursor.next_lastGap {g : List Char} (h : LastGap g) (line : Nat) :
    next ⟨g, line⟩ = (.endAt (line + Text.lineEnds g), ⟨[], line + Text.lineEnds g⟩) := by
  rcases h with hg | ⟨g', body, hg, hbody, rfl⟩
  · have hnext := next_gap hg [] line
    rwa [List.append_nil, next_nil] at hnext
  · have hfirst := first?_lineComment hbody (by simp : ∀ c ∈ [].head?, c = '\n')
    rw [List.append_nil] at hfirst
    rw [next_gap hg, next_of_skip hfirst rfl, next_nil, Text.lineEnds_append, Nat.add_assoc]

end Scriptlet
