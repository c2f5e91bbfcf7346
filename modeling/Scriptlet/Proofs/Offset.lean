import Scriptlet.Proofs.Acceptance
import Scriptlet.Proofs.Beginnings
import Scriptlet.Proofs.Partition

/-!
# Offsets in place of lines

The grammar puts lines onto nodes without ever looking at them. So a text may be read with offsets
in place of lines, which say exactly where a token starts and where it ends, and the lines come
back from the offsets afterwards.

## The model

`Text.lineAt cs offset` is the line of the place behind so many characters. `Tape.relined h`
changes the lines of a tape by a function, and so does `Category.relined h` with those of a tree. A
tape is the offsets of a text, `Tape.IsOffsetsOf`, if it holds the tokens of the pieces into which
the text is cut, each with the offsets of its two ends.

## What is proved

* `Derives.of_relined` — what is derived with other lines is derived, with those lines put for its
  own.
* `Tape.IsOffsetsOf.relined` — with the line of each offset, a tape of offsets is that of the text.
* `Tape.exists_isOffsetsOf` — every text has one.
-/

namespace Scriptlet

/-! ### Lines of places -/

namespace Text

/-- The line of the place behind so many characters of a text. -/
def lineAt (cs : List Char) (offset : Nat) : Nat := 1 + lineEnds (cs.take offset)

theorem lineAt_append (cs ds : List Char) : lineAt (cs ++ ds) cs.length = 1 + lineEnds cs := by
  rw [lineAt, List.take_left]

theorem lineAt_length (cs : List Char) : lineAt cs cs.length = 1 + lineEnds cs := by
  rw [lineAt, List.take_length]

theorem one_le_lineAt (cs : List Char) (offset : Nat) : 1 ≤ lineAt cs offset :=
  Nat.le_add_right 1 _

/-- No place of a text is below its last line. -/
theorem lineAt_le (cs : List Char) (offset : Nat) : lineAt cs offset ≤ 1 + lineEnds cs :=
  Nat.add_le_add_left ((List.take_sublist offset cs).count_le _) 1

end Text

/-! ### Other lines -/

section

variable (h : Nat → Nat)

/-- A token with another line. -/
def Token.relined (t : Token) : Token := { t with line := h t.line }

/-- A reading with other lines. -/
def Reading.relined (r : Reading) : Reading := ⟨r.token.relined h, h r.reached⟩

/-- A tape with other lines. -/
def Tape.relined (i : Tape) : Tape := ⟨i.hand.relined h, i.coming.map (Reading.relined h)⟩

/-- A mention with another line. -/
def Mention.relined (m : Mention) : Mention := { m with line := h m.line }

/-- A phrase with other lines. -/
def Category.relined : (N : Category) → N.Tree → N.Tree
  | declarator _ _ _, d => (d.1.relined h, d.2.map (Expr.relabel (Mention.relined h) h))
  | declarators _ _ _, ds =>
    ds.map fun d => (d.1.relined h, d.2.map (Expr.relabel (Mention.relined h) h))
  | expr _, e => e.relabel (Mention.relined h) h
  | operations _, ops => ops.map fun o => (o.1, o.2.1.relabel (Mention.relined h) h, h o.2.2)
  | subscripts, subs => subs.map fun s => (s.1.relabel (Mention.relined h) h, h s.2)
  | element, e => e.relabel (Mention.relined h) h
  | elements, es => Expr.relabelElements (Mention.relined h) h es
  | entries, es => Expr.relabelEntries (Mention.relined h) h es
  | command, c | body, c => c.relabel (Mention.relined h) h
  | code, cs => Block.relabelAll (Mention.relined h) h cs

variable {h}

namespace Tape

theorem next_relined (i : Tape) : (i.relined h).next = i.next.relined h := by
  obtain ⟨hand, _ | ⟨r, rest⟩⟩ := i <;> rfl

theorem skip_relined (i : Tape) (n : Nat) : (i.relined h).skip n = (i.skip n).relined h := by
  induction n generalizing i with
  | zero => rfl
  | succ n ih => rw [skip, next_relined, ih, skip]

theorem Optional.of_relined {i j : Tape} {k : TokenKind} {taken : Bool}
    (hj : (i.relined h).Optional k taken j) : ∃ m, j = m.relined h ∧ i.Optional k taken m := by
  cases taken with
  | false => exact ⟨i, hj, .absent⟩
  | true =>
    obtain ⟨hk, rfl⟩ := hj
    exact ⟨i.next, i.next_relined, .present hk⟩

end Tape

theorem Tape.RestOf.of_relined {i o : Tape} (hi : i.RestOf (o.relined h)) :
    ∃ j : Tape, j.RestOf o ∧ i = j.relined h := by
  obtain ⟨n, rfl⟩ := hi
  exact ⟨o.skip n, ⟨n, rfl⟩, o.skip_relined n⟩

theorem Tape.Spans.of_relined {i m' : Tape} {w : List Item} (hs : (i.relined h).Spans w m') :
    ∃ m, m' = m.relined h ∧ i.Spans w m := by
  obtain ⟨ks, hks, hw⟩ := hs
  suffices hshows : ∃ m, m' = m.relined h ∧ i.Shows ks m by
    obtain ⟨m, rfl, hm⟩ := hshows
    exact ⟨m, rfl, ks, hm, hw⟩
  clear hw
  induction ks generalizing i with
  | nil =>
    obtain rfl : i.relined h = m' := hks
    exact ⟨i, rfl, rfl⟩
  | cons k ks ih =>
    obtain ⟨hk, hks⟩ := hks
    rw [next_relined] at hks
    obtain ⟨m, rfl, hm⟩ := ih hks
    exact ⟨m, rfl, hk, hm⟩

theorem Tape.Introduces.of_relined {i r' : Tape} (hr : (i.relined h).Introduces r') :
    ∃ r, r' = r.relined h ∧ i.Introduces r := by
  rcases hr with rfl | ⟨hk, m', hs, hc, rfl⟩
  · exact ⟨i.next, i.next_relined, .inl rfl⟩
  · simp only [next_relined] at hk hs
    obtain ⟨m, rfl, hm⟩ := hs.of_relined
    exact ⟨m.next, m.next_relined, .inr ⟨hk, m, hm, hc, rfl⟩⟩

theorem Declarator.assignment?_relined (d : Declarator) :
    Declarator.assignment? (d.1.relined h, d.2.map (Expr.relabel (Mention.relined h) h)) =
      d.assignment?.map (Command.relabel (Mention.relined h) h) := by
  obtain ⟨m, _ | e⟩ := d <;> rfl

theorem Block.ofDeclarators_relined (ds : List Declarator) (line : Nat) :
    Block.ofDeclarators
        (ds.map fun d => (d.1.relined h, d.2.map (Expr.relabel (Mention.relined h) h))) (h line) =
      (Block.ofDeclarators ds line).relabel (Mention.relined h) h := by
  rw [Block.ofDeclarators_eq, Block.ofDeclarators_eq, Block.relabel_declaration]
  simp only [List.map_map, Function.comp_def, Declarator.assignment?_relined]

/-- What is derived with other lines is derived, with those lines put for its own. -/
theorem Derives.of_relined {N k i' x' r'} (hd : Derives N k i' x' r') :
    ∀ {i : Tape}, i' = i.relined h →
      ∃ x r, x' = N.relined h x ∧ r' = r.relined h ∧ Derives N k i x r := by
  -- Behind each token that is taken, what is left has other lines again.
  induction hd with
  | expression _ ih =>
    rintro i rfl
    obtain ⟨e, r, rfl, rfl, he⟩ := ih rfl
    exact ⟨e, r, rfl, rfl, .expression he⟩
  | level _ _ chains ih ih' =>
    rintro i rfl
    obtain ⟨e, m, rfl, rfl, he⟩ := ih rfl
    obtain ⟨ops, r, rfl, rfl, hops⟩ := ih' rfl
    rw [Category.relined, List.length_map] at chains
    exact ⟨_, r, (Expr.relabel_operated ops e).symm, rfl, .level he hops chains⟩
  | noOperation =>
    rintro i rfl
    exact ⟨[], i, rfl, rfl, .noOperation⟩
  | operation head _ _ ih ih' =>
    rintro i rfl
    rw [Tape.next_relined] at ih ⊢
    obtain ⟨e, m, rfl, rfl, he⟩ := ih rfl
    obtain ⟨ops, r, rfl, rfl, hops⟩ := ih' rfl
    exact ⟨_ :: ops, r, rfl, rfl, .operation head he hops⟩
  | unsigned _ ih =>
    rintro i rfl
    obtain ⟨e, r, rfl, rfl, he⟩ := ih rfl
    exact ⟨e, r, rfl, rfl, .unsigned he⟩
  | signed head _ ih =>
    rintro i rfl
    rw [Tape.next_relined] at ih ⊢
    obtain ⟨e, r, rfl, rfl, he⟩ := ih rfl
    exact ⟨.unary _ e _, r, rfl, rfl, .signed head he⟩
  | factor _ ih =>
    rintro i rfl
    obtain ⟨e, r, rfl, rfl, he⟩ := ih rfl
    exact ⟨e, r, rfl, rfl, .factor he⟩
  | postfixed _ mark ih =>
    rintro i rfl
    obtain ⟨e, m, rfl, rfl, he⟩ := ih rfl
    rw [Tape.next_relined]
    exact ⟨.unary _ e _, m.next, rfl, rfl, .postfixed he mark⟩
  | primary _ ih =>
    rintro i rfl
    obtain ⟨e, r, rfl, rfl, he⟩ := ih rfl
    exact ⟨e, r, rfl, rfl, .primary he⟩
  | parenthesized opens _ closes ih =>
    rintro i rfl
    rw [Tape.next_relined] at ih
    obtain ⟨e, m, rfl, rfl, he⟩ := ih rfl
    exact ⟨e, m.next, rfl, m.next_relined, .parenthesized opens he closes⟩
  | constant head =>
    rintro i rfl
    exact ⟨.const _ _, i.next, rfl, i.next_relined, .constant head⟩
  | call head opens _ closes ih =>
    rintro i rfl
    simp only [Tape.next_relined] at opens ih
    obtain ⟨e, m, rfl, rfl, he⟩ := ih rfl
    exact ⟨.call _ e _, m.next, rfl, m.next_relined, .call head opens he closes⟩
  | place _ ih =>
    rintro i rfl
    obtain ⟨e, r, rfl, rfl, he⟩ := ih rfl
    exact ⟨e, r, rfl, rfl, .place he⟩
  | emptyList opens closes =>
    rintro i rfl
    simp only [Tape.next_relined] at closes ⊢
    exact ⟨.list [] _, i.next.next, rfl, rfl, .emptyList opens closes⟩
  | list opens _ closes ih =>
    rintro i rfl
    rw [Tape.next_relined] at ih
    obtain ⟨es, m, rfl, rfl, hes⟩ := ih rfl
    exact ⟨.list es _, m.next, rfl, m.next_relined, .list opens hes closes⟩
  | emptyMap opens closes =>
    rintro i rfl
    simp only [Tape.next_relined] at closes ⊢
    exact ⟨.map [] _, i.next.next, rfl, rfl, .emptyMap opens closes⟩
  | map opens _ closes ih =>
    rintro i rfl
    rw [Tape.next_relined] at ih
    obtain ⟨es, m, rfl, rfl, hes⟩ := ih rfl
    exact ⟨.map es _, m.next, rfl, m.next_relined, .map opens hes closes⟩
  | named head _ ih =>
    rintro i rfl
    rw [Tape.next_relined] at ih
    obtain ⟨subs, r, rfl, rfl, hsubs⟩ := ih rfl
    have hx := Expr.relabel_subscripted (g := Mention.relined h) (h := h) subs
      (.var (.ofToken i.hand.token) i.hand.token.line)
    exact ⟨_, r, hx.symm, rfl, .named head hsubs⟩
  | noSubscript =>
    rintro i rfl
    exact ⟨[], i, rfl, rfl, .noSubscript⟩
  | subscript opens _ closes _ ih ih' =>
    rintro i rfl
    rw [Tape.next_relined] at ih ⊢
    obtain ⟨e, m, rfl, rfl, he⟩ := ih rfl
    obtain ⟨subs, r, rfl, rfl, hsubs⟩ := ih' m.next_relined
    exact ⟨(e, _) :: subs, r, rfl, rfl, .subscript opens he closes hsubs⟩
  | lastElement _ ih =>
    rintro i rfl
    obtain ⟨e, r, rfl, rfl, he⟩ := ih rfl
    exact ⟨[e], r, rfl, rfl, .lastElement he⟩
  | elements _ comma _ ih ih' =>
    rintro i rfl
    obtain ⟨e, m, rfl, rfl, he⟩ := ih rfl
    obtain ⟨es, r, rfl, rfl, hes⟩ := ih' m.next_relined
    exact ⟨e :: es, r, rfl, rfl, .elements he comma hes⟩
  | lastEntry _ colon _ ih ih' =>
    rintro i rfl
    obtain ⟨key, m, rfl, rfl, hkey⟩ := ih rfl
    obtain ⟨value, r, rfl, rfl, hvalue⟩ := ih' m.next_relined
    exact ⟨[(key, value)], r, rfl, rfl, .lastEntry hkey colon hvalue⟩
  | entries _ colon _ comma _ ih ih' ih'' =>
    rintro i rfl
    obtain ⟨key, m, rfl, rfl, hkey⟩ := ih rfl
    obtain ⟨value, m', rfl, rfl, hvalue⟩ := ih' m.next_relined
    obtain ⟨es, r, rfl, rfl, hes⟩ := ih'' m'.next_relined
    exact ⟨(key, value) :: es, r, rfl, rfl, .entries hkey colon hvalue comma hes⟩
  | single _ ih =>
    rintro i rfl
    obtain ⟨e, r, rfl, rfl, he⟩ := ih rfl
    exact ⟨.single e, r, rfl, rfl, .single he⟩
  | spread head _ ih =>
    rintro i rfl
    rw [Tape.next_relined] at ih
    obtain ⟨e, r, rfl, rfl, he⟩ := ih rfl
    exact ⟨.spread e, r, rfl, rfl, .spread head he⟩
  | elementIf head opens _ closes _ noElse ih ih' =>
    rintro i rfl
    simp only [Tape.next_relined] at opens ih
    obtain ⟨c, m, rfl, rfl, hc⟩ := ih rfl
    obtain ⟨e, r, rfl, rfl, he⟩ := ih' m.next_relined
    exact ⟨.cond c e none _, r, rfl, rfl, .elementIf head opens hc closes he noElse⟩
  | elementIfElse head opens _ closes _ hasElse _ ih ih' ih'' =>
    rintro i rfl
    simp only [Tape.next_relined] at opens ih
    obtain ⟨c, m, rfl, rfl, hc⟩ := ih rfl
    obtain ⟨e, m', rfl, rfl, he⟩ := ih' m.next_relined
    obtain ⟨e', r, rfl, rfl, he'⟩ := ih'' m'.next_relined
    exact ⟨.cond c e (some e') _, r, rfl, rfl, .elementIfElse head opens hc closes he hasElse he'⟩
  | elementFor head opens name separator _ closes _ ih ih' =>
    rintro i rfl
    simp only [Tape.next_relined] at opens name separator ih ⊢
    obtain ⟨c, m, rfl, rfl, hc⟩ := ih rfl
    obtain ⟨e, r, rfl, rfl, he⟩ := ih' m.next_relined
    exact ⟨.each _ c e _, r, rfl, rfl, .elementFor head opens name separator hc closes he⟩
  | declarator name =>
    rintro i rfl
    exact ⟨(_, none), i.next, rfl, i.next_relined, .declarator name⟩
  | initialized name assign _ ih =>
    rintro i rfl
    simp only [Tape.next_relined] at assign ih
    obtain ⟨e, r, rfl, rfl, he⟩ := ih rfl
    exact ⟨(_, some e), r, rfl, rfl, .initialized name assign he⟩
  | lastDeclarator _ ih =>
    rintro i rfl
    obtain ⟨d, r, rfl, rfl, hd⟩ := ih rfl
    exact ⟨[d], r, rfl, rfl, .lastDeclarator hd⟩
  | declarators _ comma _ ih ih' =>
    rintro i rfl
    obtain ⟨d, m, rfl, rfl, hd⟩ := ih rfl
    obtain ⟨ds, r, rfl, rfl, hds⟩ := ih' m.next_relined
    exact ⟨d :: ds, r, rfl, rfl, .declarators hd comma hds⟩
  | declaration final head mark _ stop ih =>
    rintro i rfl
    obtain ⟨m, rfl, hfinal⟩ := final.of_relined
    rw [Tape.next_relined] at mark
    obtain ⟨m', rfl, hmark⟩ := mark.of_relined
    obtain ⟨ds, r, rfl, rfl, hds⟩ := ih rfl
    have hx := Block.ofDeclarators_relined (h := h) ds i.hand.token.line
    exact ⟨.block (.ofDeclarators ds _), r.next, congrArg Command.block hx, r.next_relined,
      .declaration hfinal head hmark hds stop⟩
  | printLine head opens closes stop =>
    rintro i rfl
    simp only [Tape.next_relined] at opens closes stop ⊢
    exact ⟨.print none _, i.next.next.next.next, rfl, rfl, .printLine head opens closes stop⟩
  | print head opens _ closes stop ih =>
    rintro i rfl
    simp only [Tape.next_relined] at opens ih
    obtain ⟨e, m, rfl, rfl, he⟩ := ih rfl
    simp only [Tape.next_relined] at stop ⊢
    exact ⟨.print (some e) _, m.next.next, rfl, rfl, .print head opens he closes stop⟩
  | assert head opens _ closes stop ih =>
    rintro i rfl
    simp only [Tape.next_relined] at opens ih
    obtain ⟨e, m, rfl, rfl, he⟩ := ih rfl
    simp only [Tape.next_relined] at stop ⊢
    exact ⟨.assert e none _, m.next.next, rfl, rfl, .assert head opens he closes stop⟩
  | assertMessage head opens _ comma _ closes stop ih ih' =>
    rintro i rfl
    simp only [Tape.next_relined] at opens ih
    obtain ⟨e, m, rfl, rfl, he⟩ := ih rfl
    obtain ⟨e', m', rfl, rfl, he'⟩ := ih' m.next_relined
    simp only [Tape.next_relined] at stop ⊢
    exact ⟨.assert e (some e') _, m'.next.next, rfl, rfl,
      .assertMessage head opens he comma he' closes stop⟩
  | conditional head opens _ closes _ noElse ih ih' =>
    rintro i rfl
    simp only [Tape.next_relined] at opens ih
    obtain ⟨c, m, rfl, rfl, hc⟩ := ih rfl
    obtain ⟨b, r, rfl, rfl, hb⟩ := ih' m.next_relined
    exact ⟨.cond c b none _, r, rfl, rfl, .conditional head opens hc closes hb noElse⟩
  | conditionalElse head opens _ closes _ hasElse _ ih ih' ih'' =>
    rintro i rfl
    simp only [Tape.next_relined] at opens ih
    obtain ⟨c, m, rfl, rfl, hc⟩ := ih rfl
    obtain ⟨b, m', rfl, rfl, hb⟩ := ih' m.next_relined
    obtain ⟨b', r, rfl, rfl, hb'⟩ := ih'' m'.next_relined
    exact ⟨.cond c b (some b') _, r, rfl, rfl,
      .conditionalElse head opens hc closes hb hasElse hb'⟩
  | whileLoop head opens _ closes _ ih ih' =>
    rintro i rfl
    simp only [Tape.next_relined] at opens ih
    obtain ⟨c, m, rfl, rfl, hc⟩ := ih rfl
    obtain ⟨b, r, rfl, rfl, hb⟩ := ih' m.next_relined
    exact ⟨.whileDo c b _, r, rfl, rfl, .whileLoop head opens hc closes hb⟩
  | doWhileLoop head _ separator opens _ closes stop ih ih' =>
    rintro i rfl
    rw [Tape.next_relined] at ih
    obtain ⟨b, m, rfl, rfl, hb⟩ := ih rfl
    simp only [Tape.next_relined] at opens ih'
    obtain ⟨c, m', rfl, rfl, hc⟩ := ih' rfl
    simp only [Tape.next_relined] at stop ⊢
    exact ⟨.doWhile b c _, m'.next.next, rfl, rfl,
      .doWhileLoop head hb separator opens hc closes stop⟩
  | forLoop head opens name separator _ closes _ ih ih' =>
    rintro i rfl
    simp only [Tape.next_relined] at opens name separator ih ⊢
    obtain ⟨c, m, rfl, rfl, hc⟩ := ih rfl
    obtain ⟨b, r, rfl, rfl, hb⟩ := ih' m.next_relined
    exact ⟨.each _ c b _, r, rfl, rfl, .forLoop head opens name separator hc closes hb⟩
  | effect _ stop ih =>
    rintro i rfl
    obtain ⟨e, m, rfl, rfl, he⟩ := ih rfl
    exact ⟨.assign none e _, m.next, rfl, m.next_relined, .effect he stop⟩
  | assignment _ isTarget assign _ stop ih ih' =>
    rintro i rfl
    obtain ⟨e, m, rfl, rfl, he⟩ := ih rfl
    obtain ⟨e', m', rfl, rfl, he'⟩ := ih' m.next_relined
    rw [Category.relined, Expr.target?_relabel, Option.map_eq_some_iff] at isTarget
    obtain ⟨target, htarget, rfl⟩ := isTarget
    exact ⟨.assign (some target) e' _, m'.next, rfl, m'.next_relined,
      .assignment he htarget assign he' stop⟩
  | braced opens _ closes ih =>
    rintro i rfl
    rw [Tape.next_relined] at ih
    obtain ⟨cs, m, rfl, rfl, hcs⟩ := ih rfl
    exact ⟨.block ⟨cs, [], _⟩, m.next, rfl, m.next_relined, .braced opens hcs closes⟩
  | unbraced head _ ih =>
    rintro i rfl
    obtain ⟨c, r, rfl, rfl, hc⟩ := ih rfl
    exact ⟨c, r, rfl, rfl, .unbraced head hc⟩
  | noCode =>
    rintro i rfl
    exact ⟨[], i, rfl, rfl, .noCode⟩
  | code _ _ ih ih' =>
    rintro i rfl
    obtain ⟨c, m, rfl, rfl, hc⟩ := ih rfl
    obtain ⟨cs, r, rfl, rfl, hcs⟩ := ih' rfl
    exact ⟨c :: cs, r, rfl, rfl, .code hc hcs⟩

end

/-! ### The offsets of a text -/

/-- The readings of pieces of a text that is so long, where so much of it stands before them, with
offsets for lines: where a token starts, and where it ends. What the end of the text cuts short
counts from that end, and so does the mark of the end. -/
def Piece.offsets (length : Nat) : Nat → List Piece → List Reading
  | _, [] => [⟨.endAt length, length⟩]
  | before, p :: ps =>
    ⟨{ p.token with line := if p.token.kind = .cutShort then length else before + p.gap.length },
      before + p.text.length⟩ :: Piece.offsets length (before + p.text.length) ps

/-- On the line of its offset a token is where it was read. -/
theorem Piece.Fits.relined {p : Piece} {before rest : List Char} (hp : p.Fits before rest) :
    Token.relined (Text.lineAt (before ++ p.text ++ rest))
      { p.token with
        line := if p.token.kind = .cutShort then (before ++ p.text ++ rest).length
          else before.length + p.gap.length } = p.token := by
  have hline : Text.lineAt (before ++ p.text ++ rest) (if p.token.kind = .cutShort then
      (before ++ p.text ++ rest).length else before.length + p.gap.length) = p.token.line := by
    split
    next hcut => rw [Text.lineAt_length, hp.lastLine hcut]
    next hcut =>
      rw [hp.line hcut, ← List.length_append, Piece.text, ← List.append_assoc, List.append_assoc,
        Text.lineAt_append]
  simp only [Token.relined, hline]

/-- The offsets of a text are those of its readings. -/
theorem Scanner.Cuts.relined_offsets {s : Scanner} {before rest : List Char} {pieces : List Piece}
    {last : List Char} (h : s.Cuts before rest pieces last) (hs : s.StandsBetween before rest) :
    (Piece.offsets (before ++ rest).length before.length pieces).map
        (Reading.relined (Text.lineAt (before ++ rest))) =
      Cursor.readings ⟨rest, 1 + Text.lineEnds before⟩ := by
  induction pieces generalizing s before rest with
  | nil =>
    rw [h.readings hs]
    simp only [Piece.offsets, List.map_cons, List.map_nil, Reading.relined, Token.relined,
      Token.endAt, Text.lineAt_length]
    rfl
  | cons p ps ih =>
    have hp : p.Fits before (Piece.texts ps ++ last) := by
      simpa using (h.pull 0 (Nat.succ_pos _)).1
    have htext : before ++ rest = before ++ p.text ++ (Piece.texts ps ++ last) := by
      rw [h.text, Piece.texts_cons, List.append_assoc, List.append_assoc]
    obtain ⟨s', hstands, htail, hreadings⟩ := h.readings_cons hs
    have hreached : Text.lineAt (before ++ p.text ++ (Piece.texts ps ++ last))
        (before.length + p.text.length) = 1 + Text.lineEnds (before ++ p.text) := by
      rw [← List.length_append, Text.lineAt_append]
    rw [hreadings, ← ih htail hstands, htext, Piece.offsets, List.map_cons, Reading.relined,
      hp.relined, hreached, @List.length_append _ before]

/-- The tape holds the tokens of the text, with their offsets for lines. -/
def Tape.IsOffsetsOf (o : Tape) (text : String) : Prop :=
  ∃ pieces last, (Scanner.ofText text).Cuts [] text.toList pieces last ∧
    o.readings = Piece.offsets text.toList.length 0 pieces

/-- With lines for the offsets it is the tape of the text. -/
theorem Tape.IsOffsetsOf.relined {o : Tape} {text : String} (h : o.IsOffsetsOf text) :
    o.relined (Text.lineAt text.toList) = .ofText text := by
  obtain ⟨pieces, last, hcuts, ho⟩ := h
  have hreadings : (o.relined (Text.lineAt text.toList)).readings = (ofText text).readings := by
    rw [Tape.readings_ofText]
    refine Eq.trans ?_ (hcuts.relined_offsets (Scanner.standsBetween_ofText text))
    rw [List.nil_append, List.length_nil, ← ho]
    rfl
  obtain ⟨hhand, hcoming⟩ := List.cons.inj hreadings
  exact congrArg₂ Tape.mk hhand hcoming

/-- Every text has a tape of offsets. -/
theorem Tape.exists_isOffsetsOf (text : String) : ∃ o : Tape, o.IsOffsetsOf text := by
  obtain ⟨pieces, last, hcuts⟩ := Scanner.exists_cut (Scanner.standsBetween_ofText text)
  cases pieces with
  | nil => exact ⟨⟨_, []⟩, [], last, hcuts, rfl⟩
  | cons p ps => exact ⟨⟨_, _⟩, p :: ps, last, hcuts, rfl⟩

end Scriptlet
