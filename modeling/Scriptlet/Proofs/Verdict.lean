import Scriptlet.CommandLine
import Scriptlet.Proofs.FirstError

/-!
# What is read has tokens

Readings can be marks: the end of the input, a lexeme that is malformed, or one that the text
ends inside. No rule takes such a reading but the end of the input, and that only once, when a
program is complete. So a program that is read has taken all readings of its text, and each is
a proper token. To list the tokens first, which fails if one is not, can then make no
difference to what becomes of a text.

## What is proved

* `Grammar.code_takes` — code takes the readings of a phrase, none of which is a mark.
* `exists_tokenize_of_parseText` — what is read has tokens, and reading it takes just these.
* `parseText_tokens` — asking for the tokens never changes the verdict.
-/

namespace Scriptlet

/-- Behind the mark of the end a text has no readings. -/
theorem Cursor.eq_nil_of_readings {c : Cursor} {before rest : List Reading} {e : Reading}
    (h : c.readings = before ++ e :: rest) (he : e.kind = .endOfInput) : rest = [] := by
  fun_induction readings c generalizing before with
  | case1 c hlast =>
    cases before with
    | nil => exact (List.cons.inj h).2.symm
    | cons r before => exact absurd (List.cons.inj h).2.symm (by simp)
  | case2 c hlast ih =>
    cases before with
    | nil =>
      obtain ⟨rfl, -⟩ := List.cons.inj h
      exact absurd he hlast
    | cons r before => exact ih (List.cons.inj h).2

/-- To read a program is to read code and then to take the mark of the end. -/
theorem Grammar.program_eq_ok {σ ν : Type} [Scoping σ ν] {p r : Parser σ} {b : Block ν} :
    Grammar.program p = (.ok b, r) ↔ ∃ q, Grammar.code Inner.full p = (.ok b, q) ∧
      q.tape.kind = .endOfInput ∧ r = q.moved q.tape.next q.symbols := by
  constructor
  · intro h
    rcases hr : Grammar.code Inner.full p with ⟨d | b', q⟩
    · cases (Rule.bind_apply_error hr).symm.trans h
    · by_cases hk : q.tape.kind = .endOfInput
      · obtain ⟨hb, hq⟩ := Prod.mk.inj (((Rule.bind_apply_ok hr).trans
          (Rule.bind_apply_ok (Rule.expect_eq_of_kind hk))).symm.trans h)
        cases hb
        exact ⟨q, rfl, hk, hq.symm⟩
      · cases ((Rule.bind_apply_ok hr).trans
          (Rule.bind_apply_error (Rule.expect_eq_of_kind_ne hk))).symm.trans h
  · rintro ⟨q, hcode, hend, rfl⟩
    exact (Rule.bind_apply_ok hcode).trans (Rule.bind_apply_ok (Rule.expect_eq_of_kind hend))

/-- Code that is read takes readings up to some place, none of which is a mark, and it takes
them whatever stands behind that place. -/
theorem Grammar.code_takes {p q : Parser SymbolTable} {b : Block Variable}
    (hp : p.dispatch = .standard) (hs : p.tape.IsSpelled)
    (h : Grammar.code Inner.full p = (.ok b, q)) :
    ∃ n, q.tape = p.tape.skip n ∧ (∀ r ∈ p.tape.before n, ¬ r.kind.IsMark) ∧
      ∀ rest, Grammar.code Inner.full (p.moved (p.tape.upTo n rest) p.symbols) =
        (.ok b, q.moved ((p.tape.upTo n rest).skip n) q.symbols) := by
  obtain ⟨n, res, q', hq⟩ := Rule.Law.isLocal.code (Rule.Law.isLocal.within maxDepth) p
  obtain ⟨rfl, rfl⟩ := Prod.mk.inj ((hq p.tape (.refl n p.tape)).1.symm.trans h)
  have hrun (rest : List Reading) := (hq (p.tape.upTo n rest) (p.tape.agreesUpTo_upTo n rest)).1
  refine ⟨n, rfl, fun r hr hmark => ?_, hrun⟩
  -- With a reading behind the place reached, no token is taken twice up to there.
  let last := Reading.sample .endOfInput
  have hlast : ∀ r ∈ [last], r.token.IsSpelled :=
    List.forall_mem_singleton.2 (Reading.isSpelled_sample _)
  obtain ⟨m, s, hm, -, w, rfl, ks, hks, hcode⟩ :=
    (Grammar.code_recognizes (p.moved (p.tape.upTo n [last]) p.symbols)
      (Inner.recognizes_within maxDepth) hp (hs.upTo n hlast) (.refl _)).1 b _ (hrun [last])
  have hm : (p.tape.upTo n [last]).skip n = m := congrArg Parser.tape hm
  rw [Parser.tape_moved, ← hm] at hks
  obtain rfl := hks.eq_before (List.cons_ne_nil _ _)
  exact Generates.mark_not_mem hcode hmark (List.mem_map_of_mem hr)

section

variable {text file : String} {mode : ScopeMode} {b : Block Variable} {p : Parser SymbolTable}

/-- A text that is read has tokens. Reading it takes just these, all of them: whatever stands
behind them is what is left. -/
theorem exists_tokenize_of_parseText (h : parseText text file mode = (.ok b, p)) :
    tokenize text file = .ok ((Cursor.ofText text).readings.map Reading.token) ∧
      p.source.pending = [] ∧
      ∀ later : Tape, parse ⟨(Cursor.ofText text).readings ++ later.readings, 1⟩ file mode =
        (.ok b, p.moved later p.symbols) := by
  let start := Parser.start (.ofText text) file (SymbolTable.empty mode) .standard
  let i : Tape := Tape.ofText text
  obtain ⟨q, hcode, hend, rfl⟩ := (Grammar.program_eq_ok (p := start)).1 h
  obtain ⟨n, hskip, hmarks, hrun⟩ :=
    Grammar.code_takes (p := start) rfl (Tape.isSpelled_ofText text) hcode
  -- The place reached is the last, so all readings before it have been taken, and it.
  have hbefore : i.readings = i.before n ++ (i.skip n).readings := by
    refine Tape.readings_eq_before ?_ fun hmem => ?_
    · rw [Tape.readings_ofText]
      exact Cursor.readings_eq_append _
    · obtain ⟨r, hr, hk⟩ := List.mem_map.1 hmem
      exact hmarks r hr (.inl hk)
  rw [hskip] at hend
  have hlast : (i.skip n).coming = [] := by
    rw [Tape.readings_ofText] at hbefore
    exact Cursor.eq_nil_of_readings hbefore hend
  have hreadings : (Cursor.ofText text).readings = i.before n ++ [(i.skip n).hand] := by
    rw [← Tape.readings_ofText, hbefore, Tape.readings, hlast]
  refine ⟨tokenize_eq_ok_iff.2 ⟨rfl, fun t ht => ?_⟩, ?_, fun later => ?_⟩
  · obtain ⟨r, hr, rfl⟩ := List.mem_map.1 ht
    rw [hreadings] at hr
    rcases List.mem_append.1 hr with hr | hr
    · exact ⟨fun hk => hmarks r hr (.inr (.inl hk)), fun hk => hmarks r hr (.inr (.inr hk))⟩
    · obtain rfl := List.mem_singleton.1 hr
      have hkind : (i.skip n).hand.token.kind = .endOfInput := hend
      simp [hkind]
  · have hnext : (i.skip n).next.coming = [] := by rw [Tape.next, hlast]
    rwa [hskip]
  · have hcode := hrun later.readings
    rw [Tape.skip_upTo] at hcode
    have hparse : parse ⟨(start.tape.upTo n later.readings).readings, 1⟩ file mode = _ :=
      Grammar.program_eq_ok.2 ⟨_, hcode, hend, rfl⟩
    rw [Tape.readings_upTo] at hparse
    rwa [hreadings, List.append_assoc]

end

/-! ### The command line -/

namespace CommandLine.Options

variable {o : Options} {text : String}

/-- Where the tokens cannot be listed, nothing is shown. -/
theorem checkText_of_listing_error {d : Diagnostic} (h : o.listing text = .error d) :
    o.checkText text = .refused "" d := by
  simp only [checkText, h]

/-- A program that is refused is refused behind the listing. -/
theorem checkText_of_error {listing : String} {d : Diagnostic} (h : o.listing text = .ok listing)
    (hp : (parseText text (fileName o.file) o.mode).1 = .error d) :
    o.checkText text = .refused listing d := by
  simp only [checkText, h, hp]

/-- A program that is read is shown behind the listing. -/
theorem checkText_of_ok {listing : String} {b : Block Variable} (h : o.listing text = .ok listing)
    (hp : (parseText text (fileName o.file) o.mode).1 = .ok b) :
    o.checkText text = ⟨0, listing ++ o.shown b, ""⟩ := by
  simp only [checkText, h, hp]

end CommandLine.Options

/-- A text that is read as a program has tokens, and reading it takes just these, all of them:
whatever stands behind them is what is left. So to ask the tool for the tokens never changes
its exit status, and if that is zero it lists them before all else that it shows. -/
theorem parseText_tokens (text : String) :
    (∀ file mode b p, parseText text file mode = (.ok b, p) →
      ∃ ts, tokenize text file = .ok ts ∧ (Cursor.ofText text).readings.map Reading.token = ts ∧
        p.source.pending = [] ∧
        ∀ later : Tape, parse ⟨(Cursor.ofText text).readings ++ later.readings, 1⟩ file mode =
          (.ok b, p.moved later p.symbols)) ∧
    ∀ o : CommandLine.Options,
      ({ o with tokens := true }.checkText text).status =
        ({ o with tokens := false }.checkText text).status ∧
      (({ o with tokens := true }.checkText text).status = 0 →
        ∃ ts, tokenize text (CommandLine.fileName o.file) = .ok ts ∧
          ({ o with tokens := true }.checkText text).out = Text.unlines (ts.map Token.listing) ++
            ({ o with tokens := false }.checkText text).out) := by
  constructor
  · intro file mode b p h
    obtain ⟨hts, hpending, hlater⟩ := exists_tokenize_of_parseText h
    exact ⟨_, hts, rfl, hpending, hlater⟩
  · intro o
    have hwithout : { o with tokens := false }.listing text = .ok "" := rfl
    have hwith : { o with tokens := true }.listing text =
        (tokenize text (CommandLine.fileName o.file)).map
          fun ts => Text.unlines (ts.map Token.listing) := rfl
    rcases hp : parseText text (CommandLine.fileName o.file) o.mode with ⟨d | b, p⟩
    · have hparse : (parseText text (CommandLine.fileName o.file) o.mode).1 = .error d := by rw [hp]
      -- Whether the tokens or the program are refused, the status is the same.
      have hstatus : ({ o with tokens := true }.checkText text).status = 1 := by
        cases hts : tokenize text (CommandLine.fileName o.file) with
        | error d' =>
          rw [hts] at hwith
          rw [CommandLine.Options.checkText_of_listing_error hwith]
          rfl
        | ok ts =>
          rw [hts] at hwith
          rw [CommandLine.Options.checkText_of_error hwith hparse]
          rfl
      rw [hstatus, CommandLine.Options.checkText_of_error hwithout hparse]
      exact ⟨rfl, nofun⟩
    · have hparse : (parseText text (CommandLine.fileName o.file) o.mode).1 = .ok b := by rw [hp]
      have hts := (exists_tokenize_of_parseText hp).1
      rw [hts] at hwith
      rw [CommandLine.Options.checkText_of_ok hwith hparse,
        CommandLine.Options.checkText_of_ok hwithout hparse]
      exact ⟨rfl, fun _ => ⟨_, hts, congrArg (_ ++ ·) (String.empty_append).symm⟩⟩

/-- A program that is printed back has its tokens listed before it, and one more token behind
its end is left as it is. -/
theorem parseText_tokens_print :
    let o : CommandLine.Options := ⟨"dir/p", .lexical, false, false, true⟩
    (∃ b p, parseText "print(1);" "p" .lexical = (.ok b, p) ∧
      parse ⟨(Cursor.ofText "print(1);").readings ++ [⟨.endAt 7, 7⟩], 1⟩ "p" .lexical =
        (.ok b, p.moved ⟨⟨.endAt 7, 7⟩, []⟩ p.symbols)) ∧
    ({ o with tokens := true }.checkText "print(1);").status = 0 ∧
    ∃ ts, tokenize "print(1);" "p" = .ok ts ∧
      ({ o with tokens := true }.checkText "print(1);").out =
        Text.unlines (ts.map Token.listing) ++ (o.checkText "print(1);").out := by
  intro o
  obtain ⟨b, p, hp⟩ : ∃ b p, parseText "print(1);" "p" .lexical = (.ok b, p) :=
    exists_parseText (by decide +kernel)
  obtain ⟨_, -, -, -, hlater⟩ := (parseText_tokens "print(1);").1 "p" .lexical b p hp
  have hstatus : ({ o with tokens := true }.checkText "print(1);").status = 0 := by
    decide +kernel
  have hname : CommandLine.fileName o.file = "p" := by decide +kernel
  obtain ⟨ts, hts, hout⟩ := ((parseText_tokens "print(1);").2 o).2 hstatus
  rw [hname] at hts
  exact ⟨⟨b, p, hp, hlater ⟨⟨.endAt 7, 7⟩, []⟩⟩, hstatus, ts, hts, hout⟩

end Scriptlet
