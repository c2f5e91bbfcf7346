import Scriptlet.Proofs.Partition
import Scriptlet.Proofs.Settled

/-!
# Two sources for one program

A program may be read from its text or from the tokens of its text. Both sources give the same
tokens, but only the first knows on which line a quoted text of several lines ends. So both read
the same program or find the same fault, and declare the same variables; they may differ in where
a fault is reported and in the stamps of operators. Without quoted texts of several lines they do
not differ at all.

## What is proved

* `Rule.Steady.within` — what the grammar reads does not depend on where tokens end, but for
  stamps.
* `Scanner.Cuts.readings` — the readings of a text are the tokens of its pieces, each with the line
  on which it ends.
* `parse_ofTokens` — reading from the tokens of a text is reading from the text.
-/

namespace Scriptlet

namespace Rule.Steady

/-! ### Chains -/

variable {σ ν : Type}

section

variable {op? : TokenKind → Option BinaryOp} {operand : Rule σ (Expr ν)}

theorem operation? (ho : Steady operand Expr.unstamped) {left left' : Expr ν}
    (hleft : left.unstamped = left'.unstamped) :
    Alike (Grammar.operation? op? operand left) (Grammar.operation? op? operand left')
      (Option.map Expr.unstamped) := by
  refine kind.bind_same fun kind => ?_
  split
  · exact .pure rfl
  · refine operator.bind_any fun _ _ => ho.bind fun right right' hright => .pure ?_
    simp [Expr.unstamped, hleft, hright]

theorem chain (ho : Steady operand Expr.unstamped) :
    Steady (Grammar.chain op? operand) Expr.unstamped :=
  ho.bind fun _ _ hfirst => .grow (fun _ _ hleft => operation? ho hleft) hfirst

theorem pair (ho : Steady operand Expr.unstamped) :
    Steady (Grammar.pair op? operand) Expr.unstamped := by
  rw [Grammar.pair_eq]
  exact ho.bind fun _ _ hfirst => .growWithin (fun _ _ hleft => operation? ho hleft) 1 hfirst

end

/-- The rules for the phrases inside a phrase are steady, up to stamps. -/
structure Holds (inner : Inner σ ν) : Prop where
  expression : Steady inner.expression Expr.unstamped
  element : Steady inner.element Element.unstamped
  command : Steady inner.command Command.unstamped

variable {inner : Inner σ ν}

/-! ### Phrases without names -/

theorem constant : Steady (Grammar.constant : Rule σ (Expr ν)) Expr.unstamped := by
  refine advance.bind_same fun token => ?_
  split
  · exact pure _
  · exact .failAt _ _ _

theorem call (hi : Holds inner) : Steady (Grammar.call inner) Expr.unstamped := by
  refine advance.bind_same fun token => ?_
  split
  · exact .failAt _ _ _
  · refine hi.expression.parenthesized.bind fun a a' ha => .pure ?_
    simp [Expr.unstamped, ha]

theorem subscript? (hi : Holds inner) {base base' : Expr ν}
    (hbase : base.unstamped = base'.unstamped) :
    Alike (Grammar.subscript? inner base) (Grammar.subscript? inner base')
      (Option.map Expr.unstamped) := by
  refine kind.bind_same fun kind => ?_
  split
  · refine operator.bind_any fun _ _ => hi.expression.bind fun s s' hs => ?_
    refine (expect _).bind_same fun _ => .pure ?_
    simp [Expr.unstamped, hbase, hs]
  · exact .pure rfl

theorem list (hi : Holds inner) : Steady (Grammar.list inner) Expr.unstamped := by
  refine (expect _).bind_same fun start => ?_
  refine (hi.element.itemsUntil .closeBracket).bind fun es es' hes => ?_
  refine (expect _).bind_same fun _ => .pure ?_
  rw [Expr.unstamped_list, Expr.unstamped_list, hes]

theorem entry (hi : Holds inner) :
    Steady (Grammar.entry inner) (Prod.map Expr.unstamped Expr.unstamped) := by
  refine hi.expression.bind fun key key' hkey => (expect _).bind_same fun _ => ?_
  refine hi.expression.bind fun value value' hvalue => .pure ?_
  rw [Prod.map, Prod.map, hkey, hvalue]

theorem map (hi : Holds inner) : Steady (Grammar.map inner) Expr.unstamped := by
  refine (expect _).bind_same fun start => ?_
  refine ((entry hi).itemsUntil .closeCurly).bind fun es es' hes => ?_
  refine (expect _).bind_same fun _ => .pure ?_
  rw [Expr.unstamped_map, Expr.unstamped_map, hes]

theorem loopHeader (hi : Holds inner) :
    Steady (Grammar.loopHeader inner) (Prod.map (id : Token → Token) Expr.unstamped) := by
  refine parenthesized ((expect _).bind_same fun name => (expect _).bind_same fun _ => ?_)
  refine hi.expression.bind fun a a' ha => .pure ?_
  rw [Prod.map, Prod.map, ha]

/-! ### Simple commands -/

theorem code (hi : Holds inner) : Steady (Grammar.code inner) Block.unstamped := by
  refine peek.bind_same fun start => (collect (g := Command.unstamped) ?_).bind
    fun body body' hbody => .pure ?_
  · refine dispatch.bind_same fun tables => kind.bind_same fun kind => ?_
    split
    · exact hi.command.bind fun c c' hc => .pure (congrArg some hc)
    · exact pure none
  · rw [Block.unstamped_eq, Block.unstamped_eq, hbody]

theorem print (hi : Holds inner) : Steady (Grammar.print inner) Command.unstamped := by
  refine advance.bind_same fun start => ?_
  refine (parenthesized (g := Option.map Expr.unstamped) ?_).bind fun value value' hvalue => ?_
  · refine dispatch.bind_same fun tables => kind.bind_same fun kind => ?_
    split
    · exact hi.expression.bind fun a a' ha => .pure (congrArg some ha)
    · exact pure none
  · refine (expect _).bind_same fun _ => .pure ?_
    simp only [Command.unstamped, hvalue]

theorem assertion (hi : Holds inner) : Steady (Grammar.assertion inner) Command.unstamped := by
  refine advance.bind_same fun start => ?_
  refine (parenthesized (g := Prod.map Expr.unstamped (Option.map Expr.unstamped)) ?_).bind
    fun x x' hx => ?_
  · refine hi.expression.bind fun c c' hc => (accept _).bind_same fun comma => ?_
    cases comma with
    | true => exact hi.expression.bind fun m m' hm => .pure (by simp [hc, hm])
    | false => exact .pure (by simp [hc])
  · obtain ⟨hc, hm⟩ := Prod.mk.inj hx
    refine (expect _).bind_same fun _ => .pure ?_
    simp only [Command.unstamped, hc, hm]

theorem assignment (hi : Holds inner) : Steady (Grammar.assignment inner) Command.unstamped := by
  refine peek.bind_same fun start => hi.expression.bind fun e e' he => ?_
  refine position.bind_any fun here here' => (accept _).bind_same fun assigned => ?_
  cases assigned with
  | true =>
    -- Whether it may be assigned to is the same for both, as their stamps do not matter.
    have htarget : (Grammar.targetOf (start.kind = .symbol .openParen) e).map Target.unstamped =
        (Grammar.targetOf (start.kind = .symbol .openParen) e').map Target.unstamped := by
      rw [← Grammar.targetOf_unstamped, he, Grammar.targetOf_unstamped]
    rw [if_pos rfl, if_pos rfl]
    cases ht : Grammar.targetOf (start.kind = .symbol .openParen) e with
    | error fault =>
      cases ht' : Grammar.targetOf (start.kind = .symbol .openParen) e' with
      | error fault' =>
        rw [ht, ht'] at htarget
        exact .fail (Except.error.inj htarget)
      | ok target' =>
        rw [ht, ht'] at htarget
        cases htarget
    | ok target =>
      cases ht' : Grammar.targetOf (start.kind = .symbol .openParen) e' with
      | error fault' =>
        rw [ht, ht'] at htarget
        cases htarget
      | ok target' =>
        rw [ht, ht'] at htarget
        have htarget' : target.unstamped = target'.unstamped := Except.ok.inj htarget
        refine hi.expression.bind fun a a' ha => (expect _).bind_same fun _ => .pure ?_
        simp [Command.unstamped, htarget', ha]
  | false =>
    refine (expect _).bind_same fun _ => .pure ?_
    simp [Command.unstamped, he]

variable [Scoping σ ν]

/-! ### Operands and operators -/

theorem place (hi : Holds inner) : Steady (Grammar.place inner) Expr.unstamped := by
  refine (expect _).bind_same fun name => (resolve name).bind_same fun v => ?_
  exact .grow (fun _ _ hbase => subscript? hi hbase) rfl

theorem operandOf (hi : Holds inner) (form : OperandForm) :
    Steady (Grammar.operandOf inner form) Expr.unstamped := by
  cases form with
  | constant => exact constant
  | call => exact call hi
  | place => exact place hi
  | list => exact list hi
  | map => exact map hi

theorem operand (hi : Holds inner) : Steady (Grammar.operand inner) Expr.unstamped := by
  refine dispatch.bind_same fun tables => kind.bind_same fun kind => ?_
  split
  · exact operandOf hi _
  · exact unexpected

theorem primary (hi : Holds inner) : Steady (Grammar.primary inner) Expr.unstamped := by
  refine kind.bind_same fun kind => ?_
  split
  · exact hi.expression.parenthesized
  · exact operand hi

theorem factor (hi : Holds inner) : Steady (Grammar.factor inner) Expr.unstamped := by
  rw [Grammar.factor_eq]
  refine (primary hi).bind fun value value' hvalue => kind.bind_same fun kind => ?_
  split
  · exact .pure hvalue
  · refine operator.bind_any fun _ _ => .pure ?_
    simp [Expr.unstamped, hvalue]

theorem signed (hi : Holds inner) : Steady (Grammar.signed inner) Expr.unstamped := by
  refine kind.bind_same fun kind => ?_
  split
  · exact factor hi
  · refine operator.bind_any fun _ _ => (factor hi).bind fun a a' ha => .pure ?_
    simp [Expr.unstamped, ha]

theorem condition (hi : Holds inner) : Steady (Grammar.condition inner) Expr.unstamped :=
  chain (pair (chain (chain (signed hi))))

theorem fallback (hi : Holds inner) : Steady (Grammar.fallback inner) Expr.unstamped :=
  pair (condition hi)

theorem clause (hi : Holds inner) : Steady (Grammar.clause inner) Element.unstamped := by
  refine kind.bind_same fun kind => ?_
  split
  · refine advance.bind_same fun _ => hi.expression.bind fun a a' ha => .pure ?_
    simp only [Element.unstamped, ha]
  · refine advance.bind_same fun start => ?_
    refine hi.expression.parenthesized.bind fun c c' hc => ?_
    refine hi.element.bind fun a a' ha => (accept _).bind_same fun hasElse => ?_
    cases hasElse with
    | true =>
      refine hi.element.bind fun b b' hb => .pure ?_
      simp only [Element.unstamped, hc, ha, hb]
    | false =>
      refine .pure ?_
      simp only [Element.unstamped, hc, ha]
  · refine advance.bind_same fun start => (loopHeader hi).bind fun x x' hx => ?_
    obtain ⟨name, a⟩ := x
    obtain ⟨name', a'⟩ := x'
    obtain ⟨rfl, ha⟩ := Prod.mk.inj hx
    refine (hi.element.withLoopVariable name).bind fun y y' hy => .pure ?_
    obtain ⟨hv, he⟩ := Prod.mk.inj hy
    simp only [Element.unstamped, id_eq] at ha hv ⊢
    rw [ha, hv, he]
  · refine hi.expression.bind fun a a' ha => .pure ?_
    simp only [Element.unstamped, ha]

/-! ### Bodies, declarations and loops -/

theorem body (hi : Holds inner) : Steady (Grammar.body inner) Command.unstamped := by
  refine kind.bind_same fun kind => ?_
  split
  · refine advance.bind_same fun start => (inScope (code hi)).bind fun b b' hb => ?_
    refine (expect _).bind_same fun _ => .pure ?_
    simp only [Block.unstamped_eq, Block.mk.injEq] at hb
    simp only [Command.unstamped_block, Block.unstamped_eq, hb.1, hb.2.1]
  · exact hi.command

theorem declarator (hi : Holds inner) (constant : Bool) (nullability : Nullability) :
    Steady (Grammar.declarator inner constant nullability)
      (Prod.map (id : ν → ν) (Option.map Command.unstamped)) := by
  refine (expect _).bind_same fun name => ?_
  refine (declare name constant nullability).bind_same fun v => ?_
  refine (accept _).bind_same fun assigned => ?_
  cases assigned with
  | true =>
    refine hi.expression.bind fun a a' ha => .pure ?_
    simp [Command.unstamped, ha]
  | false => exact pure (v, none)

theorem varAfter (isFinal : Bool) : Steady (σ := σ) (Grammar.varAfter isFinal) id := by
  cases isFinal with
  | false => exact pure ()
  | true => exact (expect _).bind_same fun _ => pure ()

theorem nullability : Steady (σ := σ) Grammar.nullability id := by
  refine (accept _).bind_same fun marked => ?_
  cases marked with
  | true => exact pure _
  | false => exact pure _

theorem declaration (hi : Holds inner) :
    Steady (Grammar.declaration inner) Command.unstamped := by
  refine advance.bind_same fun start => (varAfter _).bind_same fun _ => ?_
  refine nullability.bind_same fun mark => ?_
  refine (declarator hi _ mark).commaSeparated.bind fun ds ds' hds => ?_
  refine (expect _).bind_same fun _ => .pure ?_
  have hnames := congrArg (List.map Prod.fst) hds
  have hvalues := congrArg (List.filterMap Prod.snd) hds
  simp only [List.map_map, List.filterMap_map] at hnames hvalues
  have hfst : (Prod.fst ∘ Prod.map (id : ν → ν) (Option.map Command.unstamped)) =
      (Prod.fst : ν × Option (Command ν) → ν) := rfl
  have hsnd : (Prod.snd ∘ Prod.map (id : ν → ν) (Option.map Command.unstamped)) =
      fun d : ν × Option (Command ν) => d.2.map Command.unstamped := rfl
  rw [hfst] at hnames
  rw [hsnd] at hvalues
  simp only [Command.unstamped_block, Block.unstamped_eq, List.map_filterMap, hnames, hvalues]

theorem conditional (hi : Holds inner) :
    Steady (Grammar.conditional inner) Command.unstamped := by
  refine advance.bind_same fun start => ?_
  refine hi.expression.parenthesized.bind fun c c' hc => ?_
  refine (body hi).bind fun a a' ha => (accept _).bind_same fun hasElse => ?_
  cases hasElse with
  | true =>
    refine (body hi).bind fun b b' hb => .pure ?_
    simp only [Command.unstamped, hc, ha, hb]
  | false =>
    refine .pure ?_
    simp only [Command.unstamped, hc, ha]

theorem whileLoop (hi : Holds inner) : Steady (Grammar.whileLoop inner) Command.unstamped := by
  refine advance.bind_same fun start => ?_
  refine hi.expression.parenthesized.bind fun c c' hc => (body hi).bind fun a a' ha => .pure ?_
  simp only [Command.unstamped, hc, ha]

theorem doWhileLoop (hi : Holds inner) :
    Steady (Grammar.doWhileLoop inner) Command.unstamped := by
  refine advance.bind_same fun start => (body hi).bind fun a a' ha => ?_
  refine (expect _).bind_same fun _ => hi.expression.parenthesized.bind fun c c' hc => ?_
  refine (expect _).bind_same fun _ => .pure ?_
  simp only [Command.unstamped, hc, ha]

theorem forLoop (hi : Holds inner) : Steady (Grammar.forLoop inner) Command.unstamped := by
  refine advance.bind_same fun start => (loopHeader hi).bind fun x x' hx => ?_
  obtain ⟨name, a⟩ := x
  obtain ⟨name', a'⟩ := x'
  obtain ⟨rfl, ha⟩ := Prod.mk.inj hx
  refine ((body hi).withLoopVariable name).bind fun y y' hy => .pure ?_
  obtain ⟨hv, hb⟩ := Prod.mk.inj hy
  simp only [Command.unstamped, id_eq] at ha hv ⊢
  rw [ha, hv, hb]

theorem commandOf (hi : Holds inner) (form : CommandForm) :
    Steady (Grammar.commandOf inner form) Command.unstamped := by
  cases form with
  | declaration => exact declaration hi
  | print => exact print hi
  | assertion => exact assertion hi
  | conditional => exact conditional hi
  | whileLoop => exact whileLoop hi
  | doWhileLoop => exact doWhileLoop hi
  | forLoop => exact forLoop hi
  | assignment => exact assignment hi

theorem anyCommand (hi : Holds inner) : Steady (Grammar.anyCommand inner) Command.unstamped := by
  refine dispatch.bind_same fun tables => kind.bind_same fun first => ?_
  split
  next form _ => exact commandOf hi form
  next =>
    split
    · exact assignment hi
    · exact unexpected

/-! ### The grammar as a whole -/

/-- What the grammar reads does not depend on where tokens end, but for stamps. -/
theorem within (n : Nat) : Holds (Inner.within n : Inner σ ν) := by
  induction n with
  | zero => exact ⟨tooDeep, tooDeep, tooDeep⟩
  | succ n ih => exact ⟨(fallback ih).nested, (clause ih).nested, (anyCommand ih).nested⟩

theorem program : Steady (Grammar.program : Rule σ (Block ν)) Block.unstamped := by
  refine (code (within maxDepth)).bind fun b b' hb => ?_
  exact (expect .endOfInput).bind_same fun _ => .pure hb

end Rule.Steady

/-! ### The readings of a text -/

/-- The readings of a text end with the mark of the end, on the last line. -/
theorem Cursor.readings_ofText (text : String) :
    ∃ b, (ofText text).readings =
      b ++ [⟨.endAt (1 + Text.lineEnds text.toList), 1 + Text.lineEnds text.toList⟩] := by
  have hstands := Scanner.standsBetween_ofText text
  obtain ⟨pieces, last, h⟩ := Scanner.exists_cut hstands
  exact ⟨_, h.readings hstands⟩

/-- A text without quoted texts of several lines has settled readings. -/
theorem Scanner.Cuts.settled_readings {text file : String} {ts : List Token}
    {pieces : List Piece} {last : List Char}
    (h : (Scanner.ofText text).Cuts [] text.toList pieces last)
    (hts : tokenize text file = .ok ts)
    (hline : ∀ p ∈ pieces, p.token.kind = .text → '\n' ∉ p.lexeme) :
    ∀ r ∈ (Cursor.ofText text).readings, r.settled = r := by
  intro r hr
  obtain ⟨rfl, hkinds⟩ := tokenize_eq_ok_iff.1 hts
  have hcut := (hkinds r.token (List.mem_map_of_mem hr)).2
  have hreadings : (Cursor.ofText text).readings = _ := h.readings (standsBetween_ofText text)
  rw [hreadings] at hr
  rcases List.mem_append.1 hr with hr | hr
  · obtain ⟨n, hn, rfl⟩ := List.mem_mapIdx.1 hr
    have hfits := (h.pull n hn).1
    have hlexeme : '\n' ∉ pieces[n].lexeme := by
      by_cases hkind : pieces[n].token.kind = .text
      · exact hline _ (List.getElem_mem hn) hkind
      · exact hfits.oneLine hkind hcut
    have hzero : Text.lineEnds pieces[n].lexeme = 0 := List.count_eq_zero.2 hlexeme
    have htexts : Piece.texts (pieces.take (n + 1)) =
        Piece.texts (pieces.take n) ++ pieces[n].gap ++ pieces[n].lexeme := by
      rw [List.take_succ_eq_append_getElem hn]
      simp only [Piece.texts, Piece.text, List.flatMap_append, List.flatMap_singleton,
        List.append_assoc]
    simp [Reading.settled, hfits.line hcut, htexts, hzero]
  · rw [List.mem_singleton.1 hr]
    rfl

namespace TokenSource

/-- The tokens of a text are its readings, settled. -/
theorem ofTokens_tokenize {text file : String} {ts : List Token}
    (h : tokenize text file = .ok ts) :
    ofTokens ts = ⟨(Cursor.ofText text).readings.map Reading.settled, 1⟩ := by
  obtain ⟨rfl, -⟩ := tokenize_eq_ok_iff.1 h
  obtain ⟨b, hb⟩ := Cursor.readings_ofText text
  have hclosed : closed ((Cursor.ofText text).readings.map Reading.token) =
      (Cursor.ofText text).readings.map Reading.token := by
    simp [closed, hb, Token.endAt]
  rw [ofTokens, hclosed, List.map_map]
  rfl

/-- A parser that starts with the tokens of a text is one that starts with the text, settled. -/
theorem start_ofTokens {σ : Type} {text file : String} {ts : List Token}
    (h : tokenize text file = .ok ts) (s : σ) (dispatch : Dispatch) :
    Parser.start (ofTokens ts) file s dispatch =
      (Parser.start (ofText text) file s dispatch).settled ∧
    (Parser.start (ofText text) file s dispatch).tape.EndsSettled := by
  obtain ⟨b, hb⟩ := Cursor.readings_ofText text
  rw [ofTokens_tokenize h]
  unfold ofText
  rw [hb]
  cases b with
  | nil =>
    refine ⟨rfl, ?_⟩
    rintro r ⟨⟩
    rfl
  | cons r rest =>
    refine ⟨rfl, fun r' hr' => ?_⟩
    have hlast : (r :: (rest ++ [⟨.endAt (1 + Text.lineEnds text.toList),
      1 + Text.lineEnds text.toList⟩])).getLast? = some r' := hr'
    rw [← List.cons_append, List.getLast?_concat] at hlast
    cases hlast
    rfl

end TokenSource

/-! ### Programs -/

/-- Reading a program from the tokens of a text is reading it from the text: both succeed, with
trees that are the same but for stamps, or both fail with the same fault, and the variables are
the same. If no quoted text goes over the end of a line, all is the same: the tree, the position of
the fault, and the parser as it is left. -/
theorem parse_ofTokens {text file : String} {ts : List Token} (mode : ScopeMode)
    (hts : tokenize text file = .ok ts) :
    SameUpTo Block.unstamped (parse (.ofText text) file mode).1 (parse (.ofTokens ts) file mode).1 ∧
    (parse (.ofTokens ts) file mode).2.symbols = (parse (.ofText text) file mode).2.symbols ∧
    ∀ pieces last, (Scanner.ofText text).Cuts [] text.toList pieces last →
      (∀ p ∈ pieces, p.token.kind = .text → '\n' ∉ p.lexeme) →
      parse (.ofTokens ts) file mode = parse (.ofText text) file mode := by
  obtain ⟨hstart, hends⟩ :=
    TokenSource.start_ofTokens hts (SymbolTable.empty mode) Dispatch.standard
  obtain ⟨hsame, hleft, -⟩ := Rule.Steady.program (ν := Variable) _ hends
  rw [← hstart] at hsame hleft
  have hsymbols := congrArg Parser.symbols hleft
  refine ⟨hsame, hsymbols, fun pieces last hcut hline => ?_⟩
  have hsettled := (List.map_congr_left (hcut.settled_readings hts hline)).trans (List.map_id _)
  rw [TokenSource.ofTokens_tokenize hts, hsettled]
  rfl

/-- A fault at a quoted text of two lines is the same from both sources, but one has reached its
second line and the other has not. With quoted texts of one line nothing is different. -/
theorem parse_ofTokens_lines :
    (∃ ts, tokenize "print(1 \"a\nb\");" "p" = .ok ts ∧
      SameUpTo Block.unstamped (parse (.ofText "print(1 \"a\nb\");") "p" .flat).1
        (parse (.ofTokens ts) "p" .flat).1 ∧
      (parse (.ofText "print(1 \"a\nb\");") "p" .flat).2.source.line = 2 ∧
      (parse (.ofTokens ts) "p" .flat).2.source.line = 1) ∧
    ∃ ts, tokenize "print(1 \"ab\");" "p" = .ok ts ∧
      parse (.ofTokens ts) "p" .flat = parse (.ofText "print(1 \"ab\");") "p" .flat := by
  have hok : (tokenize "print(1 \"a\nb\");" "p").isOk = true ∧
      (tokenize "print(1 \"ab\");" "p").isOk = true := by decide +kernel
  constructor
  · cases hts : tokenize "print(1 \"a\nb\");" "p" with
    | error d => simp [hts, Except.isOk, Except.toBool] at hok
    | ok ts =>
      refine ⟨ts, rfl, (parse_ofTokens .flat hts).1, by decide +kernel, ?_⟩
      rw [TokenSource.ofTokens_tokenize hts]
      decide +kernel
  · obtain ⟨pieces, last, hcut⟩ := Scanner.exists_cut
      (Scanner.standsBetween_ofText "print(1 \"ab\");")
    cases hts : tokenize "print(1 \"ab\");" "p" with
    | error d => simp [hts, Except.isOk, Except.toBool] at hok
    | ok ts =>
      refine ⟨ts, rfl, (parse_ofTokens .flat hts).2.2 pieces last hcut fun p hp _ hmem => ?_⟩
      have hmem' : '\n' ∈ "print(1 \"ab\");".toList := by
        rw [hcut.text]
        refine List.mem_append_left _ (List.mem_flatMap.2 ⟨p, hp, ?_⟩)
        exact List.mem_append_right _ hmem
      exact absurd hmem' (by decide)

end Scriptlet
