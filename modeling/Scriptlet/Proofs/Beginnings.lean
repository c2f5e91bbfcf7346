import Scriptlet.Proofs.Form
import Scriptlet.Proofs.Locality
import Scriptlet.Proofs.Productions

/-!
# What is taken begins a phrase

Each rule of the grammar takes tokens of a phrase. If it succeeds, the kinds of the tokens
that it has taken are those of a phrase by the productions. If it fails because of a token,
they are the beginning of one: the token in hand is the first that may be wrong.

## The model

`Rule.Recognizes r o p W Q` says so of the rule `r` at the parser `p`, where `W` is the set of
rows of tokens and phrases, one of which the rule is to read, and `Q` is what else is known
of its result and of the tape that it leaves. The dispatch tables are those of the language,
and the tokens are spelled as their kinds are. The tape `o` is that of the whole text: whatever
the reason for which a rule fails, `Diagnostic.Accounted` shows what on this tape it is.

## What is proved

* `Inner.recognizes_within` — expressions, elements and commands, at any number of levels.
* `Grammar.program_refused` — programs that are refused, and why.
-/

namespace Scriptlet

/-- The fault is that a token stands where it may not, or that one is missing. -/
def Fault.IsSyntactic : Fault → Prop
  | .invalidLexeme _ | .unexpectedEnd | .unexpectedLexeme _ => True
  | .duplicateDeclaration _ | .undeclaredName _ | .invalidTarget _ | .tooDeep _ => False

theorem Fault.IsOfName.not_isSyntactic {f : Fault} (h : f.IsOfName) : ¬ f.IsSyntactic := by
  obtain ⟨name, rfl | rfl⟩ := h
  · exact id
  · exact id

/-! ### Stretches of a tape -/

namespace Tape

/-- The tokens on the tape from one place up to another have these kinds. -/
abbrev Shows : Tape → List TokenKind → Tape → Prop := Follows fun k t => t.kind = k

/-- The tokens from one place up to another are a row of these items. -/
def Spans (i : Tape) (w : List Item) (m : Tape) : Prop := ∃ ks, i.Shows ks m ∧ Generates w ks

/-- The tokens from one place up to another are the beginning of a row of these items. -/
def Begins (i : Tape) (w : List Item) (m : Tape) : Prop := ∃ ks, i.Shows ks m ∧ Opens w ks

variable {i m o r : Tape} {u v w : List Item} {n : PhraseKind}

theorem Spans.nil : i.Spans [] i := ⟨[], rfl, .nil⟩

theorem Spans.token {k : TokenKind} (h : i.kind = k) : i.Spans [.token k] i.next :=
  ⟨[k], ⟨h, rfl⟩, .terminal k⟩

theorem Spans.append (hu : i.Spans u m) (hv : m.Spans v r) : i.Spans (u ++ v) r := by
  obtain ⟨ks, hks, hu⟩ := hu
  obtain ⟨ks', hks', hv⟩ := hv
  exact ⟨ks ++ ks', follows_append.2 ⟨m, hks, hks'⟩, hu.append hv⟩

theorem Spans.of_production (hw : w ∈ n.productions) (h : i.Spans w m) :
    i.Spans [.phrase n] m := by
  obtain ⟨ks, hks, h⟩ := h
  exact ⟨ks, hks, generates_of_production hw h⟩

/-- Where nothing is taken yet, any row may begin. -/
theorem Begins.here (i : Tape) (w : List Item) : i.Begins w i :=
  ⟨[], rfl, .nil (g := grammar) w⟩

theorem Begins.append_right (h : i.Begins u m) (v : List Item) : i.Begins (u ++ v) m := by
  obtain ⟨ks, hks, h⟩ := h
  exact ⟨ks, hks, h.append_right v⟩

theorem Spans.append_begins (hu : i.Spans u m) (hv : m.Begins v r) : i.Begins (u ++ v) r := by
  obtain ⟨ks, hks, hu⟩ := hu
  obtain ⟨ks', hks', hv⟩ := hv
  exact ⟨ks ++ ks', follows_append.2 ⟨m, hks, hks'⟩, hu.append_opens hv⟩

theorem Begins.of_production (hw : w ∈ n.productions) (h : i.Begins w m) :
    i.Begins [.phrase n] m := by
  obtain ⟨ks, hks, h⟩ := h
  exact ⟨ks, hks, opens_of_production hw h⟩

/-- The first tape is what is left of the second from some place on. -/
def RestOf (i o : Tape) : Prop := ∃ n, i = o.skip n

theorem RestOf.refl (o : Tape) : o.RestOf o := ⟨0, rfl⟩

theorem RestOf.next (h : i.RestOf o) : i.next.RestOf o := by
  obtain ⟨n, rfl⟩ := h
  exact ⟨n + 1, (skip_add o n 1).symm⟩

theorem RestOf.of_shows {ks : List TokenKind} (hi : i.RestOf o) (h : i.Shows ks m) :
    m.RestOf o := by
  induction ks generalizing i with
  | nil =>
    obtain rfl : i = m := h
    exact hi
  | cons k ks ih => exact ih hi.next h.2

/-- What is true of the readings of a tape and of the mark of the end is true of those left. -/
theorem RestOf.forall_readings {P : Reading → Prop} (h : i.RestOf o)
    (hend : ∀ line, P ⟨.endAt line, line⟩) (ho : ∀ r ∈ o.readings, P r) :
    ∀ r ∈ i.readings, P r := by
  obtain ⟨n, rfl⟩ := h
  induction n generalizing o with
  | zero => exact ho
  | succ n ih =>
    refine ih fun r hr => ?_
    obtain ⟨hand, _ | ⟨r', rest⟩⟩ := o
    · rw [List.mem_singleton.1 hr]
      exact hend _
    · exact ho r (List.mem_cons_of_mem _ hr)

/-- What is true of the next reading from every place on, and of the mark of the end, is true of
the reading in hand. -/
theorem RestOf.hand {text : String} {P : Reading → Prop} (h : i.RestOf (.ofText text))
    (hend : ∀ line, P ⟨.endAt line, line⟩) (hnext : ∀ c : Cursor, P ⟨c.next.1, c.next.2.line⟩) :
    P i.hand := by
  refine h.forall_readings hend ?_ i.hand List.mem_cons_self
  rw [readings_ofText]
  exact Cursor.forall_readings hnext _

theorem RestOf.isSpelled (h : i.RestOf o) (ho : o.IsSpelled) : i.IsSpelled :=
  h.forall_readings Token.isSpelled_endAt ho

/-- Behind the token in hand there is nothing more than the rest of the header of a loop. -/
def Introduces (i r : Tape) : Prop :=
  r = i.next ∨ i.next.kind = .keyword .inWord ∧
    ∃ m, i.next.next.Spans [.expression] m ∧ m.kind = .symbol .closeParen ∧ r = m.next

theorem RestOf.introduces (h : i.RestOf o) (hr : i.Introduces r) : r.RestOf o := by
  rcases hr with rfl | ⟨-, m, ⟨ks, hks, -⟩, -, rfl⟩
  · exact h.next
  · exact (h.next.next.of_shows hks).next

/-- The token is a name on the tape `o`, and is declared when `r` is left of it. -/
def Names (o r : Tape) (t : Token) : Prop :=
  ∃ i : Tape, i.RestOf o ∧ i.kind = .name ∧ i.Introduces r ∧ t = i.hand.token

theorem RestOf.names (h : i.RestOf o) (hk : i.kind = .name) (hr : i.Introduces r) :
    o.Names r i.hand.token :=
  ⟨i, h, hk, hr, rfl⟩

end Tape

/-! ### Recognizing -/

variable {σ ν α β : Type}

/-- Why reading the tape `o` has failed, where `q` is the parser that is left. -/
inductive Diagnostic.Accounted (o : Tape) (q : Parser σ) : Diagnostic → Prop
  /-- The token in hand fits nowhere. -/
  | unexpected (hq : q.tape.RestOf o) : Accounted o q q.unexpected
  /-- Too much is open where the token in hand ends. -/
  | tooDeep (hq : q.tape.RestOf o) : Accounted o q ⟨.tooDeep maxDepth, q.position⟩
  /-- A name that has been read is declared a second time. -/
  | duplicate {t : Token} (ht : o.Names q.tape t) :
    Accounted o q ⟨.duplicateDeclaration t.value, t.line, q.file⟩
  /-- The name read last means nothing. -/
  | undeclared {i : Tape} (hi : i.RestOf o) (hk : i.kind = .name) (hq : q.tape = i.next) :
    Accounted o q ⟨.undeclaredName i.hand.token.value, i.hand.token.line, q.file⟩
  /-- What stands before the `=` read last cannot be assigned to. -/
  | target {i : Tape} (hi : i.RestOf o) (hk : i.kind = .symbol .assign) (hq : q.tape = i.next)
    {ν : Type} {parenthesized : Bool} {e : Expr ν} {fault : Fault}
    (hf : Grammar.targetOf parenthesized e = .error fault) :
    Accounted o q ⟨fault, i.hand.reached, q.file⟩

/-- What is open and the names known do not matter. -/
theorem Diagnostic.Accounted.updated {o : Tape} {q : Parser σ} {d : Diagnostic}
    (h : d.Accounted o q) (s : σ) (depth : Nat) :
    d.Accounted o { q with symbols := s, depth := depth } := by
  cases h with
  | unexpected hq => exact .unexpected hq
  | tooDeep hq => exact .tooDeep hq
  | duplicate ht => exact .duplicate ht
  | undeclared hi hk hq => exact .undeclared hi hk hq
  | target hi hk hq hf =>
    refine .target hi hk ?_ hf
    exact hq

/-- What the rule takes, from some place of the tape `o` on, is one of these rows of tokens and
phrases. If it fails because of a token, what it has taken is the beginning of one. Why it fails
is seen from the tape. -/
def Rule.Recognizes (r : Rule σ α) (o : Tape) (p : Parser σ) (W : List Item → Prop)
    (Q : α → Tape → Prop) : Prop :=
  p.dispatch = .standard → o.IsSpelled → p.tape.RestOf o →
    (∀ a q, r p = (.ok a, q) →
      ∃ m s, q = p.moved m s ∧ Q a m ∧ ∃ w, W w ∧ p.tape.Spans w m) ∧
    ∀ d q, r p = (.error d, q) → d.Accounted o q ∧
      (d.fault.IsSyntactic → ∃ w, W w ∧ p.tape.Begins w q.tape)

namespace Rule.Recognizes

variable {r : Rule σ α} {f : α → Rule σ β} {p : Parser σ} {o : Tape} {k : TokenKind} {a : α}
  {U W : List Item → Prop} {Q R : α → Tape → Prop} {S : β → Tape → Prop} {x : Item}

/-- Rows of one kind may be seen as rows of another. -/
theorem of_rows (h : r.Recognizes o p U Q)
    (hspans : ∀ w m, U w → p.tape.Spans w m → ∃ w', W w' ∧ p.tape.Spans w' m)
    (hbegins : ∀ w m, U w → p.tape.Begins w m → ∃ w', W w' ∧ p.tape.Begins w' m)
    (hQ : ∀ a m, Q a m → R a m) : r.Recognizes o p W R := by
  intro hp hs hi
  obtain ⟨hok, herror⟩ := h hp hs hi
  constructor
  · intro a q hr
    obtain ⟨m, s, hq, ha, w, hw, hm⟩ := hok a q hr
    exact ⟨m, s, hq, hQ a m ha, hspans w m hw hm⟩
  · intro d q hr
    refine ⟨(herror d q hr).1, fun hd => ?_⟩
    obtain ⟨w, hw, hq⟩ := (herror d q hr).2 hd
    exact hbegins w q.tape hw hq

theorem mono (h : r.Recognizes o p U Q) (hW : ∀ w, U w → W w) (hQ : ∀ a m, Q a m → R a m) :
    r.Recognizes o p W R :=
  h.of_rows (fun w _ hw hm => ⟨w, hW w hw, hm⟩) (fun w _ hw hm => ⟨w, hW w hw, hm⟩) hQ

theorem weaken (h : r.Recognizes o p W Q) : r.Recognizes o p W fun _ _ => True :=
  h.mono (fun _ hw => hw) fun _ _ _ => trivial

/-- Reading what a phrase stands for is reading the phrase. -/
theorem of_production {n : PhraseKind} (h : r.Recognizes o p (· ∈ n.productions) Q) :
    r.Recognizes o p (· = [.phrase n]) Q :=
  h.of_rows (fun _ _ hw hm => ⟨_, rfl, .of_production hw hm⟩)
    (fun _ _ hw hm => ⟨_, rfl, .of_production hw hm⟩) fun _ _ ha => ha

theorem of_spelled (h : p.tape.IsSpelled → r.Recognizes o p W Q) : r.Recognizes o p W Q :=
  fun hp hs hi => h (hi.isSpelled hs) hp hs hi

theorem of_rest (h : p.tape.RestOf o → r.Recognizes o p W Q) : r.Recognizes o p W Q :=
  fun hp hs hi => h hi hp hs hi

theorem pure (hW : W []) (ha : Q a p.tape) : (pure a : Rule σ α).Recognizes o p W Q := by
  refine fun _ _ _ => ⟨fun b q hr => ?_, fun d q hr => ?_⟩
  · cases hr
    exact ⟨p.tape, p.symbols, rfl, ha, [], hW, .nil⟩
  · cases hr

/-! ### Failing -/

/-- Failing on the spot, something can follow. -/
theorem of_error {d : Diagnostic} (h : r p = (.error d, p)) (hd : d.Accounted o p)
    (hW : d.fault.IsSyntactic → ∃ w, W w) : r.Recognizes o p W Q := by
  refine fun _ _ _ => ⟨fun a q hr => ?_, fun d' q hr => ?_⟩
  · rw [h] at hr
    cases hr
  · rw [h] at hr
    cases hr
    refine ⟨hd, fun hsyntactic => ?_⟩
    obtain ⟨w, hw⟩ := hW hsyntactic
    exact ⟨w, hw, .here _ w⟩

theorem unexpected (hW : ∃ w, W w) : (unexpected : Rule σ α).Recognizes o p W Q :=
  of_rest fun hrest => of_error rfl (.unexpected hrest) fun _ => hW

theorem tooDeep : (tooDeep : Rule σ α).Recognizes o p W Q :=
  of_rest fun hrest => of_error rfl (.tooDeep hrest) False.elim

/-! ### One thing after the other -/

/-- A rule that succeeds, and then what follows what it has taken. -/
theorem bind_ok {m : Tape} {s : σ} {u : List Item} (hr : r p = (.ok a, p.moved m s))
    (hm : p.tape.Spans u m) (h : (f a).Recognizes o (p.moved m s) (fun v => W (u ++ v)) S) :
    (r >>= f).Recognizes o p W S := by
  intro hp hs hi
  obtain ⟨ks, hks, -⟩ := id hm
  obtain ⟨hok, herror⟩ := h hp hs (hi.of_shows hks)
  rw [bind_apply_ok hr]
  constructor
  · intro b q hb
    obtain ⟨m', s', hq, hb, v, hv, hv'⟩ := hok b q hb
    exact ⟨m', s', hq, hb, u ++ v, hv, hm.append hv'⟩
  · intro d q hb
    refine ⟨(herror d q hb).1, fun hd => ?_⟩
    obtain ⟨v, hv, hv'⟩ := (herror d q hb).2 hd
    exact ⟨u ++ v, hv, hm.append_begins hv'⟩

/-- What comes first is a row of `U`, and may be another row when it is known. -/
theorem bind_of (hW : ∀ u, U u → ∃ v, W (u ++ v)) (hr : r.Recognizes o p U Q)
    (hf : ∀ a m s u, Q a m → U u → p.tape.Spans u m →
      ∃ u', p.tape.Spans u' m ∧ (f a).Recognizes o (p.moved m s) (fun v => W (u' ++ v)) S) :
    (r >>= f).Recognizes o p W S := by
  intro hp hs hi
  obtain ⟨hok, herror⟩ := hr hp hs hi
  rcases hrun : r p with ⟨d | a, q'⟩
  · rw [bind_apply_error hrun]
    refine ⟨fun b q hb => ?_, fun d' q hb => ?_⟩
    · cases hb
    · cases hb
      refine ⟨(herror _ _ hrun).1, fun hd => ?_⟩
      obtain ⟨u, hu, hq⟩ := (herror _ _ hrun).2 hd
      obtain ⟨v, hv⟩ := hW u hu
      exact ⟨u ++ v, hv, hq.append_right v⟩
  · obtain ⟨m, s, rfl, ha, u, hu, hm⟩ := hok _ _ hrun
    obtain ⟨u', hm', hfa⟩ := hf _ m s u ha hu hm
    exact bind_ok hrun hm' hfa hp hs hi

/-- One phrase, and then what may stand behind it. -/
theorem bind (hW : ∃ v, W (x :: v)) (hr : r.Recognizes o p (· = [x]) Q)
    (hf : ∀ a m s, Q a m → (f a).Recognizes o (p.moved m s) (fun v => W (x :: v)) S) :
    (r >>= f).Recognizes o p W S := by
  refine bind_of (fun u hu => ?_) hr fun a m s u ha hu hm => ⟨u, hm, ?_⟩
  · rwa [hu]
  · rw [hu]
    exact hf a m s ha

/-! ### Looking and reading tokens -/

section

variable {g : Token → Rule σ β} {b : Bool → Rule σ β}

theorem peek_bind (h : (g p.tape.hand.token).Recognizes o p W S) :
    (peek >>= g).Recognizes o p W S := h

theorem kind_bind {g : TokenKind → Rule σ β} (h : (g p.tape.kind).Recognizes o p W S) :
    (kind >>= g).Recognizes o p W S := h

theorem position_bind {g : Position → Rule σ β} (h : (g p.position).Recognizes o p W S) :
    (position >>= g).Recognizes o p W S := h

theorem dispatch_bind {g : Dispatch → Rule σ β} (h : (g .standard).Recognizes o p W S) :
    (dispatch >>= g).Recognizes o p W S := by
  intro hp
  have hrun : (Rule.dispatch >>= g) p = g .standard p := hp ▸ rfl
  rw [hrun]
  exact h hp

theorem advance_bind (hk : p.tape.kind = k)
    (h : (g p.tape.hand.token).Recognizes o (p.moved p.tape.next p.symbols)
      (fun v => W (.token k :: v)) S) : (advance >>= g).Recognizes o p W S :=
  bind_ok (advance_eq p) (.token hk) h

theorem operator_bind {g : Nat → Rule σ β} (hk : p.tape.kind = k)
    (h : (g p.tape.next.hand.reached).Recognizes o (p.moved p.tape.next p.symbols)
      (fun v => W (.token k :: v)) S) : (Grammar.operator >>= g).Recognizes o p W S :=
  bind_ok (Grammar.operator_eq p) (.token hk) h

theorem expect_bind (hW : ∃ v, W (.token k :: v))
    (h : p.tape.kind = k → (g p.tape.hand.token).Recognizes o (p.moved p.tape.next p.symbols)
      (fun v => W (.token k :: v)) S) : (expect k >>= g).Recognizes o p W S := by
  by_cases hk : p.tape.kind = k
  · exact bind_ok (expect_eq_of_kind hk) (.token hk) (h hk)
  · obtain ⟨v, hv⟩ := hW
    exact of_rest fun hrest =>
      of_error (bind_apply_error (expect_eq_of_kind_ne hk)) (.unexpected hrest) fun _ => ⟨_, hv⟩

theorem accept_bind
    (h : p.tape.kind = k → (b true).Recognizes o (p.moved p.tape.next p.symbols)
      (fun v => W (.token k :: v)) S)
    (h' : p.tape.kind ≠ k → (b false).Recognizes o p W S) :
    (accept k >>= b).Recognizes o p W S := by
  by_cases hk : p.tape.kind = k
  · exact bind_ok (accept_eq_of_kind hk) (.token hk) (h hk)
  · exact bind_ok (accept_eq_of_kind_ne hk) .nil (h' hk)

/-- A row of `U` in parentheses, and then what may stand behind it. -/
theorem parenthesized_bind_of {u : List Item} (hu : U u)
    (hW : ∀ u, U u → ∃ v, W (.symbol .openParen :: (u ++ .symbol .closeParen :: v)))
    (hr : r.Recognizes o (p.moved p.tape.next p.symbols) U Q)
    (hf : ∀ a m s u, U u → (f a).Recognizes o (p.moved m s)
      (fun v => W (.symbol .openParen :: (u ++ .symbol .closeParen :: v))) S) :
    (parenthesized r >>= f).Recognizes o p W S := by
  obtain ⟨v, hv⟩ := hW u hu
  unfold parenthesized
  rw [bind_assoc]
  refine .expect_bind ⟨_, hv⟩ fun _ => ?_
  rw [bind_assoc]
  refine .bind_of (fun u hu => ?_) hr fun a m s u _ hu hm => ⟨u, hm, ?_⟩
  · obtain ⟨v, hv⟩ := hW u hu
    exact ⟨_, hv⟩
  · obtain ⟨v, hv⟩ := hW u hu
    rw [bind_assoc]
    refine .expect_bind ⟨_, hv⟩ fun _ => ?_
    rw [pure_bind]
    exact hf a _ _ u hu

/-- A phrase in parentheses, and then what may stand behind it. -/
theorem parenthesized_bind
    (hW : ∃ v, W (.symbol .openParen :: x :: .symbol .closeParen :: v))
    (hr : r.Recognizes o (p.moved p.tape.next p.symbols) (· = [x]) Q)
    (hf : ∀ a m s, (f a).Recognizes o (p.moved m s)
      (fun v => W (.symbol .openParen :: x :: .symbol .closeParen :: v)) S) :
    (parenthesized r >>= f).Recognizes o p W S := by
  refine .parenthesized_bind_of (U := (· = [x])) rfl (fun u hu => ?_) hr fun a m s u hu => ?_
  · rwa [hu]
  · rw [hu]
    exact hf a m s

end

/-! ### Items with commas between them -/

section

variable {item : Rule σ α} {n l : PhraseKind}

/-- Items are recognized if the rounds behind the first one are. -/
theorem separated {rounds : Parser σ → Nat}
    (hl : l.productions = [[.phrase n], [.phrase n, .symbol .comma, .phrase l]])
    (h : ∀ p, item.Recognizes o p (· = [.phrase n]) fun _ _ => True)
    (hrounds : ∀ p q, (collectWithin (afterComma item) (rounds q)).Recognizes o p
      (fun w => w = [] ∨ w = [.symbol .comma, .phrase l]) fun _ _ => True) :
    (Rule.separated item rounds).Recognizes o p (· = [.phrase l]) fun _ _ => True := by
  refine .of_production ?_
  rw [hl]
  refine .bind ⟨[], List.mem_cons_self⟩ (h p) fun a m s _ => ?_
  refine .bind_of (U := fun w => w = [] ∨ w = [.symbol .comma, .phrase l]) (fun u hu => ⟨[], ?_⟩)
    (hrounds (p.moved m s) (p.moved m s)) fun as m' s' u _ hu hm => ⟨u, hm, ?_⟩
  · rcases hu with rfl | rfl <;> simp
  · refine .pure ?_ trivial
    rcases hu with rfl | rfl <;> simp

/-- The rounds that take a comma and an item. -/
theorem collectWithin_comma
    (hl : l.productions = [[.phrase n], [.phrase n, .symbol .comma, .phrase l]])
    (h : ∀ p, item.Recognizes o p (· = [.phrase n]) fun _ _ => True) (rounds : Nat) :
    (collectWithin (afterComma item) rounds).Recognizes o p
      (fun w => w = [] ∨ w = [.symbol .comma, .phrase l]) fun _ _ => True := by
  induction rounds generalizing p with
  | zero => exact .pure (.inl rfl) trivial
  | succ rounds ih =>
    rw [collectWithin_afterComma]
    refine .accept_bind (fun _ => ?_) fun _ => .pure (.inl rfl) trivial
    -- What follows the comma is items again.
    rw [if_pos rfl]
    exact (separated hl h fun p _ => ih).mono (fun v hv => .inr (hv ▸ rfl)) fun _ _ h => h

theorem commaSeparated
    (hl : l.productions = [[.phrase n], [.phrase n, .symbol .comma, .phrase l]])
    (h : ∀ p, item.Recognizes o p (· = [.phrase n]) fun _ _ => True) :
    (commaSeparated item).Recognizes o p (· = [.phrase l]) fun _ _ => True :=
  separated hl h fun _ q => collectWithin_comma hl h q.rounds

theorem itemsUntil {close : Symbol}
    (h : (Rule.commaSeparated item).Recognizes o p (· = [.phrase l]) fun _ _ => True) :
    (itemsUntil close item).Recognizes o p (fun w => w = [] ∨ w = [.phrase l])
      fun _ _ => True := by
  refine .kind_bind ?_
  split
  · exact .pure (.inl rfl) trivial
  · exact h.mono (fun w hw => .inr hw) fun _ _ h => h

end

/-- What is taken is known of what is read. -/
theorem spans (h : r.Recognizes o p W Q) :
    r.Recognizes o p W fun _ m => ∃ w, W w ∧ p.tape.Spans w m := by
  intro hp hs hi
  obtain ⟨hok, herror⟩ := h hp hs hi
  refine ⟨fun a q hr => ?_, herror⟩
  obtain ⟨m, s, hq, -, hm⟩ := hok a q hr
  exact ⟨m, s, hq, hm, hm⟩

/-! ### Nesting and names -/

/-- Reading from a parser that differs in nothing that is read. -/
theorem of_run {r' : Rule σ α} {p' : Parser σ} {g : Parser σ → Parser σ}
    (h : r.Recognizes o p' W Q) (htape : p'.tape = p.tape) (hdispatch : p'.dispatch = p.dispatch)
    (hrun : ∀ res q, r p' = (res, q) → r' p = (res, g q))
    (hmoved : ∀ m s, ∃ s', g (p'.moved m s) = p.moved m s')
    (hg : ∀ q, ∃ s depth, g q = { q with symbols := s, depth := depth }) :
    r'.Recognizes o p W Q := by
  intro hp hs hi
  obtain ⟨hok, herror⟩ := h (hdispatch.trans hp) hs (htape ▸ hi)
  rw [htape] at hok herror
  rcases hr : r p' with ⟨res, q'⟩
  rw [hrun res q' hr]
  constructor
  · rintro a _ ⟨⟩
    obtain ⟨m, s, rfl, ha⟩ := hok a q' hr
    obtain ⟨s', hs'⟩ := hmoved m s
    exact ⟨m, s', hs', ha⟩
  · rintro d _ ⟨⟩
    obtain ⟨s, depth, hgq⟩ := hg q'
    obtain ⟨haccounted, hbegins⟩ := herror d q' hr
    rw [hgq]
    exact ⟨haccounted.updated s depth, hbegins⟩

theorem nested (h : r.Recognizes o { p with depth := p.depth + 1 } W Q) :
    (nested r).Recognizes o p W Q := by
  by_cases hd : maxDepth ≤ p.depth
  · exact of_rest fun hrest => of_error (nested_of_le hd) (.tooDeep hrest) False.elim
  · refine of_run (g := fun q => { q with depth := q.depth - 1 }) h rfl rfl
      (fun res q hr => ?_) (fun m s => ⟨s, rfl⟩) fun q => ⟨_, _, rfl⟩
    rw [nested_of_lt (Nat.lt_of_not_le hd), hr]

end Rule.Recognizes

/-! ### Names -/

namespace Rule.Recognizes

variable {r : Rule SymbolTable α} {f : Variable → Rule SymbolTable β} {p : Parser SymbolTable}
  {i o : Tape} {W : List Item → Prop} {Q : α → Tape → Prop} {S : β → Tape → Prop} {t : Token}
  {x : Item}

theorem inScope (h : r.Recognizes o { p with symbols := Scoping.enter p.symbols } W Q) :
    (inScope r).Recognizes o p W Q := by
  refine of_run (g := fun q => { q with symbols := Scoping.leave q.symbols }) h rfl rfl
    (fun res q hr => ?_) (fun m s => ⟨_, rfl⟩) fun q => ⟨_, _, rfl⟩
  rw [Rule.inScope, hr]

theorem resolve_bind (hi : i.RestOf o) (hk : i.kind = .name) (hp : p.tape = i.next)
    (hf : ∀ v s, (f v).Recognizes o (p.moved p.tape s) W S) :
    (resolve i.hand.token >>= f).Recognizes o p W S := by
  cases h : p.symbols.resolve i.hand.token.value ⟨i.hand.token.line, p.file⟩ with
  | error d =>
    obtain rfl := (SymbolTable.resolve_eq_error.1 h).2
    have hr : resolve i.hand.token p = (.error _, p) := congrArg (·, p) h
    exact of_error (bind_apply_error hr) (.undeclared hi hk hp) False.elim
  | ok v =>
    have hr : resolve i.hand.token p = (.ok v, p) := congrArg (·, p) h
    exact bind_ok hr .nil (hf v p.symbols)

/-- Declaring a name takes nothing, and fails only if the name is declared a second time. -/
theorem keeping_bind {ask : SymbolTable → String → Except Diagnostic (Variable × SymbolTable)}
    (hask : ∀ {s file d}, ask s file = .error d →
      d = ⟨.duplicateDeclaration t.value, t.line, file⟩) (ht : o.Names p.tape t)
    (hf : ∀ v s, (f v).Recognizes o (p.moved p.tape s) W S) :
    (keeping ask >>= f).Recognizes o p W S := by
  cases h : ask p.symbols p.file with
  | error d =>
    obtain rfl := hask h
    exact of_error (bind_apply_error (keeping_eq_of_error h)) (.duplicate ht) False.elim
  | ok x => exact bind_ok (keeping_eq_of_ok h) .nil (hf x.1 x.2)

theorem declare_bind {constant : Bool} {nullability : Nullability} (ht : o.Names p.tape t)
    (hf : ∀ v s, (f v).Recognizes o (p.moved p.tape s) W S) :
    (declare t constant nullability >>= f).Recognizes o p W S := by
  rw [declare_eq]
  exact keeping_bind (fun h => (SymbolTable.declare_eq_error.1 h).2) ht hf

theorem declareLoop_bind (ht : o.Names p.tape t)
    (hf : ∀ v s, (f v).Recognizes o (p.moved p.tape s) W S) :
    (declareLoop t >>= f).Recognizes o p W S := by
  rw [declareLoop_eq]
  exact keeping_bind (fun h => SymbolTable.declareLoop_eq_error h) ht hf

theorem withLoopVariable (ht : o.Names p.tape t)
    (h : ∀ s, r.Recognizes o (p.moved p.tape s) (· = [x]) Q) :
    (withLoopVariable t r).Recognizes o p (· = [x]) fun _ _ => True := by
  refine .inScope (.declareLoop_bind ht fun v s => ?_)
  exact .bind ⟨[], rfl⟩ (h s) fun a m s' _ => .pure rfl trivial

end Rule.Recognizes

/-! ### Expressions -/

/-- The tape does not start with a brace if that is asked. -/
def Tape.IsBare (i : Tape) (bare : Bool) : Prop := bare = true → i.kind ≠ .symbol .openCurly

theorem Tape.isBare_false (i : Tape) : i.IsBare false := fun h => absurd h Bool.false_ne_true

/-- An expression that can be assigned to and is not in parentheses is a place. -/
def Tape.PlaceIfTarget (i : Tape) (e : Expr ν) (m : Tape) : Prop :=
  e.target? ≠ none → i.kind ≠ .symbol .openParen → i.Spans [.phrase (.expr .place false)] m

/-- What rules inside a phrase take is what the grammar says. -/
structure Inner.Recognizes (inner : Inner σ ν) (o : Tape) : Prop where
  /-- Expressions. -/
  expression (p : Parser σ) (bare : Bool) (hp : p.tape.IsBare bare) :
    inner.expression.Recognizes o p (· = [.phrase (.expr .expression bare)]) p.tape.PlaceIfTarget
  /-- Elements of lists. -/
  element (p : Parser σ) : inner.element.Recognizes o p (· = [.phrase .element]) fun _ _ => True
  /-- Commands. -/
  command (p : Parser σ) (bare : Bool) (hp : p.tape.IsBare bare) :
    inner.command.Recognizes o p (· = [.phrase (.command bare)]) fun _ _ => True

namespace Grammar

open Rule.Recognizes

variable {inner : Inner σ ν} {o : Tape} (p : Parser σ)

/-- An expression that may start with a brace. -/
theorem expression_recognizes (hi : inner.Recognizes o) :
    inner.expression.Recognizes o p (· = [.expression]) fun _ _ => True :=
  (hi.expression p false p.tape.isBare_false).weaken

/-- A round that takes an operation, if the rounds behind it take what follows one. -/
theorem operation_recognizes {l : Level} {operand : Rule σ (Expr ν)} {rounds : Nat}
    (h : ∀ p, operand.Recognizes o p (· = [.phrase (.expr l.operand false)]) fun _ _ => True)
    (hrest : ∀ p left, (Rule.growWithin (operation? l.op? operand) rounds left).Recognizes o p
      (· = l.furtherOperations) fun t m => t = left ∧ m = p.tape ∨ t.target? = none)
    (left : Expr ν) :
    (Rule.growWithin (operation? l.op? operand) (rounds + 1) left).Recognizes o p
      (· = [.phrase (.operations l)])
      fun t m => t = left ∧ m = p.tape ∨ t.target? = none := by
  refine .of_production ?_
  unfold Rule.growWithin operation?
  rw [bind_assoc]
  refine .kind_bind ?_
  split
  · rw [pure_bind]
    exact .pure (by simp [PhraseKind.productions]) (.inl ⟨rfl, rfl⟩)
  next op hop =>
    obtain ⟨s, hs, hk⟩ := List.mem_map.1 (Level.exists_op?_iff.1 ⟨op, hop⟩)
    have hw : [Item.symbol s, .phrase (.expr l.operand false)] ++ l.furtherOperations ∈
        (PhraseKind.operations l).productions :=
      List.mem_cons_of_mem _ (List.mem_map_of_mem hs)
    rw [bind_assoc]
    refine .operator_bind hk.symm ?_
    rw [bind_assoc]
    refine .bind ⟨_, hw⟩ (h _) fun right m s' _ => ?_
    rw [pure_bind]
    refine (hrest _ _).mono (fun v hv => hv ▸ hw) ?_
    rintro t m' (⟨rfl, rfl⟩ | ht)
    · exact .inr rfl
    · exact .inr ht

/-- Operands of a level with operations on them. -/
theorem level_recognizes {l : Level} {operand : Rule σ (Expr ν)} {rounds : Parser σ → Nat}
    {bare : Bool} (hp : p.tape.IsBare bare)
    (h : ∀ p bare, p.tape.IsBare bare →
      operand.Recognizes o p (· = [.phrase (.expr l.operand bare)]) p.tape.PlaceIfTarget)
    (hrest : ∀ p left, (Rule.growWithin (operation? l.op? operand) (rounds p) left).Recognizes o p
      (· = [.phrase (.operations l)]) fun t m => t = left ∧ m = p.tape ∨ t.target? = none) :
    Rule.Recognizes
      (operand >>= fun e => fun p => Rule.growWithin (operation? l.op? operand) (rounds p) e p) o p
      (· = [.phrase (.expr (.level l) bare)]) p.tape.PlaceIfTarget := by
  have hw : [Item.phrase (.expr l.operand bare), .phrase (.operations l)] ∈
      (PhraseKind.expr (.level l) bare).productions := List.mem_singleton_self _
  refine .of_production (.bind ⟨_, hw⟩ (h p bare hp) fun e m s he => ?_)
  refine mono (hrest (p.moved m s) e) (fun v hv => hv ▸ hw) ?_
  rintro t m' (⟨rfl, rfl⟩ | ht)
  · exact he
  · exact fun hne => absurd ht hne

theorem chain_recognizes {l : Level} {operand : Rule σ (Expr ν)} {bare : Bool}
    (hl : l.chains = true) (hp : p.tape.IsBare bare)
    (h : ∀ p bare, p.tape.IsBare bare →
      operand.Recognizes o p (· = [.phrase (.expr l.operand bare)]) p.tape.PlaceIfTarget) :
    (chain l.op? operand).Recognizes o p (· = [.phrase (.expr (.level l) bare)])
      p.tape.PlaceIfTarget := by
  have hfurther : l.furtherOperations = [.phrase (.operations l)] := if_pos hl
  have hrest (rounds : Nat) (p : Parser σ) (left : Expr ν) :
      (Rule.growWithin (operation? l.op? operand) rounds left).Recognizes o p
        (· = [.phrase (.operations l)]) fun t m => t = left ∧ m = p.tape ∨ t.target? = none := by
    induction rounds generalizing p left with
    | zero => exact .of_production (.pure List.mem_cons_self (.inl ⟨rfl, rfl⟩))
    | succ rounds ih =>
      refine operation_recognizes p (fun p => (h p false p.tape.isBare_false).weaken) ?_ left
      rw [hfurther]
      exact ih
  exact level_recognizes p hp h fun p => hrest p.rounds p

theorem pair_recognizes {l : Level} {operand : Rule σ (Expr ν)} {bare : Bool}
    (hl : l.chains = false) (hp : p.tape.IsBare bare)
    (h : ∀ p bare, p.tape.IsBare bare →
      operand.Recognizes o p (· = [.phrase (.expr l.operand bare)]) p.tape.PlaceIfTarget) :
    (pair l.op? operand).Recognizes o p (· = [.phrase (.expr (.level l) bare)])
      p.tape.PlaceIfTarget := by
  have hfurther : l.furtherOperations = [] := if_neg (by simp [hl])
  rw [pair_eq]
  refine level_recognizes p hp h fun p left => ?_
  refine operation_recognizes p (fun p => (h p false p.tape.isBare_false).weaken) ?_ left
  exact fun p left => .pure hfurther.symm (.inl ⟨rfl, rfl⟩)

/-! ### Operands -/

theorem constant_recognizes {bare : Bool}
    (hp : Dispatch.standardOperand? p.tape.kind = some .constant) :
    (constant : Rule σ (Expr ν)).Recognizes o p (· ∈ operandProductions bare)
      p.tape.PlaceIfTarget := by
  have hk : p.tape.kind ∈ Literal.kinds := Literal.mem_kinds hp
  refine .of_spelled fun hs => .advance_bind rfl ?_
  obtain ⟨value, hv⟩ := Literal.exists_ofToken hk hs.hand
  rw [hv]
  refine .pure ?_ fun ht => absurd rfl ht
  exact List.mem_append_left _ (List.mem_append_left _ (List.mem_append_left _
    (List.mem_map_of_mem hk)))

theorem call_recognizes (hi : inner.Recognizes o) {bare : Bool}
    (hp : Dispatch.standardOperand? p.tape.kind = some .call) :
    (call inner).Recognizes o p (· ∈ operandProductions bare) p.tape.PlaceIfTarget := by
  obtain ⟨function, hf⟩ := Builtin.ofKind?_of_call hp
  obtain ⟨w, hw, hk⟩ := List.mem_map.1 (Builtin.exists_ofKind?_iff.1 ⟨function, hf⟩)
  have hcall : [Item.keyword w, .symbol .openParen, .expression, .symbol .closeParen] ∈
      operandProductions bare :=
    List.mem_append_left _ (List.mem_append_left _ (List.mem_append_right _
      (List.mem_map_of_mem hw)))
  refine .advance_bind hk.symm ?_
  rw [show Builtin.ofKind? p.tape.hand.token.kind = some function from hf]
  refine .parenthesized_bind ⟨_, hcall⟩ (expression_recognizes _ hi) fun e m s => ?_
  exact .pure hcall fun ht => absurd rfl ht

/-- The rounds that take subscripts. -/
theorem subscripts_recognizes (hi : inner.Recognizes o) (rounds : Nat) (base : Expr ν) :
    (Rule.growWithin (subscript? inner) rounds base).Recognizes o p (· = [.phrase .subscripts])
      fun _ _ => True := by
  have hw : [Item.symbol .openBracket, .expression, .symbol .closeBracket, .phrase .subscripts] ∈
      PhraseKind.subscripts.productions := by simp [PhraseKind.productions]
  induction rounds generalizing p base with
  | zero => exact .of_production (.pure List.mem_cons_self trivial)
  | succ rounds ih =>
    refine .of_production ?_
    unfold Rule.growWithin subscript?
    rw [bind_assoc]
    refine .kind_bind ?_
    split
    next hopen =>
      rw [bind_assoc]
      refine .operator_bind hopen ?_
      rw [bind_assoc]
      refine .bind ⟨_, hw⟩ (expression_recognizes _ hi) fun e m s _ => ?_
      rw [bind_assoc]
      refine .expect_bind ⟨_, hw⟩ fun _ => ?_
      rw [pure_bind]
      exact (ih _ _).mono (fun v hv => hv ▸ hw) fun _ _ h => h
    · rw [pure_bind]
      exact .pure List.mem_cons_self trivial

/-- Items with commas between them, in brackets. There may be none. -/
theorem bracketed_recognizes {item : Rule σ α} {n l : PhraseKind} {opening close : Symbol}
    {f : List α → Token → Expr ν} {ws : List (List Item)}
    (hl : l.productions = [[.phrase n], [.phrase n, .symbol .comma, .phrase l]])
    (hitem : ∀ p, item.Recognizes o p (· = [.phrase n]) fun _ _ => True)
    (hnone : [.symbol opening, .symbol close] ∈ ws)
    (hsome : [.symbol opening, .phrase l, .symbol close] ∈ ws)
    (hf : ∀ items start, (f items start).target? = none) :
    (do
      let start ← Rule.expect (.symbol opening)
      let items ← Rule.itemsUntil close item
      let _ ← Rule.expect (.symbol close)
      pure (f items start) : Rule σ (Expr ν)).Recognizes o p (· ∈ ws) p.tape.PlaceIfTarget := by
  refine .expect_bind ⟨_, hnone⟩ fun _ => ?_
  refine .bind_of (fun u hu => ?_) (.itemsUntil (.commaSeparated hl hitem))
    fun items m s u _ hu hm => ⟨u, hm, ?_⟩
  · rcases hu with rfl | rfl
    · exact ⟨_, hnone⟩
    · exact ⟨_, hsome⟩
  · rcases hu with rfl | rfl
    · exact .expect_bind ⟨_, hnone⟩ fun _ => .pure hnone fun ht => absurd (hf _ _) ht
    · exact .expect_bind ⟨_, hsome⟩ fun _ => .pure hsome fun ht => absurd (hf _ _) ht

theorem list_recognizes (hi : inner.Recognizes o) {bare : Bool} :
    (list inner).Recognizes o p (· ∈ operandProductions bare) p.tape.PlaceIfTarget :=
  bracketed_recognizes (l := .elements) p rfl hi.element (by simp [operandProductions])
    (by simp [operandProductions]) fun _ _ => rfl

theorem entry_recognizes (hi : inner.Recognizes o) :
    (entry inner).Recognizes o p (· = [.phrase .entry]) fun _ _ => True := by
  have hw : [Item.expression, .symbol .colon, .expression] ∈ PhraseKind.entry.productions :=
    List.mem_singleton_self _
  refine .of_production (.bind ⟨_, hw⟩ (expression_recognizes _ hi) fun key m s _ => ?_)
  refine .expect_bind ⟨_, hw⟩ fun _ => ?_
  exact .bind ⟨_, hw⟩ (expression_recognizes _ hi) fun value m' s' _ => .pure hw trivial

theorem map_recognizes (hi : inner.Recognizes o) :
    (map inner).Recognizes o p (· ∈ operandProductions false) p.tape.PlaceIfTarget :=
  bracketed_recognizes (l := .entries) p rfl (fun p => entry_recognizes p hi)
    (by simp [operandProductions]) (by simp [operandProductions]) fun _ _ => rfl

/-- What a loop runs over, and then what may stand behind it. -/
theorem loopHeader_recognizes {f : Token × Expr ν → Rule σ β} {W : List Item → Prop}
    {S : β → Tape → Prop} (hi : inner.Recognizes o)
    (hW : ∃ v, W (.symbol .openParen :: .token .name :: .keyword .inWord :: .expression ::
      .symbol .closeParen :: v))
    (hf : ∀ a m s, o.Names m a.1 → (f a).Recognizes o (p.moved m s) (fun v => W
      (.symbol .openParen :: .token .name :: .keyword .inWord :: .expression ::
        .symbol .closeParen :: v)) S) :
    (loopHeader inner >>= f).Recognizes o p W S := by
  obtain ⟨v, hv⟩ := hW
  unfold loopHeader Rule.parenthesized
  simp only [bind_assoc, pure_bind]
  refine .expect_bind ⟨_, hv⟩ fun _ => .of_rest fun hrest => .expect_bind ⟨_, hv⟩ fun hname => ?_
  refine .expect_bind ⟨_, hv⟩ fun hin => ?_
  refine .bind ⟨_, hv⟩ (spans (expression_recognizes _ hi)) fun c m s ⟨w, hw, hm⟩ => ?_
  refine .expect_bind ⟨_, hv⟩ fun hclose => hf _ _ _ (hrest.names hname (.inr ⟨hin, m, ?_⟩))
  exact ⟨hw ▸ hm, hclose, rfl⟩

end Grammar

/-! ### Phrases with names -/

namespace Grammar

open Rule.Recognizes

variable {inner : Inner SymbolTable Variable} {o : Tape} (p : Parser SymbolTable)

theorem place_recognizes (hi : inner.Recognizes o) :
    (place inner).Recognizes o p (· = [.phrase (.expr .place false)]) fun _ _ => True := by
  have hw : [Item.token .name, .phrase .subscripts] ∈
      (PhraseKind.expr .place false).productions := List.mem_singleton_self _
  refine .of_production (.of_rest fun hrest => .expect_bind ⟨_, hw⟩ fun hname => ?_)
  refine .resolve_bind hrest hname rfl fun v s => ?_
  exact (subscripts_recognizes _ hi _ _).mono (fun v hv => hv ▸ hw) fun _ _ h => h

theorem operand_recognizes (hi : inner.Recognizes o) {bare : Bool} (hp : p.tape.IsBare bare) :
    (operand inner).Recognizes o p (· = [.phrase (.expr .operand bare)]) p.tape.PlaceIfTarget := by
  have hplace : [Item.phrase (.expr .place false)] ∈ operandProductions bare := by
    simp [operandProductions]
  refine .of_production (.dispatch_bind (.kind_bind ?_))
  split
  next form hform =>
    cases form with
    | constant => exact constant_recognizes p hform
    | call => exact call_recognizes p hi hform
    | list => exact list_recognizes p hi
    | map =>
      have hbare : bare = false := by
        by_contra hb
        exact hp (Bool.eq_true_of_not_eq_false hb) (kind_of_map hform)
      rw [hbare]
      exact map_recognizes p hi
    | place =>
      refine mono (spans (place_recognizes p hi)) (fun w hw => hw ▸ hplace) ?_
      rintro e m ⟨w, rfl, hm⟩
      exact fun _ _ => hm
  · exact .unexpected ⟨_, hplace⟩

/-! ### The levels -/

theorem primary_recognizes (hi : inner.Recognizes o) {bare : Bool} (hp : p.tape.IsBare bare) :
    (primary inner).Recognizes o p (· = [.phrase (.expr .primary bare)])
      p.tape.PlaceIfTarget := by
  have hparen : [Item.symbol .openParen, .expression, .symbol .closeParen] ∈
      (PhraseKind.expr .primary bare).productions :=
    List.mem_cons_of_mem _ (List.mem_singleton_self _)
  refine .of_production (.kind_bind ?_)
  split
  next hopen =>
    rw [← bind_pure (Rule.parenthesized _)]
    refine .parenthesized_bind ⟨_, hparen⟩ (expression_recognizes _ hi) fun e m s => ?_
    exact .pure hparen fun _ hne => absurd hopen hne
  · exact (operand_recognizes p hi hp).mono (fun w hw => hw ▸ List.mem_cons_self) fun _ _ h => h

theorem factor_recognizes (hi : inner.Recognizes o) {bare : Bool} (hp : p.tape.IsBare bare) :
    (factor inner).Recognizes o p (· = [.phrase (.expr .factor bare)]) p.tape.PlaceIfTarget := by
  rw [factor_eq]
  have hw : [Item.phrase (.expr .primary bare)] ∈ (PhraseKind.expr .factor bare).productions :=
    List.mem_cons_self
  refine .of_production (.bind ⟨_, hw⟩ (primary_recognizes p hi hp) fun e m s he => ?_)
  refine .kind_bind ?_
  split
  · exact .pure hw he
  next op hop =>
    obtain ⟨c, hc, hk⟩ := List.mem_map.1 (UnaryOp.exists_after?_iff.1 ⟨op, hop⟩)
    have hmark : [Item.phrase (.expr .primary bare), .symbol c] ∈
        (PhraseKind.expr .factor bare).productions :=
      List.mem_cons_of_mem _ (List.mem_map_of_mem hc)
    exact .operator_bind hk.symm (.pure hmark fun ht => absurd rfl ht)

theorem signed_recognizes (hi : inner.Recognizes o) {bare : Bool} (hp : p.tape.IsBare bare) :
    (signed inner).Recognizes o p (· = [.phrase (.expr .signed bare)]) p.tape.PlaceIfTarget := by
  refine .of_production (.kind_bind ?_)
  split
  · exact (factor_recognizes p hi hp).mono (fun w hw => hw ▸ List.mem_cons_self) fun _ _ h => h
  next op hop =>
    obtain ⟨c, hc, hk⟩ := List.mem_map.1 (UnaryOp.exists_before?_iff.1 ⟨op, hop⟩)
    have hw : [Item.symbol c, .phrase (.expr .factor false)] ∈
        (PhraseKind.expr .signed bare).productions :=
      List.mem_cons_of_mem _ (List.mem_map_of_mem hc)
    refine .operator_bind hk.symm ?_
    refine .bind ⟨_, hw⟩ (factor_recognizes _ hi (Tape.isBare_false _)) fun e m s _ => ?_
    exact .pure hw fun ht => absurd rfl ht

theorem fallback_recognizes (hi : inner.Recognizes o) {bare : Bool} (hp : p.tape.IsBare bare) :
    (fallback inner).Recognizes o p (· = [.phrase (.expr (.level .fallback) bare)])
      p.tape.PlaceIfTarget := by
  have product (p : Parser SymbolTable) (bare : Bool) (hp : p.tape.IsBare bare) :
      (product inner).Recognizes o p (· = [.phrase (.expr (.level .multiplicative) bare)])
        p.tape.PlaceIfTarget :=
    chain_recognizes (l := .multiplicative) p rfl hp fun p _ hp => signed_recognizes p hi hp
  have sum (p : Parser SymbolTable) (bare : Bool) (hp : p.tape.IsBare bare) :
      (sum inner).Recognizes o p (· = [.phrase (.expr (.level .additive) bare)])
        p.tape.PlaceIfTarget := chain_recognizes (l := .additive) p rfl hp product
  have comparison (p : Parser SymbolTable) (bare : Bool) (hp : p.tape.IsBare bare) :
      (comparison inner).Recognizes o p (· = [.phrase (.expr (.level .relational) bare)])
        p.tape.PlaceIfTarget := pair_recognizes (l := .relational) p rfl hp sum
  have condition (p : Parser SymbolTable) (bare : Bool) (hp : p.tape.IsBare bare) :
      (condition inner).Recognizes o p (· = [.phrase (.expr (.level .logical) bare)])
        p.tape.PlaceIfTarget := chain_recognizes (l := .logical) p rfl hp comparison
  exact pair_recognizes (l := .fallback) p rfl hp condition

/-! ### Elements of lists -/

theorem clause_recognizes (hi : inner.Recognizes o) :
    (clause inner).Recognizes o p (· = [.phrase .element]) fun _ _ => True := by
  refine .of_production (.kind_bind ?_)
  split
  next hhead =>
    have hw : [Item.symbol .spread, .expression] ∈ elementProductions := by
      simp [elementProductions]
    refine .advance_bind hhead ?_
    exact .bind ⟨_, hw⟩ (expression_recognizes _ hi) fun e m s _ => .pure hw trivial
  next hhead =>
    have hw : [Item.keyword .ifWord, .symbol .openParen, .expression, .symbol .closeParen,
        .phrase .element] ∈ elementProductions := by simp [elementProductions]
    have hw' : [Item.keyword .ifWord, .symbol .openParen, .expression, .symbol .closeParen,
        .phrase .element, .keyword .elseWord, .phrase .element] ∈ elementProductions := by
      simp [elementProductions]
    refine .advance_bind hhead ?_
    refine .parenthesized_bind ⟨_, hw⟩ (expression_recognizes _ hi) fun c m s => ?_
    refine .bind ⟨_, hw⟩ (hi.element _) fun e m s _ => ?_
    refine .accept_bind (fun _ => ?_) fun _ => .pure hw trivial
    exact .bind ⟨_, hw'⟩ (hi.element _) fun e m s _ => .pure hw' trivial
  next hhead =>
    have hw : [Item.keyword .forWord, .symbol .openParen, .token .name, .keyword .inWord,
        .expression, .symbol .closeParen, .phrase .element] ∈ elementProductions := by
      simp [elementProductions]
    refine .advance_bind hhead ?_
    refine loopHeader_recognizes _ hi ⟨_, hw⟩ fun x m s hx => ?_
    refine .bind ⟨_, hw⟩ (.withLoopVariable hx fun s => hi.element _) fun e m s _ => ?_
    exact .pure hw trivial
  · have hw : [Item.expression] ∈ elementProductions := by simp [elementProductions]
    exact .bind ⟨_, hw⟩ (expression_recognizes _ hi) fun e m s _ => .pure hw trivial

/-! ### Commands -/

/-- The rounds that take commands. -/
theorem commands_recognizes (hi : inner.Recognizes o) (rounds : Nat) :
    (Rule.collectWithin (command? inner) rounds).Recognizes o p (· = [.phrase .code])
      fun _ _ => True := by
  have hw : [Item.phrase (.command false), .phrase .code] ∈ PhraseKind.code.productions := by
    simp [PhraseKind.productions]
  induction rounds generalizing p with
  | zero => exact .of_production (.pure List.mem_cons_self trivial)
  | succ rounds ih =>
    refine .of_production ?_
    rw [collectWithin_command?]
    refine .dispatch_bind (.kind_bind ?_)
    split
    · refine .bind ⟨_, hw⟩ (hi.command p false p.tape.isBare_false) fun c m s _ => ?_
      exact .bind ⟨_, hw⟩ (ih _) fun cs m' s' _ => .pure hw trivial
    · exact .pure List.mem_cons_self trivial

theorem code_recognizes (hi : inner.Recognizes o) :
    (code inner).Recognizes o p (· = [.phrase .code]) fun _ _ => True := by
  refine .peek_bind (.bind_of (U := (· = [.phrase .code])) (fun u hu => ⟨[], ?_⟩)
    (commands_recognizes p hi _) fun cs m s u _ hu hm => ⟨u, hm, .pure ?_ trivial⟩)
  · rw [hu, List.append_nil]
  · rw [hu, List.append_nil]

theorem body_recognizes (hi : inner.Recognizes o) :
    (body inner).Recognizes o p (· = [.phrase .body]) fun _ _ => True := by
  have hbraces : [Item.symbol .openCurly, .phrase .code, .symbol .closeCurly] ∈
      PhraseKind.body.productions := List.mem_cons_self
  refine .of_production (.kind_bind ?_)
  split
  next hopen =>
    refine .advance_bind hopen ?_
    refine .bind ⟨_, hbraces⟩ (.inScope (code_recognizes _ hi)) fun b m s _ => ?_
    exact .expect_bind ⟨_, hbraces⟩ fun _ => .pure hbraces trivial
  next hopen =>
    refine (hi.command p true fun _ => hopen).mono (fun w hw => hw ▸ ?_) fun _ _ h => h
    exact List.mem_cons_of_mem _ (List.mem_singleton_self _)

/-- A command that is a keyword, a row of `U` in parentheses and a semicolon. -/
theorem statement_recognizes {r : Rule SymbolTable α} {U : List Item → Prop} {word : Keyword}
    {f : Token → α → Command Variable} {bare : Bool} {u : List Item}
    (hhead : p.tape.kind = .keyword word) (hu : U u)
    (hU : ∀ u, U u → .keyword word :: .symbol .openParen ::
      (u ++ [.symbol .closeParen, .symbol .semicolon]) ∈ commandProductions bare)
    (hr : r.Recognizes o (p.moved p.tape.next.next p.symbols) U fun _ _ => True) :
    (do
      let start ← Rule.advance
      let a ← Rule.parenthesized r
      let _ ← Rule.expect (.symbol .semicolon)
      pure (f start a)).Recognizes o p (· ∈ commandProductions bare)
        fun _ _ => True := by
  refine .advance_bind hhead (.parenthesized_bind_of hu (fun u hu => ⟨_, hU u hu⟩) hr ?_)
  intro a m s u hu
  exact .expect_bind ⟨_, hU u hu⟩ fun _ => .pure (hU u hu) trivial

theorem print_recognizes (hi : inner.Recognizes o) {bare : Bool}
    (hhead : p.tape.kind = .keyword .printWord) :
    (print inner).Recognizes o p (· ∈ commandProductions bare) fun _ _ => True := by
  refine statement_recognizes (U := fun u => u = [] ∨ u = [.expression]) p hhead (.inl rfl) ?_
    (.dispatch_bind (.kind_bind ?_))
  · rintro u (rfl | rfl) <;> simp [commandProductions]
  · split
    · exact .bind ⟨[], .inr rfl⟩ (expression_recognizes _ hi) fun e m s _ =>
        .pure (.inr rfl) trivial
    · exact .pure (.inl rfl) trivial

theorem assertion_recognizes (hi : inner.Recognizes o) {bare : Bool}
    (hhead : p.tape.kind = .keyword .assertWord) :
    (assertion inner).Recognizes o p (· ∈ commandProductions bare) fun _ _ => True := by
  refine statement_recognizes
    (U := fun u => u = [.expression] ∨ u = [.expression, .symbol .comma, .expression])
    p hhead (.inl rfl) ?_ (.bind ⟨[], .inl rfl⟩ (expression_recognizes _ hi) fun c m s _ => ?_)
  · rintro u (rfl | rfl) <;> simp [commandProductions]
  · refine .accept_bind (fun _ => ?_) fun _ => .pure (.inl rfl) trivial
    exact .bind ⟨[], .inr rfl⟩ (expression_recognizes _ hi) fun e m s _ =>
      .pure (.inr rfl) trivial

theorem conditional_recognizes (hi : inner.Recognizes o) {bare : Bool}
    (hhead : p.tape.kind = .keyword .ifWord) :
    (conditional inner).Recognizes o p (· ∈ commandProductions bare) fun _ _ => True := by
  have hw : [Item.keyword .ifWord, .symbol .openParen, .expression, .symbol .closeParen,
      .phrase .body] ∈ commandProductions bare := by simp [commandProductions]
  have hw' : [Item.keyword .ifWord, .symbol .openParen, .expression, .symbol .closeParen,
      .phrase .body, .keyword .elseWord, .phrase .body] ∈ commandProductions bare := by
    simp [commandProductions]
  refine .advance_bind hhead ?_
  refine .parenthesized_bind ⟨_, hw⟩ (expression_recognizes _ hi) fun c m s => ?_
  refine .bind ⟨_, hw⟩ (body_recognizes _ hi) fun b m s _ => ?_
  refine .accept_bind (fun _ => ?_) fun _ => .pure hw trivial
  exact .bind ⟨_, hw'⟩ (body_recognizes _ hi) fun b m s _ => .pure hw' trivial

theorem whileLoop_recognizes (hi : inner.Recognizes o) {bare : Bool}
    (hhead : p.tape.kind = .keyword .whileWord) :
    (whileLoop inner).Recognizes o p (· ∈ commandProductions bare) fun _ _ => True := by
  have hw : [Item.keyword .whileWord, .symbol .openParen, .expression, .symbol .closeParen,
      .phrase .body] ∈ commandProductions bare := by simp [commandProductions]
  refine .advance_bind hhead ?_
  refine .parenthesized_bind ⟨_, hw⟩ (expression_recognizes _ hi) fun c m s => ?_
  exact .bind ⟨_, hw⟩ (body_recognizes _ hi) fun b m s _ => .pure hw trivial

theorem doWhileLoop_recognizes (hi : inner.Recognizes o) {bare : Bool}
    (hhead : p.tape.kind = .keyword .doWord) :
    (doWhileLoop inner).Recognizes o p (· ∈ commandProductions bare) fun _ _ => True := by
  have hw : [Item.keyword .doWord, .phrase .body, .keyword .whileWord, .symbol .openParen,
      .expression, .symbol .closeParen, .symbol .semicolon] ∈ commandProductions bare := by
    simp [commandProductions]
  refine .advance_bind hhead ?_
  refine .bind ⟨_, hw⟩ (body_recognizes _ hi) fun b m s _ => ?_
  refine .expect_bind ⟨_, hw⟩ fun _ => ?_
  refine .parenthesized_bind ⟨_, hw⟩ (expression_recognizes _ hi) fun c m s => ?_
  exact .expect_bind ⟨_, hw⟩ fun _ => .pure hw trivial

theorem forLoop_recognizes (hi : inner.Recognizes o) {bare : Bool}
    (hhead : p.tape.kind = .keyword .forWord) :
    (forLoop inner).Recognizes o p (· ∈ commandProductions bare) fun _ _ => True := by
  have hw : [Item.keyword .forWord, .symbol .openParen, .token .name, .keyword .inWord,
      .expression, .symbol .closeParen, .phrase .body] ∈ commandProductions bare := by
    simp [commandProductions]
  refine .advance_bind hhead ?_
  refine loopHeader_recognizes _ hi ⟨_, hw⟩ fun x m s hx => ?_
  refine .bind ⟨_, hw⟩ (.withLoopVariable hx fun s => body_recognizes _ hi) fun b m s _ => ?_
  exact .pure hw trivial

/-! ### Declarations -/

theorem declarator_recognizes (hi : inner.Recognizes o) (constant : Bool)
    (nullability : Nullability) :
    (declarator inner constant nullability).Recognizes o p (· = [.phrase .declarator])
      fun _ _ => True := by
  have hname : [Item.token .name] ∈ PhraseKind.declarator.productions := List.mem_cons_self
  have hvalue : [Item.token .name, .symbol .assign, .expression] ∈
      PhraseKind.declarator.productions := List.mem_cons_of_mem _ (List.mem_singleton_self _)
  refine .of_production (.of_rest fun hrest => .expect_bind ⟨_, hname⟩ fun hk =>
    .declare_bind (hrest.names hk (.inl rfl)) fun v s => ?_)
  refine .accept_bind (fun _ => ?_) fun _ => .pure hname trivial
  exact .bind ⟨_, hvalue⟩ (expression_recognizes _ hi) fun e m s _ => .pure hvalue trivial

/-- What follows `var` in a declaration. -/
theorem afterVar_recognizes (hi : inner.Recognizes o) {constant : Bool} {W : List Item → Prop}
    {f : List (Variable × Option (Command Variable)) → Command Variable}
    (hplain : W [.phrase .declarators, .symbol .semicolon])
    (hmarked : W [.symbol .nullable, .phrase .declarators, .symbol .semicolon]) :
    (do
      let nullability ← nullability
      let declarators ← Rule.commaSeparated (declarator inner constant nullability)
      let _ ← Rule.expect (.symbol .semicolon)
      pure (f declarators)).Recognizes o p W fun _ _ => True := by
  have hdeclarators (p : Parser SymbolTable) (nullability : Nullability) :
      (Rule.commaSeparated (declarator inner constant nullability)).Recognizes o p
        (· = [.phrase .declarators]) fun _ _ => True :=
    .commaSeparated rfl fun p => declarator_recognizes p hi constant nullability
  unfold nullability
  rw [bind_assoc]
  refine .accept_bind (fun _ => ?_) fun _ => ?_
  · rw [if_pos rfl, pure_bind]
    refine .bind ⟨_, hmarked⟩ (hdeclarators _ _) fun ds m s _ => ?_
    exact .expect_bind ⟨_, hmarked⟩ fun _ => .pure hmarked trivial
  · rw [if_neg Bool.false_ne_true, pure_bind]
    refine .bind ⟨_, hplain⟩ (hdeclarators _ _) fun ds m s _ => ?_
    exact .expect_bind ⟨_, hplain⟩ fun _ => .pure hplain trivial

theorem declaration_recognizes (hi : inner.Recognizes o) {bare : Bool}
    (hhead : p.tape.kind = .keyword .finalWord ∨ p.tape.kind = .keyword .varWord) :
    (declaration inner).Recognizes o p (· ∈ commandProductions bare) fun _ _ => True := by
  rcases hhead with hhead | hhead
  · have hplain : [Item.keyword .finalWord, .keyword .varWord, .phrase .declarators,
        .symbol .semicolon] ∈ commandProductions bare := by simp [commandProductions]
    have hmarked : [Item.keyword .finalWord, .keyword .varWord, .symbol .nullable,
        .phrase .declarators, .symbol .semicolon] ∈ commandProductions bare := by
      simp [commandProductions]
    have hfinal : decide (p.tape.hand.token.kind = .keyword .finalWord) = true :=
      decide_eq_true hhead
    have hvar : (varAfter true : Rule SymbolTable Unit) =
        Rule.expect (.keyword .varWord) >>= fun _ => pure () := rfl
    refine .advance_bind hhead ?_
    simp only [hfinal, hvar, bind_assoc, pure_bind]
    refine .expect_bind ⟨_, hplain⟩ fun _ => ?_
    exact afterVar_recognizes _ hi hplain hmarked
  · have hplain : [Item.keyword .varWord, .phrase .declarators, .symbol .semicolon] ∈
        commandProductions bare := by simp [commandProductions]
    have hmarked : [Item.keyword .varWord, .symbol .nullable, .phrase .declarators,
        .symbol .semicolon] ∈ commandProductions bare := by simp [commandProductions]
    refine .advance_bind hhead ?_
    rw [show p.tape.hand.token.kind = .keyword .varWord from hhead]
    exact afterVar_recognizes _ hi hplain hmarked

/-! ### Assignments -/

theorem targetOf_eq_error {ν : Type} {parenthesized : Bool} {e : Expr ν} {fault : Fault}
    (h : targetOf parenthesized e = .error fault) :
    ∃ description, fault = .invalidTarget description := by
  unfold targetOf at h
  split at h
  · cases parenthesized <;> cases h
    exact ⟨_, rfl⟩
  · cases h
    exact ⟨_, rfl⟩

theorem assignment_recognizes (hi : inner.Recognizes o) {bare : Bool} (hp : p.tape.IsBare bare) :
    (assignment inner).Recognizes o p (· ∈ commandProductions bare) fun _ _ => True := by
  have heffect : [Item.phrase (.expr .expression bare), .symbol .semicolon] ∈
      commandProductions bare := by simp [commandProductions]
  have hassign : [Item.phrase (.expr .place false), .symbol .assign, .expression,
      .symbol .semicolon] ∈ commandProductions bare := by simp [commandProductions]
  refine .peek_bind (.bind_of (fun u hu => ?_) (hi.expression p bare hp)
    fun e m s u he hu hm => ?_)
  · exact hu ▸ ⟨_, heffect⟩
  by_cases hequals : m.kind = .symbol .assign
  · cases htarget : targetOf (p.tape.hand.token.kind = .symbol .openParen) e with
    | error fault =>
      refine ⟨u, hm, .of_rest fun hrest =>
        .position_bind (.accept_bind (fun _ => ?_) fun hne => absurd hequals hne)⟩
      rw [if_pos rfl]
      refine .of_error rfl (.target hrest hequals rfl htarget) fun hd => ?_
      obtain ⟨description, rfl⟩ := targetOf_eq_error htarget
      exact hd.elim
    | ok target =>
      obtain ⟨hopen, ht⟩ := targetOf_eq_ok htarget
      have hplace : p.tape.Spans [.phrase (.expr .place false)] m :=
        he (by simp [ht]) (of_decide_eq_false hopen)
      refine ⟨_, hplace, .position_bind (.accept_bind (fun _ => ?_) fun hne => absurd hequals hne)⟩
      rw [if_pos rfl]
      refine .bind ⟨_, hassign⟩ (expression_recognizes _ hi) fun value m' s' _ => ?_
      exact .expect_bind ⟨_, hassign⟩ fun _ => .pure hassign trivial
  · refine ⟨u, hm, .position_bind (.accept_bind (fun h => absurd h hequals) fun _ => ?_)⟩
    rw [if_neg Bool.false_ne_true, hu]
    exact .expect_bind ⟨_, heffect⟩ fun _ => .pure heffect trivial

/-! ### Choosing -/

theorem anyCommand_recognizes (hi : inner.Recognizes o) {bare : Bool} (hp : p.tape.IsBare bare) :
    (anyCommand inner).Recognizes o p (· = [.phrase (.command bare)]) fun _ _ => True := by
  refine .of_production (.dispatch_bind (.kind_bind ?_))
  split
  next form hform =>
    simp only [Dispatch.standard] at hform
    unfold Dispatch.standardCommand? at hform
    split at hform <;> cases hform
    next hhead => exact declaration_recognizes p hi (.inl hhead)
    next hhead => exact declaration_recognizes p hi (.inr hhead)
    next hhead => exact print_recognizes p hi hhead
    next hhead => exact assertion_recognizes p hi hhead
    next hhead => exact conditional_recognizes p hi hhead
    next hhead => exact whileLoop_recognizes p hi hhead
    next hhead => exact doWhileLoop_recognizes p hi hhead
    next hhead => exact forLoop_recognizes p hi hhead
  · split
    · exact assignment_recognizes p hi hp
    · exact .unexpected ⟨_, List.mem_cons_self⟩

end Grammar

/-! ### Any number of levels -/

open Rule.Recognizes in
/-- What expressions, elements and commands take with `n` levels to go is what the grammar
says. -/
theorem Inner.recognizes_within {o : Tape} (n : Nat) :
    (Inner.within n : Inner SymbolTable Variable).Recognizes o := by
  induction n with
  | zero => exact ⟨fun _ _ _ => .tooDeep, fun _ => .tooDeep, fun _ _ _ => .tooDeep⟩
  | succ n ih =>
    refine ⟨fun p bare hp => .nested (r := Grammar.fallback _) (.of_production ?_),
      fun p => .nested (r := Grammar.clause _) (Grammar.clause_recognizes _ ih),
      fun p bare hp => .nested (r := Grammar.anyCommand _)
        (Grammar.anyCommand_recognizes _ ih hp)⟩
    refine mono (Grammar.fallback_recognizes _ ih hp) (fun w hw => ?_) fun _ _ h => h
    rw [hw]
    exact List.mem_singleton_self _

/-- Why a program is refused is seen from its tape. If it is because of a token, the program is
the beginning of code up to there. -/
theorem Grammar.program_refused {p q : Parser SymbolTable} {d : Diagnostic}
    (hp : p.dispatch = .standard) (hs : p.tape.IsSpelled)
    (h : (Grammar.program : Rule SymbolTable (Block Variable)) p = (.error d, q)) :
    d.Accounted p.tape q ∧ (d.fault.IsSyntactic → p.tape.Begins [.phrase .code] q.tape) := by
  obtain ⟨hok, herror⟩ :=
    Grammar.code_recognizes p (Inner.recognizes_within maxDepth) hp hs (.refl p.tape)
  rcases hr : Grammar.code Inner.full p with ⟨d' | b, q'⟩
  · have hrun : Grammar.program p = (.error d', q') := Rule.bind_apply_error hr
    rw [hrun] at h
    cases h
    refine ⟨(herror _ _ hr).1, fun hd => ?_⟩
    obtain ⟨w, rfl, hw⟩ := (herror _ _ hr).2 hd
    exact hw
  · obtain ⟨m, s, rfl, -, w, rfl, hw⟩ := hok _ _ hr
    have hrun : Grammar.program p =
        (Rule.expect .endOfInput >>= fun _ => pure b : Rule SymbolTable _) (p.moved m s) :=
      Rule.bind_apply_ok hr
    rw [hrun] at h
    by_cases hk : (p.moved m s).tape.kind = .endOfInput
    · rw [Rule.bind_apply_ok (Rule.expect_eq_of_kind hk)] at h
      cases h
    · rw [Rule.bind_apply_error (Rule.expect_eq_of_kind_ne hk)] at h
      cases h
      refine ⟨.unexpected ?_, fun _ => hw.append_begins (.here m [])⟩
      obtain ⟨ks, hks, -⟩ := hw
      exact (Tape.RestOf.refl _).of_shows hks

end Scriptlet
