import Scriptlet.Proofs.RoundTrip

/-!
# How high trees are

The limit on nesting counts the constructs that are open while a program is read. Operators of
a level that stand in a row open none, and neither do subscripts, so a row of them makes a tree
as high as it is long, whatever the limit is. This is the only way for a tree to grow high: the
limit bounds the height of every tree in which each such row is counted once.

## The model

`Block.heightBy step` is the greatest number of nodes from the root down to a leaf, with `step`
for each node that only goes on with the row of its parent. A step of one gives the height of the
tree, and a step of zero its height with each row counted once. `Block.longestRow` is the length
of the longest row.

## What is proved

* `Block.height_le` — the height is at most that with rows counted once, times the longest row.
* `Derives.isLow` — how high a phrase of a nesting is at most.
* `height_le_of_parse` — so the height of a program that is read is bounded, but for rows.
* `not_exists_height_bound` — without regard to rows there is no bound.
-/

namespace Scriptlet

open Resolving

section

variable {ν : Type}

/-! ### Rows -/

/-- An operator goes on with a row if its left operand ends in one: with an operator of the same
level, of which more than one may stand in a row. -/
def BinaryOp.goesOn (op : BinaryOp) : Expr ν → Bool
  | .binary op' .. => op'.level = op.level && op.level.chains
  | _ => false

/-- The expression is an entry of a list or a map. -/
def Expr.isEntry : Expr ν → Bool
  | .index .. => true
  | _ => false

/-- How many operators or subscripts stand in a row at the end of the expression. What has none
counts as one. -/
def Expr.row : Expr ν → Nat
  | .binary op a _ _ => if op.goesOn a then a.row + 1 else 1
  | .index a _ _ => if a.isEntry then a.row + 1 else 1
  | _ => 1

mutual

/-- The longest row of an expression. -/
def Expr.longestRow : Expr ν → Nat
  | .const .. | .var .. => 1
  | .binary op a b line => max (Expr.binary op a b line).row (max a.longestRow b.longestRow)
  | .index a b line => max (Expr.index a b line).row (max a.longestRow b.longestRow)
  | .unary _ a _ | .call _ a _ => a.longestRow
  | .list es _ => Expr.longestRowOfElements es
  | .map es _ => Expr.longestRowOfEntries es

/-- The longest row of an element. -/
def Element.longestRow : Element ν → Nat
  | .single a | .spread a => a.longestRow
  | .cond c a none _ => max c.longestRow a.longestRow
  | .cond c a (some b) _ => max c.longestRow (max a.longestRow b.longestRow)
  | .each _ a e _ => max a.longestRow e.longestRow

/-- The longest row of any element. -/
def Expr.longestRowOfElements : List (Element ν) → Nat
  | [] => 1
  | e :: es => max e.longestRow (Expr.longestRowOfElements es)

/-- The longest row of any entry. -/
def Expr.longestRowOfEntries : List (Expr ν × Expr ν) → Nat
  | [] => 1
  | (a, b) :: es => max (max a.longestRow b.longestRow) (Expr.longestRowOfEntries es)

end

mutual

/-- The longest row of a command. -/
def Command.longestRow : Command ν → Nat
  | .block b => b.longestRow
  | .assign none a _ | .print (some a) _ | .assert a none _ => a.longestRow
  | .assign (some t) a _ => max t.toExpr.longestRow a.longestRow
  | .print none _ => 1
  | .assert a (some b) _ => max a.longestRow b.longestRow
  | .cond a b none _ | .whileDo a b _ | .doWhile b a _ | .each _ a b _ =>
    max a.longestRow b.longestRow
  | .cond a b (some c) _ => max a.longestRow (max b.longestRow c.longestRow)

/-- The longest row of a block. -/
def Block.longestRow : Block ν → Nat
  | ⟨body, _, _⟩ => Block.longestRowOfAll body

/-- The longest row of any command. -/
def Block.longestRowOfAll : List (Command ν) → Nat
  | [] => 1
  | c :: cs => max c.longestRow (Block.longestRowOfAll cs)

end

/-! ### Heights -/

section

variable (step : Nat)

mutual

/-- The height of an expression, with `step` for a node that goes on with a row. -/
def Expr.heightBy : Expr ν → Nat
  | .const .. | .var .. => 1
  | .binary op a b _ => max (a.heightBy + if op.goesOn a then step else 1) (b.heightBy + 1)
  | .index a b _ => max (a.heightBy + if a.isEntry then step else 1) (b.heightBy + 1)
  | .unary _ a _ | .call _ a _ => a.heightBy + 1
  | .list es _ => Expr.heightOfElements es + 1
  | .map es _ => Expr.heightOfEntries es + 1

/-- The height of an element, with `step` for a node that goes on with a row. -/
def Element.heightBy : Element ν → Nat
  | .single a | .spread a => a.heightBy + 1
  | .cond c a none _ => max c.heightBy a.heightBy + 1
  | .cond c a (some b) _ => max c.heightBy (max a.heightBy b.heightBy) + 1
  | .each _ a e _ => max a.heightBy e.heightBy + 1

/-- The greatest height of an element. -/
def Expr.heightOfElements : List (Element ν) → Nat
  | [] => 0
  | e :: es => max e.heightBy (Expr.heightOfElements es)

/-- The greatest height of a key or a value. -/
def Expr.heightOfEntries : List (Expr ν × Expr ν) → Nat
  | [] => 0
  | (a, b) :: es => max (max a.heightBy b.heightBy) (Expr.heightOfEntries es)

end

mutual

/-- The height of a command, with `step` for a node that goes on with a row. -/
def Command.heightBy : Command ν → Nat
  | .block b => b.heightBy
  | .assign none a _ | .print (some a) _ | .assert a none _ => a.heightBy step + 1
  | .assign (some t) a _ => max (t.toExpr.heightBy step) (a.heightBy step) + 1
  | .print none _ => 1
  | .assert a (some b) _ => max (a.heightBy step) (b.heightBy step) + 1
  | .cond a b none _ | .whileDo a b _ | .doWhile b a _ | .each _ a b _ =>
    max (a.heightBy step) b.heightBy + 1
  | .cond a b (some c) _ => max (a.heightBy step) (max b.heightBy c.heightBy) + 1

/-- The height of a block, with `step` for a node that goes on with a row. -/
def Block.heightBy : Block ν → Nat
  | ⟨body, _, _⟩ => Block.heightOfAll body + 1

/-- The greatest height of a command. -/
def Block.heightOfAll : List (Command ν) → Nat
  | [] => 0
  | c :: cs => max c.heightBy (Block.heightOfAll cs)

end

end

/-- The height of a program: the greatest number of nodes from the root down to a leaf. -/
def Block.height (b : Block ν) : Nat := b.heightBy 1

/-- The height of a program with each row counted once. -/
def Block.flatHeight (b : Block ν) : Nat := b.heightBy 0

/-! ### Rows and heights -/

section

variable {high high' flat flat' row m : Nat}

/-- One more node on both sides. -/
theorem add_one_le_mul_of_le (hm : 1 ≤ m) (h : high ≤ flat * m) : high + 1 ≤ (flat + 1) * m := by
  rw [Nat.succ_mul]
  omega

theorem max_le_max_mul (h : high ≤ flat * m) (h' : high' ≤ flat' * m) :
    max high high' ≤ max flat flat' * m := by
  rw [← Nat.mul_max_mul_right]
  omega

/-- A node over the end of a row and another operand: either it goes on with the row, or it
stands over it. -/
theorem max_add_le_of_row {goesOn : Bool} (h : high + m ≤ flat * m + row) (hrow : row ≤ m)
    (h' : high' ≤ flat' * m) :
    max (high + if goesOn then 1 else 1) (high' + 1) + m ≤
      max (flat + if goesOn then 0 else 1) (flat' + 1) * m + if goesOn then row + 1 else 1 := by
  rw [← Nat.mul_max_mul_right, Nat.succ_mul]
  cases goesOn with
  | true =>
    simp only [if_true, Nat.add_zero]
    omega
  | false =>
    simp only [Bool.false_eq_true, if_false, Nat.succ_mul]
    omega

end

theorem Expr.one_le_row (e : Expr ν) : 1 ≤ e.row := by
  unfold row
  split
  · split <;> omega
  · split <;> omega
  · exact Nat.le_refl 1

mutual

theorem Expr.row_le_longestRow : (e : Expr ν) → e.row ≤ e.longestRow
  | .binary .. | .index .. => Nat.le_max_left _ _
  | .const .. | .var .. => Nat.le_refl 1
  | .unary _ a _ | .call _ a _ => Nat.le_trans (Expr.one_le_row a) (Expr.row_le_longestRow a)
  | .list es _ => Expr.one_le_longestRowOfElements es
  | .map es _ => Expr.one_le_longestRowOfEntries es

theorem Expr.one_le_longestRowOfElements : (es : List (Element ν)) →
    1 ≤ Expr.longestRowOfElements es
  | [] => Nat.le_refl 1
  | _ :: es => Nat.le_trans (Expr.one_le_longestRowOfElements es) (Nat.le_max_right _ _)

theorem Expr.one_le_longestRowOfEntries : (es : List (Expr ν × Expr ν)) →
    1 ≤ Expr.longestRowOfEntries es
  | [] => Nat.le_refl 1
  | _ :: es => Nat.le_trans (Expr.one_le_longestRowOfEntries es) (Nat.le_max_right _ _)

end

section

variable {m : Nat}

mutual

/-- An expression is at most as high as it is with rows counted once, times the longest row. At
the end of a row this is so but for the rest of the row. -/
theorem Expr.height_row_le (hm : 1 ≤ m) :
    (e : Expr ν) → e.longestRow ≤ m → e.heightBy 1 + m ≤ e.heightBy 0 * m + e.row
  | .const .., _ | .var .., _ => by
    simp only [Expr.heightBy, Expr.row]
    omega
  | .binary op a b _, h => by
    simp only [Expr.longestRow, Nat.max_le] at h
    exact max_add_le_of_row (Expr.height_row_le hm a h.2.1) (Nat.le_trans a.row_le_longestRow h.2.1)
      (Expr.height_le hm b h.2.2)
  | .index a b _, h => by
    simp only [Expr.longestRow, Nat.max_le] at h
    exact max_add_le_of_row (Expr.height_row_le hm a h.2.1) (Nat.le_trans a.row_le_longestRow h.2.1)
      (Expr.height_le hm b h.2.2)
  | .unary _ a _, h | .call _ a _, h => by
    have ha := Expr.height_le hm a h
    simp only [Expr.heightBy, Expr.row, Nat.succ_mul]
    omega
  | .list es _, h => by
    have hes := Expr.heightOfElements_le hm es h
    simp only [Expr.heightBy, Expr.row, Nat.succ_mul]
    omega
  | .map es _, h => by
    have hes := Expr.heightOfEntries_le hm es h
    simp only [Expr.heightBy, Expr.row, Nat.succ_mul]
    omega

theorem Expr.height_le (hm : 1 ≤ m) (e : Expr ν) (h : e.longestRow ≤ m) :
    e.heightBy 1 ≤ e.heightBy 0 * m := by
  have hrow := Expr.height_row_le hm e h
  have hle := e.row_le_longestRow
  omega

theorem Element.height_le (hm : 1 ≤ m) :
    (e : Element ν) → e.longestRow ≤ m → e.heightBy 1 ≤ e.heightBy 0 * m
  | .single a, h | .spread a, h => add_one_le_mul_of_le hm (Expr.height_le hm a h)
  | .cond c a none _, h => by
    obtain ⟨hc, ha⟩ := Nat.max_le.1 h
    exact add_one_le_mul_of_le hm
      (max_le_max_mul (Expr.height_le hm c hc) (Element.height_le hm a ha))
  | .cond c a (some b) _, h => by
    obtain ⟨hc, h⟩ := Nat.max_le.1 h
    obtain ⟨ha, hb⟩ := Nat.max_le.1 h
    exact add_one_le_mul_of_le hm (max_le_max_mul (Expr.height_le hm c hc)
      (max_le_max_mul (Element.height_le hm a ha) (Element.height_le hm b hb)))
  | .each _ a e _, h => by
    obtain ⟨ha, he⟩ := Nat.max_le.1 h
    exact add_one_le_mul_of_le hm
      (max_le_max_mul (Expr.height_le hm a ha) (Element.height_le hm e he))

theorem Expr.heightOfElements_le (hm : 1 ≤ m) :
    (es : List (Element ν)) → Expr.longestRowOfElements es ≤ m →
      Expr.heightOfElements 1 es ≤ Expr.heightOfElements 0 es * m
  | [], _ => Nat.zero_le _
  | e :: es, h => by
    obtain ⟨he, hes⟩ := Nat.max_le.1 h
    exact max_le_max_mul (Element.height_le hm e he) (Expr.heightOfElements_le hm es hes)

theorem Expr.heightOfEntries_le (hm : 1 ≤ m) :
    (es : List (Expr ν × Expr ν)) → Expr.longestRowOfEntries es ≤ m →
      Expr.heightOfEntries 1 es ≤ Expr.heightOfEntries 0 es * m
  | [], _ => Nat.zero_le _
  | (a, b) :: es, h => by
    obtain ⟨hab, hes⟩ := Nat.max_le.1 h
    obtain ⟨ha, hb⟩ := Nat.max_le.1 hab
    exact max_le_max_mul (max_le_max_mul (Expr.height_le hm a ha) (Expr.height_le hm b hb))
      (Expr.heightOfEntries_le hm es hes)

end

mutual

theorem Command.height_le (hm : 1 ≤ m) :
    (c : Command ν) → c.longestRow ≤ m → c.heightBy 1 ≤ c.heightBy 0 * m
  | .block b, h => Block.heightBy_le_mul hm b h
  | .assign none a _, h | .print (some a) _, h | .assert a none _, h =>
    add_one_le_mul_of_le hm (Expr.height_le hm a h)
  | .print none _, _ => by
    simp only [Command.heightBy]
    omega
  | .assign (some t) a _, h => by
    obtain ⟨ht, ha⟩ := Nat.max_le.1 h
    exact add_one_le_mul_of_le hm
      (max_le_max_mul (Expr.height_le hm _ ht) (Expr.height_le hm a ha))
  | .assert a (some b) _, h => by
    obtain ⟨ha, hb⟩ := Nat.max_le.1 h
    exact add_one_le_mul_of_le hm
      (max_le_max_mul (Expr.height_le hm a ha) (Expr.height_le hm b hb))
  | .cond a b none _, h | .whileDo a b _, h | .doWhile b a _, h | .each _ a b _, h => by
    obtain ⟨ha, hb⟩ := Nat.max_le.1 h
    exact add_one_le_mul_of_le hm
      (max_le_max_mul (Expr.height_le hm a ha) (Command.height_le hm b hb))
  | .cond a b (some c) _, h => by
    obtain ⟨ha, h⟩ := Nat.max_le.1 h
    obtain ⟨hb, hc⟩ := Nat.max_le.1 h
    exact add_one_le_mul_of_le hm (max_le_max_mul (Expr.height_le hm a ha)
      (max_le_max_mul (Command.height_le hm b hb) (Command.height_le hm c hc)))

theorem Block.heightBy_le_mul (hm : 1 ≤ m) :
    (b : Block ν) → b.longestRow ≤ m → b.heightBy 1 ≤ b.heightBy 0 * m
  | ⟨body, _, _⟩, h => add_one_le_mul_of_le hm (Block.heightOfAll_le hm body h)

theorem Block.heightOfAll_le (hm : 1 ≤ m) :
    (cs : List (Command ν)) → Block.longestRowOfAll cs ≤ m →
      Block.heightOfAll 1 cs ≤ Block.heightOfAll 0 cs * m
  | [], _ => Nat.zero_le _
  | c :: cs, h => by
    obtain ⟨hc, hcs⟩ := Nat.max_le.1 h
    exact max_le_max_mul (Command.height_le hm c hc) (Block.heightOfAll_le hm cs hcs)

end

end

theorem Block.one_le_longestRow (b : Block ν) : 1 ≤ b.longestRow := by
  obtain ⟨body, declares, line⟩ := b
  rw [longestRow]
  induction body with
  | nil => exact Nat.le_refl 1
  | cons c cs ih => exact Nat.le_trans ih (Nat.le_max_right _ _)

/-- A program is at most as high as it is with each row counted once, times its longest row. -/
theorem Block.height_le (b : Block ν) : b.height ≤ b.flatHeight * b.longestRow :=
  Block.heightBy_le_mul b.one_le_longestRow b (Nat.le_refl _)

/-! ### Heights and labels -/

section

variable {μ : Type} {g : ν → μ} {h : Nat → Nat} {step : Nat}

theorem BinaryOp.goesOn_relabel (op : BinaryOp) (e : Expr ν) :
    op.goesOn (e.relabel g h) = op.goesOn e := by
  cases e <;> rfl

theorem Expr.isEntry_relabel (e : Expr ν) : (e.relabel g h).isEntry = e.isEntry := by
  cases e <;> rfl

mutual

theorem Expr.heightBy_relabel :
    (e : Expr ν) → (e.relabel g h).heightBy step = e.heightBy step
  | .const .. | .var .. => rfl
  | .binary _ a b _ | .index a b _ => by
    simp only [Expr.relabel, Expr.heightBy, BinaryOp.goesOn_relabel, Expr.isEntry_relabel,
      Expr.heightBy_relabel a, Expr.heightBy_relabel b]
  | .unary _ a _ | .call _ a _ => congrArg (· + 1) (Expr.heightBy_relabel a)
  | .list es _ => congrArg (· + 1) (Expr.heightOfElements_relabel es)
  | .map es _ => congrArg (· + 1) (Expr.heightOfEntries_relabel es)

theorem Element.heightBy_relabel :
    (e : Element ν) → (e.relabel g h).heightBy step = e.heightBy step
  | .single a | .spread a => congrArg (· + 1) (Expr.heightBy_relabel a)
  | .cond c a none _ => by
    simp only [Element.relabel, Element.heightBy, Expr.heightBy_relabel c,
      Element.heightBy_relabel a]
  | .cond c a (some b) _ => by
    simp only [Element.relabel, Element.heightBy, Expr.heightBy_relabel c,
      Element.heightBy_relabel a, Element.heightBy_relabel b]
  | .each _ a e _ => by
    simp only [Element.relabel, Element.heightBy, Expr.heightBy_relabel a,
      Element.heightBy_relabel e]

theorem Expr.heightOfElements_relabel : (es : List (Element ν)) →
    Expr.heightOfElements step (Expr.relabelElements g h es) = Expr.heightOfElements step es
  | [] => rfl
  | e :: es => congrArg₂ max (Element.heightBy_relabel e) (Expr.heightOfElements_relabel es)

theorem Expr.heightOfEntries_relabel : (es : List (Expr ν × Expr ν)) →
    Expr.heightOfEntries step (Expr.relabelEntries g h es) = Expr.heightOfEntries step es
  | [] => rfl
  | (a, b) :: es =>
    congrArg₂ max (congrArg₂ max (Expr.heightBy_relabel a) (Expr.heightBy_relabel b))
      (Expr.heightOfEntries_relabel es)

end

mutual

theorem Command.heightBy_relabel :
    (c : Command ν) → (c.relabel g h).heightBy step = c.heightBy step
  | .block b => Block.heightBy_relabel b
  | .print none _ => rfl
  | .assign none a _ | .print (some a) _ | .assert a none _ =>
    congrArg (· + 1) (Expr.heightBy_relabel a)
  | .assign (some t) a _ => by
    simp only [Command.relabel, Command.heightBy, Target.toExpr_relabel, Expr.heightBy_relabel]
  | .assert a (some b) _ => by
    simp only [Command.relabel, Command.heightBy, Expr.heightBy_relabel]
  | .cond a b none _ | .whileDo a b _ | .doWhile b a _ | .each _ a b _ => by
    simp only [Command.relabel, Command.heightBy, Expr.heightBy_relabel,
      Command.heightBy_relabel b]
  | .cond a b (some c) _ => by
    simp only [Command.relabel, Command.heightBy, Expr.heightBy_relabel,
      Command.heightBy_relabel b, Command.heightBy_relabel c]

theorem Block.heightBy_relabel :
    (b : Block ν) → (b.relabel g h).heightBy step = b.heightBy step
  | ⟨body, _, _⟩ => congrArg (· + 1) (Block.heightOfAll_relabel body)

theorem Block.heightOfAll_relabel : (cs : List (Command ν)) →
    Block.heightOfAll step (Block.relabelAll g h cs) = Block.heightOfAll step cs
  | [] => rfl
  | c :: cs => congrArg₂ max (Command.heightBy_relabel c) (Block.heightOfAll_relabel cs)

end

end

end

/-! ### The height of phrases -/

/-- How many nodes a phrase of a rank may put over what is nested in it, with rows counted
once: one for a row of each level from here on, one for an operator before and one for an
operator behind, and one for the operand. -/
def Rank.nodes : Rank → Nat
  | expression => 0
  | level .fallback => 8
  | level .logical => 7
  | level .relational => 6
  | level .additive => 5
  | level .multiplicative => 4
  | signed => 3
  | factor => 2
  | primary | operand | place => 1

/-- With rows counted once, the tree of a phrase of nesting `k` is not too high. -/
def Category.IsLow (k : Nat) : (N : Category) → N.Tree → Prop
  | expr rank, e => e.heightBy 0 ≤ rank.nodes + 8 * k
  | operations l, ops =>
    ∀ o ∈ ops, o.1.level = l ∧ o.2.1.heightBy 0 ≤ l.operand.nodes + 8 * k
  | subscripts, subs => ∀ s ∈ subs, s.1.heightBy 0 ≤ 8 * k
  | element, e => e.heightBy 0 ≤ 8 * k
  | elements, es => Expr.heightOfElements 0 es ≤ 8 * k
  | entries, es => Expr.heightOfEntries 0 es ≤ 8 * k
  | declarator .., d => ∀ value ∈ d.2, value.heightBy 0 ≤ 8 * k
  | declarators .., ds => ∀ d ∈ ds, ∀ value ∈ d.2, value.heightBy 0 ≤ 8 * k
  | command, c => c.heightBy 0 ≤ 8 * k
  | body, c => c.heightBy 0 ≤ 8 * k + 1
  | code, cs => Block.heightOfAll 0 cs ≤ 8 * k

theorem Category.IsLow.mono {N : Category} {k k' : Nat} {x : N.Tree} (h : N.IsLow k x)
    (hk : k ≤ k') : N.IsLow k' x := by
  have hle : 8 * k ≤ 8 * k' := Nat.mul_le_mul_left 8 hk
  cases N with
  | expr | element | elements | entries | command | body | code =>
    simp only [IsLow] at h ⊢
    omega
  | operations l => exact fun o ho => ⟨(h o ho).1, by have := (h o ho).2; omega⟩
  | subscripts => exact fun s hs => Nat.le_trans (h s hs) hle
  | declarator => exact fun value hv => Nat.le_trans (h value hv) hle
  | declarators => exact fun d hd value hv => Nat.le_trans (h d hd value hv) hle

theorem Level.level_of_op? {l : Level} {kind : TokenKind} {op : BinaryOp}
    (h : l.op? kind = some op) : op.level = l := by
  cases l <;> revert h <;>
    simp only [Level.op?, BinaryOp.fallback?, BinaryOp.logical?, BinaryOp.relational?,
      BinaryOp.additive?, BinaryOp.multiplicative?] <;> split <;> rintro ⟨⟩ <;> rfl

/-- What stands between operators of a level has one node less over it. -/
theorem Level.nodes_operand (l : Level) : l.operand.nodes + 1 = (Rank.level l).nodes := by
  cases l <;> rfl

section

variable {ν : Type} {e : Expr ν} {m : Nat}

theorem Expr.one_le_heightBy (e : Expr ν) (step : Nat) : 1 ≤ e.heightBy step := by
  cases e <;> simp only [heightBy] <;> omega

/-- A row of operators of a level is one node over its operands. -/
theorem Expr.heightBy_operated {l : Level} {ops : List (BinaryOp × Expr ν × Nat)}
    (hops : ∀ o ∈ ops, o.1.level = l ∧ o.2.1.heightBy 0 ≤ m)
    (hl : l.chains = true ∨ ops.length ≤ 1)
    (h : e.heightBy 0 ≤ m ∨ e.heightBy 0 ≤ m + 1 ∧ l.chains = true ∧
      ∃ op a b line, e = .binary op a b line ∧ op.level = l) :
    (e.operated ops).heightBy 0 ≤ m + 1 := by
  induction ops generalizing e with
  | nil =>
    rw [Expr.operated_nil]
    omega
  | cons o ops ih =>
    obtain ⟨op, b, line⟩ := o
    obtain ⟨ho, hops⟩ := List.forall_mem_cons.1 hops
    have hop : op.level = l := ho.1
    have hb : b.heightBy 0 ≤ m := ho.2
    have hnode : (Expr.binary op e b line).heightBy 0 ≤ m + 1 := by
      rw [heightBy]
      rcases h with h | ⟨h, hchains, op', a', b', line', rfl, hop'⟩
      · split <;> omega
      · have hgoesOn : op.goesOn (.binary op' a' b' line') = true := by
          simp [BinaryOp.goesOn, hop, hop', hchains]
        rw [if_pos hgoesOn]
        omega
    rw [Expr.operated_cons]
    rcases hl with hl | hl
    · exact ih hops (.inl hl) (.inr ⟨hnode, hl, op, e, b, line, rfl, hop⟩)
    · rw [List.length_cons] at hl
      obtain rfl : ops = [] := List.length_eq_zero_iff.1 (by omega)
      exact hnode

/-- A row of subscripts is one node over what stands in them. -/
theorem Expr.heightBy_subscripted {subs : List (Expr ν × Nat)}
    (hsubs : ∀ s ∈ subs, s.1.heightBy 0 ≤ m)
    (h : e.heightBy 0 = 1 ∨ e.isEntry = true ∧ e.heightBy 0 ≤ m + 1) :
    (e.subscripted subs).heightBy 0 ≤ m + 1 := by
  induction subs generalizing e with
  | nil =>
    rw [Expr.subscripted_nil]
    omega
  | cons s subs ih =>
    obtain ⟨b, line⟩ := s
    obtain ⟨hb, hsubs⟩ := List.forall_mem_cons.1 hsubs
    have hone := b.one_le_heightBy 0
    refine ih hsubs (.inr ⟨rfl, ?_⟩)
    simp only [heightBy] at h hb ⊢
    rcases h with h | ⟨hentry, h⟩
    · split <;> omega
    · rw [hentry, if_pos rfl]
      omega

end

/-- The tree of a declaration is two nodes over its initial values. -/
theorem Block.heightBy_ofDeclarators {ds : List Declarator} {m : Nat}
    (h : ∀ d ∈ ds, ∀ value ∈ d.2, value.heightBy 0 ≤ m) (line : Nat) :
    (Block.ofDeclarators ds line).heightBy 0 ≤ m + 3 := by
  have hbody : Block.heightOfAll 0 (ds.filterMap Declarator.assignment?) ≤ m + 2 := by
    induction ds with
    | nil => exact Nat.zero_le _
    | cons d ds ih =>
      obtain ⟨hd, hds⟩ := List.forall_mem_cons.1 h
      obtain ⟨v, _ | value⟩ := d
      · exact ih hds
      · have hvalue := hd value rfl
        have hrest := ih hds
        refine Nat.max_le.2 ⟨?_, hrest⟩
        simp only [Command.heightBy, Target.toExpr, Expr.heightBy]
        omega
  exact Nat.succ_le_succ hbody

/-- With rows counted once, the tree of a phrase is as high as its nesting allows. -/
theorem Derives.isLow {N k i x r} (h : Derives N k i x r) : N.IsLow k x := by
  induction h with
  | expression h ih =>
    simp only [Category.IsLow, Rank.nodes] at ih ⊢
    omega
  | @level l k k' i e m ops r left h chains ih ih' =>
    have hleft := ih.mono (Nat.le_max_left k k')
    have hops := ih'.mono (Nat.le_max_right k k')
    have ht := Expr.heightBy_operated hops chains (.inl hleft)
    have hnodes := l.nodes_operand
    simp only [Category.IsLow] at ht ⊢
    omega
  | noOperation | noSubscript => exact fun _ h => nomatch h
  | @operation l k k' i op e m ops r head right h ih ih' =>
    have hright := ih.mono (Nat.le_max_left k k')
    exact List.forall_mem_cons.2
      ⟨⟨Level.level_of_op? head, hright⟩, ih'.mono (Nat.le_max_right k k')⟩
  | @named k i _ _ _ _ ih =>
    have ht := Expr.heightBy_subscripted
      (e := .var (Mention.ofToken i.hand.token) i.hand.token.line) ih (.inl rfl)
    simp only [Category.IsLow, Rank.nodes] at ht ⊢
    omega
  | @subscript k k' i e m subs r opens h closes rest ih ih' =>
    have he := ih.mono (Nat.le_max_left k k')
    simp only [Category.IsLow, Rank.nodes, Nat.zero_add] at he
    exact List.forall_mem_cons.2 ⟨he, ih'.mono (Nat.le_max_right k k')⟩
  | declarator => exact fun _ h => nomatch h
  | initialized name assign h ih =>
    rintro value ⟨⟩
    simpa only [Category.IsLow, Rank.nodes, Nat.zero_add] using ih
  | lastDeclarator h ih => exact List.forall_mem_singleton.2 ih
  | @declarators _ _ _ k k' i d m ds r h comma rest ih ih' =>
    exact List.forall_mem_cons.2
      ⟨ih.mono (Nat.le_max_left k k'), ih'.mono (Nat.le_max_right k k')⟩
  | @declaration _ _ _ i _ _ _ _ final head mark h stop ih =>
    have hb := Block.heightBy_ofDeclarators ih i.hand.token.line
    simp only [Category.IsLow, Command.heightBy] at hb ⊢
    omega
  | assignment h isTarget assign h' stop ih ih' =>
    simp only [Category.IsLow, Command.heightBy, Rank.nodes, Expr.toExpr_of_target? isTarget]
      at ih ih' ⊢
    omega
  | _ =>
    simp only [Category.IsLow, Rank.nodes, Expr.heightBy, Element.heightBy, Command.heightBy,
      Block.heightBy, Expr.heightOfElements, Expr.heightOfEntries, Block.heightOfAll] at *
    omega

/-! ### The height of programs -/

section

variable {text file : String} {mode : ScopeMode} {b : Block Variable} {p : Parser SymbolTable}

/-- The limit on nesting bounds how high a program is that is read: with each row counted once
by a constant, and without that by this constant times the longest row. -/
theorem height_le_of_parse (h : parseText text file mode = (.ok b, p)) :
    b.flatHeight ≤ 8 * maxDepth + 1 ∧ b.height ≤ (8 * maxDepth + 1) * b.longestRow := by
  rw [parseText_eq_read] at h
  obtain ⟨k, cs, body, hk, ⟨r, hd, -⟩, hr, rfl⟩ := exists_sentence_of_read h
  have hlow : Block.heightOfAll 0 cs ≤ 8 * k := hd.isLow
  have hnames : Block.relabelAll Variable.name id body = Block.relabelAll Mention.name id cs :=
    hd.resolve_sameNames hr
  have hsame : Block.heightOfAll 0 body = Block.heightOfAll 0 cs := by
    rw [← Block.heightOfAll_relabel, hnames, Block.heightOfAll_relabel]
  have hflat : (Block.ofCode text body).flatHeight ≤ 8 * maxDepth + 1 := by
    show Block.heightOfAll 0 body + 1 ≤ 8 * maxDepth + 1
    omega
  have hheight := (Block.ofCode text body).height_le
  exact ⟨hflat, Nat.le_trans hheight (Nat.mul_le_mul_right _ hflat)⟩

/-- A program with a row of two operators, and one that goes on with no row. -/
theorem height_le_of_parse_row :
    ∃ b p, parseText "print(1 + 2 + 3 * 4);" "p" .flat = (.ok b, p) ∧
      b.flatHeight ≤ 8 * maxDepth + 1 ∧ b.height ≤ (8 * maxDepth + 1) * b.longestRow := by
  have hok : (parseText "print(1 + 2 + 3 * 4);" "p" .flat).1.isOk = true := by decide +kernel
  obtain ⟨b, p, h⟩ := exists_parseText hok
  exact ⟨b, p, h, height_le_of_parse h⟩

end

/-! ### Rows without end -/

/-- A sum with so many operators, all in a row. -/
def zeros : Nat → String
  | 0 => "0"
  | n + 1 => zeros n ++ " + " ++ "0"

/-- The words of such a sum behind its first operand. -/
def zeroWords (n : Nat) : List Word :=
  (List.replicate n [Word.symbol .plus, Word.number "0"]).flatten

theorem spells_zeros (n : Nat) : Open (zeros n) (.number "0" :: zeroWords n) := by
  have hzero : Open "0" [.number "0"] :=
    Spells.open_word (w := .number "0") (show isNumber "0" = true by decide)
  induction n with
  | zero => exact hzero
  | succ n ih =>
    have hplus : Closed " + " [.symbol .plus] := closed_between (w := .symbol .plus) trivial
    have hsum := (ih.stoppedBy hplus (by decide)).andThen hzero
    rw [zeroWords, List.replicate_succ', List.flatten_append, zeros]
    simpa [zeroWords] using hsum

/-- Operations whose right operands are zeros. -/
def AddsZeros (ops : List (BinaryOp × Expr Mention × Nat)) : Prop :=
  ∀ o ∈ ops, ∃ line, o.2.1 = .const (.number 0) line

/-- A number is derived as an operand. -/
theorem Derives.zero {i : Tape} (h : Word.IsToken (.number "0") i.hand.token) :
    Derives (.expr .signed) 0 i (.const (.number 0) i.hand.token.line) i.next := by
  have hvalue : (Literal.number 0).Spellable := show (0 : Int) ≤ 0 ∧ _ by decide
  exact .signed_of_operand (.constant (Literal.ofToken_word hvalue h))

/-- A sum in a row opens nothing. -/
theorem exists_operations_of_reads_zeroWords {n : Nat} {i r : Tape} (h : i.Reads (zeroWords n) r) :
    ∃ ops, Derives (.operations .additive) 0 i ops r ∧ AddsZeros ops ∧ ops.length = n := by
  induction n generalizing i with
  | zero =>
    obtain rfl : i = r := h
    exact ⟨[], .noOperation, nofun, rfl⟩
  | succ n ih =>
    obtain ⟨hplus, hzero, hrest⟩ := h
    obtain ⟨ops, hops, hzeros, rfl⟩ := ih hrest
    have hadd : Level.additive.op? i.kind = some .add := by
      rw [show i.kind = .symbol .plus from hplus.1]
      rfl
    have hright := (Derives.zero hzero).operand_of_signed .additive
    exact ⟨_, .operation hadd hright hops, List.forall_mem_cons.2 ⟨⟨_, rfl⟩, hzeros⟩, rfl⟩

/-- There are no names in zeros. -/
theorem resolve_of_addsZeros {σ ν : Type} [Scoping σ ν]
    {ops : List (BinaryOp × Expr Mention × Nat)} (h : AddsZeros ops) (file : String) (s : σ) :
    ∃ ops' : List (BinaryOp × Expr ν × Nat), Expr.resolveOperations file ops s = .ok (ops', s) ∧
      ops'.length = ops.length := by
  induction ops with
  | nil => exact ⟨[], rfl, rfl⟩
  | cons o ops ih =>
    obtain ⟨op, e, line⟩ := o
    obtain ⟨⟨line', rfl⟩, hops⟩ := List.forall_mem_cons.1 h
    obtain ⟨ops', hr, hlength⟩ := ih hops
    refine ⟨(op, .const (.number 0) line', line) :: ops', ?_, congrArg (· + 1) hlength⟩
    exact bind_eq_ok.2 ⟨_, s, rfl, bind_eq_ok.2 ⟨ops', s, hr, rfl⟩⟩

/-- Each operator in a row is one node more. -/
theorem Expr.length_lt_heightBy_operated {ν : Type} (ops : List (BinaryOp × Expr ν × Nat))
    (e : Expr ν) : ops.length < (e.operated ops).heightBy 1 := by
  have hrow : ∀ e : Expr ν, e.heightBy 1 + ops.length ≤ (e.operated ops).heightBy 1 := by
    induction ops with
    | nil => exact fun e => Nat.le_refl _
    | cons o ops ih =>
      intro e
      obtain ⟨op, b, line⟩ := o
      have hrest := ih (.binary op e b line)
      have hnode : e.heightBy 1 + 1 ≤ (Expr.binary op e b line).heightBy 1 := by
        simp only [heightBy, ite_self]
        omega
      rw [List.length_cons, Expr.operated_cons]
      omega
  have hall := hrow e
  have hone := e.one_le_heightBy 1
  omega

/-- A sum that stands alone, followed by the end. -/
theorem sentence_zeros (n : Nat) :
    ∃ line line' ops, Sentence (zeros n ++ ";") 2
        [.assign none ((Expr.const (.number 0) line).operated ops) line'] ∧
      AddsZeros ops ∧ ops.length = n := by
  have hspells : Closed (zeros n ++ ";") (.number "0" :: zeroWords n ++ [.symbol .semicolon]) :=
    (spells_zeros n).stoppedBy (Spells.symbol .semicolon) (by decide)
  have hwords := hspells.words_ofText
  rw [Cursor.words, ← Tape.readings_ofText] at hwords
  obtain ⟨r, hreads, hend⟩ := Tape.reads_of_words hwords
  obtain ⟨m, ⟨hzero, hsum⟩, hstop, rfl⟩ := Tape.stop_of_reads hreads
  obtain ⟨ops, hops, hzeros, hlength⟩ := exists_operations_of_reads_zeroWords hsum
  have hleft := (Derives.zero hzero).operand_of_signed .additive
  have hexpr : Derives (.expr .expression) 1 (.ofText (zeros n ++ ";")) _ m :=
    .expression (Derives.level hleft hops (.inl rfl)).fallback_of_level
  exact ⟨_, _, ops, ⟨m.next, .code (.effect hexpr hstop) .noCode, hend⟩, hzeros, hlength⟩

/-- Sums of any length are read, in either mode. -/
theorem exists_parseText_zeros (n : Nat) (file : String) (mode : ScopeMode) :
    ∃ b p, parseText (zeros n ++ ";") file mode = (.ok b, p) ∧ n < b.height := by
  obtain ⟨line, line', ops, hs, hzeros, rfl⟩ := sentence_zeros n
  let t : SymbolTable := .empty mode
  obtain ⟨ops', hr, hlength⟩ := resolve_of_addsZeros hzeros file t
  have hexpr : ((Expr.const (.number 0) line).operated ops).resolve file t =
      .ok ((Expr.const (.number 0) line).operated ops', t) := by
    rw [Expr.resolve_operated]
    exact bind_eq_ok.2 ⟨_, t, rfl, bind_eq_ok.2 ⟨ops', t, hr, rfl⟩⟩
  have hbody : Block.resolveAll file
      [.assign none ((Expr.const (.number 0) line).operated ops) line'] t =
      .ok ([.assign none ((Expr.const (.number 0) line).operated ops') line'], t) :=
    bind_eq_ok.2 ⟨_, t, bind_eq_ok.2 ⟨_, t, hexpr, rfl⟩, rfl⟩
  have hread := read_ok_of_sentence hs (by decide) hbody
  refine ⟨_, _, Prod.ext hread rfl, ?_⟩
  have hheight := Expr.length_lt_heightBy_operated ops' (.const (.number 0) line)
  show ops.length < max (_ + 1) 0 + 1
  omega

/-- No number bounds how high programs are that are read, so the limit on nesting gives none. -/
theorem not_exists_height_bound :
    ¬ ∃ bound, ∀ (text file : String) (mode : ScopeMode) (b : Block Variable)
      (p : Parser SymbolTable), parseText text file mode = (.ok b, p) → b.height ≤ bound := by
  rintro ⟨bound, h⟩
  obtain ⟨b, p, hb, hlt⟩ := exists_parseText_zeros bound "p" .flat
  exact absurd hlt (Nat.not_lt.2 (h _ _ _ b p hb))

end Scriptlet
