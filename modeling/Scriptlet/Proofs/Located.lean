import Scriptlet.Proofs.Offset
import Scriptlet.Proofs.Reading

/-!
# Where nodes stand

A node of a tree keeps the line of a token. For most nodes that is the first token of the phrase.
For operators and subscripts it is the token behind the operator or the bracket, and the line on
which that token ends: it is in hand when the node is made. Read from a tape of offsets, a node has
an offset in place of the line, and the offset tells both apart.

## The model

`Command.nodes` lists the nodes of a tree that have a line. `Node.Located o` says where on the tape
`o` a node stands: there is a phrase that the node is the tree of, and the offset on the node is
the start of its first token or the end of the token behind its operator.

## What is proved

* `Derives.operations_append`, `Derives.located_operated` — operators in a row: each node is that
  of a phrase by itself.
* `Derives.located` — every node of what is derived stands where it says.
-/

namespace Scriptlet

/-! ### Nodes -/

/-- A node of a tree that has a line. -/
inductive Node (ν : Type) where
  /-- An expression. -/
  | expr (e : Expr ν)
  /-- An element of a list. -/
  | element (e : Element ν)
  /-- A command. -/
  | command (c : Command ν)

section

variable {ν : Type}

mutual

/-- The nodes of an expression. -/
def Expr.nodes : Expr ν → List (Node ν)
  | .const value line => [.expr (.const value line)]
  | .binary op a b line => .expr (.binary op a b line) :: (a.nodes ++ b.nodes)
  | .unary op a line => .expr (.unary op a line) :: a.nodes
  | .call f a line => .expr (.call f a line) :: a.nodes
  | .var v line => [.expr (.var v line)]
  | .index a b line => .expr (.index a b line) :: (a.nodes ++ b.nodes)
  | .list es line => .expr (.list es line) :: Expr.nodesOfElements es
  | .map es line => .expr (.map es line) :: Expr.nodesOfEntries es

/-- The nodes of an element of a list. A value alone has no line of its own. -/
def Element.nodes : Element ν → List (Node ν)
  | .single a | .spread a => a.nodes
  | .cond c a none line => .element (.cond c a none line) :: (c.nodes ++ a.nodes)
  | .cond c a (some b) line =>
    .element (.cond c a (some b) line) :: (c.nodes ++ (a.nodes ++ b.nodes))
  | .each v a e line => .element (.each v a e line) :: (a.nodes ++ e.nodes)

/-- The nodes of each element. -/
def Expr.nodesOfElements : List (Element ν) → List (Node ν)
  | [] => []
  | e :: es => e.nodes ++ Expr.nodesOfElements es

/-- The nodes of each entry of a map. -/
def Expr.nodesOfEntries : List (Expr ν × Expr ν) → List (Node ν)
  | [] => []
  | (a, b) :: es => a.nodes ++ (b.nodes ++ Expr.nodesOfEntries es)

end

mutual

/-- The nodes of a command. -/
def Command.nodes : Command ν → List (Node ν)
  | .block ⟨body, declares, line⟩ =>
    .command (.block ⟨body, declares, line⟩) :: Block.nodesOfAll body
  | .assign none a line => .command (.assign none a line) :: a.nodes
  | .assign (some t) a line => .command (.assign (some t) a line) :: (t.toExpr.nodes ++ a.nodes)
  | .print none line => [.command (.print none line)]
  | .print (some a) line => .command (.print (some a) line) :: a.nodes
  | .assert a none line => .command (.assert a none line) :: a.nodes
  | .assert a (some b) line => .command (.assert a (some b) line) :: (a.nodes ++ b.nodes)
  | .cond a b none line => .command (.cond a b none line) :: (a.nodes ++ b.nodes)
  | .cond a b (some c) line =>
    .command (.cond a b (some c) line) :: (a.nodes ++ (b.nodes ++ c.nodes))
  | .whileDo a b line => .command (.whileDo a b line) :: (a.nodes ++ b.nodes)
  | .doWhile b a line => .command (.doWhile b a line) :: (b.nodes ++ a.nodes)
  | .each v a b line => .command (.each v a b line) :: (a.nodes ++ b.nodes)

/-- The nodes of each command. -/
def Block.nodesOfAll : List (Command ν) → List (Node ν)
  | [] => []
  | c :: cs => c.nodes ++ Block.nodesOfAll cs

end

end

/-! ### Where they stand -/

namespace Tape

/-- Where the token in hand starts, on a tape of offsets. -/
def start (i : Tape) : Nat := i.hand.token.line

/-- Where the token in hand ends, on a tape of offsets. -/
def stop (i : Tape) : Nat := i.hand.reached

/-- A phrase on the tape `o`, with its tree. -/
def Holds (o : Tape) (N : Category) (i : Tape) (x : N.Tree) (r : Tape) : Prop :=
  i.RestOf o ∧ ∃ k, Derives N k i x r

end Tape

/-- The offset on the node is where its first token starts, but on an operator it is where the
token behind the operator ends. So it is behind the bracket of a subscript. The assignment of an
initial value has the offset of the name that it is for. -/
inductive Node.Located (o : Tape) : Node Mention → Prop
  | const {i r value} (h : o.Holds (.expr .operand) i (.const value i.start) r) :
    Located o (.expr (.const value i.start))
  | call {i r f a} (h : o.Holds (.expr .operand) i (.call f a i.start) r) :
    Located o (.expr (.call f a i.start))
  | list {i r es} (h : o.Holds (.expr .operand) i (.list es i.start) r) :
    Located o (.expr (.list es i.start))
  | map {i r es} (h : o.Holds (.expr .operand) i (.map es i.start) r) :
    Located o (.expr (.map es i.start))
  | var {i : Tape} {m : Mention} (hi : i.RestOf o) (hk : i.kind = .name)
    (hm : m.name = i.hand.token.value) : Located o (.expr (.var m i.start))
  | binary {l : Level} {i m r op a b} (left : o.Holds (.expr (.level l)) i a m)
    (head : l.op? m.kind = some op) (right : o.Holds (.expr l.operand) m.next b r) :
    Located o (.expr (.binary op a b m.next.stop))
  | signed {i r op a} (head : UnaryOp.before? i.kind = some op)
    (h : o.Holds (.expr .signed) i (.unary op a i.next.stop) r) :
    Located o (.expr (.unary op a i.next.stop))
  | postfixed {i m op a} (h : o.Holds (.expr .primary) i a m)
    (mark : UnaryOp.after? m.kind = some op) : Located o (.expr (.unary op a m.next.stop))
  | index {i m m' a b} (base : o.Holds (.expr .place) i a m)
    (opens : m.kind = .symbol .openBracket) (h : o.Holds (.expr .expression) m.next b m') :
    Located o (.expr (.index a b m.next.stop))
  | elementIf {i r c a b} (h : o.Holds .element i (.cond c a b i.start) r) :
    Located o (.element (.cond c a b i.start))
  | elementFor {i r v a e} (h : o.Holds .element i (.each v a e i.start) r) :
    Located o (.element (.each v a e i.start))
  | command {i r c} (h : o.Holds .command i c r) (hline : c.line = i.start) :
    Located o (.command c)
  | braces {i r c} (h : o.Holds .body i c r) (hline : c.line = i.start) : Located o (.command c)
  | initial {constant nullability number i r m e}
    (h : o.Holds (.declarator constant nullability number) i (m, some e) r) :
    Located o (.command (.assign (some (.var m i.start)) e i.start))

variable {o : Tape}

theorem Tape.Optional.restOf {i m : Tape} {k : TokenKind} {taken : Bool}
    (h : i.Optional k taken m) (hi : i.RestOf o) : m.RestOf o := by
  unfold Tape.Optional at h
  split at h
  · exact h.2 ▸ hi.next
  · exact h ▸ hi

/-- Behind a phrase is what is left of the tape. -/
theorem Derives.restOf {N k i x r} (h : Derives N k i x r) (hi : i.RestOf o) : r.RestOf o := by
  induction h with
  | declaration final head mark h stop ih => exact (ih (mark.restOf (final.restOf hi).next)).next
  | _ => grind [Tape.RestOf.next]

namespace Derives

/-- One more operation behind others. -/
theorem operations_append {l : Level} {k k' i m r e op}
    {ops : List (BinaryOp × Expr Mention × Nat)} (h : Derives (.operations l) k i ops m)
    (head : l.op? m.kind = some op) (right : Derives (.expr l.operand) k' m.next e r) :
    Derives (.operations l) (max k k') i (ops ++ [(op, e, m.next.hand.reached)]) r := by
  induction ops generalizing i k with
  | nil =>
    cases h with
    | noOperation =>
      have hs := Derives.operation head right .noOperation
      rwa [Nat.max_comm] at hs
  | cons o ops ih =>
    cases h with
    | operation head₁ right₁ rest =>
      rw [Nat.max_assoc]
      exact .operation head₁ right₁ (ih rest)

/-- The nodes of an operand with operations on it, some of which are on it already. -/
theorem located_operated {l : Level} {i m m' r e} (left : o.Holds (.expr l.operand) i e m)
    {ops before : List (BinaryOp × Expr Mention × Nat)} {k k' : Nat}
    (hbefore : Derives (.operations l) k m before m') (h : Derives (.operations l) k' m' ops r)
    (chains : l.chains = true ∨ (before ++ ops).length ≤ 1)
    (he : ∀ n ∈ (e.operated before).nodes, n.Located o)
    (hops : ∀ p ∈ ops, ∀ n ∈ p.2.1.nodes, n.Located o) :
    ∀ n ∈ (e.operated (before ++ ops)).nodes, n.Located o := by
  induction ops generalizing before m' k k' with
  | nil => rwa [List.append_nil]
  | cons p ops ih =>
    obtain ⟨hi, k₀, hleft⟩ := left
    obtain ⟨hp, hrest⟩ := List.forall_mem_cons.1 hops
    cases h with
    | operation head right rest =>
      have hm' : Tape.RestOf m' o := hbefore.restOf (hleft.restOf hi)
      have hlevel : o.Holds (.expr (.level l)) i (e.operated before) m' := by
        refine ⟨hi, _, .level hleft hbefore (chains.imp_right fun hlength => ?_)⟩
        rw [List.length_append] at hlength
        exact Nat.le_of_add_right_le hlength
      rw [List.append_cons]
      refine ih (hbefore.operations_append head right) rest ?_ ?_ hrest
      · rwa [List.append_assoc]
      · rw [Expr.operated, List.foldl_append]
        exact List.forall_mem_cons.2 ⟨.binary hlevel head ⟨hm'.next, _, right⟩,
          List.forall_mem_append.2 ⟨he, hp⟩⟩

/-- The nodes of a place with subscripts on it. -/
theorem located_subscripted {i m r e} (base : o.Holds (.expr .place) i e m)
    {subs : List (Expr Mention × Nat)} {k : Nat} (h : Derives .subscripts k m subs r)
    (he : ∀ n ∈ e.nodes, n.Located o) (hsubs : ∀ s ∈ subs, ∀ n ∈ s.1.nodes, n.Located o) :
    ∀ n ∈ (e.subscripted subs).nodes, n.Located o := by
  induction subs generalizing m e k with
  | nil => exact he
  | cons s subs ih =>
    obtain ⟨hi, k₀, hbase⟩ := base
    obtain ⟨hs, hrest⟩ := List.forall_mem_cons.1 hsubs
    cases h with
    | subscript opens h closes rest =>
      have hm : Tape.RestOf m o := hbase.restOf hi
      refine ih ⟨hi, _, hbase.place_index opens h closes⟩ rest ?_ hrest
      exact List.forall_mem_cons.2 ⟨.index ⟨hi, k₀, hbase⟩ opens ⟨hm.next, _, h⟩,
        List.forall_mem_append.2 ⟨he, hs⟩⟩

end Derives

/-- The nodes of a phrase, where those that its operators become are left out. -/
def Category.nodes : (N : Category) → N.Tree → List (Node Mention)
  | expr _, e | element, e => e.nodes
  | operations _, ops => ops.flatMap fun p => p.2.1.nodes
  | subscripts, subs => subs.flatMap fun s => s.1.nodes
  | elements, es => Expr.nodesOfElements es
  | entries, es => Expr.nodesOfEntries es
  | declarator _ _ _, d => Block.nodesOfAll d.assignment?.toList
  | declarators _ _ _, ds => Block.nodesOfAll (ds.filterMap Declarator.assignment?)
  | command, c | body, c => c.nodes
  | code, cs => Block.nodesOfAll cs

theorem Block.nodesOfAll_assignments (d : Declarator) (ds : List Declarator) :
    Block.nodesOfAll ((d :: ds).filterMap Declarator.assignment?) =
      Block.nodesOfAll d.assignment?.toList ++
        Block.nodesOfAll (ds.filterMap Declarator.assignment?) := by
  obtain ⟨m, _ | e⟩ := d
  · rfl
  · simp [Declarator.assignment?, nodesOfAll]

/-- The nodes of a phrase stand where they say. -/
theorem Derives.located {N k i x r} (h : Derives N k i x r) (hi : i.RestOf o) :
    ∀ n ∈ N.nodes x, n.Located o := by
  induction h with
  | expression _ ih | unsigned _ ih | factor _ ih | primary _ ih | place _ ih | single _ ih
  | unbraced _ _ ih => exact ih hi
  | level left h chains ih ih' =>
    exact located_operated ⟨hi, _, left⟩ .noOperation h chains (ih hi) fun p hp n hn =>
      ih' (left.restOf hi) n (List.mem_flatMap.2 ⟨p, hp, hn⟩)
  | noOperation | noSubscript | declarator | noCode => exact nofun
  | operation head right h ih ih' =>
    rw [Category.nodes, List.flatMap_cons]
    exact List.forall_mem_append.2 ⟨ih hi.next, ih' (right.restOf hi.next)⟩
  | signed head h ih =>
    exact List.forall_mem_cons.2 ⟨.signed head ⟨hi, _, .signed head h⟩, ih hi.next⟩
  | postfixed h mark ih => exact List.forall_mem_cons.2 ⟨.postfixed ⟨hi, _, h⟩ mark, ih hi⟩
  | parenthesized opens h closes ih => exact ih hi.next
  | constant head => exact List.forall_mem_cons.2 ⟨.const ⟨hi, _, .constant head⟩, nofun⟩
  | call head opens h closes ih =>
    exact List.forall_mem_cons.2 ⟨.call ⟨hi, _, .call head opens h closes⟩, ih hi.next.next⟩
  | emptyList opens closes =>
    exact List.forall_mem_cons.2 ⟨.list ⟨hi, _, .emptyList opens closes⟩, nofun⟩
  | list opens h closes ih =>
    exact List.forall_mem_cons.2 ⟨.list ⟨hi, _, .list opens h closes⟩, ih hi.next⟩
  | emptyMap opens closes =>
    exact List.forall_mem_cons.2 ⟨.map ⟨hi, _, .emptyMap opens closes⟩, nofun⟩
  | map opens h closes ih =>
    exact List.forall_mem_cons.2 ⟨.map ⟨hi, _, .map opens h closes⟩, ih hi.next⟩
  | named head h ih =>
    exact located_subscripted ⟨hi, _, .named head .noSubscript⟩ h
      (List.forall_mem_cons.2 ⟨.var hi head rfl, nofun⟩) fun s hs n hn =>
        ih hi.next n (List.mem_flatMap.2 ⟨s, hs, hn⟩)
  | subscript opens h closes rest ih ih' =>
    rw [Category.nodes, List.flatMap_cons]
    exact List.forall_mem_append.2 ⟨ih hi.next, ih' (h.restOf hi.next).next⟩
  | lastElement h ih => exact List.forall_mem_append.2 ⟨ih hi, nofun⟩
  | elements h comma rest ih ih' =>
    exact List.forall_mem_append.2 ⟨ih hi, ih' (h.restOf hi).next⟩
  | lastEntry h colon h' ih ih' =>
    exact List.forall_mem_append.2 ⟨ih hi, List.forall_mem_append.2
      ⟨ih' (h.restOf hi).next, nofun⟩⟩
  | entries h colon h' comma rest ih ih' ih'' =>
    have hm := (h.restOf hi).next
    exact List.forall_mem_append.2 ⟨ih hi, List.forall_mem_append.2
      ⟨ih' hm, ih'' (h'.restOf hm).next⟩⟩
  | spread head h ih => exact ih hi.next
  | elementIf head opens h closes h' noElse ih ih' =>
    have hm := (h.restOf hi.next.next).next
    exact List.forall_mem_cons.2
      ⟨.elementIf ⟨hi, _, .elementIf head opens h closes h' noElse⟩,
        List.forall_mem_append.2 ⟨ih hi.next.next, ih' hm⟩⟩
  | elementIfElse head opens h closes h' hasElse h'' ih ih' ih'' =>
    have hm := (h.restOf hi.next.next).next
    exact List.forall_mem_cons.2
      ⟨.elementIf ⟨hi, _, .elementIfElse head opens h closes h' hasElse h''⟩,
        List.forall_mem_append.2 ⟨ih hi.next.next, List.forall_mem_append.2
          ⟨ih' hm, ih'' (h'.restOf hm).next⟩⟩⟩
  | elementFor head opens name separator h closes h' ih ih' =>
    have hm := (h.restOf hi.next.next.next.next).next
    exact List.forall_mem_cons.2
      ⟨.elementFor ⟨hi, _, .elementFor head opens name separator h closes h'⟩,
        List.forall_mem_append.2 ⟨ih hi.next.next.next.next, ih' hm⟩⟩
  | initialized name assign h ih =>
    refine List.forall_mem_append.2 ⟨List.forall_mem_cons.2
      ⟨.initial ⟨hi, _, .initialized name assign h⟩,
        List.forall_mem_cons.2 ⟨?_, ih hi.next.next⟩⟩, nofun⟩
    exact .var hi name rfl
  | lastDeclarator h ih =>
    rw [Category.nodes, Block.nodesOfAll_assignments]
    exact List.forall_mem_append.2 ⟨ih hi, nofun⟩
  | declarators h comma rest ih ih' =>
    rw [Category.nodes, Block.nodesOfAll_assignments]
    exact List.forall_mem_append.2 ⟨ih hi, ih' (h.restOf hi).next⟩
  | declaration final head mark h stop ih =>
    exact List.forall_mem_cons.2
      ⟨.command ⟨hi, _, .declaration final head mark h stop⟩ rfl,
        ih (mark.restOf (final.restOf hi).next)⟩
  | printLine head opens closes stop =>
    exact List.forall_mem_cons.2
      ⟨.command ⟨hi, _, .printLine head opens closes stop⟩ rfl, nofun⟩
  | print head opens h closes stop ih =>
    exact List.forall_mem_cons.2
      ⟨.command ⟨hi, _, .print head opens h closes stop⟩ rfl, ih hi.next.next⟩
  | assert head opens h closes stop ih =>
    exact List.forall_mem_cons.2
      ⟨.command ⟨hi, _, .assert head opens h closes stop⟩ rfl, ih hi.next.next⟩
  | assertMessage head opens h comma h' closes stop ih ih' =>
    have hm := (h.restOf hi.next.next).next
    exact List.forall_mem_cons.2
      ⟨.command ⟨hi, _, .assertMessage head opens h comma h' closes stop⟩ rfl,
        List.forall_mem_append.2 ⟨ih hi.next.next, ih' hm⟩⟩
  | conditional head opens h closes h' noElse ih ih' =>
    have hm := (h.restOf hi.next.next).next
    exact List.forall_mem_cons.2
      ⟨.command ⟨hi, _, .conditional head opens h closes h' noElse⟩ rfl,
        List.forall_mem_append.2 ⟨ih hi.next.next, ih' hm⟩⟩
  | conditionalElse head opens h closes h' hasElse h'' ih ih' ih'' =>
    have hm := (h.restOf hi.next.next).next
    exact List.forall_mem_cons.2
      ⟨.command ⟨hi, _, .conditionalElse head opens h closes h' hasElse h''⟩ rfl,
        List.forall_mem_append.2 ⟨ih hi.next.next, List.forall_mem_append.2
          ⟨ih' hm, ih'' (h'.restOf hm).next⟩⟩⟩
  | whileLoop head opens h closes h' ih ih' =>
    have hm := (h.restOf hi.next.next).next
    exact List.forall_mem_cons.2
      ⟨.command ⟨hi, _, .whileLoop head opens h closes h'⟩ rfl,
        List.forall_mem_append.2 ⟨ih hi.next.next, ih' hm⟩⟩
  | doWhileLoop head h separator opens h' closes stop ih ih' =>
    have hm := (h.restOf hi.next).next.next
    exact List.forall_mem_cons.2
      ⟨.command ⟨hi, _, .doWhileLoop head h separator opens h' closes stop⟩ rfl,
        List.forall_mem_append.2 ⟨ih hi.next, ih' hm⟩⟩
  | forLoop head opens name separator h closes h' ih ih' =>
    have hm := (h.restOf hi.next.next.next.next).next
    exact List.forall_mem_cons.2
      ⟨.command ⟨hi, _, .forLoop head opens name separator h closes h'⟩ rfl,
        List.forall_mem_append.2 ⟨ih hi.next.next.next.next, ih' hm⟩⟩
  | effect h stop ih =>
    exact List.forall_mem_cons.2 ⟨.command ⟨hi, _, .effect h stop⟩ rfl, ih hi⟩
  | assignment h isTarget assign h' stop ih ih' =>
    refine List.forall_mem_cons.2
      ⟨.command ⟨hi, _, .assignment h isTarget assign h' stop⟩ rfl,
        List.forall_mem_append.2 ⟨?_, ih' (h.restOf hi).next⟩⟩
    rw [Expr.toExpr_of_target? isTarget]
    exact ih hi
  | braced opens h closes ih =>
    exact List.forall_mem_cons.2 ⟨.braces ⟨hi, _, .braced opens h closes⟩ rfl, ih hi.next⟩
  | code h rest ih ih' =>
    exact List.forall_mem_append.2 ⟨ih hi, ih' (h.restOf hi)⟩

end Scriptlet
