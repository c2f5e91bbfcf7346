import Mathlib.Data.List.Nodup
import Scriptlet.Proofs.Table

/-!
# Consistent tables

A symbol table keeps each variable twice: in the list of all that were declared, where
its slot says, and in the scope that it was declared in, as long as that is open. This
module says what the two have to do with each other, and proves that no sequence of
requests to a table, granted or refused, in any order, can bring them out of step.

## What is proved

* `SymbolTable.Consistent.extended` — one more variable keeps a table consistent.
* `SymbolTable.Consistent.serve` — each request keeps a table consistent.
* `SymbolTable.consistent_after` — so does any sequence of requests to an empty table.
-/

namespace Scriptlet

namespace SymbolTable

/-- What is in the scopes of a table is what has been declared, in order. -/
structure Consistent (t : SymbolTable) : Prop where
  /-- The slot of a variable is its index among all that were declared. -/
  slot_eq : ∀ ⦃i : Nat⦄ ⦃v : Variable⦄, t.declared[i]? = some v → v.slot = i
  /-- A variable in a scope is the declared one of its slot. -/
  declared_of_mem : ∀ frame ∈ t.frames, ∀ v ∈ frame, t.declared[v.slot]? = some v
  /-- A scope has at most one variable of a name. -/
  nodup_names : ∀ frame ∈ t.frames, (frame.map Variable.name).Nodup
  /-- What is in an inner scope was declared after all that is in the scopes around it. -/
  slots_lt : t.frames.Pairwise fun inner around =>
    ∀ v ∈ inner, ∀ w ∈ around, w.slot < v.slot
  /-- In flat mode there is one scope, and all that was declared is in it. -/
  flat : t.mode = .flat → t.outer = [] ∧ t.innermost = t.declared.reverse

namespace Consistent

variable {t t' : SymbolTable} {name : String} {constant : Bool} {nullability : Nullability}
  {position : Position} {v : Variable}

theorem empty (mode : ScopeMode) : (SymbolTable.empty mode).Consistent where
  slot_eq _ _ h := by cases h
  declared_of_mem frame hf v hv := by
    rw [List.mem_singleton.1 hf] at hv
    cases hv
  nodup_names frame hf := by
    rw [List.mem_singleton.1 hf]
    exact List.nodup_nil
  slots_lt := List.pairwise_singleton _ _
  flat _ := ⟨rfl, rfl⟩

/-- The slot of a variable in a scope is less than the number of variables. -/
theorem slot_lt_size (h : t.Consistent) {frame : Frame} (hf : frame ∈ t.frames)
    (hv : v ∈ frame) : v.slot < t.size :=
  (List.getElem?_eq_some_iff.1 (h.declared_of_mem frame hf v hv)).1

/-- A variable that is found for a name is the declared one of its slot. -/
theorem declared_of_lookup? (h : t.Consistent) (hv : t.lookup? name = some v) :
    t.declared[v.slot]? = some v := by
  obtain ⟨frame, hf, hfind⟩ := List.exists_of_findSome?_eq_some hv
  exact h.declared_of_mem frame hf v (List.mem_of_find?_eq_some hfind)

/-- No variable is in two scopes. -/
theorem disjoint_frames (h : t.Consistent) : t.frames.Pairwise List.Disjoint :=
  h.slots_lt.imp fun hlt v hv hw => Nat.lt_irrefl _ (hlt v hv v hw)

theorem find?_eq_none_iff {frame : Frame} :
    frame.find? name = none ↔ name ∉ frame.map Variable.name := by
  simp [Frame.find?, List.find?_eq_none]

/-- In flat mode the names that are found are those that were declared, each once. -/
theorem names_of_flat (h : t.Consistent) (hm : t.mode = .flat) :
    (∀ name, t.innermost.find? name ≠ none ↔ name ∈ t.declared.map Variable.name) ∧
      (t.declared.map Variable.name).Nodup := by
  have hd := (h.flat hm).2
  constructor
  · intro name
    rw [Ne, find?_eq_none_iff, not_not, hd, List.map_reverse, List.mem_reverse]
  · have hn := h.nodup_names t.innermost List.mem_cons_self
    rwa [hd, List.map_reverse, List.nodup_reverse] at hn

/-! ### What a step keeps -/

theorem enter (h : t.Consistent) : t.enter.Consistent := by
  unfold SymbolTable.enter
  split
  · exact h
  next hm =>
    exact {
      slot_eq := h.slot_eq
      declared_of_mem := fun frame hf => by
        rcases List.mem_cons.1 hf with rfl | hf
        · exact fun v hv => nomatch hv
        · exact h.declared_of_mem frame hf
      nodup_names := fun frame hf => by
        rcases List.mem_cons.1 hf with rfl | hf
        · exact List.nodup_nil
        · exact h.nodup_names frame hf
      slots_lt := List.pairwise_cons.2 ⟨fun _ _ v hv => (nomatch hv), h.slots_lt⟩
      flat := fun hf => by
        rw [hm] at hf
        cases hf }

theorem leave (h : t.Consistent) : t.leave.Consistent := by
  unfold SymbolTable.leave
  split
  next frame rest hm ho =>
    have hframes : t.frames = t.innermost :: frame :: rest := congrArg (t.innermost :: ·) ho
    have hmem {f : Frame} (hf : f ∈ frame :: rest) : f ∈ t.frames := by
      rw [hframes]
      exact List.mem_cons_of_mem _ hf
    have hlt := h.slots_lt
    rw [hframes, List.pairwise_cons] at hlt
    exact {
      slot_eq := h.slot_eq
      declared_of_mem := fun f hf => h.declared_of_mem f (hmem hf)
      nodup_names := fun f hf => h.nodup_names f (hmem hf)
      slots_lt := hlt.2
      flat := fun hf => by
        rw [hm] at hf
        cases hf }
  · exact h

/-- One more variable, of a name that the innermost scope does not have and with the next
slot. -/
theorem extended (h : t.Consistent) (hname : t.innermost.find? v.name = none)
    (hslot : v.slot = t.size) : (t.extended v).Consistent where
  slot_eq i w hw := by
    change (t.declared ++ [v])[i]? = some w at hw
    by_cases hi : i < t.declared.length
    · rw [List.getElem?_append_left hi] at hw
      exact h.slot_eq hw
    · rw [List.getElem?_append_right (Nat.le_of_not_lt hi)] at hw
      obtain ⟨hz, rfl⟩ := List.getElem?_eq_some_iff.1 hw
      have hsize : t.size = t.declared.length := rfl
      simp only [List.length_singleton, List.getElem_singleton] at hz ⊢
      omega
  declared_of_mem frame hf w hw := by
    change (t.declared ++ [v])[w.slot]? = some w
    have hold {f : Frame} (hf : f ∈ t.frames) (hw : w ∈ f) :
        (t.declared ++ [v])[w.slot]? = some w := by
      rw [List.getElem?_append_left (h.slot_lt_size hf hw)]
      exact h.declared_of_mem f hf w hw
    rcases List.mem_cons.1 hf with rfl | hf
    · rcases List.mem_cons.1 hw with rfl | hw
      · rw [hslot]
        exact List.getElem?_concat_length
      · exact hold List.mem_cons_self hw
    · exact hold (List.mem_cons_of_mem _ hf) hw
  nodup_names frame hf := by
    rcases List.mem_cons.1 hf with rfl | hf
    · exact List.nodup_cons.2
        ⟨find?_eq_none_iff.1 hname, h.nodup_names t.innermost List.mem_cons_self⟩
    · exact h.nodup_names frame (List.mem_cons_of_mem _ hf)
  slots_lt := by
    obtain ⟨hin, hout⟩ := List.pairwise_cons.1 h.slots_lt
    refine List.pairwise_cons.2 ⟨fun around ha w hw x hx => ?_, hout⟩
    rcases List.mem_cons.1 hw with rfl | hw
    · rw [hslot]
      exact h.slot_lt_size (List.mem_cons_of_mem _ ha) hx
    · exact hin around ha w hw x hx
  flat hm := by
    obtain ⟨ho, hi⟩ := h.flat hm
    refine ⟨ho, ?_⟩
    change v :: t.innermost = (t.declared ++ [v]).reverse
    rw [hi, List.reverse_concat]

theorem declare (h : t.Consistent)
    (hd : t.declare name constant nullability position = .ok (v, t')) : t'.Consistent := by
  obtain ⟨hname, rfl, rfl⟩ := declare_eq_ok.1 hd
  exact h.extended hname rfl

theorem declareLoop (h : t.Consistent) (hd : t.declareLoop name position = .ok (v, t')) :
    t'.Consistent := by
  rcases declareLoop_eq_ok.1 hd with ⟨-, -, -, rfl⟩ | ⟨-, hd⟩
  · exact h
  · exact h.declare hd

end Consistent

section

variable {t t' : SymbolTable} {name : String} {constant : Bool} {nullability : Nullability}
  {position : Position} {v : Variable}

@[simp] theorem mode_enter (t : SymbolTable) : t.enter.mode = t.mode := by
  unfold enter
  split <;> rfl

@[simp] theorem mode_leave (t : SymbolTable) : t.leave.mode = t.mode := by
  unfold leave
  split <;> rfl

theorem mode_of_declare (h : t.declare name constant nullability position = .ok (v, t')) :
    t'.mode = t.mode := by
  obtain ⟨-, -, rfl⟩ := declare_eq_ok.1 h
  rfl

theorem mode_of_declareLoop (h : t.declareLoop name position = .ok (v, t')) :
    t'.mode = t.mode := by
  rcases declareLoop_eq_ok.1 h with ⟨-, -, -, rfl⟩ | ⟨-, h⟩
  · rfl
  · exact mode_of_declare h

end

/-! ### Requests -/

/-- What can be asked of a table. -/
inductive Request where
  /-- To open a scope. -/
  | enter
  /-- To close the innermost scope. -/
  | leave
  /-- To declare a name. -/
  | declare (name : String) (constant : Bool) (nullability : Nullability) (position : Position)
  /-- To declare the variable of a loop. -/
  | declareLoop (name : String) (position : Position)
  /-- For the variable of a name, which must be declared. -/
  | resolve (name : String) (position : Position)
  /-- For the variable of a name, if it is declared. -/
  | lookup (name : String)

/-- The answer to a declaration and the table behind it. If it is refused the old table
stands. -/
def settle (t : SymbolTable) (outcome : Except Diagnostic (Variable × SymbolTable)) :
    Except Diagnostic (Option Variable) × SymbolTable :=
  match outcome with
  | .ok (v, t') => (.ok (some v), t')
  | .error d => (.error d, t)

/-- The answer to a request and the table behind it. -/
def serve (t : SymbolTable) : Request → Except Diagnostic (Option Variable) × SymbolTable
  | .enter => (.ok none, t.enter)
  | .leave => (.ok none, t.leave)
  | .declare name constant nullability position =>
    t.settle (t.declare name constant nullability position)
  | .declareLoop name position => t.settle (t.declareLoop name position)
  | .resolve name position => ((t.resolve name position).map some, t)
  | .lookup name => (.ok (t.lookup? name), t)

/-- The table behind a sequence of requests. -/
def after (t : SymbolTable) (requests : List Request) : SymbolTable :=
  requests.foldl (fun t r => (t.serve r).2) t

theorem settle_error {t : SymbolTable} {outcome : Except Diagnostic (Variable × SymbolTable)}
    {d : Diagnostic} (h : (t.settle outcome).1 = .error d) : (t.settle outcome).2 = t := by
  cases outcome with
  | ok x => cases h
  | error d' => rfl

/-- A request that is refused leaves the table as it was. -/
theorem serve_error {t : SymbolTable} {r : Request} {d : Diagnostic}
    (h : (t.serve r).1 = .error d) : (t.serve r).2 = t := by
  cases r with
  | enter | leave => cases h
  | declare | declareLoop => exact settle_error h
  | resolve | lookup => rfl

theorem Consistent.settle {t : SymbolTable} (h : t.Consistent)
    {outcome : Except Diagnostic (Variable × SymbolTable)}
    (ho : ∀ v t', outcome = .ok (v, t') → t'.Consistent) : (t.settle outcome).2.Consistent := by
  cases outcome with
  | ok x => exact ho x.1 x.2 rfl
  | error d => exact h

theorem mode_settle {t : SymbolTable} {outcome : Except Diagnostic (Variable × SymbolTable)}
    (ho : ∀ v t', outcome = .ok (v, t') → t'.mode = t.mode) :
    (t.settle outcome).2.mode = t.mode := by
  cases outcome with
  | ok x => exact ho x.1 x.2 rfl
  | error d => rfl

/-- No request changes how declarations are scoped. -/
theorem mode_serve (t : SymbolTable) (r : Request) : (t.serve r).2.mode = t.mode := by
  cases r with
  | enter => exact t.mode_enter
  | leave => exact t.mode_leave
  | declare => exact mode_settle fun _ _ hd => mode_of_declare hd
  | declareLoop => exact mode_settle fun _ _ hd => mode_of_declareLoop hd
  | resolve | lookup => rfl

theorem mode_after (t : SymbolTable) (requests : List Request) :
    (t.after requests).mode = t.mode := by
  induction requests generalizing t with
  | nil => rfl
  | cons r requests ih => exact (ih _).trans (t.mode_serve r)

/-- Each request keeps a table consistent. -/
theorem Consistent.serve {t : SymbolTable} (h : t.Consistent) (r : Request) :
    (t.serve r).2.Consistent := by
  cases r with
  | enter => exact h.enter
  | leave => exact h.leave
  | declare => exact h.settle fun _ _ hd => h.declare hd
  | declareLoop => exact h.settle fun _ _ hd => h.declareLoop hd
  | resolve | lookup => exact h

theorem Consistent.after {t : SymbolTable} (h : t.Consistent) (requests : List Request) :
    (t.after requests).Consistent := by
  induction requests generalizing t with
  | nil => exact h
  | cons r requests ih => exact ih (h.serve r)

/-- After any sequence of requests to an empty table there is a scope, slots are indices,
what a scope has for a name is the declared variable of that name and slot, and scopes have
no variable in common, each only later ones than the scopes around it. In flat mode the only
scope has just the declared names, each once. What is refused changes nothing. -/
theorem consistent_after (mode : ScopeMode) (requests : List Request) :
    let t := (empty mode).after requests
    0 < t.depth ∧
    (∀ (i : Nat) (v : Variable), t.declared[i]? = some v → v.slot = i) ∧
    (∀ frame ∈ t.frames, (frame.map Variable.name).Nodup ∧
      ∀ name v, frame.find? name = some v → v.name = name ∧ t.declared[v.slot]? = some v) ∧
    t.frames.Pairwise List.Disjoint ∧
    (t.frames.Pairwise fun inner around => ∀ v ∈ inner, ∀ w ∈ around, w.slot < v.slot) ∧
    (mode = .flat → t.depth = 1 ∧ (t.declared.map Variable.name).Nodup ∧
      ∀ name, t.innermost.find? name ≠ none ↔ name ∈ t.declared.map Variable.name) ∧
    ∀ r d, (t.serve r).1 = .error d → (t.serve r).2 = t := by
  intro t
  have h : t.Consistent := (Consistent.empty mode).after requests
  refine ⟨Nat.succ_pos _, fun i v hv => h.slot_eq hv, fun frame hf => ?_, h.disjoint_frames,
    h.slots_lt, fun hm => ?_, fun r d hr => serve_error hr⟩
  · refine ⟨h.nodup_names frame hf, fun name v hv => ?_⟩
    exact ⟨name_of_find? hv, h.declared_of_mem frame hf v (List.mem_of_find?_eq_some hv)⟩
  · have hflat : t.mode = .flat := (mode_after _ requests).trans hm
    obtain ⟨hfound, hnodup⟩ := h.names_of_flat hflat
    refine ⟨?_, hnodup, hfound⟩
    rw [depth, frames, (h.flat hflat).1, List.length_singleton]

/-- A shadowed name, a scope closed too often and a declaration that is refused. -/
theorem consistent_after_shadowing :
    let t := (empty .lexical).after [.declare "x" true .safe ⟨1, "p"⟩, .enter, .leave, .leave,
      .enter, .declare "x" false .safe ⟨2, "p"⟩, .declare "x" false .safe ⟨3, "p"⟩,
      .declareLoop "i" ⟨4, "p"⟩]
    t.frames = [[⟨"i", 4, false, .nullable, 2⟩, ⟨"x", 2, false, .safe, 1⟩],
      [⟨"x", 1, true, .safe, 0⟩]] ∧
      ∀ frame ∈ t.frames, (frame.map Variable.name).Nodup ∧
        ∀ name v, frame.find? name = some v → v.name = name ∧ t.declared[v.slot]? = some v :=
  ⟨by decide, (consistent_after .lexical _).2.2.1⟩

end SymbolTable

end Scriptlet
