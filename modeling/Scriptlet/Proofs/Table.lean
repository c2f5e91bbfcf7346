import Scriptlet.Grammar.Rule

/-!
# What a symbol table gives

The operations of the symbol table, each said by when it succeeds or fails, and with
what.

## What is proved

* `SymbolTable.declare_eq_ok`, `SymbolTable.declareLoop_eq_ok`,
  `SymbolTable.resolve_eq_ok` — an operation that succeeds gives a variable of the name.
* `SymbolTable.declare_eq_error` and those beside it — each is refused for the name alone.
-/

namespace Scriptlet

namespace SymbolTable

variable {t t' : SymbolTable} {name : String} {constant : Bool} {nullability : Nullability}
  {position : Position} {v : Variable} {d : Diagnostic}

/-- The table with one more variable in its innermost scope. -/
def extended (t : SymbolTable) (v : Variable) : SymbolTable :=
  { t with innermost := v :: t.innermost, declared := t.declared ++ [v] }

@[simp] theorem size_extended : (t.extended v).size = t.size + 1 := by
  simp [size, extended]

/-! ### Scopes -/

theorem enter_of_flat (h : t.mode = .flat) : t.enter = t := by
  simp only [enter, h]

theorem leave_of_flat (h : t.mode = .flat) : t.leave = t := by
  simp only [leave, h]

theorem frames_enter (h : t.mode = .lexical) : t.enter.frames = [] :: t.frames := by
  simp only [enter, h, frames]

/-- The global scope is not closed. -/
theorem leave_of_outer (h : t.outer = []) : t.leave = t := by
  obtain ⟨mode, innermost, outer, declared⟩ := t
  obtain rfl : outer = [] := h
  cases mode <;> rfl

theorem frames_leave (h : t.mode = .lexical) (ho : t.outer ≠ []) : t.leave.frames = t.outer := by
  obtain ⟨frame, rest, ho⟩ := List.exists_cons_of_ne_nil ho
  simp only [leave, h, ho, frames]

@[simp] theorem declared_enter : t.enter.declared = t.declared := by
  unfold enter
  split <;> rfl

@[simp] theorem declared_leave : t.leave.declared = t.declared := by
  unfold leave
  split <;> rfl

/-! ### Names -/

theorem declare_eq_ok :
    t.declare name constant nullability position = .ok (v, t') ↔
      t.innermost.find? name = none ∧ v = ⟨name, position.line, constant, nullability, t.size⟩ ∧
        t' = t.extended v := by
  unfold declare
  cases h : t.innermost.find? name with
  | some w => simp
  | none =>
    constructor
    · intro he
      obtain ⟨rfl, rfl⟩ := Prod.mk.inj (Except.ok.inj he)
      exact ⟨rfl, rfl, rfl⟩
    · rintro ⟨-, rfl, rfl⟩
      rfl

theorem declare_eq_error :
    t.declare name constant nullability position = .error d ↔
      t.innermost.find? name ≠ none ∧ d = ⟨.duplicateDeclaration name, position⟩ := by
  unfold declare
  cases h : t.innermost.find? name with
  | some w => simp [eq_comm]
  | none => simp

/-- A variable that is found for a name has it. -/
theorem name_of_find? {frame : Frame} (h : frame.find? name = some v) : v.name = name := by
  have hv := List.find?_some h
  simpa using hv

theorem name_of_lookup? (h : t.lookup? name = some v) : v.name = name := by
  obtain ⟨frame, -, hf⟩ := List.exists_of_findSome?_eq_some h
  exact name_of_find? hf

theorem resolve_eq_ok : t.resolve name position = .ok v ↔ t.lookup? name = some v := by
  unfold resolve
  cases t.lookup? name <;> simp

theorem resolve_eq_error :
    t.resolve name position = .error d ↔
      t.lookup? name = none ∧ d = ⟨.undeclaredName name, position⟩ := by
  unfold resolve
  cases t.lookup? name <;> simp [eq_comm]

/-- The variable of a loop is one that the table takes over, or a new one. -/
theorem declareLoop_eq_ok :
    t.declareLoop name position = .ok (v, t') ↔
      (t.mode = .flat ∧ t.lookup? name = some v ∧ v.constant = false ∧ t' = t) ∨
      ((t.mode = .flat → t.lookup? name = none) ∧
        t.declare name false .nullable position = .ok (v, t')) := by
  unfold declareLoop
  split
  · next w hm hw =>
    constructor
    · intro h
      split at h
      · cases h
      · next hc =>
        obtain ⟨rfl, rfl⟩ := Prod.mk.inj (Except.ok.inj h)
        exact .inl ⟨hm, hw, by simpa using hc, rfl⟩
    · rintro (⟨-, hv, hc, rfl⟩ | ⟨hn, -⟩)
      · obtain rfl := Option.some.inj (hw.symm.trans hv)
        simp [hc]
      · rw [hn hm] at hw
        cases hw
  · next hne =>
    have hnone (hm : t.mode = .flat) : t.lookup? name = none := by
      cases hl : t.lookup? name with
      | none => rfl
      | some w => exact (hne w hm hl).elim
    constructor
    · exact fun h => .inr ⟨hnone, h⟩
    · rintro (⟨hm, hv, -, -⟩ | ⟨-, h⟩)
      · rw [hnone hm] at hv
        cases hv
      · exact h

theorem name_of_declareLoop (h : t.declareLoop name position = .ok (v, t')) : v.name = name := by
  rcases declareLoop_eq_ok.1 h with ⟨-, hv, -, -⟩ | ⟨-, hv⟩
  · exact name_of_lookup? hv
  · rw [(declare_eq_ok.1 hv).2.1]

/-- In lexical mode the variable of a loop is declared like any other. -/
theorem declareLoop_of_lexical (h : t.mode = .lexical) :
    t.declareLoop name position = t.declare name false .nullable position := by
  unfold declareLoop
  rw [h]

/-- In flat mode a variable of the name is taken over, unless it is constant. -/
theorem declareLoop_of_flat (h : t.mode = .flat) :
    t.declareLoop name position =
      match t.lookup? name with
      | some v => if v.constant then .error ⟨.duplicateDeclaration name, position⟩ else .ok (v, t)
      | none => t.declare name false .nullable position := by
  unfold declareLoop
  rw [h]
  cases t.lookup? name <;> rfl

/-- A name that means nothing is not in the innermost scope. -/
theorem find?_innermost_of_lookup? (h : t.lookup? name = none) :
    t.innermost.find? name = none :=
  List.findSome?_eq_none_iff.1 h t.innermost List.mem_cons_self

theorem declareLoop_eq_error (h : t.declareLoop name position = .error d) :
    d = ⟨.duplicateDeclaration name, position⟩ := by
  unfold declareLoop at h
  split at h
  · split at h
    · exact (Except.error.inj h).symm
    · cases h
  · exact (declare_eq_error.1 h).2

end SymbolTable

end Scriptlet
