import Mathlib.Data.List.Infix
import Scriptlet.Proofs.Consistency

/-!
# What the past of a table says

A symbol table keeps the scopes that are open and what is in each. All of that can also be
read off what has happened to it: which scopes were opened and closed, and what was declared
in between. This module answers requests from the past alone, and proves that the table gives
the same answers.

## The model

`Event.uncancelled` reads the past as brackets: a closing cancels the latest opening that is
not cancelled yet, and nothing if there is none. A declaration is `live` as long as all the
openings that stood uncancelled when it was made still do, that is if it does not lie between
an opening and the closing that has cancelled it. In flat mode openings and closings count for
nothing, so every declaration is live for ever.

A `History` is a past with the mode of its table, and `History.serve` answers a request from
it: a name means the latest live declaration of it, and may be declared if no live one of it
was made with as many openings uncancelled as there are now.

## What is proved

* `Event.live_eq_flatMap` — the live declarations, the latest first, are those made in the
  innermost scope, then those made in the scope around it, and so on outward.
* `History.Tells.serve` — a table that is as its past tells answers as its past does, and is
  afterwards as its past tells.
* `SymbolTable.answers_from_history` — so it is after any sequence of requests.
-/

namespace Scriptlet

/-- What can happen to a table. -/
inductive Event where
  /-- A scope was opened. -/
  | opened
  /-- A scope was closed. -/
  | closed
  /-- A variable was declared. -/
  | declared (v : Variable)

/-- A variable that was declared, and the openings that stood uncancelled then. -/
structure Declaration where
  /-- The variable. -/
  var : Variable
  /-- The openings, the latest first. -/
  scopes : List Nat

namespace Event

/-! ### Reading the past

The latest event comes first. -/

/-- The openings that no closing has cancelled, the latest first. An opening is named by the
number of events before it. -/
def uncancelled : List Event → List Nat
  | [] => []
  | opened :: past => past.length :: uncancelled past
  | closed :: past => (uncancelled past).tail
  | declared _ :: past => uncancelled past

/-- The openings that count: in flat mode none does. -/
def openings (mode : ScopeMode) (past : List Event) : List Nat :=
  match mode with
  | .flat => []
  | .lexical => uncancelled past

/-- All declarations, the latest first. -/
def declarations (mode : ScopeMode) : List Event → List Declaration
  | [] => []
  | declared v :: past => ⟨v, openings mode past⟩ :: declarations mode past
  | opened :: past | closed :: past => declarations mode past

/-- The declarations that do not lie between an opening and the closing that has cancelled
it: the openings that stood when they were made all still do. -/
def live (mode : ScopeMode) (past : List Event) : List Declaration :=
  (declarations mode past).filter fun d => d.scopes ⊆ openings mode past

/-- The declarations that were made while just these openings stood. -/
def madeIn (mode : ScopeMode) (past : List Event) (scopes : List Nat) : List Declaration :=
  (declarations mode past).filter fun d => d.scopes = scopes

variable {mode : ScopeMode} {past : List Event} {v : Variable} {d : Declaration} {n : Nat}
  {scopes : List Nat}

@[simp] theorem openings_declared : openings mode (declared v :: past) = openings mode past := by
  cases mode <;> rfl

@[simp] theorem openings_opened :
    openings .lexical (opened :: past) = past.length :: openings .lexical past := rfl

@[simp] theorem openings_closed :
    openings .lexical (closed :: past) = (openings .lexical past).tail := rfl

/-- An opening is named by a number below that of the events. -/
theorem lt_length_of_mem_openings (h : n ∈ openings mode past) : n < past.length := by
  cases mode with
  | flat => cases h
  | lexical =>
    induction past with
    | nil => cases h
    | cons e past ih =>
      cases e with
      | opened =>
        rcases List.mem_cons.1 h with rfl | h
        · exact Nat.lt_succ_self _
        · exact Nat.lt_succ_of_lt (ih h)
      | closed => exact Nat.lt_succ_of_lt (ih (List.mem_of_mem_tail h))
      | declared v => exact Nat.lt_succ_of_lt (ih h)

/-- Two openings have different names. -/
theorem nodup_openings (mode : ScopeMode) (past : List Event) : (openings mode past).Nodup := by
  cases mode with
  | flat => exact List.nodup_nil
  | lexical =>
    induction past with
    | nil => exact List.nodup_nil
    | cons e past ih =>
      cases e with
      | opened =>
        rw [openings_opened, List.nodup_cons]
        exact ⟨fun h => Nat.lt_irrefl _ (lt_length_of_mem_openings h), ih⟩
      | closed => exact ih.sublist (List.tail_sublist _)
      | declared v => exact ih

/-- The openings that stood when a declaration was made came before it. -/
theorem lt_length_of_mem_scopes (h : d ∈ declarations mode past) (hn : n ∈ d.scopes) :
    n < past.length := by
  induction past with
  | nil => cases h
  | cons e past ih =>
    cases e with
    | opened | closed => exact Nat.lt_succ_of_lt (ih h)
    | declared v =>
      rcases List.mem_cons.1 h with rfl | h
      · exact Nat.lt_succ_of_lt (lt_length_of_mem_openings hn)
      · exact Nat.lt_succ_of_lt (ih h)

/-- Nothing has been declared yet in a scope that is being opened. -/
theorem madeIn_opening (hn : past.length ∈ scopes) : madeIn mode past scopes = [] := by
  refine List.filter_eq_nil_iff.2 fun d hd hs => ?_
  rw [decide_eq_true_eq] at hs
  exact Nat.lt_irrefl _ (lt_length_of_mem_scopes hd (hs ▸ hn))

theorem madeIn_declared_self :
    madeIn mode (declared v :: past) (openings mode past) =
      ⟨v, openings mode past⟩ :: madeIn mode past (openings mode past) := by
  simp [madeIn, declarations]

theorem madeIn_declared_of_ne (h : scopes ≠ openings mode past) :
    madeIn mode (declared v :: past) scopes = madeIn mode past scopes := by
  simp [madeIn, declarations, h.symm]

/-- The first of the tails of a list is the list. -/
theorem tails_eq_cons (all : List Nat) : all.tails = all :: all.tails.tail := by
  cases all <;> simp

/-- Around a scope fewer openings stand than in it. -/
theorem ne_of_mem_tails_tail {all : List Nat} (h : scopes ∈ all.tails.tail) : scopes ≠ all := by
  cases all with
  | nil => simp at h
  | cons n all =>
    rw [List.tails_cons, List.tail_cons, List.mem_tails] at h
    have hle := h.length_le
    rintro rfl
    simp only [List.length_cons] at hle
    omega

theorem scopes_of_mem_madeIn (h : d ∈ madeIn mode past scopes) : d.scopes = scopes := by
  simpa using (List.mem_filter.1 h).2

/-- All that was made in some scope and in those around it was made while no others stood. -/
theorem subset_of_mem_flatMap {all : List Nat} (h : d ∈ all.tails.flatMap (madeIn mode past)) :
    d.scopes ⊆ all := by
  obtain ⟨scopes, hs, hd⟩ := List.mem_flatMap.1 h
  rw [scopes_of_mem_madeIn hd]
  exact ((List.mem_tails _ _).1 hs).subset

/-! ### What lives -/

/-- What has just been declared lives. -/
theorem live_declared :
    live mode (declared v :: past) = ⟨v, openings mode past⟩ :: live mode past := by
  simp [live, declarations]

/-- No declaration was made with a new opening, so it ends the life of none. -/
theorem live_opened : live .lexical (opened :: past) = live .lexical past := by
  refine List.filter_congr fun d hd => ?_
  rw [decide_eq_decide, openings_opened]
  constructor
  · intro h m hm
    rcases List.mem_cons.1 (h hm) with rfl | hm'
    · have hlt : past.length < past.length := lt_length_of_mem_scopes hd hm
      exact absurd hlt (Nat.lt_irrefl _)
    · exact hm'
  · exact fun h => List.subset_cons_of_subset _ h

/-- A closing ends the life of what was declared since the opening that it cancels. -/
theorem live_closed {all : List Nat} (h : openings .lexical past = n :: all) :
    live .lexical (closed :: past) = (live .lexical past).filter fun d => d.scopes ⊆ all := by
  simp only [live, declarations, openings_closed, h, List.tail_cons, List.filter_filter]
  refine List.filter_congr fun d _ => ?_
  by_cases hd : d.scopes ⊆ all
  · simp [hd, List.subset_cons_of_subset n hd]
  · simp [hd]

/-- Nothing that was made since an opening is left once that opening does not count. -/
theorem filter_madeIn_cons {all : List Nat} (hn : n ∉ all) :
    (madeIn mode past (n :: all)).filter (fun d => d.scopes ⊆ all) = [] := by
  refine List.filter_eq_nil_iff.2 fun d hd => ?_
  rw [scopes_of_mem_madeIn hd, decide_eq_true_eq]
  exact fun h => hn (h List.mem_cons_self)

/-- The live declarations, the latest first, are those made in the innermost scope, then those
made in the scope around it, and so on outward. -/
theorem live_eq_flatMap (mode : ScopeMode) (past : List Event) :
    live mode past = (openings mode past).tails.flatMap (madeIn mode past) := by
  induction past with
  | nil => cases mode <;> rfl
  | cons e past ih =>
    cases e with
    | declared v =>
      have houter : (openings mode past).tails.tail.flatMap (madeIn mode (declared v :: past)) =
          (openings mode past).tails.tail.flatMap (madeIn mode past) :=
        List.flatMap_congr fun scopes hs => madeIn_declared_of_ne (ne_of_mem_tails_tail hs)
      rw [live_declared, ih, openings_declared, tails_eq_cons, List.flatMap_cons,
        List.flatMap_cons, houter, madeIn_declared_self]
      rfl
    | opened =>
      cases mode with
      | flat => exact ih
      | lexical =>
        have hnone :
            madeIn .lexical (opened :: past) (past.length :: openings .lexical past) = [] :=
          (madeIn_opening List.mem_cons_self : madeIn .lexical past _ = [])
        rw [live_opened, ih, openings_opened, List.tails_cons, List.flatMap_cons, hnone]
        rfl
    | closed =>
      cases mode with
      | flat => exact ih
      | lexical =>
        cases hall : openings .lexical past with
        | nil =>
          simp only [live, openings_closed, hall, List.tail_nil] at ih ⊢
          exact ih
        | cons n all =>
          have hn : n ∉ all := (List.nodup_cons.1 (hall ▸ nodup_openings .lexical past)).1
          have houter : (all.tails.flatMap (madeIn .lexical past)).filter
              (fun d => d.scopes ⊆ all) = all.tails.flatMap (madeIn .lexical past) :=
            List.filter_eq_self.2 fun d hd => decide_eq_true (subset_of_mem_flatMap hd)
          rw [live_closed hall, ih, openings_closed, hall, List.tails_cons, List.flatMap_cons,
            List.filter_append, filter_madeIn_cons hn, houter, List.tail_cons]
          rfl

end Event

/-- What has happened to a table of some mode. -/
structure History where
  /-- The mode. -/
  mode : ScopeMode
  /-- What has happened, the latest first. -/
  events : List Event

namespace History

open SymbolTable (Request)

/-! ### Answers from the past -/

/-- Nothing has happened yet. -/
def start (mode : ScopeMode) : History := ⟨mode, []⟩

/-- One more thing has happened. -/
def extended (h : History) (e : Event) : History := { h with events := e :: h.events }

/-- The openings that no closing has cancelled, the latest first. -/
def openings (h : History) : List Nat := Event.openings h.mode h.events

/-- All declarations, the latest first. -/
def declarations (h : History) : List Declaration := Event.declarations h.mode h.events

/-- The declarations that do not lie between an opening and the closing that has cancelled
it, the latest first. -/
def live (h : History) : List Declaration := Event.live h.mode h.events

/-- What a name means: the variable of the latest live declaration of it. -/
def latest? (h : History) (name : String) : Option Variable :=
  (h.live.find? fun d => d.var.name = name).map Declaration.var

/-- A live declaration of the name was made on the present level. -/
def DeclaredHere (h : History) (name : String) : Prop :=
  ∃ d ∈ h.live, d.var.name = name ∧ d.scopes.length = h.openings.length

instance (h : History) (name : String) : Decidable (h.DeclaredHere name) :=
  inferInstanceAs (Decidable (∃ d ∈ h.live, d.var.name = name ∧
    d.scopes.length = h.openings.length))

/-- Declares a name that has not been declared on the present level. -/
def declare (h : History) (name : String) (constant : Bool) (nullability : Nullability)
    (position : Position) : Except Diagnostic (Variable × History) :=
  if h.DeclaredHere name then .error ⟨.duplicateDeclaration name, position⟩
  else
    let v : Variable := ⟨name, position.line, constant, nullability, h.declarations.length⟩
    .ok (v, h.extended (.declared v))

/-- Declares the variable of a loop. In flat mode what the name means is taken over, unless
it is constant, and nothing happens. -/
def declareLoop (h : History) (name : String) (position : Position) :
    Except Diagnostic (Variable × History) :=
  match h.mode, h.latest? name with
  | .flat, some v =>
    if v.constant then .error ⟨.duplicateDeclaration name, position⟩ else .ok (v, h)
  | _, _ => h.declare name false .nullable position

/-- What a name means, which must be declared. -/
def resolve (h : History) (name : String) (position : Position) : Except Diagnostic Variable :=
  match h.latest? name with
  | some v => .ok v
  | none => .error ⟨.undeclaredName name, position⟩

/-- The answer to a declaration, and the history behind it. What is refused has not
happened. -/
def settle (h : History) (outcome : Except Diagnostic (Variable × History)) :
    Except Diagnostic (Option Variable) × History :=
  match outcome with
  | .ok (v, h') => (.ok (some v), h')
  | .error d => (.error d, h)

/-- The answer to a request, and the history behind it. -/
def serve (h : History) : Request → Except Diagnostic (Option Variable) × History
  | .enter => (.ok none, h.extended .opened)
  | .leave => (.ok none, h.extended .closed)
  | .declare name constant nullability position =>
    h.settle (h.declare name constant nullability position)
  | .declareLoop name position => h.settle (h.declareLoop name position)
  | .resolve name position => ((h.resolve name position).map some, h)
  | .lookup name => (.ok (h.latest? name), h)

/-- The history behind a sequence of requests. -/
def after (h : History) (requests : List Request) : History :=
  requests.foldl (fun h r => (h.serve r).2) h

/-! ### Tables that are as their past tells -/

/-- The variables that were declared while just these openings stood, the latest first. -/
def scope (h : History) (scopes : List Nat) : Frame :=
  (Event.madeIn h.mode h.events scopes).map Declaration.var

/-- A table is as its past tells: its scopes are those of the openings that stand, and it has
all that was declared, in order. -/
structure Tells (h : History) (t : SymbolTable) : Prop where
  mode : t.mode = h.mode
  frames : t.frames = h.openings.tails.map h.scope
  declared : t.declared = (h.declarations.map Declaration.var).reverse

/-- Two outcomes agree: both are the same refusal, or both give the same variable and what
they leave goes together. -/
def Agree : Except Diagnostic (Variable × SymbolTable) →
    Except Diagnostic (Variable × History) → Prop
  | .ok (v, t), .ok (w, h) => v = w ∧ h.Tells t
  | .error d, .error d' => d = d'
  | _, _ => False

namespace Tells

variable {h : History} {t : SymbolTable} {name : String} {v : Variable}

theorem start (mode : ScopeMode) : (History.start mode).Tells (SymbolTable.empty mode) := by
  refine ⟨rfl, ?_, rfl⟩
  cases mode <;> rfl

theorem innermost (ht : h.Tells t) : t.innermost = h.scope h.openings := by
  have hframes := ht.frames
  rw [Event.tails_eq_cons] at hframes
  exact (List.cons.inj hframes).1

theorem outer (ht : h.Tells t) : t.outer = h.openings.tails.tail.map h.scope := by
  have hframes := ht.frames
  rw [Event.tails_eq_cons] at hframes
  exact (List.cons.inj hframes).2

theorem size (ht : h.Tells t) : t.size = h.declarations.length := by
  rw [SymbolTable.size, ht.declared, List.length_reverse, List.length_map]

/-- The table finds the latest live declaration. -/
theorem lookup? (ht : h.Tells t) : t.lookup? name = h.latest? name := by
  have hlive : h.live.map Declaration.var = h.openings.tails.flatMap h.scope := by
    rw [live, Event.live_eq_flatMap, List.map_flatMap]
    rfl
  calc t.lookup? name
      = (h.openings.tails.map h.scope).findSome? fun frame => frame.find? name := by
        rw [SymbolTable.lookup?, ht.frames]
    _ = (h.openings.tails.flatMap h.scope).find? fun v => v.name = name := by
        rw [List.find?_flatMap, List.findSome?_map]
        rfl
    _ = h.latest? name := by
        rw [← hlive, List.find?_map]
        rfl

/-- The innermost scope has the names that were declared on the present level. -/
theorem find?_innermost (ht : h.Tells t) :
    t.innermost.find? name ≠ none ↔ h.DeclaredHere name := by
  rw [Ne, SymbolTable.Consistent.find?_eq_none_iff, not_not, ht.innermost]
  simp only [scope, List.map_map, List.mem_map, DeclaredHere]
  constructor
  · rintro ⟨d, hd, hname⟩
    have hs := Event.scopes_of_mem_madeIn hd
    refine ⟨d, ?_, hname, congrArg List.length hs⟩
    refine List.mem_filter.2 ⟨(List.mem_filter.1 hd).1, decide_eq_true ?_⟩
    exact hs ▸ List.Subset.refl _
  · rintro ⟨d, hd, hname, hlevel⟩
    refine ⟨d, List.mem_filter.2 ⟨(List.mem_filter.1 hd).1, decide_eq_true ?_⟩, hname⟩
    rw [live, Event.live_eq_flatMap] at hd
    obtain ⟨scopes, hs, hd⟩ := List.mem_flatMap.1 hd
    have hsuffix := (List.mem_tails _ _).1 hs
    rw [Event.scopes_of_mem_madeIn hd] at hlevel ⊢
    exact hsuffix.eq_of_length hlevel

/-! ### What a step keeps -/

theorem enter (ht : h.Tells t) : (h.extended .opened).Tells t.enter := by
  obtain ⟨mode, events⟩ := h
  refine ⟨t.mode_enter.trans ht.mode, ?_, t.declared_enter.trans ht.declared⟩
  cases mode with
  | flat =>
    rw [SymbolTable.enter_of_flat ht.mode]
    exact ht.frames
  | lexical =>
    have hnew : (extended ⟨.lexical, events⟩ .opened).scope (events.length ::
        Event.openings .lexical events) = [] :=
      congrArg (List.map _) (Event.madeIn_opening List.mem_cons_self : Event.madeIn _ events _ = [])
    rw [SymbolTable.frames_enter ht.mode, ht.frames]
    simp only [openings, extended, Event.openings_opened, List.tails_cons, List.map_cons]
    exact congrArg (· :: _) hnew.symm

theorem leave (ht : h.Tells t) : (h.extended .closed).Tells t.leave := by
  obtain ⟨mode, events⟩ := h
  refine ⟨t.mode_leave.trans ht.mode, ?_, t.declared_leave.trans ht.declared⟩
  cases mode with
  | flat =>
    rw [SymbolTable.leave_of_flat ht.mode]
    exact ht.frames
  | lexical =>
    cases hall : Event.openings .lexical events with
    | nil =>
      -- No opening stands, so nothing is cancelled, and the global scope stays open.
      have houter : t.outer = [] := by simp [ht.outer, openings, hall]
      rw [SymbolTable.leave_of_outer houter, ht.frames]
      simp only [openings, History.extended, Event.openings_closed, hall, List.tail_nil]
      rfl
    | cons n all =>
      have houter : t.outer = all.tails.map (scope ⟨.lexical, events⟩) := by
        simp [ht.outer, openings, hall]
      have hne : t.outer ≠ [] := by
        rw [houter, Event.tails_eq_cons]
        simp
      rw [SymbolTable.frames_leave ht.mode hne, houter]
      simp only [openings, History.extended, Event.openings_closed, hall, List.tail_cons]
      rfl

/-- A new variable in the innermost scope, with the next slot. -/
theorem extended (ht : h.Tells t) : (h.extended (.declared v)).Tells (t.extended v) := by
  have hall : (h.extended (.declared v)).openings = h.openings := Event.openings_declared
  have hinner : (h.extended (.declared v)).scope h.openings = v :: h.scope h.openings :=
    congrArg (List.map Declaration.var) Event.madeIn_declared_self
  have houter : h.openings.tails.tail.map (h.extended (.declared v)).scope =
      h.openings.tails.tail.map h.scope := by
    refine List.map_congr_left fun scopes hs => ?_
    apply congrArg (List.map Declaration.var)
    exact Event.madeIn_declared_of_ne (Event.ne_of_mem_tails_tail hs)
  refine ⟨ht.mode, ?_, ?_⟩
  · rw [hall, Event.tails_eq_cons, List.map_cons, hinner, houter, ← ht.innermost, ← ht.outer]
    rfl
  · change t.declared ++ [v] = _
    rw [ht.declared]
    simp [declarations, History.extended, Event.declarations]

theorem declare (ht : h.Tells t) (name : String) (constant : Bool) (nullability : Nullability)
    (position : Position) :
    Agree (t.declare name constant nullability position)
      (h.declare name constant nullability position) := by
  by_cases hhere : h.DeclaredHere name
  · have htable : t.declare name constant nullability position =
        .error ⟨.duplicateDeclaration name, position⟩ :=
      SymbolTable.declare_eq_error.2 ⟨ht.find?_innermost.2 hhere, rfl⟩
    rw [htable, History.declare, if_pos hhere]
    rfl
  · have hnew : t.innermost.find? name = none := not_not.1 (mt ht.find?_innermost.1 hhere)
    have htable : t.declare name constant nullability position =
        .ok (⟨name, position.line, constant, nullability, t.size⟩, _) :=
      SymbolTable.declare_eq_ok.2 ⟨hnew, rfl, rfl⟩
    rw [htable, History.declare, if_neg hhere, ht.size]
    exact ⟨rfl, ht.extended⟩

theorem declareLoop (ht : h.Tells t) (name : String) (position : Position) :
    Agree (t.declareLoop name position) (h.declareLoop name position) := by
  have hdeclare := ht.declare name false .nullable position
  unfold SymbolTable.declareLoop History.declareLoop
  rw [ht.mode, ht.lookup?]
  cases h.mode with
  | lexical => exact hdeclare
  | flat =>
    cases h.latest? name with
    | none => exact hdeclare
    | some v =>
      by_cases hc : v.constant = true
      · simp [hc, Agree]
      · simp only [hc]
        exact ⟨rfl, ht⟩

theorem settle (ht : h.Tells t) {outcome : Except Diagnostic (Variable × SymbolTable)}
    {outcome' : Except Diagnostic (Variable × History)} (ha : Agree outcome outcome') :
    (t.settle outcome).1 = (h.settle outcome').1 ∧
      (h.settle outcome').2.Tells (t.settle outcome).2 := by
  rcases outcome with d | ⟨v, t'⟩ <;> rcases outcome' with d' | ⟨w, h'⟩
  · exact ⟨congrArg Except.error ha, ht⟩
  · exact ha.elim
  · exact ha.elim
  · obtain ⟨rfl, ht'⟩ := ha
    exact ⟨rfl, ht'⟩

/-- A table that is as its past tells answers as its past does, and is afterwards as its past
tells. -/
theorem serve (ht : h.Tells t) (r : Request) :
    (t.serve r).1 = (h.serve r).1 ∧ (h.serve r).2.Tells (t.serve r).2 := by
  cases r with
  | enter => exact ⟨rfl, ht.enter⟩
  | leave => exact ⟨rfl, ht.leave⟩
  | declare name constant nullability position =>
    exact ht.settle (ht.declare name constant nullability position)
  | declareLoop name position => exact ht.settle (ht.declareLoop name position)
  | resolve name position =>
    have hresolve : t.resolve name position = h.resolve name position := by
      cases hl : h.latest? name with
      | none => simp [SymbolTable.resolve, History.resolve, ht.lookup?, hl]
      | some v => simp [SymbolTable.resolve, History.resolve, ht.lookup?, hl]
    exact ⟨congrArg (Except.map some) hresolve, ht⟩
  | lookup name => exact ⟨congrArg Except.ok ht.lookup?, ht⟩

theorem after (ht : h.Tells t) (requests : List Request) :
    (h.after requests).Tells (t.after requests) := by
  induction requests generalizing h t with
  | nil => exact ht
  | cons r requests ih => exact ih (ht.serve r).2

end Tells

end History

namespace SymbolTable

/-- After any sequence of requests to an empty table each further request is answered from
what has happened. A name means the latest declaration of it that does not lie between an
opening and the closing that has cancelled it. It is declared twice if such a declaration of it
was made on the present level. A loop declares its variable in lexical mode as it would be
declared by hand; in flat mode it takes over what the name means, which must not be constant,
and declares it if it means nothing. -/
theorem answers_from_history (mode : ScopeMode) (requests : List Request) :
    let t := (empty mode).after requests
    let h := (History.start mode).after requests
    (∀ r, (t.serve r).1 = (h.serve r).1) ∧
    (∀ name, t.lookup? name = h.latest? name) ∧
    (∀ name constant nullability position d,
      t.declare name constant nullability position = .error d ↔
        h.DeclaredHere name ∧ d = ⟨.duplicateDeclaration name, position⟩) ∧
    (mode = .lexical → ∀ name position,
      t.declareLoop name position = t.declare name false .nullable position) ∧
    (mode = .flat → ∀ name position,
      (∀ d, t.declareLoop name position = .error d ↔
        (∃ v, h.latest? name = some v ∧ v.constant = true) ∧
          d = ⟨.duplicateDeclaration name, position⟩) ∧
      (∀ v, h.latest? name = some v → v.constant = false →
        t.declareLoop name position = .ok (v, t)) ∧
      (h.latest? name = none →
        t.declareLoop name position = t.declare name false .nullable position ∧
          ∃ v t', t.declare name false .nullable position = .ok (v, t'))) := by
  intro t h
  have ht : h.Tells t := (History.Tells.start mode).after requests
  have hmode : t.mode = mode := mode_after _ requests
  refine ⟨fun r => (ht.serve r).1, fun name => ht.lookup?, fun name c n position d => ?_,
    fun hm name position => ?_, fun hm name position => ?_⟩
  · rw [declare_eq_error, ht.find?_innermost]
  · exact declareLoop_of_lexical (hmode.trans hm)
  · rw [declareLoop_of_flat (hmode.trans hm), ← ht.lookup?]
    cases hl : t.lookup? name with
    | none =>
      have hnew : t.innermost.find? name = none := find?_innermost_of_lookup? hl
      have hdeclare : ∃ v t', t.declare name false .nullable position = .ok (v, t') :=
        ⟨_, _, declare_eq_ok.2 ⟨hnew, rfl, rfl⟩⟩
      refine ⟨fun d => ?_, nofun, fun _ => ⟨rfl, hdeclare⟩⟩
      simp [declare_eq_error, hnew]
    | some v =>
      refine ⟨fun d => ?_, fun w hw hc => ?_, nofun⟩
      · by_cases hc : v.constant = true
        · simp only [hc, if_true, Except.error.injEq, Option.some.injEq, exists_eq_left', true_and]
          exact eq_comm
        · simp [hc]
      · obtain rfl := Option.some.inj hw
        simp [hc]

/-- An outer name is found again once the scope that shadows it is closed, a name may be
declared again in a scope that is opened anew, and closing the global scope does nothing. -/
theorem answers_from_history_shadowing :
    let t := (empty .lexical).after [.leave, .declare "x" true .safe ⟨1, "p"⟩, .enter,
      .declare "x" false .safe ⟨2, "p"⟩, .leave, .leave, .enter, .declare "y" false .safe ⟨3, "p"⟩]
    t.lookup? "x" = some ⟨"x", 1, true, .safe, 0⟩ ∧
      t.declare "y" true .safe ⟨4, "p"⟩ = .error ⟨.duplicateDeclaration "y", 4, "p"⟩ := by
  intro t
  obtain ⟨-, hlookup, hdeclare, -⟩ := answers_from_history .lexical [.leave,
    .declare "x" true .safe ⟨1, "p"⟩, .enter, .declare "x" false .safe ⟨2, "p"⟩, .leave, .leave,
    .enter, .declare "y" false .safe ⟨3, "p"⟩]
  exact ⟨(hlookup "x").trans (by decide), (hdeclare "y" true .safe ⟨4, "p"⟩ _).2 (by decide)⟩

end SymbolTable

end Scriptlet
