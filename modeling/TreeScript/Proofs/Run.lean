import TreeScript.Store.Frame

/-!
# Running computations step by step

A computation of type `Run` takes a machine to an outcome: a value or a failure, and the machine it
leaves behind. `bind_ok` and `bind_error` take one step of a sequence whose first part is known, and
`bind_eq_ok_iff` takes a finished sequence apart. `final` is the machine an outcome leaves behind,
whether it is a value or a failure. What a reference leads to depends only on its own part of the
machine (`content_congr`), and a reference to what is not there leads to something empty
(`content_of_missing`). `Unwound` relates two machines that differ at most in the recorded stack
traces and in the log, which is all that leaving a node changes. `withCell` is a machine with one
more cell, where the other cells are what they were (`content_new`, `content_old`).
-/

set_option autoImplicit false

namespace TreeScript

/-- How a computation ended. -/
abbrev Outcome (α : Type) := EStateM.Result Failure Machine α

/-- The machine an outcome leaves behind. -/
def Outcome.final {α : Type} : Outcome α → Machine
  | .ok _ m => m
  | .error _ m => m

/-- The value an outcome gives, if it gives one. -/
def Outcome.value? {α : Type} : Outcome α → Option α
  | .ok a _ => some a
  | .error _ _ => none

/-- An outcome with a value gives the value and leaves a machine behind. -/
theorem Outcome.eq_ok {α : Type} {o : Outcome α} {a : α} (h : o.value? = some a) :
    o = .ok a o.final := by
  cases o with
  | ok b m =>
    cases h
    rfl
  | error e m => cases h

/-- The failure an outcome gives, if it gives one. -/
def Outcome.failure? {α : Type} : Outcome α → Option Failure
  | .ok _ _ => none
  | .error e _ => some e

/-- An outcome with a failure gives the failure and leaves a machine behind. -/
theorem Outcome.eq_error {α : Type} {o : Outcome α} {e : Failure} (h : o.failure? = some e) :
    o = .error e o.final := by
  cases o with
  | ok a m => cases h
  | error e' m =>
    cases h
    rfl

namespace Run

variable {α β : Type}

/-- A sequence whose first part gives a value goes on with that value. -/
theorem bind_ok {x : Run α} {f : α → Run β} {m m' : Machine} {a : α} (h : x m = .ok a m') :
    (x >>= f) m = f a m' := by
  simp only [bind, EStateM.bind, h]

/-- A sequence whose first part fails fails with it. -/
theorem bind_error {x : Run α} {f : α → Run β} {m m' : Machine} {e : Failure}
    (h : x m = .error e m') : (x >>= f) m = .error e m' := by
  simp only [bind, EStateM.bind, h]

/-- Reading the machine changes nothing. -/
theorem get_bind (f : Machine → Run α) (m : Machine) : (get >>= f) m = f m m := rfl

/-- Sequences with the same first outcome and the same rest have the same outcome. -/
theorem bind_congr_left {x y : Run α} {f : α → Run β} {m m' : Machine} (h : x m = y m') :
    (x >>= f) m = (y >>= f) m' := by
  cases hx : x m with
  | ok a n => rw [bind_ok hx, bind_ok (h ▸ hx)]
  | error e n => rw [bind_error hx, bind_error (h ▸ hx)]

/-- A sequence gives a value exactly if both of its parts do. -/
theorem bind_eq_ok_iff {x : Run α} {f : α → Run β} {m m' : Machine} {b : β} :
    (x >>= f) m = .ok b m' ↔ ∃ a n, x m = .ok a n ∧ f a n = .ok b m' := by
  constructor
  · intro h
    cases hx : x m with
    | ok a n => exact ⟨a, n, rfl, by rw [← h, bind_ok hx]⟩
    | error e n =>
      rw [bind_error hx] at h
      cases h
  · rintro ⟨a, n, hx, hf⟩
    rw [bind_ok hx, hf]

/-- A handler does not come in where there is a value. -/
theorem tryCatch_ok {x : Run α} {handler : Failure → Run α} {m m' : Machine} {a : α}
    (h : x m = .ok a m') : (tryCatch x handler) m = .ok a m' := by
  change EStateM.tryCatch x handler m = _
  unfold EStateM.tryCatch
  rw [h]

/-- A handler takes over where there is a failure. -/
theorem tryCatch_error {x : Run α} {handler : Failure → Run α} {m m' : Machine} {e : Failure}
    (h : x m = .error e m') : (tryCatch x handler) m = handler e m' := by
  change EStateM.tryCatch x handler m = _
  unfold EStateM.tryCatch
  rw [h]
  rfl

/-- What is caught depends only on the outcome. -/
theorem tryCatch_congr {x y : Run α} {handler : Failure → Run α} {m m' : Machine}
    (h : x m = y m') : (tryCatch x handler) m = (tryCatch y handler) m' := by
  cases hx : x m with
  | ok a n => rw [tryCatch_ok hx, tryCatch_ok (h ▸ hx)]
  | error e n => rw [tryCatch_error hx, tryCatch_error (h ▸ hx)]

end Run

/-! ### Parts of a machine

Each part is an array, and a number beyond its end stands for a default. -/

section

variable {α : Type} (xs : Array α) (i j : Nat) (x d : α)

/-- What is added is found under the number after all others. -/
theorem size_lt_push : xs.size < (xs.push x).size :=
  Nat.lt_of_lt_of_eq (Nat.lt_succ_self _) (Array.size_push _).symm

theorem getD_push : (xs.push x)[i]?.getD d = if i = xs.size then x else xs[i]?.getD d := by
  rw [Array.getElem?_push]
  split
  · rfl
  · rfl

theorem getD_modify (change : α → α) :
    (xs.modify i change)[j]?.getD d =
      if i = j ∧ j < xs.size then change (xs[j]?.getD d) else xs[j]?.getD d := by
  rw [Array.getElem?_modify]
  by_cases hsame : i = j
  · rw [if_pos hsame]
    by_cases hbound : j < xs.size
    · rw [if_pos ⟨hsame, hbound⟩, Array.getElem?_eq_getElem hbound]
      rfl
    · rw [if_neg fun h ↦ hbound h.2, Array.getElem?_eq_none (Nat.le_of_not_lt hbound)]
      rfl
  · rw [if_neg hsame, if_neg fun h ↦ hsame h.1]

theorem getD_setIfInBounds :
    (xs.setIfInBounds i x)[j]?.getD d = if i = j ∧ j < xs.size then x else xs[j]?.getD d := by
  rw [Array.getElem?_setIfInBounds]
  by_cases hsame : i = j
  · by_cases hbound : j < xs.size
    · rw [if_pos hsame, if_pos (hsame ▸ hbound), if_pos ⟨hsame, hbound⟩]
      rfl
    · rw [if_pos hsame, if_neg (hsame ▸ hbound), if_neg fun h ↦ hbound h.2,
        Array.getElem?_eq_none (Nat.le_of_not_lt hbound)]
  · rw [if_neg hsame, if_neg fun h ↦ hsame h.1]

end

namespace Machine

section

variable {m n : Machine}

/-- What a cell holds is up to the cells. -/
theorem content_congr (hcells : n.cells = m.cells) (cell : CellRef) :
    n.content cell = m.content cell := by
  unfold Machine.content
  rw [hcells]

/-- What the table of an object has is up to the tables. -/
theorem table_congr (htables : n.tables = m.tables) (ref : TableRef) :
    n.table ref = m.table ref := by
  unfold Machine.table
  rw [htables]

/-- What a scope binds is up to the scopes. -/
theorem scope_congr (hscopes : n.scopes = m.scopes) (ref : ScopeRef) :
    n.scope ref = m.scope ref := by
  unfold Machine.scope
  rw [hscopes]

/-- What a source is, is up to the sources. -/
theorem context_congr (hcontexts : n.contexts = m.contexts) (ref : ContextRef) :
    n.context ref = m.context ref := by
  unfold Machine.context
  rw [hcontexts]

/-- A cell that is not there is empty. -/
theorem content_of_missing {cell : CellRef} (hmissing : m.cells.size ≤ cell.index) :
    m.content cell = .empty := by
  rw [Machine.content, Array.getElem?_eq_none hmissing]
  rfl

/-- A cell that holds something is there. -/
theorem bound_of_content {cell : CellRef} (hholds : m.content cell ≠ .empty) :
    cell.index < m.cells.size :=
  Nat.lt_of_not_le fun hmissing ↦ hholds (content_of_missing hmissing)

/-- A table that is not there has no entries, and nothing is found in it. -/
theorem table_of_missing {ref : TableRef} (hmissing : m.tables.size ≤ ref.index) :
    m.table ref = {} := by
  rw [Machine.table, Array.getElem?_eq_none hmissing]
  rfl

/-- A scope that is not there binds no name. -/
theorem scope_of_missing {ref : ScopeRef} (hmissing : m.scopes.size ≤ ref.index) :
    m.scope ref = {} := by
  rw [Machine.scope, Array.getElem?_eq_none hmissing]
  rfl

/-- A scope that binds a name is there. -/
theorem scope_exists {ref : ScopeRef} {name : String} {cell : CellRef}
    (h : (m.scope ref)[name]? = some cell) : ref.index < m.scopes.size := by
  refine Nat.lt_of_not_le fun hmissing ↦ ?_
  rw [scope_of_missing hmissing] at h
  cases h

/-- A stack trace that is not there counts as empty. -/
theorem trace_of_missing {ref : TraceRef} (hmissing : m.traces.size ≤ ref.index) :
    m.trace ref = {} := by
  rw [Machine.trace, Array.getElem?_eq_none hmissing]
  rfl

/-- A source that is not there has no body and does not count as evaluated. -/
theorem context_of_missing {ref : ContextRef} (hmissing : m.contexts.size ≤ ref.index) :
    m.context ref = default := by
  rw [Machine.context, Array.getElem?_eq_none hmissing]
  rfl

/-- An iterator that is not there has nothing to hand out. -/
theorem remaining_of_missing {ref : IteratorRef} (hmissing : m.iterators.size ≤ ref.index) :
    m.remaining ref = [] := by
  rw [Machine.remaining, Machine.iterator, Array.getElem?_eq_none hmissing]
  rfl

end

/-! ### Unwinding -/

/-- One machine is another up to the recorded stack traces and the log. -/
def Unwound (before after : Machine) : Prop :=
  { before with traces := after.traces, log := after.log } = after

theorem Unwound.refl (m : Machine) : m.Unwound m := rfl

/-- Unwinding in two steps is unwinding. -/
theorem Unwound.trans {a b c : Machine} (hab : a.Unwound b) (hbc : b.Unwound c) :
    a.Unwound c := by
  unfold Unwound at *
  rw [← hbc, ← hab]

/-- Unwinding leaves the cells as they are. -/
theorem Unwound.cells {a b : Machine} (h : a.Unwound b) : b.cells = a.cells := by
  rw [← h]

/-- Unwinding leaves the content of every cell as it is. -/
theorem Unwound.content {a b : Machine} (h : a.Unwound b) (cell : CellRef) :
    b.content cell = a.content cell :=
  content_congr h.cells cell

/-- Unwinding leaves the options as they are. -/
theorem Unwound.options {a b : Machine} (h : a.Unwound b) : b.options = a.options := by
  rw [← h]

/-- Unwinding leaves every table as it is. -/
theorem Unwound.table {a b : Machine} (h : a.Unwound b) (ref : TableRef) :
    b.table ref = a.table ref :=
  table_congr (by rw [← h]) ref

/-- Unwinding leaves every scope as it is. -/
theorem Unwound.scope {a b : Machine} (h : a.Unwound b) (ref : ScopeRef) :
    b.scope ref = a.scope ref :=
  scope_congr (by rw [← h]) ref

/-- Unwinding leaves every source as it is. -/
theorem Unwound.context {a b : Machine} (h : a.Unwound b) (ref : ContextRef) :
    b.context ref = a.context ref :=
  context_congr (by rw [← h]) ref

/-! ### Cells -/

/-- A cell that is overwritten holds the new content, and the others what they held. -/
theorem content_write (m : Machine) (target cell : CellRef) (c : Content) :
    ({ m with cells := m.cells.setIfInBounds target.index c } : Machine).content cell =
      if target.index = cell.index ∧ cell.index < m.cells.size then c else m.content cell :=
  getD_setIfInBounds m.cells target.index cell.index c .empty

/-- A machine with one more cell. -/
def withCell (m : Machine) (content : Content) : Machine :=
  { m with cells := m.cells.push content }

/-- A new cell holds what it was made with, and the others what they held. -/
theorem content_withCell (m : Machine) (c : Content) (cell : CellRef) :
    (m.withCell c).content cell =
      if cell.index = m.cells.size then c else m.content cell :=
  getD_push m.cells cell.index c .empty

/-- What is in the cell that was added last. -/
theorem content_new (m : Machine) (content : Content) :
    (m.withCell content).content ⟨m.cells.size⟩ = content := by
  rw [content_withCell, if_pos rfl]

/-- A cell that was there before holds what it held. -/
theorem content_old {m : Machine} {cell : CellRef} (h : cell.index < m.cells.size)
    (content : Content) : (m.withCell content).content cell = m.content cell := by
  rw [content_withCell, if_neg (Nat.ne_of_lt h)]

/-- Unwinding does not depend on a cell more. -/
theorem Unwound.withCell {a b : Machine} (h : a.Unwound b) (content : Content) :
    (a.withCell content).Unwound (b.withCell content) := by
  unfold Unwound Machine.withCell
  rw [← h]

end Machine

/-- A new empty cell gets the next number. -/
theorem newEmpty_apply (m : Machine) :
    newEmpty m = .ok ⟨m.cells.size⟩ (m.withCell .empty) :=
  rfl

/-- Writing to the log changes nothing else. -/
theorem logInfo_apply (text : String) (m : Machine) :
    ∃ m', logInfo text m = .ok () m' ∧ m.Unwound m' := by
  refine ⟨_, rfl, ?_⟩
  by_cases hlevel : m.logLevel = .error
  · simp only [if_pos hlevel]
    exact Machine.Unwound.refl m
  · simp only [if_neg hlevel]
    rfl

end TreeScript
