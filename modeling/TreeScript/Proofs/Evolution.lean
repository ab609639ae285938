import TreeScript.Proofs.Run

/-!
# How cells and objects develop

Whatever a program does, its cells and objects change in three ways: a cell is overwritten, a value
is entered under a key of an object, or a key is removed (`Change`). Otherwise cells and tables are
only added. `Machine.Evolves` says that a machine becomes another by a list of changes, each of
which is listed with the machine it is made on. It says nothing of what lies outside of the cells
and the tables. A property of the cells and tables is settled for every program once it is settled
for a single change, by induction over the history.
-/

set_option autoImplicit false

namespace TreeScript

/-- A change of a cell or of the table of an object. -/
inductive Change where
  | overwrite (cell : CellRef) (content : Content)
  | enter (table : TableRef) (key value : CellRef)
  | remove (table : TableRef) (key : CellRef)

namespace Machine

/-- A machine with one more table. -/
def withTable (m : Machine) : Machine := { m with tables := m.tables.push {} }

/-- The machine after a change. Keys are told apart by what they hold on the machine before. -/
def after (m : Machine) : Change → Machine
  | .overwrite cell content => { m with cells := m.cells.setIfInBounds cell.index content }
  | .enter ref key value =>
    { m with tables := m.tables.modify ref.index fun table ↦ table.set (m.keyId key) key value }
  | .remove ref key =>
    { m with
      tables := m.tables.modify ref.index fun table ↦ (table.erase m.keyId (m.keyId key)).1 }

/-- A machine becomes another by the changes of a history, each listed with the machine it is made
on. -/
inductive Evolves : Machine → List (Machine × Change) → Machine → Prop
  | elsewhere {m n : Machine} (hcells : n.cells = m.cells) (htables : n.tables = m.tables) :
    Evolves m [] n
  | cell (m : Machine) (content : Content) : Evolves m [] (m.withCell content)
  | table (m : Machine) : Evolves m [] m.withTable
  | change (m : Machine) (c : Change) : Evolves m [(m, c)] (m.after c)
  | trans {m n k : Machine} {first second : List (Machine × Change)} (hfirst : Evolves m first n)
    (hsecond : Evolves n second k) : Evolves m (first ++ second) k

/-- A machine becomes another by changes of its cells and tables. -/
def Evolved (m n : Machine) : Prop := ∃ history, m.Evolves history n

namespace Evolved

variable {m n k : Machine}

theorem refl (m : Machine) : m.Evolved m := ⟨[], .elsewhere rfl rfl⟩

theorem elsewhere (hcells : n.cells = m.cells) (htables : n.tables = m.tables) : m.Evolved n :=
  ⟨[], .elsewhere hcells htables⟩

theorem change (m : Machine) (c : Change) : m.Evolved (m.after c) := ⟨[(m, c)], .change m c⟩

theorem trans (hfirst : m.Evolved n) (hsecond : n.Evolved k) : m.Evolved k := by
  obtain ⟨first, hfirst⟩ := hfirst
  obtain ⟨second, hsecond⟩ := hsecond
  exact ⟨first ++ second, hfirst.trans hsecond⟩

end Evolved

/-- A new table is empty, as is what was found in its place before. -/
theorem table_withTable (m : Machine) (ref : TableRef) : m.withTable.table ref = m.table ref := by
  refine (getD_push m.tables ref.index {} {}).trans ?_
  split
  · rename_i hnew
    exact (table_of_missing (Nat.le_of_eq hnew.symm)).symm
  · rfl

/-- A new table is empty. -/
theorem table_new (m : Machine) : m.withTable.table ⟨m.tables.size⟩ = {} := by
  rw [table_withTable]
  exact table_of_missing (Nat.le_refl _)

/-- A cell that is overwritten holds the new content, and the others what they held. -/
theorem content_overwrite (m : Machine) (target cell : CellRef) (c : Content) :
    (m.after (.overwrite target c)).content cell =
      if target.index = cell.index ∧ cell.index < m.cells.size then c else m.content cell :=
  m.content_write target cell c

theorem content_overwrite_self {m : Machine} {target : CellRef} (h : target.index < m.cells.size)
    (c : Content) : (m.after (.overwrite target c)).content target = c := by
  rw [content_overwrite, if_pos ⟨rfl, h⟩]

end Machine

/-- What a change makes of a table, the keys of which are told apart on the machine before. -/
def Change.onTable (m : Machine) (ref : TableRef) (table : Table) : Change → Table
  | .overwrite .. => table
  | .enter target key value => if target = ref then table.set (m.keyId key) key value else table
  | .remove target key => if target = ref then (table.erase m.keyId (m.keyId key)).1 else table

/-- References with the same number are the same. -/
theorem TableRef.eq_iff {a b : TableRef} : a = b ↔ a.index = b.index := by
  cases a
  cases b
  exact TableRef.mk.injEq .. ▸ Iff.rfl

/-- A change of a table that exists makes of it what it is to make of it. -/
theorem Machine.table_after (m : Machine) (c : Change) {ref : TableRef}
    (hexists : ref.index < m.tables.size) :
    (m.after c).table ref = c.onTable m ref (m.table ref) := by
  have hmodify (target : TableRef) (change : Table → Table) :
      (m.tables.modify target.index change)[ref.index]?.getD {} =
        if target = ref then change (m.table ref) else m.table ref := by
    rw [getD_modify]
    by_cases hsame : target = ref
    · rw [if_pos hsame, if_pos ⟨TableRef.eq_iff.mp hsame, hexists⟩]
      rfl
    · rw [if_neg hsame, if_neg fun h ↦ hsame (TableRef.eq_iff.mpr h.1)]
      rfl
  cases c with
  | overwrite cell content => rfl
  | enter target key value => exact hmodify target _
  | remove target key => exact hmodify target _

/-- Removing a key is a change of the machine. -/
theorem eraseEntry_eq (ref : TableRef) (key : CellRef) :
    eraseEntry ref key = modifyGet fun m ↦
      (((m.table ref).erase m.keyId (m.keyId key)).2, m.after (.remove ref key)) := by
  funext m
  have hsame : m.tables.modify ref.index (fun _ ↦ ((m.table ref).erase m.keyId (m.keyId key)).1) =
      m.tables.modify ref.index fun table ↦ (table.erase m.keyId (m.keyId key)).1 := by
    refine Array.ext_getElem? fun i ↦ ?_
    rw [Array.getElem?_modify, Array.getElem?_modify]
    split
    · rename_i hi
      subst hi
      unfold Machine.table
      cases m.tables[ref.index]? <;> rfl
    · rfl
  exact congrArg (fun tables ↦ EStateM.Result.ok _ { m with tables }) hsame

end TreeScript
