import TreeScript.Proofs.Objects.Entries
import TreeScript.Proofs.Objects.SharedCells

/-!
# Walking through objects, and copying them

A walk through an object acts on its entries one after the other, as long as what it does leaves the
object alone (`forEntries_eq`). A clone of an object has its entries in their order, and no other
object changes (`cloneTable_entries`).
-/

set_option autoImplicit false

namespace TreeScript

/-! ### Walks -/

/-- Assumes: steps that keep an invariant, and under it do with a number what is to be done with the
element at that place. To go through the numbers is to go through the elements. -/
theorem Run.foldlM_range {σ α : Type} {xs : List α} {visit : σ → Nat → Run σ} {act : σ → α → Run σ}
    {I : Machine → Prop}
    (hvisit : ∀ i x, xs[i]? = some x → ∀ state n, I n → visit state i n = act state x n)
    (hact : ∀ x ∈ xs, ∀ state n state' n', I n → act state x n = .ok state' n' → I n')
    {m : Machine} (hm : I m) (init : σ) :
    (List.range xs.length).foldlM visit init m = xs.foldlM act init m := by
  induction xs generalizing visit m init with
  | nil => rfl
  | cons x xs ih =>
    have hfirst : visit init 0 m = act init x m := hvisit 0 x rfl init m hm
    rw [List.length_cons, List.range_succ_eq_map, List.foldlM_cons, List.foldlM_cons]
    cases hstep : act init x m with
    | error e n => rw [Run.bind_error (hfirst.trans hstep), Run.bind_error hstep]
    | ok state n =>
      rw [Run.bind_ok (hfirst.trans hstep), Run.bind_ok hstep, List.foldlM_map]
      refine ih (fun i y hy ↦ hvisit (i + 1) y ?_)
        (fun y hy ↦ hact y (List.mem_cons_of_mem _ hy))
        (hact x (List.mem_cons_self ..) init m state n hm hstep) state
      rwa [List.getElem?_cons_succ]

/-- Assumes: an action that keeps an invariant, under which an object has one and the same table. To
walk through the object is to act on the entries of that table one by one. -/
theorem forEntries_eq {σ : Type} {ref : TableRef} {table : Table} {act : σ → Entry → Run σ}
    {I : Machine → Prop} (hI : ∀ n, I n → n.table ref = table)
    (hlength : table.entries.length = table.size)
    (hact : ∀ entry ∈ table.entries, ∀ state n state' n', I n → act state entry n = .ok state' n' →
      I n') {m : Machine} (hm : I m) (init : σ) :
    forEntries ref init act m = table.entries.foldlM act init m := by
  have hread (n : Machine) (hn : I n) : tableOf ref n = .ok table n := by
    rw [← hI n hn]
    rfl
  unfold forEntries
  rw [Run.bind_ok (hread m hm), ← Run.foldlM_range ?_ hact hm, hlength]
  · rfl
  · intro i entry hentry state n hn
    have hslot := (Table.getElem?_entries_eq_some_iff.mp hentry).2
    have hfound : table.entryAt table.walk i = some entry := by
      unfold Table.entryAt Table.walk
      rw [if_pos rfl, hslot]
    rw [Run.bind_ok (hread n hn), hfound]

/-! ### Cells that stay -/

namespace Machine

variable {m n k : Machine}

/-- The cells of a machine are still there, and hold what they held. -/
structure KeepsCells (m n : Machine) : Prop where
  size : m.cells.size ≤ n.cells.size
  content : ∀ cell : CellRef, cell.index < m.cells.size → n.content cell = m.content cell

theorem KeepsCells.refl (m : Machine) : m.KeepsCells m := ⟨Nat.le_refl _, fun _ _ ↦ rfl⟩

theorem KeepsCells.trans (h : m.KeepsCells n) (h' : n.KeepsCells k) : m.KeepsCells k :=
  ⟨Nat.le_trans h.size h'.size, fun cell hcell ↦
    (h'.content cell (Nat.lt_of_lt_of_le hcell h.size)).trans (h.content cell hcell)⟩

theorem KeepsCells.keyId (h : m.KeepsCells n) {cell : CellRef} (hcell : cell.index < m.cells.size) :
    n.keyId cell = m.keyId cell := by
  unfold Machine.keyId
  rw [h.content cell hcell]

theorem keepsCells_of_eq (hcells : n.cells = m.cells) : m.KeepsCells n :=
  ⟨Nat.le_of_eq (congrArg Array.size hcells.symm), fun cell _ ↦ content_congr hcells cell⟩

theorem keepsCells_withCell (m : Machine) (content : Content) :
    m.KeepsCells (m.withCell content) := by
  refine ⟨?_, fun cell hcell ↦ ?_⟩
  · exact Nat.le_of_lt (size_lt_push _ _)
  · rw [Machine.content_old hcell]

end Machine

/-! ### New keys -/

section

variable {m : Machine} {ref : TableRef}

/-- A key that is new to an object in order comes in behind all others. -/
theorem Machine.Orderly.entries_enter (h : m.Orderly ref) {key : CellRef}
    (hnew : (m.table ref).get? (m.keyId key) = none) (value : CellRef) :
    ((m.after (.enter ref key value)).table ref).entries =
      (m.table ref).entries ++ [⟨key, value⟩] := by
  rw [h.table_enter, h.inOrder.entries_set_of_new hnew]

end

/-! ### Removed keys -/

/-- A key that is removed answers what it led to. -/
theorem eraseEntry_apply (ref : TableRef) (key : CellRef) (m : Machine) :
    eraseEntry ref key m = .ok ((m.table ref).get? (m.keyId key)) (m.after (.remove ref key)) := by
  rw [eraseEntry_eq, ← Table.InOrder.erase_snd m.keyId]
  rfl

namespace Machine

variable {m : Machine} {ref : TableRef}

theorem Orderly.table_remove (h : m.Orderly ref) (key : CellRef) :
    (m.after (.remove ref key)).table ref = ((m.table ref).erase m.keyId (m.keyId key)).1 := by
  rw [table_after _ _ h.table]
  exact if_pos rfl

/-- The entries under the other keys stay, in the order they were in. -/
theorem Orderly.entries_remove (h : m.Orderly ref) (key : CellRef) :
    ((m.after (.remove ref key)).table ref).entries =
      (m.table ref).entries.filter fun entry ↦ m.keyId entry.key ≠ m.keyId key := by
  rw [h.table_remove, h.inOrder.entries_erase]

theorem Orderly.get?_remove (h : m.Orderly ref) (key : CellRef) (id : KeyId) :
    ((m.after (.remove ref key)).table ref).get? id =
      if id = m.keyId key then none else (m.table ref).get? id := by
  rw [h.table_remove, h.inOrder.get?_erase_eq]

end Machine

/-! ### Clones -/

variable {m : Machine} {target source : TableRef}

/-- Assumes: an object in order, and entries with other keys than those it has. Once they are
entered one by one, they stand behind the others, and no other object has changed. -/
theorem setEntries_apply {entries : List Entry} (htarget : m.Orderly target)
    (hbound : ∀ entry ∈ entries, entry.key.index < m.cells.size)
    (hdistinct : (((m.table target).entries ++ entries).map fun entry ↦ m.keyId entry.key).Nodup) :
    ∃ m', (forIn entries PUnit.unit fun entry _ ↦ do
        setEntry target entry.key entry.value
        return .yield PUnit.unit : Run PUnit) m = .ok ⟨⟩ m' ∧
      m'.Orderly target ∧ (m'.table target).entries = (m.table target).entries ++ entries ∧
      m'.cells = m.cells ∧ m'.tables.size = m.tables.size ∧
      ∀ other, other ≠ target → m'.table other = m.table other := by
  induction entries generalizing m with
  | nil => exact ⟨m, rfl, htarget, (List.append_nil _).symm, rfl, rfl, fun _ _ ↦ rfl⟩
  | cons entry entries ih =>
    let n := m.after (.enter target entry.key entry.value)
    have hstep : setEntry target entry.key entry.value m = .ok () n := rfl
    have hkey := hbound entry (List.mem_cons_self ..)
    have hnew : (m.table target).get? (m.keyId entry.key) = none := by
      rw [htarget.inOrder.get?_eq_none_iff]
      intro former hformer hsame
      rw [List.map_append, List.nodup_append] at hdistinct
      exact hdistinct.2.2 _ (List.mem_map_of_mem hformer) _
        (List.mem_map_of_mem (List.mem_cons_self ..)) hsame
    have hentries : (n.table target).entries = (m.table target).entries ++ [entry] :=
      htarget.entries_enter hnew entry.value
    obtain ⟨m', hloop, horderly, hafter, hcells, hcount, hothers⟩ :=
      ih (m := n) (htarget.after fun _ ↦ hkey)
        (fun other h ↦ hbound other (List.mem_cons_of_mem _ h))
        (by rw [hentries, List.append_assoc]; exact hdistinct)
    refine ⟨m', ?_, horderly, ?_, hcells, hcount.trans (Machine.size_after _ _).2,
      fun other hother ↦ ?_⟩
    · rw [List.forIn_cons, bind_assoc, Run.bind_ok hstep]
      exact hloop
    · rw [hafter, hentries, List.append_assoc]
      rfl
    · rw [hothers other hother, table_enter_of_ne hother]

/-- Assumes: an object with keys in cells that are there, and that are different from each other. A
clone of it is a new object in order with the same entries, and nothing else changes. -/
theorem cloneTable_of_distinct
    (hbound : ∀ entry ∈ (m.table source).entries, entry.key.index < m.cells.size)
    (hdistinct : ((m.table source).entries.map fun entry ↦ m.keyId entry.key).Nodup) :
    ∃ m', cloneTable source m = .ok ⟨m.tables.size⟩ m' ∧ m'.Orderly ⟨m.tables.size⟩ ∧
      (m'.table ⟨m.tables.size⟩).entries = (m.table source).entries ∧ m'.cells = m.cells ∧
      m'.tables.size = m.tables.size + 1 ∧
      ∀ other, other ≠ ⟨m.tables.size⟩ → m'.table other = m.table other := by
  have hcreated : newTable m = .ok ⟨m.tables.size⟩ m.withTable := rfl
  have hread : tableOf source m.withTable = .ok (m.table source) m.withTable := by
    rw [← Machine.table_withTable]
    rfl
  have hempty : (m.withTable.table ⟨m.tables.size⟩).entries = [] := by
    rw [Machine.table_new]
    rfl
  obtain ⟨m', hloop, horderly, hentries, hcells, hcount, hothers⟩ :=
    setEntries_apply m.orderly_newTable hbound (by rw [hempty]; exact hdistinct)
  refine ⟨m', ?_, horderly, by rw [hentries, hempty]; rfl, hcells,
    hcount.trans (Array.size_push _), fun other hother ↦ ?_⟩
  · unfold cloneTable mergeInto
    rw [Run.bind_ok hcreated, bind_assoc, Run.bind_ok hread, bind_assoc, Run.bind_ok hloop]
    rfl
  · rw [hothers other hother, Machine.table_withTable]

/-- Assumes: an object in order. A clone of it is a new object in order with the same entries, and
nothing else changes. -/
theorem cloneTable_entries (hsource : m.Orderly source) :
    ∃ m', cloneTable source m = .ok ⟨m.tables.size⟩ m' ∧ m'.Orderly ⟨m.tables.size⟩ ∧
      (m'.table ⟨m.tables.size⟩).entries = (m.table source).entries ∧ m'.cells = m.cells ∧
      m'.tables.size = m.tables.size + 1 ∧
      ∀ other, other ≠ ⟨m.tables.size⟩ → m'.table other = m.table other :=
  cloneTable_of_distinct hsource.keys hsource.inOrder.nodup_ids

end TreeScript
