import TreeScript.Proofs.Export.Rebuilding
import TreeScript.Proofs.Objects.ArrayKeys

/-!
# Arrays of given items

An object in order that has some items for values, each under its place, is an array of these items
(`Machine.HasItems`), and the number of a place leads to the item there. New arrays are of this kind
(`newArray_items`), and stay so while values are pushed (`pushAll_items`).
-/

set_option autoImplicit false

namespace TreeScript.Machine

variable {m n k : Machine} {ref : TableRef} {cell : CellRef} {items : List CellRef}

/-! ### Machines that keep their cells and tables -/

theorem KeepsFrom.trans {first : Nat} (h : KeepsFrom first m n) (h' : KeepsFrom first n k) :
    KeepsFrom first m k :=
  ⟨h.cells.trans h'.cells, Nat.le_trans h.size h'.size, fun ref hfirst href ↦
    (h'.table ref hfirst (Nat.lt_of_lt_of_le href h.size)).trans (h.table ref hfirst href)⟩

/-- Cells and tables that are the same are kept. -/
theorem keepsFrom_of_eq {first : Nat} (hcells : n.cells = m.cells) (htables : n.tables = m.tables) :
    KeepsFrom first m n :=
  ⟨keepsCells_of_eq hcells, Nat.le_of_eq (congrArg Array.size htables.symm),
    fun ref _ _ ↦ table_congr htables ref⟩

/-! ### Items -/

/-- An object in order with some items for values, each under its place. -/
structure HasItems (m : Machine) (ref : TableRef) (items : List CellRef) : Prop where
  orderly : m.Orderly ref
  keys : (m.table ref).keys.map m.content =
    (List.range items.length).map fun (i : Nat) ↦ .number (Decimal.ofInt i)
  values : (m.table ref).values = items

/-- A cell that holds an array of some items. -/
def IsArrayOf (m : Machine) (cell : CellRef) (items : List CellRef) : Prop :=
  ∃ ref, m.content cell = .object ref ∧ m.HasItems ref items

theorem HasItems.size (h : m.HasItems ref items) : (m.table ref).size = items.length := by
  rw [← h.orderly.inOrder.length_entries, ← List.length_map (f := Entry.value)]
  exact congrArg List.length h.values

theorem HasItems.keyIds (h : m.HasItems ref items) :
    m.keyIds ref = (List.range items.length).map fun (i : Nat) ↦ .number (Decimal.ofInt i) := by
  have hids := congrArg (List.map Content.keyId) h.keys
  rw [List.map_map, List.map_map] at hids
  exact hids

theorem HasItems.hasIndexKeys (h : m.HasItems ref items) : m.HasIndexKeys ref := by
  intro id
  rw [h.keyIds, h.size, List.mem_map]
  simp only [List.mem_range, eq_comm]

theorem HasItems.isArray (h : m.HasItems ref items) (hsize : items.length ≤ twoTo 63) :
    m.isArray ref = true :=
  h.hasIndexKeys.isArray (h.size.symm ▸ hsize)

/-- The keys of an object are the numbers 0, 1 and so on, in this order. -/
def InIndexOrder (m : Machine) (ref : TableRef) : Prop :=
  m.keyIds ref = (List.range (m.table ref).size).map fun (i : Nat) ↦ .number (Decimal.ofInt i)

theorem HasItems.inIndexOrder (h : m.HasItems ref items) : m.InIndexOrder ref := by
  unfold InIndexOrder
  rw [h.keyIds, h.size]

/-- Assumes: an object in order, with its keys in the order of the numbers from 0. Its values are
under their places. -/
theorem InIndexOrder.get? (h : m.InIndexOrder ref) (horderly : m.Orderly ref) {i : Nat}
    {item : CellRef} (hitem : (m.table ref).values[i]? = some item) :
    (m.table ref).get? (.number (Decimal.ofInt i)) = some item := by
  rw [Table.values, List.getElem?_map, Option.map_eq_some_iff] at hitem
  obtain ⟨entry, hentry, rfl⟩ := hitem
  have hid : ((List.range (m.table ref).size).map fun (i : Nat) ↦
      KeyId.number (Decimal.ofInt i))[i]? = some (m.keyId entry.key) := by
    rw [← h, keyIds, Table.keys, List.map_map, List.getElem?_map, hentry]
    rfl
  rw [List.getElem?_map, Option.map_eq_some_iff] at hid
  obtain ⟨j, hj, hnumber⟩ := hid
  obtain ⟨hbound, rfl⟩ := List.getElem?_eq_some_iff.mp hj
  rw [List.getElem_range] at hnumber
  rw [hnumber]
  exact horderly.inOrder.get?_of_mem_entries (List.mem_of_getElem? hentry)

/-- An array has its items wherever its table and the cells of its keys are the same. -/
theorem HasItems.congr (h : m.HasItems ref items) (hexists : ref.index < n.tables.size)
    (htable : n.table ref = m.table ref)
    (hcells : ∀ key ∈ (m.table ref).keys, key.index < n.cells.size)
    (hkeys : ∀ key ∈ (m.table ref).keys, n.content key = m.content key) : n.HasItems ref items := by
  have hkey {entry : Entry} (hentry : entry ∈ (m.table ref).entries) :
      entry.key ∈ (m.table ref).keys := List.mem_map_of_mem hentry
  refine ⟨⟨hexists, fun entry hentry ↦ ?_, ?_⟩, ?_, htable ▸ h.values⟩
  · rw [htable] at hentry
    exact hcells _ (hkey hentry)
  · rw [htable]
    exact h.orderly.inOrder.congr fun entry hentry ↦
      congrArg Content.keyId (hkeys _ (hkey hentry))
  · rw [htable, ← h.keys]
    exact List.map_congr_left hkeys

/-- An array keeps its items as long as cells and tables stay. -/
theorem HasItems.kept (h : m.HasItems ref items) (hkept : KeepsFrom 0 m n) :
    n.HasItems ref items := by
  have hbound : ∀ key ∈ (m.table ref).keys, key.index < m.cells.size := by
    intro key hkey
    obtain ⟨entry, hentry, rfl⟩ := List.mem_map.mp hkey
    exact h.orderly.keys entry hentry
  exact h.congr (Nat.lt_of_lt_of_le h.orderly.table hkept.size)
    (hkept.table ref (Nat.zero_le _) h.orderly.table)
    (fun key hkey ↦ Nat.lt_of_lt_of_le (hbound key hkey) hkept.cells.size)
    fun key hkey ↦ hkept.cells.content key (hbound key hkey)

theorem IsArrayOf.kept (h : m.IsArrayOf cell items) (hkept : KeepsFrom 0 m n) :
    n.IsArrayOf cell items := by
  obtain ⟨ref, hcell, hitems⟩ := h
  refine ⟨ref, ?_, hitems.kept hkept⟩
  rw [hkept.cells.content cell (bound_of_object hcell), hcell]

/-- A cell for an array of items. -/
theorem HasItems.newObject (h : m.HasItems ref items) :
    (m.withCell (.object ref)).IsArrayOf ⟨m.cells.size⟩ items :=
  ⟨ref, m.content_new _, h.kept ((m.grown_withCell _).keepsFrom 0)⟩

/-- A new array of some items can be made, and has them. -/
theorem newArray_items (items : List CellRef) (m : Machine) :
    ∃ out n, newArray items m = .ok out n ∧ m.Grown n ∧ n.IsArrayOf out items := by
  obtain ⟨n, hmade, hgrown, horderly, hkeys, hvalues, -⟩ := newArray_entries items m
  have hitems : n.HasItems ⟨m.tables.size⟩ items := ⟨horderly, hkeys, hvalues⟩
  exact ⟨_, _, hmade, hgrown.trans (n.grown_withCell _), hitems.newObject⟩

/-- New cells for some contents, from each of which something is made. -/
theorem mapM_alloc {α β : Type} (label : α → Content) (form : α → CellRef → β) (xs : List α)
    (m : Machine) :
    ∃ cells n, xs.mapM (fun x ↦ do return form x (← alloc (label x)) : α → Run β) m =
        .ok (List.zipWith form xs cells) n ∧ m.Grown n ∧
      (∀ cell ∈ cells, cell.index < n.cells.size) ∧ cells.map n.content = xs.map label := by
  induction xs generalizing m with
  | nil => exact ⟨[], m, rfl, .refl m, fun _ h ↦ (List.not_mem_nil h).elim, rfl⟩
  | cons x xs ih =>
    obtain ⟨cells, n, hcells, hgrown, hbound, hcontents⟩ := ih (m.withCell (label x))
    have hnew : m.cells.size < (m.withCell (label x)).cells.size := size_lt_push _ _
    have hfirst : n.content ⟨m.cells.size⟩ = label x :=
      (hgrown.cells.content _ hnew).trans (m.content_new _)
    refine ⟨⟨m.cells.size⟩ :: cells, n, ?_, (m.grown_withCell _).trans hgrown, ?_, ?_⟩
    · have hmade : (do return form x (← alloc (label x)) : Run β) m =
          .ok (form x ⟨m.cells.size⟩) (m.withCell (label x)) := rfl
      rw [List.mapM_cons, Run.bind_ok hmade, Run.bind_ok hcells]
      rfl
    · rw [List.forall_mem_cons]
      exact ⟨Nat.lt_of_lt_of_le hnew hgrown.cells.size, hbound⟩
    · rw [List.map_cons, List.map_cons, hcontents, hfirst]

/-- New cells for contents, each with its content. -/
theorem mapM_contents {α : Type} (label : α → Content) (xs : List α) (m : Machine) :
    ∃ cells n, xs.mapM (fun x ↦ alloc (label x)) m = .ok cells n ∧ m.Grown n ∧
      (∀ cell ∈ cells, cell.index < n.cells.size) ∧ cells.map n.content = xs.map label := by
  obtain ⟨cells, n, hcells, hgrown, hbound, hcontents⟩ := mapM_alloc label (fun _ cell ↦ cell) xs m
  have hlength := congrArg List.length hcontents
  rw [List.length_map, List.length_map] at hlength
  have hsame : List.zipWith (fun _ cell ↦ cell) xs cells = cells := by
    rw [← List.map_uncurry_zip_eq_zipWith]
    exact List.map_snd_zip hlength.le
  rw [hsame] at hcells
  exact ⟨cells, n, hcells, hgrown, hbound, hcontents⟩

/-- An array of texts has new cells with these texts. -/
theorem newTextArray_items (texts : List String) (m : Machine) :
    ∃ out n items, newTextArray texts m = .ok out n ∧ m.Grown n ∧ n.IsArrayOf out items ∧
      items.map n.content = texts.map .string := by
  obtain ⟨items, n, hitems, hgrown, hbound, hcontents⟩ := mapM_contents .string texts m
  obtain ⟨out, k, hmade, hmore, harray⟩ := newArray_items items n
  refine ⟨out, k, items, (Run.bind_ok hitems).trans hmade, hgrown.trans hmore, harray, ?_⟩
  rw [← hcontents]
  exact List.map_congr_left fun item hitem ↦ hmore.cells.content item (hbound item hitem)

/-! ### Pushing -/

/-- The next number of an array is the number of its items. -/
theorem HasItems.nextKey (h : m.HasItems ref items) :
    m.highestKey ref + Decimal.ofInt 1 = Decimal.ofInt items.length := by
  rw [h.hasIndexKeys.nextKey, h.size]

/-- A value that is pushed is an item behind the others. -/
theorem HasItems.push (h : m.HasItems ref items) (value : CellRef) :
    ∃ n, pushEntry ref value m = .ok () n ∧ n.HasItems ref (items ++ [value]) := by
  have hdifferent : (Content.number (Decimal.ofInt items.length)).keyId ∉
      ((m.table ref).keys.map m.content).map Content.keyId := by
    rw [← h.nextKey, List.map_map]
    exact m.nextKey_not_mem ref
  obtain ⟨horderly, -, hkeys, hvalues⟩ := h.orderly.withEntry value hdifferent
  refine ⟨m.withEntry ref (.number (Decimal.ofInt items.length)) value, ?_, horderly, ?_, ?_⟩
  · rw [← h.nextKey]
    rfl
  · rw [hkeys, h.keys, List.length_append, List.length_singleton, List.range_succ, List.map_append]
    rfl
  · rw [hvalues, h.values]

/-- Values that are pushed one by one are items behind the others. -/
theorem HasItems.pushAll (h : m.HasItems ref items) (values : List CellRef) :
    ∃ n, (forIn values PUnit.unit fun value _ ↦ do
        pushEntry ref value
        return .yield PUnit.unit : Run PUnit) m = .ok ⟨⟩ n ∧ n.HasItems ref (items ++ values) := by
  induction values generalizing m items with
  | nil => exact ⟨m, rfl, (List.append_nil items).symm ▸ h⟩
  | cons value values ih =>
    obtain ⟨k, hpushed, hk⟩ := h.push value
    obtain ⟨n, hloop, hn⟩ := ih hk
    refine ⟨n, ?_, by rwa [List.append_assoc] at hn⟩
    rw [List.forIn_cons, bind_assoc, Run.bind_ok hpushed]
    exact hloop

end TreeScript.Machine
