import Mathlib.Data.List.Nodup
import Mathlib.Data.List.Perm.Subperm
import Mathlib.Tactic.Push
import TreeScript.Proofs.Objects.Table
import TreeScript.Store.Machine

/-!
# The entries of a table in order

A table in order is known by the list of its entries: no two have the same key
(`InOrder.nodup_ids`), and a key leads to the value of the entry it belongs to
(`InOrder.mem_entries`, `InOrder.get?_of_mem_entries`). In these terms the operations are those of a
list. Setting a value rewrites the entry of the key where it stands (`InOrder.entries_set_of_mem`)
or puts a new one behind all others (`InOrder.entries_set_of_new`), and removing a key takes out its
entry (`InOrder.entries_erase`).
-/

set_option autoImplicit false

namespace TreeScript

theorem Machine.tableOf?_eq_some_iff {m : Machine} {cell : CellRef} {ref : TableRef} :
    m.tableOf? cell = some ref ↔ m.content cell = .object ref := by
  unfold Machine.tableOf?
  cases m.content cell <;> simp

/-- A value is an object, and another one is among its values. -/
def Machine.Part (m : Machine) (whole part : CellRef) : Prop :=
  ∃ ref, m.content whole = .object ref ∧ part ∈ (m.table ref).values

namespace Table

variable {table : Table} {idOf : CellRef → KeyId}

theorem getElem?_entries (table : Table) (i : Nat) :
    table.entries[i]? = if i < table.size then table.slots[i]? else none := by
  unfold entries
  rw [Array.getElem?_toList, Array.take_eq_extract, Array.getElem?_extract, Nat.zero_add]
  by_cases hi : i < table.size
  · rw [if_pos hi]
    by_cases hroom : i < table.slots.size
    · rw [if_pos (by omega)]
    · rw [if_neg (by omega), Array.getElem?_eq_none (by omega)]
  · rw [if_neg hi, if_neg (by omega)]

theorem getElem?_entries_eq_some_iff {i : Nat} {entry : Entry} :
    table.entries[i]? = some entry ↔ i < table.size ∧ table.slots[i]? = some entry := by
  rw [getElem?_entries]
  by_cases hi : i < table.size <;> simp [hi]

/-- A table has as many entries as it is large, if it has a slot for each of them. -/
theorem length_entries_of_le (hfilled : table.size ≤ table.slots.size) :
    table.entries.length = table.size := by
  simp only [entries, Array.length_toList, Array.take_eq_extract, Array.size_extract]
  omega

/-- An entry that is added is the only new one. -/
theorem mem_entries_append {added entry : Entry} (h : entry ∈ (table.append added).entries) :
    entry = added ∨ entry ∈ table.entries := by
  rw [mem_entries_iff] at h ⊢
  obtain ⟨i, hi, hslot⟩ := h
  rw [size_append] at hi
  have hin {slots : Array Entry} (hexists : slots[i]? = some entry) : i < slots.size :=
    (Array.getElem?_eq_some_iff.mp hexists).1
  unfold append at hslot
  split at hslot
  · split at hslot
    · rw [Array.getElem?_setIfInBounds] at hslot
      grind
    · rw [Array.getElem?_push] at hslot
      grind
  · rw [Array.getElem?_push, Array.take_eq_extract, Array.getElem?_extract] at hslot
    grind

/-- A value that is set is the only new one. -/
theorem mem_values_set {id : KeyId} {key value cell : CellRef}
    (h : cell ∈ (table.set id key value).values) : cell = value ∨ cell ∈ table.values := by
  obtain ⟨entry, hentry, rfl⟩ := List.mem_map.mp h
  cases hindex : table.index[id]? with
  | some i =>
    rw [set_of_known hindex, mem_entries_iff] at hentry
    obtain ⟨j, hj, hslot⟩ := hentry
    rw [Array.getElem?_modify] at hslot
    split at hslot
    · obtain ⟨former, -, rfl⟩ := Option.map_eq_some_iff.mp hslot
      exact .inl rfl
    · exact .inr (List.mem_map_of_mem (mem_entries_iff.mpr ⟨j, hj, hslot⟩))
  | none =>
    rw [set_of_new hindex] at hentry
    rcases mem_entries_append hentry with rfl | hentry
    · exact .inl rfl
    · exact .inr (List.mem_map_of_mem (f := Entry.value) hentry)

namespace InOrder

theorem length_entries (h : InOrder idOf table) : table.entries.length = table.size :=
  length_entries_of_le h.size

/-- The keys of different entries are different. -/
theorem nodup_ids (h : InOrder idOf table) :
    (table.entries.map fun entry ↦ idOf entry.key).Nodup := by
  rw [List.nodup_iff_getElem?_ne_getElem?]
  intro i j hij hj hsame
  have hi : i < table.entries.length := by
    rw [List.length_map] at hj
    omega
  rw [List.length_map] at hj
  rw [List.getElem?_map, List.getElem?_map, List.getElem?_eq_getElem hi,
    List.getElem?_eq_getElem hj, Option.map_some, Option.map_some] at hsame
  obtain ⟨hfirst, hslot⟩ := getElem?_entries_eq_some_iff.mp (List.getElem?_eq_getElem hi)
  obtain ⟨hsecond, hslot'⟩ := getElem?_entries_eq_some_iff.mp (List.getElem?_eq_getElem hj)
  exact absurd (h.distinct hfirst hsecond hslot hslot' (Option.some.inj hsame)) (Nat.ne_of_lt hij)

theorem get?_eq_none_iff (h : InOrder idOf table) {id : KeyId} :
    table.get? id = none ↔ ∀ entry ∈ table.entries, idOf entry.key ≠ id := by
  rw [Option.eq_none_iff_forall_ne_some]
  constructor
  · rintro hnone entry hentry rfl
    exact hnone entry.value (h.get?_of_mem_entries hentry)
  · intro hnone cell hfound
    obtain ⟨entry, hentry, hid, -⟩ := h.mem_entries hfound
    exact hnone entry hentry hid

theorem mem_values (h : InOrder idOf table) {id : KeyId} {value : CellRef}
    (hvalue : table.get? id = some value) : value ∈ table.values := by
  obtain ⟨entry, hentry, -, rfl⟩ := h.mem_entries hvalue
  exact List.mem_map_of_mem hentry

/-- The entries of a table with a new key are those it had, and behind them the new one. -/
theorem entries_set_of_new (h : InOrder idOf table) {id : KeyId} (hnone : table.get? id = none)
    (key value : CellRef) :
    (table.set id key value).entries = table.entries ++ [⟨key, value⟩] := by
  have hnew := h.index_eq_none hnone
  have hcount : ((table.withPlace id).append ⟨key, value⟩).size = table.size + 1 :=
    size_append _ _
  refine List.ext_getElem? fun i ↦ ?_
  rw [getElem?_entries, set_of_new hnew, hcount]
  by_cases hlast : i < table.size
  · rw [if_pos (by omega), getElem?_withPlace_append h.size id _ (Nat.le_of_lt hlast),
      if_neg (Nat.ne_of_lt hlast), List.getElem?_append_left (by rwa [h.length_entries]),
      getElem?_entries, if_pos hlast]
  · rw [List.getElem?_append_right (by rw [h.length_entries]; omega), h.length_entries]
    by_cases hend : i = table.size
    · subst hend
      rw [if_pos (by omega), getElem?_withPlace_append h.size id _ (Nat.le_refl _), if_pos rfl,
        Nat.sub_self]
      rfl
    · rw [if_neg (by omega), List.getElem?_eq_none (by simp; omega)]

/-- The entries of a table after the value under one of its keys is replaced: that key keeps its
place, and the cell it was entered with. -/
theorem entries_set_of_mem (h : InOrder idOf table) {id : KeyId} (hfound : table.get? id ≠ none)
    (key value : CellRef) :
    (table.set id key value).entries =
      table.entries.map fun entry ↦ if idOf entry.key = id then { entry with value } else entry := by
  obtain ⟨cell, hcell⟩ := Option.ne_none_iff_exists'.mp hfound
  obtain ⟨i, former, hindex, hformer, -⟩ := Table.get?_eq_some_iff.mp hcell
  obtain ⟨hi, other, hother, hid⟩ := h.entered id i hindex
  refine List.ext_getElem? fun j ↦ ?_
  rw [getElem?_entries, set_of_known hindex, List.getElem?_map, getElem?_entries]
  dsimp only
  by_cases hj : j < table.size
  · rw [if_pos hj, if_pos hj, Array.getElem?_modify]
    cases hslot : table.slots[j]? with
    | none => simp
    | some entry =>
      by_cases hplace : i = j
      · subst hplace
        cases hother.symm.trans hslot
        simp [hid]
      · have hdifferent : idOf entry.key ≠ id := by
          rintro rfl
          exact hplace (Option.some.inj (hindex.symm.trans (h.indexed j entry hj hslot)))
        simp [hplace, hdifferent]
  · rw [if_neg hj, if_neg hj]
    rfl

/-- What removing a key answers is what the key led to. -/
theorem erase_snd (idOf : CellRef → KeyId) (table : Table) (id : KeyId) :
    (table.erase idOf id).2 = table.get? id := by
  unfold Table.erase get?
  cases hindex : table.index[id]? with
  | none => rfl
  | some i => rfl

/-- The entries of a table after a key is removed: the others, in the order they were in. -/
theorem entries_erase (h : InOrder idOf table) (id : KeyId) :
    (table.erase idOf id).1.entries = table.entries.filter fun entry ↦ idOf entry.key ≠ id := by
  cases hindex : table.index[id]? with
  | none =>
    have herased : (table.erase idOf id).1 = table := by
      unfold Table.erase
      rw [hindex]
    rw [herased, List.filter_eq_self.mpr]
    intro entry hentry
    obtain ⟨j, hj, hslot⟩ := mem_entries_iff.mp hentry
    refine decide_eq_true fun hsame ↦ ?_
    rw [← hsame, h.indexed j entry hj hslot] at hindex
    cases hindex
  | some i =>
    obtain ⟨hi, entry, hentry, hid⟩ := h.entered id i hindex
    have hplace : table.entries[i]? = some entry :=
      getElem?_entries_eq_some_iff.mpr ⟨hi, hentry⟩
    have herased : (table.erase idOf id).1.entries = table.entries.eraseIdx i := by
      refine List.ext_getElem? fun j ↦ ?_
      rw [getElem?_entries, (size_erase idOf hindex).1, List.getElem?_eraseIdx]
      by_cases hj : j < table.size - 1
      · rw [if_pos hj, h.getElem?_slots_erase hindex hj]
        by_cases hbefore : j < i
        · rw [if_pos hbefore, if_pos hbefore, getElem?_entries, if_pos (by omega)]
        · rw [if_neg hbefore, if_neg hbefore, getElem?_entries, if_pos (by omega)]
      · rw [if_neg hj, if_neg (by omega), getElem?_entries, if_neg (by omega)]
    obtain ⟨hbound, rfl⟩ := List.getElem?_eq_some_iff.mp hplace
    -- The keys are different, so the place and the key single out the same entry.
    have hentries := h.nodup_ids.of_map
    rw [herased, ← hentries.erase_getElem i hbound, hentries.erase_eq_filter]
    refine List.filter_congr fun other hmem ↦ ?_
    have hsame : idOf other.key = id ↔ other = table.entries[i] := by
      rw [← hid]
      exact ⟨List.inj_on_of_nodup_map h.nodup_ids hmem (List.getElem_mem hbound),
        fun heq ↦ heq ▸ rfl⟩
    simp [bne, hsame, beq_eq_decide]

/-- What keys lead to after one of them is removed. -/
theorem get?_erase_eq (h : InOrder idOf table) (id other : KeyId) :
    (table.erase idOf id).1.get? other = if other = id then none else table.get? other := by
  by_cases hsame : other = id
  · rw [if_pos hsame, (h.erase id).get?_eq_none_iff, h.entries_erase]
    intro entry hentry
    exact hsame ▸ of_decide_eq_true (List.mem_filter.mp hentry).2
  · rw [if_neg hsame, h.get?_erase hsame]

/-- Tables have the same keys exactly if they have the same size and the keys of the one are keys of
the other. -/
theorem same_keys_iff {other : Table} (h : InOrder idOf table) (h' : InOrder idOf other) :
    (∀ id, table.get? id = none ↔ other.get? id = none) ↔
      table.size = other.size ∧ ∀ entry ∈ table.entries, other.get? (idOf entry.key) ≠ none := by
  have hmem {some : Table} (h : InOrder idOf some) (id : KeyId) :
      id ∈ (some.entries.map fun entry ↦ idOf entry.key) ↔ some.get? id ≠ none := by
    rw [Ne, h.get?_eq_none_iff, List.mem_map]
    push Not
    rfl
  constructor
  · intro hsame
    have hperm := (List.perm_ext_iff_of_nodup h.nodup_ids h'.nodup_ids).mpr fun id ↦ by
      rw [hmem h, hmem h', Ne, Ne, hsame]
    have hlength := hperm.length_eq
    rw [List.length_map, List.length_map, h.length_entries, h'.length_entries] at hlength
    refine ⟨hlength, fun entry hentry hnone ↦ ?_⟩
    rw [← hsame, h.get?_of_mem_entries hentry] at hnone
    cases hnone
  · rintro ⟨hsize, hkeys⟩ id
    have hsubset : (table.entries.map fun entry ↦ idOf entry.key) ⊆
        other.entries.map fun entry ↦ idOf entry.key := by
      intro id hid
      obtain ⟨entry, hentry, rfl⟩ := List.mem_map.mp hid
      exact (hmem h' _).mpr (hkeys entry hentry)
    have hlength : (other.entries.map fun entry ↦ idOf entry.key).length ≤
        (table.entries.map fun entry ↦ idOf entry.key).length := by
      rw [List.length_map, List.length_map, h.length_entries, h'.length_entries]
      exact Nat.le_of_eq hsize.symm
    -- Different keys, and as many of them: none is left over on the other side.
    have hperm := (h.nodup_ids.subperm hsubset).perm_of_length_le hlength
    rw [← not_iff_not, ← Ne, ← Ne, ← hmem h, ← hmem h', hperm.mem_iff]

end InOrder

/-- The entries of a table with two keys. -/
theorem entries_set_set {key key' : CellRef} (hdifferent : idOf key ≠ idOf key')
    (value value' : CellRef) :
    ((({} : Table).set (idOf key) key value).set (idOf key') key' value').entries =
      [⟨key, value⟩, ⟨key', value'⟩] := by
  have hempty := inOrder_empty idOf
  have hnone : (({} : Table).set (idOf key) key value).get? (idOf key') = none := by
    rw [hempty.get?_set key value hdifferent.symm, get?_empty]
  rw [(hempty.set key value).entries_set_of_new hnone, hempty.entries_set_of_new (get?_empty _)]
  rfl

end Table

end TreeScript
