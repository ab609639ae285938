import TreeScript.Store.Table

/-!
# Tables in order

A table keeps its entries twice: in slots, in the order in which the keys were entered, and by an
index from what the keys are to the places of their entries. `Table.InOrder` says that the two
agree. A table that is in order stays so when a value is set (`InOrder.set`) and when a key is
removed (`InOrder.erase`), as long as all keys are told apart in the same way, and neither concerns
what other keys lead to (`InOrder.get?_set`, `InOrder.get?_erase`). What happens to the slots and to
the index is said by `getElem?_append`, `getElem?_shiftDown` and `InOrder.getElem?_index_erase`.
-/

set_option autoImplicit false

namespace TreeScript.Table

variable {table : Table} {idOf : CellRef → KeyId}

/-- The index leads from what the key of each entry is to the place of the entry, and nowhere
else. -/
structure InOrder (idOf : CellRef → KeyId) (table : Table) : Prop where
  size : table.size ≤ table.slots.size
  indexed : ∀ (i : Nat) (entry : Entry), i < table.size → table.slots[i]? = some entry →
    table.index[idOf entry.key]? = some i
  entered : ∀ (id : KeyId) (i : Nat), table.index[id]? = some i →
    i < table.size ∧ ∃ entry, table.slots[i]? = some entry ∧ idOf entry.key = id

/-- A table without entries is in order. -/
theorem inOrder_empty (idOf : CellRef → KeyId) : InOrder idOf {} where
  size := Nat.le_refl 0
  indexed i _ hi := absurd hi (Nat.not_lt_zero i)
  entered id i hindex := by simp at hindex

/-- No key leads anywhere in a table without entries. -/
theorem get?_empty (id : KeyId) : get? {} id = none := by
  simp [get?]

/-- The entries are what the slots in use hold. -/
theorem mem_entries_iff {entry : Entry} :
    entry ∈ table.entries ↔ ∃ i, i < table.size ∧ table.slots[i]? = some entry := by
  unfold entries
  rw [Array.mem_toList_iff, Array.mem_iff_getElem?]
  refine exists_congr fun i ↦ ?_
  rw [Array.take_eq_extract, Array.getElem?_extract, Nat.zero_add]
  constructor
  · intro h
    split at h
    · rename_i hi
      exact ⟨by omega, h⟩
    · cases h
  · rintro ⟨hi, hentry⟩
    have hroom := (Array.getElem?_eq_some_iff.mp hentry).1
    rw [if_pos (by omega)]
    exact hentry

/-- What a key leads to lies in the slot that the index names. -/
theorem get?_eq_some_iff {id : KeyId} {cell : CellRef} :
    table.get? id = some cell ↔
      ∃ i entry, table.index[id]? = some i ∧ table.slots[i]? = some entry ∧ entry.value = cell := by
  unfold get?
  simp only [Option.bind_eq_some_iff, Option.map_eq_some_iff]
  constructor
  · rintro ⟨i, hindex, entry, hentry, hvalue⟩
    exact ⟨i, entry, hindex, hentry, hvalue⟩
  · rintro ⟨i, entry, hindex, hentry, hvalue⟩
    exact ⟨i, hindex, entry, hentry, hvalue⟩

/-! ### Setting a value -/

/-- A table that is about to get an entry for a key. -/
def withPlace (table : Table) (id : KeyId) : Table :=
  { table with index := table.index.insert id table.size }

/-- A key that is not in the table is entered at the end. -/
theorem set_of_new {id : KeyId} (hnew : table.index[id]? = none) (key value : CellRef) :
    table.set id key value = (table.withPlace id).append ⟨key, value⟩ := by
  unfold set
  rw [hnew]
  rfl

/-- The value under a key that is in the table is replaced. -/
theorem set_of_known {id : KeyId} {i : Nat} (hindex : table.index[id]? = some i)
    (key value : CellRef) :
    table.set id key value =
      { table with slots := table.slots.modify i fun entry ↦ { entry with value } } := by
  unfold set
  rw [hindex]

theorem index_append (table : Table) (entry : Entry) : (table.append entry).index = table.index := by
  unfold append
  split
  · split <;> rfl
  · rfl

theorem size_append (table : Table) (entry : Entry) :
    (table.append entry).size = table.size + 1 := by
  unfold append
  split
  · split <;> rfl
  · rfl

/-- Assumes: slots for all entries. An added entry lies behind the others, which stay. -/
theorem getElem?_append (hsize : table.size ≤ table.slots.size) (entry : Entry) {i : Nat}
    (hi : i ≤ table.size) :
    (table.append entry).slots[i]? = if i = table.size then some entry else table.slots[i]? := by
  unfold append
  split
  · split
    · rename_i hroom
      dsimp only
      rw [Array.getElem?_setIfInBounds, if_pos hroom]
      by_cases hlast : i = table.size
      · rw [if_pos hlast, if_pos hlast.symm]
      · rw [if_neg hlast, if_neg (Ne.symm hlast)]
    · have hfull : table.slots.size = table.size := by omega
      dsimp only
      rw [Array.getElem?_push, hfull]
  · have htaken : (table.slots.take table.size).size = table.size := by
      rw [Array.take_eq_extract, Array.size_extract]
      omega
    dsimp only
    rw [Array.getElem?_push, htaken]
    by_cases hlast : i = table.size
    · rw [if_pos hlast, if_pos hlast]
    · rw [if_neg hlast, if_neg hlast, Array.take_eq_extract, Array.getElem?_extract, Nat.zero_add,
        if_pos (by omega)]

/-- Assumes: slots for all entries. There is one for the added entry, too. -/
theorem size_slots_append (hsize : table.size ≤ table.slots.size) (entry : Entry) :
    (table.append entry).size ≤ (table.append entry).slots.size := by
  have hlast := getElem?_append hsize entry (Nat.le_refl table.size)
  rw [if_pos rfl] at hlast
  have hroom := (Array.getElem?_eq_some_iff.mp hlast).1
  rw [size_append]
  exact hroom

/-- Assumes: slots for all entries. An entry for a new key lies behind the others, which stay. -/
theorem getElem?_withPlace_append (hsize : table.size ≤ table.slots.size) (id : KeyId)
    (entry : Entry) {i : Nat} (hi : i ≤ table.size) :
    ((table.withPlace id).append entry).slots[i]? =
      if i = table.size then some entry else table.slots[i]? := by
  have hplaced : (table.withPlace id).size ≤ (table.withPlace id).slots.size := hsize
  exact getElem?_append hplaced entry hi

/-- Assumes: slots for all entries and all places of the index. A key leads to the value that was
set under it last. -/
theorem get?_set_self (hsize : table.size ≤ table.slots.size)
    (hplaces : ∀ (id : KeyId) (i : Nat), table.index[id]? = some i → i < table.slots.size)
    (id : KeyId) (key value : CellRef) : (table.set id key value).get? id = some value := by
  unfold get?
  cases hindex : table.index[id]? with
  | some i =>
    rw [set_of_known hindex]
    dsimp only
    rw [hindex, Option.bind_some, Array.getElem?_modify, if_pos rfl,
      Array.getElem?_eq_getElem (hplaces id i hindex)]
    rfl
  | none =>
    have hindexed : (table.withPlace id).index[id]? = some table.size :=
      Std.HashMap.getElem?_insert_self
    rw [set_of_new hindex, index_append, hindexed, Option.bind_some,
      getElem?_withPlace_append hsize id _ (Nat.le_refl _), if_pos rfl]
    rfl

/-- Replacing a value leaves the keys where they are. -/
theorem key_modify_value (slots : Array Entry) (i : Nat) (value : CellRef) (j : Nat) :
    ((slots.modify i fun entry ↦ { entry with value })[j]?).map (·.key) =
      (slots[j]?).map (·.key) := by
  rw [Array.getElem?_modify]
  split
  · rw [Option.map_map]
    rfl
  · rfl

namespace InOrder

/-- What matters about the keys is how those of the entries are told apart. -/
theorem congr (h : InOrder idOf table) {idOf' : CellRef → KeyId}
    (hkeys : ∀ entry ∈ table.entries, idOf' entry.key = idOf entry.key) : InOrder idOf' table where
  size := h.size
  indexed i entry hi hentry := by
    rw [hkeys entry (mem_entries_iff.mpr ⟨i, hi, hentry⟩)]
    exact h.indexed i entry hi hentry
  entered id i hindex := by
    obtain ⟨hi, entry, hentry, hid⟩ := h.entered id i hindex
    refine ⟨hi, entry, hentry, ?_⟩
    rw [hkeys entry (mem_entries_iff.mpr ⟨i, hi, hentry⟩)]
    exact hid

/-- The keys of different entries are different. -/
theorem distinct (h : InOrder idOf table) {i j : Nat} {entry other : Entry} (hi : i < table.size)
    (hj : j < table.size) (hentry : table.slots[i]? = some entry)
    (hother : table.slots[j]? = some other) (hsame : idOf entry.key = idOf other.key) : i = j := by
  have hplace := h.indexed i entry hi hentry
  rw [hsame, h.indexed j other hj hother] at hplace
  exact (Option.some.inj hplace).symm

/-- Different keys have different places. -/
theorem place_ne (h : InOrder idOf table) {id other : KeyId} {i j : Nat}
    (hindex : table.index[id]? = some i) (hfound : table.index[other]? = some j)
    (hother : other ≠ id) : j ≠ i := by
  rintro rfl
  obtain ⟨-, entry, hentry, hid⟩ := h.entered id j hindex
  obtain ⟨-, entry', hentry', hid'⟩ := h.entered other j hfound
  cases hentry.symm.trans hentry'
  exact hother (hid'.symm.trans hid)

/-- What a key leads to is the value of an entry with that key. -/
theorem mem_entries (h : InOrder idOf table) {id : KeyId} {cell : CellRef}
    (hfound : table.get? id = some cell) :
    ∃ entry ∈ table.entries, idOf entry.key = id ∧ entry.value = cell := by
  obtain ⟨i, entry, hindex, hentry, hvalue⟩ := get?_eq_some_iff.mp hfound
  obtain ⟨hi, other, hother, hid⟩ := h.entered id i hindex
  cases hentry.symm.trans hother
  exact ⟨entry, mem_entries_iff.mpr ⟨i, hi, hentry⟩, hid, hvalue⟩

/-- In a table in order, a key that leads nowhere is not in the index. -/
theorem index_eq_none (h : InOrder idOf table) {id : KeyId} (hnone : table.get? id = none) :
    table.index[id]? = none := by
  cases hindex : table.index[id]? with
  | none => rfl
  | some i =>
    obtain ⟨-, entry, hentry, -⟩ := h.entered id i hindex
    rw [get?_eq_some_iff.mpr ⟨i, entry, hindex, hentry, rfl⟩] at hnone
    cases hnone

/-- A key that leads nowhere is a key of the table once a value is set under it. -/
theorem mem_keys_set (h : InOrder idOf table) {id : KeyId} (hnone : table.get? id = none)
    (key value : CellRef) : key ∈ (table.set id key value).keys := by
  have hnew := h.index_eq_none hnone
  have hcount : ((table.withPlace id).append ⟨key, value⟩).size = table.size + 1 := size_append _ _
  refine List.mem_map.mpr ⟨⟨key, value⟩, mem_entries_iff.mpr ⟨table.size, ?_, ?_⟩, rfl⟩
  · rw [set_of_new hnew, hcount]
    exact Nat.lt_succ_self _
  · rw [set_of_new hnew, getElem?_withPlace_append h.size id _ (Nat.le_refl _), if_pos rfl]

/-- An entry under a key is what the key leads to. -/
theorem get?_of_mem_entries (h : InOrder idOf table) {entry : Entry} (hentry : entry ∈ table.entries) :
    table.get? (idOf entry.key) = some entry.value := by
  obtain ⟨i, hi, hslot⟩ := mem_entries_iff.mp hentry
  exact get?_eq_some_iff.mpr ⟨i, entry, h.indexed i entry hi hslot, hslot, rfl⟩

/-- In a table in order, a key leads to the value that was set under it last. -/
theorem get?_set_self (h : InOrder idOf table) (id : KeyId) (key value : CellRef) :
    (table.set id key value).get? id = some value :=
  Table.get?_set_self h.size
    (fun other i hindex ↦ Nat.lt_of_lt_of_le (h.entered other i hindex).1 h.size) id key value

/-- Setting the value under a key does not concern the other keys. -/
theorem get?_set (h : InOrder idOf table) {id other : KeyId} (key value : CellRef)
    (hother : other ≠ id) : (table.set id key value).get? other = table.get? other := by
  unfold get?
  cases hindex : table.index[id]? with
  | some i =>
    rw [set_of_known hindex]
    cases hfound : table.index[other]? with
    | none => rfl
    | some j =>
      have hplaces := h.place_ne hindex hfound hother
      rw [Option.bind_some, Option.bind_some, Array.getElem?_modify, if_neg hplaces.symm]
  | none =>
    have hindexed : (table.withPlace id).index[other]? = table.index[other]? := by
      unfold withPlace
      rw [Std.HashMap.getElem?_insert, if_neg fun hsame ↦ hother (beq_iff_eq.mp hsame).symm]
    rw [set_of_new hindex, index_append, hindexed]
    cases hfound : table.index[other]? with
    | none => rfl
    | some j =>
      have hj : j < table.size := (h.entered other j hfound).1
      rw [Option.bind_some, Option.bind_some,
        getElem?_withPlace_append h.size id _ (Nat.le_of_lt hj), if_neg (Nat.ne_of_lt hj)]

/-- Replacing a value keeps a table in order. -/
theorem modify_value (h : InOrder idOf table) (i : Nat) (value : CellRef) :
    InOrder idOf
      { table with slots := table.slots.modify i fun entry ↦ { entry with value } } := by
  have hslot := key_modify_value table.slots i value
  refine ⟨?_, fun j entry hj hentry ↦ ?_, fun id j hfound ↦ ?_⟩
  · rw [Array.size_modify]
    exact h.size
  · have hkey := hslot j
    rw [hentry] at hkey
    obtain ⟨former, hformer, hsame⟩ := Option.map_eq_some_iff.mp hkey.symm
    have hplace := h.indexed j former hj hformer
    rw [hsame] at hplace
    exact hplace
  · obtain ⟨hj, former, hformer, hid⟩ := h.entered id j hfound
    have hkey := hslot j
    rw [hformer] at hkey
    obtain ⟨entry, hentry, hsame⟩ := Option.map_eq_some_iff.mp hkey
    exact ⟨hj, entry, hentry, hsame ▸ hid⟩

/-- Assumes: a key that is not in the table. Entering it keeps the table in order. -/
theorem append (h : InOrder idOf table) {key : CellRef} (value : CellRef)
    (hnew : table.index[idOf key]? = none) :
    InOrder idOf ((table.withPlace (idOf key)).append ⟨key, value⟩) := by
  have hsize : (table.withPlace (idOf key)).size ≤ (table.withPlace (idOf key)).slots.size := h.size
  have hplace (id : KeyId) : (table.withPlace (idOf key)).index[id]? =
      if (idOf key == id) = true then some table.size else table.index[id]? :=
    Std.HashMap.getElem?_insert
  have hcount : ((table.withPlace (idOf key)).append ⟨key, value⟩).size = table.size + 1 :=
    size_append _ _
  refine ⟨size_slots_append hsize _, fun j entry hj hentry ↦ ?_, fun id j hfound ↦ ?_⟩
  · rw [hcount] at hj
    rw [getElem?_withPlace_append h.size _ _ (Nat.le_of_lt_succ hj)] at hentry
    rw [index_append, hplace]
    split at hentry
    · rename_i hlast
      cases hentry
      rw [if_pos (beq_self_eq_true _), hlast]
    · rename_i hearlier
      have hformer := h.indexed j entry (by omega) hentry
      rw [if_neg, hformer]
      intro hsame
      rw [beq_iff_eq.mp hsame, hformer] at hnew
      cases hnew
  · rw [index_append, hplace] at hfound
    rw [hcount]
    split at hfound
    · rename_i hsame
      cases hfound
      refine ⟨Nat.lt_succ_self _, ⟨key, value⟩, ?_, beq_iff_eq.mp hsame⟩
      rw [getElem?_withPlace_append h.size _ _ (Nat.le_refl _), if_pos rfl]
    · obtain ⟨hj, entry, hentry, hid⟩ := h.entered id j hfound
      refine ⟨Nat.lt_succ_of_lt hj, entry, ?_, hid⟩
      rw [getElem?_withPlace_append h.size _ _ (Nat.le_of_lt hj), if_neg (Nat.ne_of_lt hj)]
      exact hentry

/-- Setting a value keeps a table in order. -/
theorem set (h : InOrder idOf table) (key value : CellRef) :
    InOrder idOf (table.set (idOf key) key value) := by
  cases hindex : table.index[idOf key]? with
  | some i =>
    rw [set_of_known hindex]
    exact h.modify_value i value
  | none =>
    rw [set_of_new hindex]
    exact h.append value hindex

/-- Setting a value under a key brings in no other key. -/
theorem key_of_set (h : InOrder idOf table) {id : KeyId} {key value : CellRef} {entry : Entry}
    (hentry : entry ∈ (table.set id key value).entries) :
    entry.key = key ∨ ∃ former ∈ table.entries, former.key = entry.key := by
  obtain ⟨j, hj, hslot⟩ := mem_entries_iff.mp hentry
  cases hindex : table.index[id]? with
  | some i =>
    rw [set_of_known hindex] at hj hslot
    have hkey := key_modify_value table.slots i value j
    rw [hslot] at hkey
    obtain ⟨former, hformer, hsame⟩ := Option.map_eq_some_iff.mp hkey.symm
    exact .inr ⟨former, mem_entries_iff.mpr ⟨j, hj, hformer⟩, hsame⟩
  | none =>
    have hcount : ((table.withPlace id).append ⟨key, value⟩).size = table.size + 1 :=
      size_append _ _
    rw [set_of_new hindex, hcount] at hj
    rw [set_of_new hindex, getElem?_withPlace_append h.size _ _ (Nat.le_of_lt_succ hj)] at hslot
    split at hslot
    · cases hslot
      exact .inl rfl
    · exact .inr ⟨entry, mem_entries_iff.mpr ⟨j, by omega, hslot⟩, rfl⟩

end InOrder

/-! ### Removing a key -/

theorem size_shiftDown (slots : Array Entry) (start count : Nat) :
    (shiftDown slots start count).size = slots.size := by
  unfold shiftDown
  induction List.range count generalizing slots with
  | nil => rfl
  | cons j js ih => rw [List.foldl_cons, ih, Array.size_setIfInBounds]

/-- Assumes: slots behind all places that are moved to. Entries move down by one place, and what
lies outside stays. -/
theorem getElem?_shiftDown {slots : Array Entry} {start count : Nat}
    (hplaces : start + count < slots.size) (i : Nat) :
    (shiftDown slots start count)[i]? =
      if start ≤ i ∧ i < start + count then slots[i + 1]? else slots[i]? := by
  unfold shiftDown
  induction count generalizing i with
  | zero => rw [List.range_zero, List.foldl_nil, if_neg (by omega)]
  | succ count ih =>
    have hbefore := ih (by omega)
    rw [List.range_succ, List.foldl_append, List.foldl_cons, List.foldl_nil]
    generalize (List.range count).foldl _ slots = moved at hbefore
    have hbehind : moved[start + count + 1]? = slots[start + count + 1]? := by
      rw [hbefore, if_neg (by omega)]
    have hroom : start + count < moved.size := by
      have hlast := hbefore (start + count)
      rw [if_neg (by omega), Array.getElem?_eq_getElem (by omega : start + count < slots.size)]
        at hlast
      exact (Array.getElem?_eq_some_iff.mp hlast).1
    rw [Array.getElem?_setIfInBounds, if_pos hroom, hbehind]
    by_cases hlast : start + count = i
    · subst hlast
      rw [if_pos rfl, if_pos (by omega),
        Array.getElem?_eq_getElem (by omega : start + count + 1 < slots.size), Option.getD_some]
    · rw [if_neg hlast, hbefore i]
      by_cases hinside : start ≤ i ∧ i < start + count
      · rw [if_pos hinside, if_pos (by omega)]
      · rw [if_neg hinside, if_neg (by omega)]

/-- A key that none of the entries from `start` on has keeps its place in the index. -/
theorem getElem?_reindex_of_absent {index : Std.HashMap KeyId Nat} {slots : Array Entry}
    {start stop : Nat} {id : KeyId}
    (habsent : ∀ (j : Nat) (entry : Entry), start ≤ j → j < stop → slots[j]? = some entry →
      idOf entry.key ≠ id) :
    (reindex index idOf slots start stop)[id]? = index[id]? := by
  have hrange : ∀ j ∈ List.range (stop - start), ∀ entry, slots[start + j]? = some entry →
      idOf entry.key ≠ id := by
    intro j hj entry hentry
    have hcount := List.mem_range.mp hj
    exact habsent (start + j) entry (by omega) (by omega) hentry
  unfold reindex
  clear habsent
  generalize List.range (stop - start) = places at hrange
  induction places generalizing index with
  | nil => rfl
  | cons j places ih =>
    rw [List.foldl_cons, ih fun k hk ↦ hrange k (List.mem_cons_of_mem _ hk)]
    split
    · rename_i entry hentry
      have hother := hrange j (List.mem_cons_self ..) entry hentry
      rw [Std.HashMap.getElem?_insert, if_neg fun hsame ↦ hother (beq_iff_eq.mp hsame)]
    · rfl

/-- Assumes: one place among the entries from `start` on, and only one, whose key is a given one.
The key is entered with that place. -/
theorem getElem?_reindex_of_unique {index : Std.HashMap KeyId Nat} {slots : Array Entry}
    {start stop place : Nat} {id : KeyId} {entry : Entry} (hstart : start ≤ place)
    (hstop : place < stop) (hentry : slots[place]? = some entry) (hid : idOf entry.key = id)
    (hunique : ∀ (j : Nat) (other : Entry), start ≤ j → j < stop → slots[j]? = some other →
      idOf other.key = id → j = place) :
    (reindex index idOf slots start stop)[id]? = some place := by
  have hcount : stop - start = (place - start) + 1 + (stop - place - 1) := by omega
  have hplace : start + (place - start) = place := by omega
  unfold reindex
  rw [hcount, List.range_add, List.foldl_append, List.range_succ, List.foldl_append,
    List.foldl_cons, List.foldl_nil, hplace, hentry]
  generalize hindex : (List.range (place - start)).foldl _ index = before
  dsimp only
  have hrange : ∀ j ∈ (List.range (stop - place - 1)).map (place - start + 1 + ·), ∀ other,
      slots[start + j]? = some other → idOf other.key ≠ id := by
    intro j hj other hother hsame
    obtain ⟨k, hk, rfl⟩ := List.mem_map.mp hj
    have hless := List.mem_range.mp hk
    have hsecond := hunique _ other (by omega) (by omega) hother hsame
    omega
  generalize hplaces : (List.range (stop - place - 1)).map (place - start + 1 + ·) = places
    at hrange
  have hbefore : (before.insert (idOf entry.key) place)[id]? = some place := by
    rw [← hid]
    exact Std.HashMap.getElem?_insert_self
  clear hplaces hindex
  generalize before.insert (idOf entry.key) place = current at hbefore
  induction places generalizing current with
  | nil => exact hbefore
  | cons j places ih =>
    rw [List.foldl_cons]
    refine ih (fun k hk ↦ hrange k (List.mem_cons_of_mem _ hk)) _ ?_
    split
    · rename_i other hother
      have hdifferent := hrange j (List.mem_cons_self ..) other hother
      rw [Std.HashMap.getElem?_insert, if_neg fun hsame ↦ hdifferent (beq_iff_eq.mp hsame)]
      exact hbefore
    · exact hbefore

/-- The place of an entry after the one at `i` has been removed. -/
def movedPlace (i place : Nat) : Nat := if place < i then place else place - 1

namespace InOrder

/-- Assumes: a key with an entry. When it is removed, the entries in front of it stay, and those
behind it move down. -/
theorem getElem?_slots_erase (h : InOrder idOf table) {id : KeyId} {i : Nat}
    (hindex : table.index[id]? = some i) {j : Nat} (hj : j < table.size - 1) :
    (table.erase idOf id).1.slots[j]? = table.slots[if j < i then j else j + 1]? := by
  have hi := (h.entered id i hindex).1
  have hsize := h.size
  unfold erase
  rw [hindex]
  dsimp only
  rw [getElem?_shiftDown (by omega)]
  by_cases hbefore : j < i
  · rw [if_neg (by omega), if_pos hbefore]
  · rw [if_pos (by omega), if_neg hbefore]

theorem size_erase (idOf : CellRef → KeyId) {id : KeyId} {i : Nat} (hindex : table.index[id]? = some i) :
    (table.erase idOf id).1.size = table.size - 1 ∧
      (table.erase idOf id).1.slots.size = table.slots.size := by
  unfold erase
  rw [hindex]
  exact ⟨rfl, size_shiftDown _ _ _⟩

/-- Assumes: a key with an entry. When it is removed, the index forgets it, and leads to where the
other entries have moved. -/
theorem getElem?_index_erase (h : InOrder idOf table) {id : KeyId} {i : Nat}
    (hindex : table.index[id]? = some i) (other : KeyId) :
    (table.erase idOf id).1.index[other]? =
      if other = id then none else (table.index[other]?).map (movedPlace i) := by
  have hi := (h.entered id i hindex).1
  have hslots (j : Nat) (hstart : i ≤ j) (hstop : j < table.size - 1) :
      (table.erase idOf id).1.slots[j]? = table.slots[j + 1]? := by
    rw [h.getElem?_slots_erase hindex hstop, if_neg (by omega)]
  have herased : (table.erase idOf id).1.index = reindex (table.index.erase id) idOf
      (table.erase idOf id).1.slots i (table.size - 1) := by
    unfold erase
    rw [hindex]
  rw [herased]
  -- The place of a key among the entries that have moved, read off the former index.
  have hformer (j : Nat) (entry : Entry) (hstart : i ≤ j) (hstop : j < table.size - 1)
      (hentry : (table.erase idOf id).1.slots[j]? = some entry) :
      table.index[idOf entry.key]? = some (j + 1) := by
    rw [hslots j hstart hstop] at hentry
    exact h.indexed (j + 1) entry (by omega) hentry
  by_cases hsame : other = id
  · subst hsame
    rw [if_pos rfl, getElem?_reindex_of_absent, Std.HashMap.getElem?_erase_self]
    intro j entry hstart hstop hentry hother
    have hplace := hformer j entry hstart hstop hentry
    rw [hother, hindex] at hplace
    cases hplace
    omega
  · have hkept : (table.index.erase id)[other]? = table.index[other]? := by
      rw [Std.HashMap.getElem?_erase, if_neg fun h ↦ hsame (beq_iff_eq.mp h).symm]
    rw [if_neg hsame]
    cases hplace : table.index[other]? with
    | none =>
      rw [getElem?_reindex_of_absent, hkept, hplace]
      · rfl
      · intro j entry hstart hstop hentry hother
        have hmoved := hformer j entry hstart hstop hentry
        rw [hother, hplace] at hmoved
        cases hmoved
    | some p =>
      obtain ⟨hp, entry, hentry, hother⟩ := h.entered other p hplace
      have hdifferent := h.place_ne hindex hplace hsame
      rw [Option.map_some, movedPlace]
      by_cases hbefore : p < i
      · rw [if_pos hbefore, getElem?_reindex_of_absent, hkept, hplace]
        intro j moved hstart hstop hmoved hsecond
        have hagain := hformer j moved hstart hstop hmoved
        rw [hsecond, hplace] at hagain
        cases hagain
        omega
      · have hback : p - 1 + 1 = p := by omega
        rw [if_neg hbefore]
        have hmoved : (table.erase idOf id).1.slots[p - 1]? = some entry := by
          rw [hslots (p - 1) (by omega) (by omega), hback]
          exact hentry
        refine getElem?_reindex_of_unique (by omega) (by omega) hmoved hother ?_
        intro j moved hstart hstop hmoved hsecond
        have hagain := hformer j moved hstart hstop hmoved
        rw [hsecond, hplace] at hagain
        cases hagain
        omega

/-- Removing a key brings in no entry. -/
theorem mem_of_mem_erase (h : InOrder idOf table) {id : KeyId} {entry : Entry}
    (hentry : entry ∈ (table.erase idOf id).1.entries) : entry ∈ table.entries := by
  cases hindex : table.index[id]? with
  | none =>
    unfold Table.erase at hentry
    rwa [hindex] at hentry
  | some i =>
    obtain ⟨j, hj, hslot⟩ := mem_entries_iff.mp hentry
    rw [(size_erase idOf hindex).1] at hj
    rw [h.getElem?_slots_erase hindex hj] at hslot
    exact mem_entries_iff.mpr ⟨_, by split <;> omega, hslot⟩

/-- Removing a key does not concern the other keys. -/
theorem get?_erase (h : InOrder idOf table) {id other : KeyId} (hother : other ≠ id) :
    (table.erase idOf id).1.get? other = table.get? other := by
  cases hindex : table.index[id]? with
  | none =>
    unfold erase
    rw [hindex]
  | some i =>
    unfold get?
    rw [h.getElem?_index_erase hindex, if_neg hother]
    cases hplace : table.index[other]? with
    | none => rfl
    | some p =>
      have hi := (h.entered id i hindex).1
      have hp := (h.entered other p hplace).1
      have hdifferent := h.place_ne hindex hplace hother
      rw [Option.map_some, Option.bind_some, Option.bind_some, movedPlace]
      by_cases hbefore : p < i
      · rw [if_pos hbefore, h.getElem?_slots_erase hindex (by omega), if_pos hbefore]
      · rw [if_neg hbefore, h.getElem?_slots_erase hindex (by omega), if_neg (by omega)]
        congr 2
        omega

/-- Removing a key keeps a table in order. -/
theorem erase (h : InOrder idOf table) (id : KeyId) : InOrder idOf (table.erase idOf id).1 := by
  cases hindex : table.index[id]? with
  | none =>
    unfold Table.erase
    rw [hindex]
    exact h
  | some i =>
    have hi := (h.entered id i hindex).1
    have hsize := h.size
    obtain ⟨hcount, hroom⟩ := size_erase idOf hindex
    have hslots {j : Nat} (hj : j < table.size - 1) := h.getElem?_slots_erase hindex hj
    have hplace := h.getElem?_index_erase hindex
    refine ⟨?_, fun j entry hj hentry ↦ ?_, fun other j hfound ↦ ?_⟩
    · rw [hcount, hroom]
      omega
    · rw [hcount] at hj
      rw [hslots hj] at hentry
      have hformer := h.indexed _ entry (by split <;> omega) hentry
      have hdifferent : idOf entry.key ≠ id := by
        intro hsame
        rw [hsame, hindex] at hformer
        have hi := Option.some.inj hformer
        split at hi <;> omega
      rw [hplace, if_neg hdifferent, hformer, Option.map_some, movedPlace]
      by_cases hbefore : j < i
      · rw [if_pos hbefore, if_pos hbefore]
      · rw [if_neg hbefore, if_neg (by omega)]
        rfl
    · rw [hplace] at hfound
      by_cases hsame : other = id
      · rw [if_pos hsame] at hfound
        cases hfound
      · rw [if_neg hsame] at hfound
        obtain ⟨p, hformer, rfl⟩ := Option.map_eq_some_iff.mp hfound
        obtain ⟨hp, entry, hentry, hother⟩ := h.entered other p hformer
        have hdifferent := h.place_ne hindex hformer hsame
        rw [hcount]
        unfold movedPlace
        by_cases hbefore : p < i
        · rw [if_pos hbefore]
          refine ⟨by omega, entry, ?_, hother⟩
          rw [hslots (by omega), if_pos hbefore]
          exact hentry
        · have hback : p - 1 + 1 = p := by omega
          rw [if_neg hbefore]
          refine ⟨by omega, entry, ?_, hother⟩
          rw [hslots (by omega), if_neg (by omega), hback]
          exact hentry

end InOrder

end TreeScript.Table
