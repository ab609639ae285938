import Mathlib.Data.List.Induction
import TreeScript.Proofs.Objects.Construction
import TreeScript.Proofs.Rendering.ArrayOrder

/-!
# Joining values

The operator `::` makes a new object of two values and leaves what there is alone. The values of an
array come behind those of another one, a plain value comes behind those of an object or before
those of an array, and of two other objects the keys of the second one win. A plain value that is
put before an object which is no array takes the key 0, before the entries of the object are merged
in: if the object has the key 0 itself, the plain value is not in what comes out
(`joined_values_stay_but_for_key_zero`, `value_before_key_zero_gets_lost`).
-/

set_option autoImplicit false

namespace TreeScript

namespace Machine

variable {m n : Machine} {ref source : TableRef}

/-! ### What an object has -/

theorem Orderly.mem_keyIds_iff (h : m.Orderly ref) {id : KeyId} :
    id ∈ m.keyIds ref ↔ (m.table ref).get? id ≠ none := by
  rw [Ne, h.inOrder.get?_eq_none_iff, keyIds, Table.keys, List.map_map, List.mem_map]
  push Not
  rfl

/-- The values of an object are what its keys lead to. -/
theorem Orderly.mem_values_iff (h : m.Orderly ref) {value : CellRef} :
    value ∈ (m.table ref).values ↔ ∃ id, (m.table ref).get? id = some value := by
  constructor
  · intro hvalue
    obtain ⟨entry, hentry, rfl⟩ := List.mem_map.mp hvalue
    exact ⟨_, h.inOrder.get?_of_mem_entries hentry⟩
  · rintro ⟨id, hfound⟩
    exact h.inOrder.mem_values hfound

/-- An object has as many entries as there are keys that lead to something. -/
theorem Orderly.size_eq (h : m.Orderly ref) {ids : List KeyId} (hdistinct : ids.Nodup)
    (hids : ∀ id, id ∈ ids ↔ (m.table ref).get? id ≠ none) :
    (m.table ref).size = ids.length := by
  rw [← h.length_keyIds]
  refine ((List.perm_ext_iff_of_nodup h.nodup_keyIds hdistinct).mpr fun id ↦ ?_).length_eq
  rw [h.mem_keyIds_iff, hids]

theorem Orderly.length_values (h : m.Orderly ref) :
    (m.table ref).values.length = (m.table ref).size := by
  rw [Table.values, List.length_map, h.inOrder.length_entries]

/-! ### Pushing -/

/-- What has become of an object in order that is not an old one. -/
structure BuiltFrom (m : Machine) (ref : TableRef) (n : Machine) : Prop where
  grown : m.Grown n
  fresh : m.tables.size ≤ ref.index
  orderly : n.Orderly ref

/-- A value that is pushed is under the next number, and behind the others. -/
theorem BuiltFrom.push (h : m.BuiltFrom ref n) (value : CellRef) :
    ∃ k, pushEntry ref value n = .ok () k ∧ m.BuiltFrom ref k ∧
      (k.table ref).values = (n.table ref).values ++ [value] ∧
      ∀ id, (k.table ref).get? id =
        if id = .number (n.highestKey ref + Decimal.ofInt 1) then some value
        else (n.table ref).get? id := by
  have hdifferent : (Content.number (n.highestKey ref + Decimal.ofInt 1)).keyId ∉
      ((n.table ref).keys.map n.content).map Content.keyId := by
    rw [List.map_map]
    exact n.nextKey_not_mem ref
  obtain ⟨horderly, -, -, hvalues⟩ := h.orderly.withEntry value hdifferent
  refine ⟨_, rfl, ⟨?_, h.fresh, horderly⟩, hvalues, fun id ↦ ?_⟩
  · exact (h.grown.trans (grown_withCell n _)).enter h.fresh _ _
  · have hlabel := content_new n (.number (n.highestKey ref + Decimal.ofInt 1))
    have hfound := (h.orderly.withCell
      (.number (n.highestKey ref + Decimal.ofInt 1))).get?_enter ⟨n.cells.size⟩ value id
    rw [keyId, hlabel] at hfound
    exact hfound

/-- Values that are pushed one by one come behind the others. -/
theorem BuiltFrom.pushAll (h : m.BuiltFrom ref n) (values : List CellRef) :
    ∃ k, (forIn values PUnit.unit fun value _ ↦ do
        pushEntry ref value
        return .yield PUnit.unit : Run PUnit) n = .ok ⟨⟩ k ∧ m.BuiltFrom ref k ∧
      (k.table ref).values = (n.table ref).values ++ values := by
  induction values generalizing n with
  | nil => exact ⟨n, rfl, h, (List.append_nil _).symm⟩
  | cons value values ih =>
    obtain ⟨k, hpushed, hk, hvalues, -⟩ := h.push value
    obtain ⟨last, hloop, hlast, hvalues'⟩ := ih hk
    refine ⟨last, ?_, hlast, ?_⟩
    · rw [List.forIn_cons, bind_assoc, Run.bind_ok hpushed]
      exact hloop
    · rw [hvalues', hvalues, List.append_assoc]
      rfl

/-! ### Merging -/

/-- What was entered last under each key is there, and under the other keys what was there. -/
theorem BuiltFrom.afterWrites (h : m.BuiltFrom ref n) {writes : List Write}
    (hkeys : ∀ write ∈ writes, write.key.index < n.cells.size ∧ n.keyId write.key = write.id) :
    m.BuiltFrom ref (n.afterWrites ref writes) ∧
      ∀ id, ((n.afterWrites ref writes).table ref).get? id =
        ((lastWrite? writes id).map Write.value).or ((n.table ref).get? id) := by
  induction writes using List.reverseRecOn with
  | nil => exact ⟨h, fun id ↦ rfl⟩
  | append_singleton writes write ih =>
    obtain ⟨hearlier, hwrite⟩ := List.forall_mem_append.mp hkeys
    obtain ⟨hbound, hid⟩ := List.forall_mem_singleton.mp hwrite
    obtain ⟨hbuilt, hfound⟩ := ih hearlier
    have hcells := n.cells_afterWrites ref writes
    have hkey : (n.afterWrites ref writes).keyId write.key = write.id := by
      rw [keyId, content_afterWrites]
      exact hid
    have hlast : n.afterWrites ref (writes ++ [write]) =
        (n.afterWrites ref writes).after (.enter ref write.key write.value) :=
      List.foldl_append
    rw [hlast]
    refine ⟨⟨hbuilt.grown.enter hbuilt.fresh _ _, hbuilt.fresh,
      hbuilt.orderly.after fun _ ↦ hcells ▸ hbound⟩, fun id ↦ ?_⟩
    rw [hbuilt.orderly.get?_enter, hkey, lastWrite?_append, hfound]
    by_cases hsame : id = write.id
    · rw [if_pos hsame, if_pos hsame.symm]
      rfl
    · rw [if_neg hsame, if_neg (Ne.symm hsame)]

/-- The last of the entries of an object under a key is the one that the key leads to. -/
theorem Orderly.lastWrite?_writesOf (h : m.Orderly source) (id : KeyId) :
    (lastWrite? (m.writesOf source) id).map Write.value = (m.table source).get? id := by
  cases hlast : lastWrite? (m.writesOf source) id with
  | none =>
    refine ((h.inOrder.get?_eq_none_iff).mpr fun entry hentry hid ↦ ?_).symm
    have hnone := List.find?_eq_none.mp hlast ⟨m.keyId entry.key, entry.key, entry.value,
      m.content entry.value⟩ (List.mem_reverse.mpr (List.mem_map_of_mem hentry))
    exact hnone (beq_iff_eq.mpr hid)
  | some write =>
    obtain ⟨hmem, rfl⟩ := lastWrite?_eq_some hlast
    obtain ⟨entry, hentry, rfl⟩ := List.mem_map.mp hmem
    exact (h.inOrder.get?_of_mem_entries hentry).symm

/-- Assumes: an old object in order. Merged into one that is not old, it wins under its keys. -/
theorem BuiltFrom.mergeInto (h : m.BuiltFrom ref n) (hsource : m.Orderly source) :
    ∃ k, mergeInto ref source n = .ok () k ∧ m.BuiltFrom ref k ∧
      ∀ id, (k.table ref).get? id = ((m.table source).get? id).or ((n.table ref).get? id) := by
  have hlater : n.Orderly source := h.grown.orderly hsource
  have hkeys : ∀ write ∈ n.writesOf source,
      write.key.index < n.cells.size ∧ n.keyId write.key = write.id := by
    intro write hwrite
    obtain ⟨entry, hentry, rfl⟩ := List.mem_map.mp hwrite
    exact ⟨hlater.keys entry hentry, rfl⟩
  obtain ⟨hbuilt, hfound⟩ := h.afterWrites hkeys
  refine ⟨_, mergeInto_eq_ok ref source n, hbuilt, fun id ↦ ?_⟩
  rw [hfound, hlater.lastWrite?_writesOf, h.grown.table source hsource.table]

/-! ### New objects -/

theorem builtFrom_newTable (m : Machine) : m.BuiltFrom ⟨m.tables.size⟩ m.withTable :=
  ⟨m.grown_withTable, Nat.le_refl _, m.orderly_newTable⟩

theorem get?_newTable (m : Machine) (id : KeyId) :
    (m.withTable.table ⟨m.tables.size⟩).get? id = none := by
  rw [table_new]
  exact Table.get?_empty id

/-- Assumes: an object in order. A clone of it has its entries, and the next number is the same. -/
theorem Orderly.clone (h : m.Orderly source) :
    ∃ n, cloneTable source m = .ok ⟨m.tables.size⟩ n ∧ m.BuiltFrom ⟨m.tables.size⟩ n ∧
      (n.table ⟨m.tables.size⟩).values = (m.table source).values ∧
      (∀ id, (n.table ⟨m.tables.size⟩).get? id = (m.table source).get? id) ∧
      n.highestKey ⟨m.tables.size⟩ = m.highestKey source := by
  obtain ⟨n, hmerged, hbuilt, hfound⟩ := m.builtFrom_newTable.mergeInto h
  have hcreated : newTable m = .ok ⟨m.tables.size⟩ m.withTable := rfl
  have hcloned : cloneTable source m = .ok ⟨m.tables.size⟩ n := by
    unfold cloneTable
    rw [Run.bind_ok hcreated, Run.bind_ok hmerged]
    rfl
  have hleads (id : KeyId) :
      (n.table ⟨m.tables.size⟩).get? id = (m.table source).get? id := by
    rw [hfound, get?_newTable, Option.or_none]
  obtain ⟨n', hcloned', -, hentries, -⟩ := cloneTable_entries h
  cases hcloned.symm.trans hcloned'
  refine ⟨n, hcloned, hbuilt, congrArg (List.map Entry.value) hentries, hleads, ?_⟩
  rw [highestKey_eq, highestKey_eq]
  refine Decimal.highest_congr fun d ↦ ?_
  rw [← number_mem_keyIds_iff, ← number_mem_keyIds_iff, hbuilt.orderly.mem_keyIds_iff,
    h.mem_keyIds_iff, hleads]

end Machine

/-! ### The operator -/

/-- A table has one entry more than another one, for some value. -/
structure Table.AddsTo (former : Table) (value : CellRef) (made : Table) : Prop where
  size : made.size = former.size + 1
  added : value ∈ made.values
  kept : ∀ other ∈ former.values, other ∈ made.values

namespace Machine

variable {m n : Machine} {ref new : TableRef} {id : KeyId} {value : CellRef}

/-- A table with a value under a key that is new has one entry more. -/
theorem Orderly.addsTo (h : m.Orderly ref) (hmade : n.Orderly new)
    (hnew : (m.table ref).get? id = none)
    (hfound : ∀ other, (n.table new).get? other =
      if other = id then some value else (m.table ref).get? other) :
    (m.table ref).AddsTo value (n.table new) := by
  refine ⟨?_, hmade.mem_values_iff.mpr ⟨id, (hfound id).trans (if_pos rfl)⟩, fun other hother ↦ ?_⟩
  · have hdistinct : (id :: m.keyIds ref).Nodup :=
      List.nodup_cons.mpr ⟨fun hmem ↦ h.mem_keyIds_iff.mp hmem hnew, h.nodup_keyIds⟩
    rw [hmade.size_eq hdistinct fun other ↦ ?_, List.length_cons, h.length_keyIds]
    rw [List.mem_cons, h.mem_keyIds_iff, hfound]
    by_cases hother : other = id <;> simp [hother]
  · obtain ⟨former, hformer⟩ := h.mem_values_iff.mp hother
    refine hmade.mem_values_iff.mpr ⟨former, ?_⟩
    rw [hfound, if_neg, hformer]
    rintro rfl
    cases hnew.symm.trans hformer

/-- A table in which the same keys lead to the same values has as many entries, and these values. -/
theorem Orderly.same (h : m.Orderly ref) (hmade : n.Orderly new)
    (hfound : ∀ id, (n.table new).get? id = (m.table ref).get? id) :
    (n.table new).size = (m.table ref).size ∧
      ∀ value, value ∈ (n.table new).values ↔ value ∈ (m.table ref).values := by
  constructor
  · rw [hmade.size_eq h.nodup_keyIds fun id ↦ ?_, h.length_keyIds]
    rw [h.mem_keyIds_iff, hfound]
  · intro value
    rw [hmade.mem_values_iff, h.mem_values_iff]
    simp only [hfound]

end Machine

namespace Operator

/-- The operator `::` makes a new object of two values, on a machine that is only added to, and
something holds of the table of that object. -/
def Joins (call : Call) (left right : CellRef) (m : Machine) (Made : Table → Prop) : Prop :=
  ∃ out n ref, standard.evaluate call "::" .infixOp [left, right] m = .ok out n ∧
    n.content out = .object ref ∧ m.BuiltFrom ref n ∧ Made (n.table ref)

variable {call : Call} {m n : Machine} {left right object plain : CellRef}
  {ref source target : TableRef} {Made : Table → Prop}

theorem joins_of_newObject (hfuel : call.fuel ≠ 0)
    (hjoined : appendValues left right m = newObject ref n) (hbuilt : m.BuiltFrom ref n)
    (hmade : Made (n.table ref)) : Joins call left right m Made := by
  refine ⟨⟨n.cells.size⟩, n.withCell (.object ref), ref, ?_, n.content_new _,
    ⟨hbuilt.grown.trans (n.grown_withCell _), hbuilt.fresh, hbuilt.orderly.withCell _⟩, hmade⟩
  rw [evaluate_joins hfuel, hjoined]
  rfl

/-- Assumes: an object in order, and a plain value. The value is joined behind it, under the next
number. -/
theorem joins_behind (hfuel : call.fuel ≠ 0) (hobject : m.content object = .object ref)
    (horderly : m.Orderly ref) (hplain : m.tableOf? plain = none) :
    Joins call object plain m fun made ↦ (m.table ref).AddsTo plain made ∧
      ∀ id, made.get? id = if id = .number (m.highestKey ref + Decimal.ofInt 1) then some plain
        else (m.table ref).get? id := by
  obtain ⟨n, hcloned, hclone, -, hleads, hnext⟩ := horderly.clone
  obtain ⟨k, hpushed, hbuilt, -, hfound⟩ := hclone.push plain
  simp only [hnext, hleads] at hfound
  have hnew : (m.table ref).get? (.number (m.highestKey ref + Decimal.ofInt 1)) = none :=
    not_not.mp fun hknown ↦ m.nextKey_not_mem ref (horderly.mem_keyIds_iff.mpr hknown)
  refine joins_of_newObject hfuel ?_ hbuilt ⟨horderly.addsTo hbuilt.orderly hnew hfound, hfound⟩
  unfold appendValues
  rw [Run.get_bind, Machine.tableOf?_eq_some_iff.mpr hobject, hplain]
  dsimp only
  rw [Run.bind_ok hcloned, Run.bind_ok hpushed]

/-- Assumes: an array in order, and a plain value. The value is joined before the items. -/
theorem joins_before_array (hfuel : call.fuel ≠ 0) (hobject : m.content object = .object ref)
    (horderly : m.Orderly ref) (hplain : m.tableOf? plain = none) (harray : m.isArray ref = true) :
    Joins call plain object m fun made ↦ (m.table ref).AddsTo plain made ∧
      made.values = plain :: (m.table ref).values := by
  obtain ⟨n, hmade, hgrown, hnew, -, hvalues, -⟩ :=
    Machine.newArray_entries (plain :: (m.table ref).values) m
  have hbuilt : m.BuiltFrom ⟨m.tables.size⟩ n := ⟨hgrown, Nat.le_refl _, hnew⟩
  refine joins_of_newObject hfuel ?_ hbuilt ⟨⟨?_, ?_, fun value hvalue ↦ ?_⟩, hvalues⟩
  · unfold appendValues
    rw [Run.get_bind, hplain, Machine.tableOf?_eq_some_iff.mpr hobject]
    dsimp only
    rw [if_pos harray, hmade]
    rfl
  · rw [← hnew.length_values, hvalues, List.length_cons, horderly.length_values]
  · rw [hvalues]
    exact List.mem_cons_self ..
  · rw [hvalues]
    exact List.mem_cons_of_mem _ hvalue

/-- Assumes: an object in order that is no array, and a plain value. The value is put under the key
0, and then the entries of the object under theirs. -/
theorem joins_before_object (hfuel : call.fuel ≠ 0) (hobject : m.content object = .object ref)
    (horderly : m.Orderly ref) (hplain : m.tableOf? plain = none)
    (harray : m.isArray ref = false) :
    Joins call plain object m fun made ↦
      ((m.table ref).get? (.number (Decimal.ofInt 0)) = none → (m.table ref).AddsTo plain made ∧
        ∀ id, made.get? id = if id = .number (Decimal.ofInt 0) then some plain
          else (m.table ref).get? id) ∧
      ((m.table ref).get? (.number (Decimal.ofInt 0)) ≠ none →
        (∀ id, made.get? id = (m.table ref).get? id) ∧ made.size = (m.table ref).size ∧
          ∀ value, value ∈ made.values ↔ value ∈ (m.table ref).values) := by
  have hcreated : newTable m = .ok ⟨m.tables.size⟩ m.withTable := rfl
  obtain ⟨n, hpushed, hfirst, -, hleads⟩ := m.builtFrom_newTable.push plain
  obtain ⟨k, hmerged, hbuilt, hfound⟩ := hfirst.mergeInto horderly
  have hzero : m.withTable.highestKey ⟨m.tables.size⟩ + Decimal.ofInt 1 = Decimal.ofInt 0 := by
    unfold Machine.highestKey Table.keys Table.entries
    rw [Machine.table_new]
    rfl
  simp only [hleads, hzero, Machine.get?_newTable] at hfound
  refine joins_of_newObject hfuel ?_ hbuilt ⟨fun hnone ↦ ?_, fun hpresent ↦ ?_⟩
  · unfold appendValues
    rw [Run.get_bind, hplain, Machine.tableOf?_eq_some_iff.mpr hobject]
    dsimp only
    rw [harray, if_neg Bool.false_ne_true, Run.bind_ok hcreated, Run.bind_ok hpushed,
      Run.bind_ok hmerged]
  · have hadded (id : KeyId) : (k.table ⟨m.tables.size⟩).get? id =
        if id = .number (Decimal.ofInt 0) then some plain else (m.table ref).get? id := by
      rw [hfound]
      by_cases hid : id = .number (Decimal.ofInt 0)
      · rw [if_pos hid, if_pos hid, hid, hnone, Option.none_or]
      · rw [if_neg hid, if_neg hid, Option.or_none]
    exact ⟨horderly.addsTo hbuilt.orderly hnone hadded, hadded⟩
  · have hsame (id : KeyId) : (k.table ⟨m.tables.size⟩).get? id = (m.table ref).get? id := by
      rw [hfound]
      by_cases hid : id = .number (Decimal.ofInt 0)
      · obtain ⟨value, hvalue⟩ := Option.ne_none_iff_exists'.mp hpresent
        rw [hid, hvalue, Option.some_or]
      · rw [if_neg hid, Option.or_none]
    exact ⟨hsame, horderly.same hbuilt.orderly hsame⟩

/-- Assumes: two arrays in order. The items of the second are joined behind those of the first. -/
theorem joins_arrays (hfuel : call.fuel ≠ 0) (hleft : m.content left = .object source)
    (hright : m.content right = .object target) (hsource : m.Orderly source)
    (htarget : m.Orderly target) (harrays : (m.isArray source && m.isArray target) = true) :
    Joins call left right m fun made ↦
      made.size = (m.table source).size + (m.table target).size ∧
        made.values = (m.table source).values ++ (m.table target).values := by
  obtain ⟨n, hcloned, hclone, hvalues, -, -⟩ := hsource.clone
  obtain ⟨k, hpushed, hbuilt, hadded⟩ := hclone.pushAll (m.table target).values
  rw [hvalues] at hadded
  have hread : tableOf target n = .ok (m.table target) n := by
    rw [← hclone.grown.table target htarget.table]
    rfl
  refine joins_of_newObject hfuel ?_ hbuilt ⟨?_, hadded⟩
  · unfold appendValues appendObjects
    rw [Run.get_bind, Machine.tableOf?_eq_some_iff.mpr hleft,
      Machine.tableOf?_eq_some_iff.mpr hright]
    dsimp only
    rw [harrays, Run.bind_ok hcloned, if_pos rfl, Run.bind_ok hread, Run.bind_ok hpushed]
  · rw [← hbuilt.orderly.length_values, hadded, List.length_append, hsource.length_values,
      htarget.length_values]

/-- Assumes: two objects in order that are not both arrays. They are merged, and the second one
wins. -/
theorem joins_objects (hfuel : call.fuel ≠ 0) (hleft : m.content left = .object source)
    (hright : m.content right = .object target) (hsource : m.Orderly source)
    (htarget : m.Orderly target) (harrays : (m.isArray source && m.isArray target) = false) :
    Joins call left right m fun made ↦
      ∀ id, made.get? id = ((m.table target).get? id).or ((m.table source).get? id) := by
  obtain ⟨n, hcloned, hclone, -, hleads, -⟩ := hsource.clone
  obtain ⟨k, hmerged, hbuilt, hfound⟩ := hclone.mergeInto htarget
  simp only [hleads] at hfound
  refine joins_of_newObject hfuel ?_ hbuilt hfound
  unfold appendValues appendObjects
  rw [Run.get_bind, Machine.tableOf?_eq_some_iff.mpr hleft,
    Machine.tableOf?_eq_some_iff.mpr hright]
  dsimp only
  rw [harrays, Run.bind_ok hcloned, if_neg Bool.false_ne_true, Run.bind_ok hmerged]

/-- Assumes: objects in order. A plain value that is joined to an object is one value more, and no
other one gets lost, unless the value is put before an object that is no array and has the key 0:
then the entries are those of the object. The items of arrays add up; of other objects, there is
under each key the value of the second one, or else of the first one. -/
theorem joined_values_stay_but_for_key_zero {m : Machine} {call : Call} (hfuel : call.fuel ≠ 0) :
    (∀ (object plain : CellRef) (ref : TableRef), m.content object = .object ref →
      m.Orderly ref → m.tableOf? plain = none →
      Joins call object plain m (fun made ↦ (m.table ref).AddsTo plain made ∧
        ∀ id, made.get? id = if id = .number (m.highestKey ref + Decimal.ofInt 1) then some plain
          else (m.table ref).get? id) ∧
      (m.isArray ref = true → Joins call plain object m fun made ↦
        (m.table ref).AddsTo plain made ∧ made.values = plain :: (m.table ref).values) ∧
      (m.isArray ref = false → Joins call plain object m fun made ↦
        ((m.table ref).get? (.number (Decimal.ofInt 0)) = none →
          (m.table ref).AddsTo plain made ∧
            ∀ id, made.get? id = if id = .number (Decimal.ofInt 0) then some plain
              else (m.table ref).get? id) ∧
        ((m.table ref).get? (.number (Decimal.ofInt 0)) ≠ none →
          (∀ id, made.get? id = (m.table ref).get? id) ∧ made.size = (m.table ref).size ∧
            ∀ value, value ∈ made.values ↔ value ∈ (m.table ref).values))) ∧
    (∀ (left right : CellRef) (source target : TableRef), m.content left = .object source →
      m.content right = .object target → m.Orderly source → m.Orderly target →
      ((m.isArray source && m.isArray target) = true → Joins call left right m fun made ↦
        made.size = (m.table source).size + (m.table target).size ∧
          made.values = (m.table source).values ++ (m.table target).values) ∧
      ((m.isArray source && m.isArray target) = false → Joins call left right m fun made ↦
        ∀ id, made.get? id = ((m.table target).get? id).or ((m.table source).get? id))) := by
  refine ⟨fun object plain ref hobject horderly hplain ↦ ⟨?_, ?_, ?_⟩,
    fun left right source target hleft hright hsource htarget ↦ ⟨?_, ?_⟩⟩
  · exact joins_behind hfuel hobject horderly hplain
  · exact joins_before_array hfuel hobject horderly hplain
  · exact joins_before_object hfuel hobject horderly hplain
  · exact joins_arrays hfuel hleft hright hsource htarget
  · exact joins_objects hfuel hleft hright hsource htarget

/-- Cells for the key 0 and a name, for two texts and a number, and an object without entries. -/
def zeroAndName : Machine where
  cells := #[.number (Decimal.ofInt 0), .string "k", .string "a", .string "b",
    .number (Decimal.ofInt 9), .object ⟨0⟩]
  tables := #[{}]

/-- The texts under the key 0 and the name. -/
def zeroAndNameEntered : Machine :=
  (zeroAndName.after (.enter ⟨0⟩ ⟨0⟩ ⟨2⟩)).after (.enter ⟨0⟩ ⟨1⟩ ⟨3⟩)

theorem zeroAndNameEntered_entries : zeroAndNameEntered.Orderly ⟨0⟩ ∧
    (zeroAndNameEntered.table ⟨0⟩).entries = [⟨⟨0⟩, ⟨2⟩⟩, ⟨⟨1⟩, ⟨3⟩⟩] := by
  have hempty : zeroAndName.Orderly ⟨0⟩ := Machine.orderly_of_empty (by decide) rfl
  have hnone (id : KeyId) : (zeroAndName.table ⟨0⟩).get? id = none := Table.get?_empty id
  have hfirst : (zeroAndName.after (.enter ⟨0⟩ ⟨0⟩ ⟨2⟩)).Orderly ⟨0⟩ :=
    hempty.after fun _ ↦ by decide
  refine ⟨hfirst.after fun _ ↦ by decide, ?_⟩
  unfold zeroAndNameEntered
  rw [hfirst.entries_enter, hempty.entries_enter (hnone _)]
  · rfl
  · rw [hempty.get?_enter, hnone]
    decide

/-- A number that is put before an object with the key 0 is not in what comes out. -/
theorem value_before_key_zero_gets_lost :
    ∃ out n ref, standard.evaluate (Call.detached 20 1) "::" .infixOp [⟨4⟩, ⟨5⟩]
        zeroAndNameEntered = .ok out n ∧
      n.content out = .object ref ∧ (zeroAndNameEntered.table ⟨0⟩).size = 2 ∧
        (n.table ref).size = 2 ∧ ⟨4⟩ ∉ (n.table ref).values := by
  obtain ⟨horderly, hentries⟩ := zeroAndNameEntered_entries
  have hids : zeroAndNameEntered.keyIds ⟨0⟩ = [.number (Decimal.ofInt 0), .string "k"] := by
    unfold Machine.keyIds Table.keys
    rw [hentries]
    rfl
  have hformer : (zeroAndNameEntered.table ⟨0⟩).size = 2 := by
    rw [← horderly.length_keyIds, hids]
    rfl
  have harray : zeroAndNameEntered.isArray ⟨0⟩ = false := by
    rw [Bool.eq_false_iff, Ne, Machine.isArray_iff, hformer]
    rintro (hnone | hcounts)
    · cases hnone
    · obtain ⟨k, hk⟩ := hcounts.naturals (.string "k") (by rw [hids]; decide)
      cases hk
  have hfuel : (Call.detached 20 1).fuel ≠ 0 := Nat.one_ne_zero
  obtain ⟨hplain, -⟩ := joined_values_stay_but_for_key_zero (m := zeroAndNameEntered) hfuel
  obtain ⟨-, -, hbefore⟩ := hplain ⟨5⟩ ⟨4⟩ ⟨0⟩ rfl horderly rfl
  obtain ⟨out, n, ref, hjoined, hout, -, -, hknown⟩ := hbefore harray
  obtain ⟨-, hsize, hvalues⟩ :=
    hknown (horderly.mem_keyIds_iff.mp (by rw [hids]; exact List.mem_cons_self ..))
  refine ⟨out, n, ref, hjoined, hout, hformer, hsize.trans hformer, fun hmem ↦ ?_⟩
  have hkept := (hvalues _).mp hmem
  rw [Table.values, hentries] at hkept
  revert hkept
  decide

end Operator

end TreeScript
