import TreeScript.Proofs.Export.Exporting
import TreeScript.Proofs.Objects.InsertionOrder

/-!
# Which objects are arrays

An object is taken for an array if its keys are natural numbers, 0 is one of them, and the lowest 64
bits of the largest one are those of the number of keys less one (`isArray_iff`). For keys that fit
into 64 bits these are exactly the objects whose keys are 0, 1 and so on up to the number of keys
(`HasIndexKeys`): they are different, and there is no room for others (`hasIndexKeys_of_isArray`).
A larger key may stand for a smaller one that is not there, as in an object with the keys 0 and
2^64 + 1 (`wrapped_key_counts_as_index`).
-/

set_option autoImplicit false

namespace TreeScript

namespace Decimal

variable {d : Decimal} {numbers : List Decimal}

theorem isIndex_iff : (d.isWhole && decide (0 ≤ d.sign)) = true ↔ ∃ k : Nat, d = ofInt k := by
  constructor
  · intro h
    obtain ⟨hwhole, hsign⟩ := Bool.and_eq_true_iff.mp h
    have hcoeff : 0 ≤ d.coeff := Int.sign_nonneg_iff.mp (of_decide_eq_true hsign)
    refine ⟨d.coeff.toNat, toRat_injective ?_⟩
    rw [toRat_ofInt, toRat, beq_iff_eq.mp hwhole, Int.toNat_of_nonneg hcoeff]
    simp
  · rintro ⟨k, rfl⟩
    have hsign : 0 ≤ (ofInt k).sign := Int.sign_nonneg_iff.mpr (Int.natCast_nonneg k)
    rw [isWhole_ofInt, Bool.true_and, decide_eq_true hsign]

theorem ofInt_natCast_inj {k l : Nat} : ofInt k = ofInt l ↔ k = l := by
  simp [ofInt]

/-- The highest of some natural numbers is one of them. -/
theorem highest_eq_ofInt (hnats : ∀ d ∈ numbers, ∃ k : Nat, d = ofInt k)
    (hzero : ofInt 0 ∈ numbers) :
    ∃ top : Nat, highest numbers = ofInt top ∧ ofInt top ∈ numbers ∧
      ∀ k : Nat, ofInt k ∈ numbers → k ≤ top := by
  have hmem : highest numbers ∈ numbers := by
    refine (List.mem_cons.mp (foldl_highest numbers _).1).resolve_left fun hnone ↦ ?_
    have hbound := le_highest hzero
    rw [highest, hnone, toRat_ofInt, toRat_ofInt] at hbound
    norm_num at hbound
  obtain ⟨top, htop⟩ := hnats _ hmem
  refine ⟨top, htop, htop ▸ hmem, fun k hk ↦ ?_⟩
  have hbound := le_highest hk
  rw [htop, toRat_ofInt, toRat_ofInt] at hbound
  exact_mod_cast hbound

end Decimal

/-- The lowest bits of a number that fits into 64 bits are those of a count if it is the count. -/
theorem eq_of_bmod_eq {top size : Nat} (htop : top < twoTo 64)
    (hword : (top : Int).bmod (twoTo 64) = (size : Int) - 1) (hsize : size ≠ 0) :
    top + 1 = size := by
  have hdouble := twoTo_64
  by_cases hlow : top < twoTo 63
  · rw [bmod_of_fits (by omega) (by omega)] at hword
    omega
  · -- The highest of the bits is the sign.
    have hnegative := Int.bmod_lt (x := (top : Int)) (m := twoTo 64) (by omega)
    rw [Int.bmod_def] at hword
    rw [Int.emod_eq_of_lt (by omega) (by omega)] at hword
    split at hword <;> omega

namespace Machine

/-- What the keys of an object are, in their order. -/
def keyIds (m : Machine) (ref : TableRef) : List KeyId := (m.table ref).keys.map m.keyId

/-- The keys of an object are the numbers from 0 up to the number of keys. -/
def HasIndexKeys (m : Machine) (ref : TableRef) : Prop :=
  ∀ id, id ∈ m.keyIds ref ↔ ∃ i < (m.table ref).size, id = .number (Decimal.ofInt (i : Nat))

/-- The keys of an object are natural numbers, among them 0, and the lowest 64 bits of the largest
one are those of the number of keys less one. -/
structure CountsAsArray (m : Machine) (ref : TableRef) : Prop where
  naturals : ∀ id ∈ m.keyIds ref, ∃ k : Nat, id = .number (Decimal.ofInt k)
  zero : .number (Decimal.ofInt 0) ∈ m.keyIds ref
  word : ∃ top : Nat, .number (Decimal.ofInt top) ∈ m.keyIds ref ∧
    (∀ k : Nat, .number (Decimal.ofInt k) ∈ m.keyIds ref → k ≤ top) ∧
    (top : Int).bmod (twoTo 64) = ((m.table ref).size : Int) - 1

variable {m : Machine} {ref : TableRef}

theorem number_mem_keyIds_iff {d : Decimal} :
    .number d ∈ m.keyIds ref ↔ d ∈ (m.table ref).keys.filterMap m.numberKey? := by
  rw [keyIds, List.mem_map, List.mem_filterMap]
  simp only [numberKey?_eq_some_iff]

/-- The next number of an object is not among its keys. -/
theorem nextKey_not_mem (m : Machine) (ref : TableRef) :
    .number (m.highestKey ref + Decimal.ofInt 1) ∉ m.keyIds ref := by
  intro hmem
  have hbound := Decimal.le_highest (number_mem_keyIds_iff.mp hmem)
  rw [← highestKey_eq, Decimal.toRat_add, Decimal.toRat_ofInt] at hbound
  norm_num at hbound

theorem isArrayKey_iff {key : CellRef} :
    m.isArrayKey key = true ↔ ∃ k : Nat, m.keyId key = .number (Decimal.ofInt k) := by
  unfold isArrayKey
  cases hnumber : m.numberKey? key with
  | none =>
    refine ⟨nofun, ?_⟩
    rintro ⟨k, hk⟩
    rw [numberKey?_eq_some_iff.mpr hk] at hnumber
    cases hnumber
  | some d =>
    rw [numberKey?_eq_some_iff] at hnumber
    dsimp only
    rw [Decimal.isIndex_iff, hnumber]
    simp

theorem isZeroKey_iff {key : CellRef} :
    m.isZeroKey key = true ↔ m.keyId key = .number (Decimal.ofInt 0) := by
  unfold isZeroKey
  rw [← numberKey?_eq_some_iff, Option.any_eq_true]
  constructor
  · rintro ⟨d, hd, hzero⟩
    rw [hd, Decimal.isZero_iff.mp hzero]
  · exact fun h ↦ ⟨_, h, rfl⟩

/-- What is taken for an array. -/
theorem isArray_iff : m.isArray ref = true ↔ (m.table ref).size = 0 ∨ m.CountsAsArray ref := by
  unfold isArray
  simp only [Bool.or_eq_true, Bool.and_eq_true, beq_iff_eq, List.all_eq_true, List.any_eq_true,
    isArrayKey_iff, isZeroKey_iff]
  refine or_congr Iff.rfl ?_
  have hnaturals : (∀ key ∈ (m.table ref).keys, ∃ k : Nat, m.keyId key = .number (Decimal.ofInt k)) ↔
      ∀ id ∈ m.keyIds ref, ∃ k : Nat, id = .number (Decimal.ofInt k) := by
    rw [keyIds, List.forall_mem_map]
  have hzero : (∃ key ∈ (m.table ref).keys, m.keyId key = .number (Decimal.ofInt 0)) ↔
      .number (Decimal.ofInt 0) ∈ m.keyIds ref := List.mem_map.symm
  rw [hnaturals, hzero]
  have htop (hnats : ∀ id ∈ m.keyIds ref, ∃ k : Nat, id = .number (Decimal.ofInt k))
      (hfirst : .number (Decimal.ofInt 0) ∈ m.keyIds ref) :
      ∃ top : Nat, m.highestKey ref = Decimal.ofInt top ∧
        .number (Decimal.ofInt top) ∈ m.keyIds ref ∧
        ∀ k : Nat, .number (Decimal.ofInt k) ∈ m.keyIds ref → k ≤ top := by
    rw [m.highestKey_eq]
    simp only [number_mem_keyIds_iff] at hfirst ⊢
    refine Decimal.highest_eq_ofInt (fun d hd ↦ ?_) hfirst
    obtain ⟨k, hk⟩ := hnats _ (number_mem_keyIds_iff.mpr hd)
    exact ⟨k, KeyId.number.inj hk⟩
  constructor
  · rintro ⟨⟨hnats, hfirst⟩, hword⟩
    obtain ⟨top, hhighest, hmem, hbound⟩ := htop hnats hfirst
    rw [hhighest, Decimal.word_ofInt_eq_bmod] at hword
    exact ⟨hnats, hfirst, top, hmem, hbound, hword⟩
  · rintro ⟨hnats, hfirst, top, hmem, hbound, hword⟩
    obtain ⟨top', hhighest, hmem', hbound'⟩ := htop hnats hfirst
    obtain rfl := Nat.le_antisymm (hbound' top hmem) (hbound top' hmem')
    refine ⟨⟨hnats, hfirst⟩, ?_⟩
    rw [hhighest, Decimal.word_ofInt_eq_bmod, hword]

/-- The highest of the keys 0, 1 and so on is the number of keys less one. -/
theorem HasIndexKeys.highestKey (h : m.HasIndexKeys ref) :
    m.highestKey ref = Decimal.ofInt (((m.table ref).size : Int) - 1) := by
  have hsame (d : Decimal) : d ∈ (m.table ref).keys.filterMap m.numberKey? ↔
      d ∈ (List.range (m.table ref).size).map fun (i : Nat) ↦ Decimal.ofInt i := by
    rw [← number_mem_keyIds_iff, h]
    simp [eq_comm]
  rw [highestKey_eq, Decimal.highest_congr hsame]
  cases (m.table ref).size with
  | zero => rfl
  | succ last =>
    rw [Decimal.highest_range, Nat.cast_succ, add_sub_cancel_right]

/-- The next number after the keys 0, 1 and so on is the number of keys. -/
theorem HasIndexKeys.nextKey (h : m.HasIndexKeys ref) :
    m.highestKey ref + Decimal.ofInt 1 = Decimal.ofInt (m.table ref).size := by
  refine Decimal.toRat_injective ?_
  rw [h.highestKey, Decimal.toRat_add]
  simp only [Decimal.toRat_ofInt]
  push_cast
  ring

/-- Assumes: no more keys than a word counts. An object with the keys 0, 1 and so on is an array. -/
theorem HasIndexKeys.isArray (h : m.HasIndexKeys ref) (hsize : (m.table ref).size ≤ twoTo 63) :
    m.isArray ref = true := by
  rw [isArray_iff]
  rcases Nat.eq_zero_or_pos (m.table ref).size with hempty | hpos
  · exact .inl hempty
  · refine .inr ⟨fun id hid ↦ ?_, (h _).mpr ⟨0, hpos, rfl⟩, (m.table ref).size - 1,
      (h _).mpr ⟨_, by omega, rfl⟩, fun k hk ↦ ?_, ?_⟩
    · obtain ⟨i, -, rfl⟩ := (h id).mp hid
      exact ⟨i, rfl⟩
    · obtain ⟨i, hi, hsame⟩ := (h _).mp hk
      have hk := Decimal.ofInt_natCast_inj.mp (KeyId.number.inj hsame)
      omega
    · rw [bmod_of_fits (by omega) (by omega)]
      omega

theorem Orderly.nodup_keyIds (h : m.Orderly ref) : (m.keyIds ref).Nodup := by
  rw [keyIds, Table.keys, List.map_map]
  exact h.inOrder.nodup_ids

theorem Orderly.length_keyIds (h : m.Orderly ref) :
    (m.keyIds ref).length = (m.table ref).size := by
  rw [keyIds, Table.keys, List.length_map, List.length_map, h.inOrder.length_entries]

/-- Assumes: an object in order that is an array, and none of whose keys is larger than 64 bits. It
has the keys 0, 1 and so on. -/
theorem hasIndexKeys_of_isArray (horderly : m.Orderly ref) (harray : m.isArray ref = true)
    (hfits : ∀ k : Nat, .number (Decimal.ofInt k) ∈ m.keyIds ref → k < twoTo 64) :
    m.HasIndexKeys ref := by
  have hlength := horderly.length_keyIds
  let indices := (List.range (m.table ref).size).map fun i ↦ KeyId.number (Decimal.ofInt (i : Nat))
  have hmem (id : KeyId) : id ∈ indices ↔
      ∃ i < (m.table ref).size, id = .number (Decimal.ofInt (i : Nat)) := by
    simp [indices, eq_comm]
  have hsubset : m.keyIds ref ⊆ indices := by
    intro id hid
    rcases isArray_iff.mp harray with hempty | hcounts
    · rw [List.eq_nil_of_length_eq_zero (hlength.trans hempty)] at hid
      cases hid
    · obtain ⟨top, htop, hbound, hword⟩ := hcounts.word
      have hlast : top + 1 = (m.table ref).size :=
        eq_of_bmod_eq (hfits top htop) hword fun hempty ↦ by
          rw [List.eq_nil_of_length_eq_zero (hlength.trans hempty)] at hid
          cases hid
      obtain ⟨k, rfl⟩ := hcounts.naturals id hid
      have hle := hbound k hid
      exact (hmem _).mpr ⟨k, by omega, rfl⟩
  -- The keys are different, and as many as there are indices.
  have hperm := (horderly.nodup_keyIds.subperm hsubset).perm_of_length_le (by simp [indices, hlength])
  exact fun id ↦ hperm.mem_iff.trans (hmem id)

end Machine

/-- Assumes: steps on an empty map and its clones, with keys that exist. For each map there is in the
end, it is taken for an array exactly if it is empty, or its keys are natural numbers with 0 among
them, the largest of which has the number of keys less one for its lowest 64 bits. A map with the
keys 0, 1 and so on, no more than a word counts, is taken for one; and a map that is taken for one
has these keys, unless one of them does not fit into 64 bits. -/
theorem arrays_by_lowest_bits {m : Machine} {steps : List MapStep}
    (hkeys : ∀ step ∈ steps, ∀ key, step.action.key? = some key → key.index < m.cells.size) :
    ∃ (maps : List TableRef) (n : Machine),
      (newTable >>= fun map ↦ MapStep.run [map] steps) m =
          .ok (maps, (MapStep.record m.keyId [[]] steps).2) n ∧
        maps.length = (MapStep.record m.keyId [[]] steps).1.length ∧
        ∀ (i : Nat) (map : TableRef) (history : List MapEvent), maps[i]? = some map →
          (MapStep.record m.keyId [[]] steps).1[i]? = some history → n.Shows map history ∧
            (n.isArray map = true ↔ (n.table map).size = 0 ∨ n.CountsAsArray map) ∧
            (n.HasIndexKeys map → (n.table map).size ≤ twoTo 63 → n.isArray map = true) ∧
            (n.isArray map = true →
              (∀ k : Nat, .number (Decimal.ofInt k) ∈ n.keyIds map → k < twoTo 64) →
              n.HasIndexKeys map) := by
  have hcreated : newTable m = .ok ⟨m.tables.size⟩ m.withTable := rfl
  have hfixed : ∀ step ∈ steps, ∀ key, step.action.key? = some key →
      key.index < m.withTable.cells.size ∧ m.withTable.keyId key = m.keyId key :=
    fun step hstep key hkey ↦ ⟨hkeys step hstep key hkey, rfl⟩
  obtain ⟨maps, n, hran, hfollow, -⟩ := MapStep.run_follows m.follows_newTable.singleton hfixed
  refine ⟨maps, n, (Run.bind_ok hcreated).trans hran, hfollow.length,
    fun i map history hmap hhistory ↦ ?_⟩
  have hfollows := hfollow.follows i map history hmap hhistory
  exact ⟨hfollows.shows, Machine.isArray_iff, Machine.HasIndexKeys.isArray,
    Machine.hasIndexKeys_of_isArray hfollows.orderly⟩

/-- Cells for the keys 0 and 2^64 + 1 and a value. -/
def wrappedKeys : Machine where
  cells := #[.number (Decimal.ofInt 0), .number (Decimal.ofInt 18446744073709551617), .boolean true]

def setWrappedKeys : List MapStep := [⟨0, .set ⟨0⟩ ⟨2⟩⟩, ⟨0, .set ⟨1⟩ ⟨2⟩⟩]

/-- The key 2^64 + 1 counts as the index 1 that is not there. -/
theorem wrapped_key_counts_as_index :
    (∀ step ∈ setWrappedKeys, ∀ key, step.action.key? = some key →
      key.index < wrappedKeys.cells.size) ∧
      ∃ (map : TableRef) (n : Machine),
        (newTable >>= fun map ↦ MapStep.run [map] setWrappedKeys) wrappedKeys =
            .ok ([map], [none, none]) n ∧
          n.isArray map = true ∧ ¬n.HasIndexKeys map := by
  have hkeys : ∀ step ∈ setWrappedKeys, ∀ key, step.action.key? = some key →
      key.index < wrappedKeys.cells.size := by
    intro step hstep key hkey
    simp only [setWrappedKeys, List.mem_cons, List.not_mem_nil, or_false] at hstep
    rcases hstep with rfl | rfl <;> cases hkey <;> decide
  refine ⟨hkeys, ?_⟩
  obtain ⟨maps, n, hran, hlength, hmaps⟩ := arrays_by_lowest_bits hkeys
  obtain ⟨map, rfl⟩ := List.length_eq_one_iff.mp (hlength.trans (by decide))
  obtain ⟨hshows, hiff, -⟩ := hmaps 0 map _ rfl rfl
  have hmem (id : KeyId) : id ∈ n.keyIds map ↔
      id ∈ [.number (Decimal.ofInt 18446744073709551617), .number (Decimal.ofInt 0)] := by
    refine (hshows.keys id).trans ?_
    rw [List.mem_pair]
    by_cases hlarge : .number (Decimal.ofInt 18446744073709551617) = id
    · exact iff_of_true (hlarge ▸ rfl) (.inl hlarge.symm)
    by_cases hzero : .number (Decimal.ofInt 0) = id
    · exact iff_of_true (hzero ▸ rfl) (.inr hzero.symm)
    refine iff_of_false ?_ (not_or.mpr ⟨Ne.symm hlarge, Ne.symm hzero⟩)
    refine Option.not_isSome_iff_eq_none.mpr ?_
    exact (MapEvent.stay?_entered_of_ne hlarge).trans (MapEvent.stay?_entered_of_ne hzero)
  have hsize : (n.table map).size = 2 := by
    have hperm := (List.perm_ext_iff_of_nodup hshows.once (by decide)).mpr hmem
    rw [hshows.size, ← List.length_map, hperm.length_eq]
    rfl
  refine ⟨map, n, hran, hiff.mpr (.inr ⟨fun id hid ↦ ?_, ?_, 18446744073709551617, ?_, ?_, ?_⟩), ?_⟩
  · rcases List.mem_pair.mp ((hmem id).mp hid) with rfl | rfl
    · exact ⟨18446744073709551617, rfl⟩
    · exact ⟨0, rfl⟩
  · exact (hmem _).mpr (by decide)
  · exact (hmem _).mpr (by decide)
  · intro k hk
    rcases List.mem_pair.mp ((hmem _).mp hk) with hlarge | hzero
    · exact (Decimal.ofInt_natCast_inj.mp (KeyId.number.inj hlarge)).le
    · have hnone : k = 0 := Decimal.ofInt_natCast_inj.mp (KeyId.number.inj hzero)
      omega
  · rw [hsize]
    decide
  · intro hindex
    have hsecond := (hmem _).mp ((hindex _).mpr ⟨1, by omega, rfl⟩)
    revert hsecond
    decide

end TreeScript
