import Mathlib.Data.List.Find
import TreeScript.Proofs.Iteration.Arrays
import TreeScript.Proofs.Ordering.NaturalSort

/-!
# Frequencies

The method `frequency` counts the values of an object by classes of equal ones, and enters the numbers
in a new object, each under the first value of its class. Counting value by value leads to one count
for each class (`Tallies`, `ObjectMethod.countValue_tallies`): a value that is equal to a counted one
adds to the count of its class, and any other one opens a class of its own.

Values are equal if they are the same as keys, but of regular expressions the flags are compared as
well, and as keys they go by their pattern alone (`Machine.equal_iff_class`). So the object has all
counts unless there are regular expressions of one pattern with different flags, whose classes would
stand under one key (`frequency_counts_equal_values`).
-/

set_option autoImplicit false

namespace TreeScript

/-! ### Tallies -/

/-- Counts of values, one for each class of those that are the same, by the first value of the class,
and in the order in which the classes come up. -/
structure Tallies {α : Type} (same : α → α → Bool) (values : List α) (counts : List (α × Nat)) :
    Prop where
  first : ∀ count ∈ counts, values.find? (same count.1) = some count.1
  order : counts.Pairwise fun a b ↦ values.findIdx (same a.1) < values.findIdx (same b.1)
  all : ∀ value ∈ values, ∃ count ∈ counts, same count.1 value = true
  number : ∀ count ∈ counts, count.2 = values.countP (same count.1)

/-- Values are the same if they are in one class. -/
def SameByClass {α γ : Type} (same : α → α → Bool) (classOf : α → γ) (values : List α) : Prop :=
  ∀ a ∈ values, ∀ b ∈ values, same a b = true ↔ classOf a = classOf b

namespace Tallies

variable {α γ : Type} {same : α → α → Bool} {classOf : α → γ} {values : List α} {value : α}
  {counts : List (α × Nat)} {a b : α × Nat}

theorem mem (h : Tallies same values counts) (ha : a ∈ counts) : a.1 ∈ values :=
  List.mem_of_find?_eq_some (h.first a ha)

theorem refl (h : Tallies same values counts) (ha : a ∈ counts) : same a.1 a.1 = true :=
  List.find?_some (h.first a ha)

/-- Counts of one class are at one place. -/
theorem eq_of_class (h : Tallies same values counts) (hsame : SameByClass same classOf values)
    {i j : Nat} (hi : i < counts.length) (hj : j < counts.length)
    (hclass : classOf counts[i].1 = classOf counts[j].1) : i = j := by
  have hmem {i : Nat} (hi : i < counts.length) : counts[i] ∈ counts := List.getElem_mem hi
  have hagree : ∀ x ∈ values, same counts[i].1 x = same counts[j].1 x := by
    intro x hx
    rw [Bool.eq_iff_iff, hsame _ (h.mem (hmem hi)) x hx, hsame _ (h.mem (hmem hj)) x hx, hclass]
  have hkey : counts[i].1 = counts[j].1 := by
    have hfirst := h.first _ (hmem hi)
    rw [List.find?_congr hagree, h.first _ (hmem hj)] at hfirst
    exact (Option.some.inj hfirst).symm
  have hordered := List.pairwise_iff_getElem.mp h.order
  rcases Nat.lt_trichotomy i j with hlt | heq | hgt
  · exact absurd (hordered i j hi hj hlt) (by rw [hkey]; exact Nat.lt_irrefl _)
  · exact heq
  · exact absurd (hordered j i hj hi hgt) (by rw [hkey]; exact Nat.lt_irrefl _)

/-! #### One value more -/

theorem first_append (h : Tallies same values counts) (ha : a ∈ counts) :
    (values ++ [value]).find? (same a.1) = some a.1 := by
  rw [List.find?_append, h.first a ha, Option.some_or]

theorem findIdx_append (h : Tallies same values counts) (ha : a ∈ counts) :
    (values ++ [value]).findIdx (same a.1) = values.findIdx (same a.1) := by
  rw [List.findIdx_append, if_pos (List.findIdx_lt_length.mpr ⟨a.1, h.mem ha, h.refl ha⟩)]

theorem order_append (h : Tallies same values counts) :
    counts.Pairwise fun a b ↦
      (values ++ [value]).findIdx (same a.1) < (values ++ [value]).findIdx (same b.1) := by
  refine h.order.imp_of_mem fun ha hb hlt ↦ ?_
  rwa [h.findIdx_append ha, h.findIdx_append hb]

/-- A value of a class that is counted adds to its count. -/
theorem known (h : Tallies same values counts) (hknown : ∃ count ∈ counts, same count.1 value = true) :
    Tallies same (values ++ [value])
      (counts.map fun count ↦
        (count.1, if same count.1 value then count.2 + 1 else count.2)) := by
  refine ⟨?_, ?_, ?_, ?_⟩
  · rw [List.forall_mem_map]
    exact fun count hcount ↦ h.first_append (a := count) hcount
  · rw [List.pairwise_map]
    exact h.order_append
  · intro other hother
    simp only [List.mem_map, exists_exists_and_eq_and]
    rw [List.mem_append, List.mem_singleton] at hother
    rcases hother with hformer | rfl
    · exact h.all other hformer
    · exact hknown
  · rw [List.forall_mem_map]
    intro count hcount
    dsimp only
    rw [List.countP_append, List.countP_singleton, h.number count hcount]
    split <;> rfl

/-- A value that is not the same as a counted one is the first of its class. -/
theorem new (h : Tallies same values counts)
    (hnew : ∀ count ∈ counts, same count.1 value = false) (hrefl : same value value = true)
    (hnone : ∀ former ∈ values, same value former = false) :
    Tallies same (values ++ [value]) (counts ++ [(value, 1)]) := by
  have hfind : values.find? (same value) = none :=
    List.find?_eq_none.mpr fun former hformer ↦ ne_true_of_eq_false (hnone former hformer)
  have hplace : (values ++ [value]).findIdx (same value) = values.length := by
    rw [List.findIdx_append, List.findIdx_eq_length.mpr hnone, if_neg (Nat.lt_irrefl _)]
    simp [List.findIdx_cons, hrefl]
  refine ⟨?_, ?_, ?_, ?_⟩
  · rw [List.forall_mem_append, List.forall_mem_singleton]
    refine ⟨fun count hcount ↦ h.first_append hcount, ?_⟩
    rw [List.find?_append, hfind, Option.none_or, List.find?_singleton, if_pos hrefl]
  · rw [List.pairwise_append]
    refine ⟨h.order_append, List.pairwise_singleton .., fun count hcount last hlast ↦ ?_⟩
    rw [List.mem_singleton.mp hlast, h.findIdx_append hcount, hplace]
    exact List.findIdx_lt_length.mpr ⟨count.1, h.mem hcount, h.refl hcount⟩
  · intro other hother
    rw [List.mem_append, List.mem_singleton] at hother
    rcases hother with hformer | rfl
    · obtain ⟨count, hcount, hsame⟩ := h.all other hformer
      exact ⟨count, List.mem_append_left _ hcount, hsame⟩
    · exact ⟨_, List.mem_append_right _ (List.mem_singleton_self _), hrefl⟩
  · rw [List.forall_mem_append, List.forall_mem_singleton]
    refine ⟨fun count hcount ↦ ?_, ?_⟩
    · rw [List.countP_append, List.countP_singleton, hnew count hcount, h.number count hcount]
      rfl
    · rw [List.countP_append, List.countP_singleton, if_pos hrefl,
        List.countP_eq_zero.mpr fun former hformer ↦ ne_true_of_eq_false (hnone former hformer)]

end Tallies

/-! ### Counting -/

namespace ObjectMethod

section

variable {α γ : Type} {same : α → α → Bool} {classOf : α → γ} {values : List α} {value : α}
  {counts : Array (α × Nat)}

/-- One more value is counted. -/
def countValue (same : α → α → Bool) (counts : Array (α × Nat)) (value : α) : Array (α × Nat) :=
  match counts.findIdx? fun (former, _) ↦ same former value with
  | some i => counts.modify i fun (former, n) ↦ (former, n + 1)
  | none => counts.push (value, 1)

theorem sum_modify (counts : List (α × Nat)) {i : Nat} (hi : i < counts.length) :
    ((counts.modify i fun (former, n) ↦ (former, n + 1)).map Prod.snd).sum =
      (counts.map Prod.snd).sum + 1 := by
  induction counts generalizing i with
  | nil => cases hi
  | cons count counts ih =>
    cases i with
    | zero =>
      simp only [List.modify_zero_cons, List.map_cons, List.sum_cons]
      omega
    | succ i =>
      simp only [List.modify_succ_cons, List.map_cons, List.sum_cons,
        ih (Nat.lt_of_succ_lt_succ hi)]
      omega

/-- Counting one more value keeps a tally, and adds one to the sum. -/
theorem countValue_tallies (h : Tallies same values counts.toList)
    (hsame : SameByClass same classOf (values ++ [value])) :
    Tallies same (values ++ [value]) (countValue same counts value).toList ∧
      ((countValue same counts value).toList.map Prod.snd).sum =
        (counts.toList.map Prod.snd).sum + 1 := by
  have hvalue : value ∈ values ++ [value] := List.mem_append_right _ (List.mem_singleton_self _)
  have hmem {former : α} (hformer : former ∈ values) : former ∈ values ++ [value] :=
    List.mem_append_left _ hformer
  have hkeys {count : α × Nat} (hcount : count ∈ counts.toList) : count.1 ∈ values ++ [value] :=
    hmem (h.mem hcount)
  unfold countValue
  cases hplace : counts.findIdx? fun (former, _) ↦ same former value with
  | some i =>
    obtain ⟨hi, hfound, -⟩ := Array.findIdx?_eq_some_iff_getElem.mp hplace
    have hi' : i < counts.toList.length := hi
    have hcounted : same counts.toList[i].1 value = true := hfound
    have hclass := (hsame _ (hkeys (List.getElem_mem hi')) value hvalue).mp hcounted
    -- No other count is one of this class.
    have hmodified : counts.toList.modify i (fun (former, n) ↦ (former, n + 1)) =
        counts.toList.map fun count ↦
          (count.1, if same count.1 value then count.2 + 1 else count.2) := by
      refine List.ext_getElem (by simp) fun j hj hj' ↦ ?_
      rw [List.length_map] at hj'
      rw [List.getElem_modify, List.getElem_map]
      by_cases hij : i = j
      · subst hij
        rw [if_pos rfl, if_pos hcounted]
      · rw [if_neg hij, if_neg]
        intro hother
        have hclass' := (hsame _ (hkeys (List.getElem_mem hj')) value hvalue).mp hother
        exact hij (h.eq_of_class (fun a ha b hb ↦ hsame a (hmem ha) b (hmem hb)) hi' hj'
          (hclass.trans hclass'.symm))
    dsimp only
    rw [Array.toList_modify]
    refine ⟨?_, sum_modify _ hi'⟩
    rw [hmodified]
    exact h.known ⟨_, List.getElem_mem hi', hcounted⟩
  | none =>
    have hnew : ∀ count ∈ counts.toList, same count.1 value = false := fun count hcount ↦
      Array.findIdx?_eq_none_iff.mp hplace count (Array.mem_def.mpr hcount)
    dsimp only
    rw [Array.toList_push]
    refine ⟨h.new hnew ((hsame value hvalue value hvalue).mpr rfl) fun former hformer ↦ ?_, ?_⟩
    · obtain ⟨count, hcount, hcounted⟩ := h.all former hformer
      refine Bool.eq_false_iff.mpr fun hknown ↦ ne_true_of_eq_false (hnew count hcount) ?_
      rw [hsame value hvalue former (hmem hformer)] at hknown
      rw [hsame _ (hkeys hcount) former (hmem hformer)] at hcounted
      exact (hsame _ (hkeys hcount) value hvalue).mpr (hcounted.trans hknown.symm)
    · rw [List.map_append, List.sum_append]
      rfl

/-- Counting values one by one gives a tally, with as many values in all. -/
theorem foldl_countValue_tallies (hsame : SameByClass same classOf values) :
    Tallies same values (values.foldl (countValue same) #[]).toList ∧
      ((values.foldl (countValue same) #[]).toList.map Prod.snd).sum = values.length := by
  induction values using List.reverseRecOn with
  | nil => exact ⟨⟨nofun, .nil, nofun, nofun⟩, rfl⟩
  | append_singleton values value ih =>
    obtain ⟨htallies, hsum⟩ := ih fun a ha b hb ↦
      hsame a (List.mem_append_left _ ha) b (List.mem_append_left _ hb)
    rw [List.foldl_append, List.length_append, ← hsum]
    exact countValue_tallies htallies hsame

end

end ObjectMethod

/-! ### Classes of equal values -/

/-- A value that holds no others: empty, a truth value, a number, a text or a regular expression. -/
def Content.IsSimple : Content → Prop
  | .empty | .boolean _ | .number _ | .string _ | .regex _ => True
  | _ => False

def Content.flags? : Content → Option String
  | .regex x => some x.flags
  | _ => none

/-- Assumes: a simple value that is the same as another one as a key. They have the same flags if they
do so as regular expressions. -/
theorem Content.flags?_congr {x y : Content} (hx : x.IsSimple) (hid : x.keyId = y.keyId)
    (hflags : ∀ r s, x = .regex r → y = .regex s → r.pattern = s.pattern → r.flags = s.flags) :
    x.flags? = y.flags? := by
  cases x with
  | regex r =>
    cases y with
    | regex s => exact congrArg some (hflags r s rfl rfl (KeyId.regex.inj hid))
    | _ => cases hid
  | _ => cases hx <;> cases y <;> first | rfl | cases hid

namespace Machine

variable {m : Machine} {a b : CellRef}

/-- What makes simple values equal: what they are as keys, and the flags of regular expressions. -/
def classOf (m : Machine) (cell : CellRef) : KeyId × Option String :=
  (m.keyId cell, (m.content cell).flags?)

theorem equal_iff_class (ha : (m.content a).IsSimple) (hb : (m.content b).IsSimple) :
    m.equal a b = true ↔ m.classOf a = m.classOf b := by
  unfold equal classOf keyId
  rw [equalIn]
  generalize m.content a = x at ha
  generalize m.content b = y at hb
  cases x <;> cases ha <;> cases y <;> cases hb <;>
    simp [Content.keyId, Content.kind, Content.flags?]

/-- Regular expressions of one pattern have the same flags. -/
def FlagsByPattern (m : Machine) (values : List CellRef) : Prop :=
  ∀ a ∈ values, ∀ b ∈ values, ∀ x y, m.content a = .regex x → m.content b = .regex y →
    x.pattern = y.pattern → x.flags = y.flags

/-- Assumes: regular expressions of one pattern with the same flags. Simple values are told apart as
keys exactly if they are not equal. -/
theorem FlagsByPattern.keyId_eq_iff {values : List CellRef} (h : m.FlagsByPattern values)
    (hsimple : ∀ value ∈ values, (m.content value).IsSimple) (ha : a ∈ values) (hb : b ∈ values) :
    m.keyId a = m.keyId b ↔ m.equal a b = true := by
  rw [equal_iff_class (hsimple a ha) (hsimple b hb), classOf, classOf, Prod.mk.injEq]
  exact ⟨fun hid ↦ ⟨hid, Content.flags?_congr (hsimple a ha) hid (h a ha b hb)⟩,
    And.left⟩

end Machine

namespace ObjectMethod

variable {call : Call} {m : Machine} {self : CellRef} {ref : TableRef} {counts : List (CellRef × Nat)}

/-- The number of a count, in a new cell under the value. -/
def numbered (count : CellRef × Nat) (number : CellRef) : Entry := ⟨count.1, number⟩

theorem run_frequency (hself : m.content self = .object ref) (args : List CellRef) :
    run call .frequency self args m = ((countValues m (m.table ref).values).mapM (fun count ↦ do
      return numbered count (← alloc (.number (Decimal.ofInt count.2))) : _ → Run Entry) >>=
        rebuild false) m :=
  Run.bind_ok (valuesOf_of_object hself)

theorem numbered_entries {numbers : List CellRef} (hlength : counts.length = numbers.length) :
    (List.zipWith numbered counts numbers).map Entry.key = counts.map Prod.fst ∧
      (List.zipWith numbered counts numbers).map Entry.value = numbers := by
  induction counts generalizing numbers with
  | nil =>
    cases numbers with
    | nil => exact ⟨rfl, rfl⟩
    | cons => cases hlength
  | cons count counts ih =>
    cases numbers with
    | nil => cases hlength
    | cons number numbers =>
      obtain ⟨hkeys, hvalues⟩ := ih (Nat.succ.inj hlength)
      exact ⟨congrArg (_ :: ·) hkeys, congrArg (_ :: ·) hvalues⟩

/-- A table has the numbers of counts under their values. -/
structure Enters (n : Machine) (counts : List (CellRef × Nat)) (table : Table) : Prop where
  keys : table.keys = counts.map Prod.fst
  numbers : table.values.map n.content = counts.map fun count ↦ .number (Decimal.ofInt count.2)

/-- Assumes: counts of values that are different as keys. The numbers are entered in a new object. -/
theorem rebuild_numbered (counts : List (CellRef × Nat)) (m : Machine)
    (hcells : ∀ count ∈ counts, count.1.index < m.cells.size)
    (hdistinct : (counts.map fun count ↦ m.keyId count.1).Nodup) :
    m.MakesObject (counts.mapM (fun count ↦ do
      return numbered count (← alloc (.number (Decimal.ofInt count.2))) : _ → Run Entry) >>=
        rebuild false) fun n new ↦ Enters n counts (n.table new) := by
  obtain ⟨numbers, k, hnumbers, hgrown, hbound, hcontents⟩ :=
    Machine.mapM_alloc (fun count ↦ .number (Decimal.ofInt count.2)) numbered counts m
  have hlength := congrArg List.length hcontents
  rw [List.length_map, List.length_map] at hlength
  obtain ⟨hkeys, hvalues⟩ := numbered_entries hlength.symm
  have hcounted {entry : Entry} (hentry : entry ∈ List.zipWith numbered counts numbers) :
      ∃ count ∈ counts, count.1 = entry.key := by
    rw [← List.mem_map, ← hkeys]
    exact List.mem_map_of_mem hentry
  have hids : (List.zipWith numbered counts numbers).map (fun entry ↦ k.keyId entry.key) =
      counts.map fun count ↦ m.keyId count.1 := by
    have hkept := congrArg (List.map k.keyId) hkeys
    rw [List.map_map, List.map_map] at hkept
    refine hkept.trans (List.map_congr_left fun count hcount ↦ ?_)
    exact hgrown.cells.keyId (hcells count hcount)
  obtain ⟨out, n, new, hrebuilt, hout, hbuilt, hentries⟩ :=
    rebuild_apply (m := k) false (List.zipWith numbered counts numbers) fun _ ↦ by
      refine ⟨fun entry hentry ↦ ?_, hids ▸ hdistinct⟩
      obtain ⟨count, hcount, hkey⟩ := hcounted hentry
      exact hkey ▸ Nat.lt_of_lt_of_le (hcells count hcount) hgrown.cells.size
  refine ⟨out, n, new, (Run.bind_ok hnumbers).trans hrebuilt, hout,
    ⟨hgrown.trans hbuilt.grown, hgrown.size.trans hbuilt.fresh, hbuilt.orderly⟩, ?_, ?_⟩
  · rw [Table.keys, hentries]
    exact hkeys
  · rw [Table.values, hentries, ← hcontents]
    change ((List.zipWith numbered counts numbers).map Entry.value).map n.content = _
    rw [hvalues]
    exact List.map_congr_left fun number hnumber ↦
      hbuilt.grown.cells.content number (hbound number hnumber)

theorem Enters.entry {n : Machine} {table : Table} (h : Enters n counts table)
    {count : CellRef × Nat} (hcount : count ∈ counts) :
    ∃ entry ∈ table.entries, entry.key = count.1 ∧
      n.content entry.value = .number (Decimal.ofInt count.2) := by
  obtain ⟨i, hi, rfl⟩ := List.getElem_of_mem hcount
  have hkey : table.entries[i]?.map Entry.key = some counts[i].1 := by
    rw [← List.getElem?_map]
    change table.keys[i]? = _
    rw [h.keys, List.getElem?_map, List.getElem?_eq_getElem hi, Option.map_some]
  have hnumber : table.entries[i]?.map (fun entry ↦ n.content entry.value) =
      some (.number (Decimal.ofInt counts[i].2)) := by
    have hplace := congrArg (·[i]?) h.numbers
    simp only [Table.values, List.getElem?_map, List.getElem?_eq_getElem hi, Option.map_map,
      Option.map_some] at hplace
    exact hplace
  obtain ⟨entry, hentry, hkey⟩ := Option.map_eq_some_iff.mp hkey
  rw [hentry] at hnumber
  exact ⟨entry, List.mem_of_getElem? hentry, hkey, Option.some.inj hnumber⟩

/-- Assumes: an object with simple values, among which regular expressions of one pattern have the
same flags. A new object has an entry for each class of equal values, in the order in which the
classes come up: the key is the first value of the class, and the number is how many values are in
it. So the numbers add up to the size of the object, a value leads to the number of those that are
equal to it, and two values fall under one entry exactly if they are equal. -/
theorem frequency_counts_equal_values (call : Call) (args : List CellRef)
    (hself : m.content self = .object ref)
    (hfilled : (m.table ref).size ≤ (m.table ref).slots.size)
    (hcells : ∀ value ∈ (m.table ref).values, value.index < m.cells.size)
    (hsimple : ∀ value ∈ (m.table ref).values, (m.content value).IsSimple)
    (hflags : m.FlagsByPattern (m.table ref).values) :
    m.MakesObject (run call .frequency self args) fun n new ↦
      ∃ counts : List (CellRef × Nat), Tallies m.equal (m.table ref).values counts ∧
        (n.table new).keys = counts.map Prod.fst ∧
        (n.table new).values.map n.content =
          counts.map (fun count ↦ .number (Decimal.ofInt count.2)) ∧
        (counts.map Prod.snd).sum = (m.table ref).size ∧
        (∀ a ∈ (m.table ref).values, (n.lookUp new a).map n.content =
          some (.number (Decimal.ofInt ((m.table ref).values.countP (m.equal a))))) ∧
        ∀ a ∈ (m.table ref).values, ∀ b ∈ (m.table ref).values,
          (∃ entry ∈ (n.table new).entries,
            n.keyId entry.key = n.keyId a ∧ n.keyId entry.key = n.keyId b) ↔
          m.equal a b = true := by
  have hclasses : SameByClass m.equal m.classOf (m.table ref).values := fun a ha b hb ↦
    Machine.equal_iff_class (hsimple a ha) (hsimple b hb)
  have hids {a b : CellRef} (ha : a ∈ (m.table ref).values) (hb : b ∈ (m.table ref).values) :
      m.keyId a = m.keyId b ↔ m.equal a b = true := hflags.keyId_eq_iff hsimple ha hb
  obtain ⟨htallies, hsum⟩ : Tallies m.equal (m.table ref).values (countValues m (m.table ref).values) ∧
      ((countValues m (m.table ref).values).map Prod.snd).sum = (m.table ref).values.length :=
    foldl_countValue_tallies hclasses
  have hdistinct : ((countValues m (m.table ref).values).map fun count ↦ m.keyId count.1).Nodup := by
    rw [List.Nodup, List.pairwise_map, List.pairwise_iff_getElem]
    intro i j hi hj hlt hsame
    have hi' := htallies.mem (List.getElem_mem hi)
    have hj' := htallies.mem (List.getElem_mem hj)
    refine hlt.ne (htallies.eq_of_class hclasses hi hj ?_)
    exact (hclasses _ hi' _ hj').mp ((hids hi' hj').mp hsame)
  obtain ⟨out, n, new, hrun, hout, hbuilt, henters⟩ :=
    rebuild_numbered (countValues m (m.table ref).values) m
      (fun count hcount ↦ hcells _ (htallies.mem hcount)) hdistinct
  have hkept {a : CellRef} (ha : a ∈ (m.table ref).values) : n.keyId a = m.keyId a :=
    hbuilt.grown.cells.keyId (hcells a ha)
  refine ⟨out, n, new, (run_frequency hself args).trans hrun, hout, hbuilt, _, htallies,
    henters.keys, henters.numbers, ?_, fun a ha ↦ ?_, fun a ha b hb ↦ ⟨?_, fun hequal ↦ ?_⟩⟩
  · rw [hsum, Table.values, List.length_map, Table.length_entries_of_le hfilled]
  · obtain ⟨count, hcount, hequal⟩ := htallies.all a ha
    have hmem := htallies.mem hcount
    obtain ⟨entry, hentry, hkey, hnumber⟩ := henters.entry hcount
    have hid : n.keyId a = n.keyId entry.key := by
      rw [hkey, hkept ha, hkept hmem]
      exact ((hids hmem ha).mpr hequal).symm
    rw [Machine.lookUp, hid, hbuilt.orderly.inOrder.get?_of_mem_entries hentry, Option.map_some,
      hnumber, htallies.number count hcount]
    have hsame : (m.table ref).values.countP (m.equal count.1) =
        (m.table ref).values.countP (m.equal a) := List.countP_congr fun x hx ↦ by
      rw [hclasses _ hmem x hx, hclasses a ha x hx, (hclasses _ hmem a ha).mp hequal]
    rw [hsame]
  · rintro ⟨entry, hentry, ha', hb'⟩
    rw [← hids ha hb, ← hkept ha, ← hkept hb, ← ha', hb']
  · obtain ⟨count, hcount, hcounted⟩ := htallies.all a ha
    have hmem := htallies.mem hcount
    obtain ⟨entry, hentry, hkey, -⟩ := henters.entry hcount
    refine ⟨entry, hentry, ?_, ?_⟩
    · rw [hkey, hkept hmem, hkept ha]
      exact (hids hmem ha).mpr hcounted
    · rw [hkey, hkept hmem, hkept hb]
      exact ((hids hmem ha).mpr hcounted).trans ((hids ha hb).mpr hequal)

/-- The regular expression that is empty and has no flags. -/
def emptyRegex : Regex := ⟨"", "", ⟨#[.save 0, .save 1, .accept], [], ""⟩⟩

/-- A regular expression in two cells, and a text. -/
def regexesAndText : Machine where
  cells := #[.regex emptyRegex, .string "", .regex emptyRegex]

/-- Of a regular expression, a text and the same expression again, the expression occurs twice and the
text once. -/
theorem equal_regexes_count_twice : ∃ self m out n new,
    newArray [⟨0⟩, ⟨1⟩, ⟨2⟩] regexesAndText = .ok self m ∧
      run (Call.detached 20 1) .frequency self [] m = .ok out n ∧ n.content out = .object new ∧
      (n.lookUp new ⟨2⟩).map n.content = some (.number (Decimal.ofInt 2)) ∧
      (n.lookUp new ⟨1⟩).map n.content = some (.number (Decimal.ofInt 1)) := by
  obtain ⟨self, m, hmade, hgrown, ref, hself, hitems⟩ :=
    Machine.newArray_items [⟨0⟩, ⟨1⟩, ⟨2⟩] regexesAndText
  have hcells : ∀ i < 3, m.content ⟨i⟩ = regexesAndText.content ⟨i⟩ := fun i hi ↦
    hgrown.cells.content ⟨i⟩ hi
  have hvalues : ∀ value ∈ (m.table ref).values, ∃ i < 3, value = ⟨i⟩ ∧
      (m.content ⟨i⟩ = .regex emptyRegex ∨ m.content ⟨i⟩ = .string "") := by
    rw [hitems.values]
    simp only [List.forall_mem_cons]
    exact ⟨⟨0, by decide, rfl, .inl (hcells 0 (by decide))⟩,
      ⟨1, by decide, rfl, .inr (hcells 1 (by decide))⟩,
      ⟨2, by decide, rfl, .inl (hcells 2 (by decide))⟩, nofun⟩
  have hsimple : ∀ value ∈ (m.table ref).values, (m.content value).IsSimple := by
    intro value hvalue
    obtain ⟨i, -, rfl, hregex | htext⟩ := hvalues value hvalue
    · rw [hregex]
      trivial
    · rw [htext]
      trivial
  have hflags : m.FlagsByPattern (m.table ref).values := by
    intro a ha b hb x y hx hy _
    obtain ⟨i, -, rfl, ha' | ha'⟩ := hvalues a ha <;> obtain ⟨j, -, rfl, hb' | hb'⟩ := hvalues b hb <;>
      cases hx.symm.trans ha' <;> cases hy.symm.trans hb'
    rfl
  have hbound : ∀ value ∈ (m.table ref).values, value.index < m.cells.size := by
    intro value hvalue
    obtain ⟨i, hi, rfl, -⟩ := hvalues value hvalue
    exact Nat.lt_of_lt_of_le hi hgrown.cells.size
  obtain ⟨out, n, new, hrun, hout, -, counts, -, -, -, -, hleads, -⟩ :=
    frequency_counts_equal_values (.detached 20 1) [] hself hitems.orderly.inOrder.size hbound
      hsimple hflags
  have hclass {i : Nat} (hi : i < 3) : m.classOf ⟨i⟩ = regexesAndText.classOf ⟨i⟩ := by
    unfold Machine.classOf Machine.keyId
    rw [hcells i hi]
  have hcount {i : Nat} (hi : i < 3) (hmem : ⟨i⟩ ∈ (m.table ref).values) :
      (m.table ref).values.countP (m.equal ⟨i⟩) = (m.table ref).values.countP fun value ↦
        decide (regexesAndText.classOf ⟨i⟩ = regexesAndText.classOf value) := by
    refine List.countP_congr fun value hvalue ↦ ?_
    rw [Machine.equal_iff_class (hsimple _ hmem) (hsimple _ hvalue), decide_eq_true_iff]
    obtain ⟨j, hj, rfl, -⟩ := hvalues value hvalue
    rw [hclass hi, hclass hj]
  rw [hitems.values] at hleads hcount
  refine ⟨self, m, out, n, new, hmade, hrun, hout, (hleads ⟨2⟩ (by decide)).trans ?_,
    (hleads ⟨1⟩ (by decide)).trans ?_⟩
  · rw [hcount (by decide) (by decide)]
    rfl
  · rw [hcount (by decide) (by decide)]
    rfl

end ObjectMethod

end TreeScript
