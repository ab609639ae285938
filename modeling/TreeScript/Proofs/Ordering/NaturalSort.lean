import TreeScript.Proofs.Ordering.Measures
import TreeScript.Proofs.Ordering.SortMethods

/-!
# Sorting values of one kind

Values of one kind are ranked by how they compare (`Machine.ranks_goesBefore`). So an object with
values of one kind is sorted stably into a new one: an array gives an array of its sorted values, and
another object keeps each value under its key. Keys of one kind are sorted likewise, and the least and
the greatest value are the first ones of all that are as small or as great
(`natural_sort_is_stable`).

An object that is no array has to be in order for this. If the cell of a key was overwritten, two
entries may stand under the same key, and of these only one gets into the new object.
-/

set_option autoImplicit false

namespace TreeScript

open Sorting

namespace Machine

variable {m : Machine} {kind : Kind} {a b : CellRef} {args : List CellRef}

/-- Comparing two values finds that the first one goes before the other. -/
def goesBefore (m : Machine) (a b : CellRef) : Bool :=
  Outcome.value? (compareValues a b m) == some .lt

theorem goesBefore_eq (ha : (m.kind a).isOrdered) (hb : (m.kind b).isOrdered) :
    m.goesBefore a b = (m.orderAs (m.kind a) a b == some .lt) := by
  unfold goesBefore
  rw [compareValues_eq ha hb]
  cases m.orderAs (m.kind a) a b <;> rfl

/-- Values of one kind are ranked. -/
theorem ranks_goesBefore (hkind : kind.isOrdered) :
    Ranks (fun cell ↦ m.kind cell = kind) m.goesBefore := by
  have hbefore {a b : CellRef} (ha : m.kind a = kind) (hb : m.kind b = kind) :
      m.goesBefore a b = (m.orderAs kind a b == some .lt) := by
    rw [goesBefore_eq (ha ▸ hkind) (hb ▸ hkind), ha]
  refine ⟨fun {a b} ha hb hab ↦ ?_, fun {a b c} ha hb hc hab hbc ↦ ?_⟩
  · rw [hbefore ha hb, beq_iff_eq] at hab
    rw [hbefore hb ha, orderAs_swap, hab]
    rfl
  · obtain ⟨order, horder⟩ := Option.isSome_iff_exists.mp (isSome_orderAs (m := m) hkind ha hb)
    obtain ⟨order', horder'⟩ := Option.isSome_iff_exists.mp (isSome_orderAs (m := m) hkind hb hc)
    rw [hbefore hb ha, orderAs_swap, horder] at hab
    rw [hbefore hc hb, orderAs_swap, horder'] at hbc
    obtain ⟨order'', hlast, hle, -⟩ := orderAs_trans horder horder'
      (by cases order <;> first | rfl | cases hab) (by cases order' <;> first | rfl | cases hbc)
    rw [hbefore hc ha, orderAs_swap, hlast]
    cases order'' <;> first | rfl | cases hle

/-- No function of two parameters is given to compare by. -/
def LacksComparator (m : Machine) (args : List CellRef) : Prop :=
  ∀ function ∈ args.head?, ((m.content function).isFunction &&
    (m.content function).paramCount?.getD 2 == 2) = false

/-- A computation makes a new object, and leaves what there is alone. -/
def MakesObject (m : Machine) (x : Run CellRef) (Made : Machine → TableRef → Prop) : Prop :=
  ∃ out n new, x m = .ok out n ∧ n.content out = .object new ∧ m.BuiltFrom new n ∧ Made n new

end Machine

namespace ObjectMethod

variable {call : Call} {m : Machine} {kind : Kind} {self a b : CellRef} {ref : TableRef}
  {args : List CellRef}

theorem comparator_natural (call : Call) (h : m.LacksComparator args) :
    comparator call args m = .ok naturalOrder m := by
  unfold comparator
  match args with
  | [] => rfl
  | function :: rest =>
    have hread : TreeScript.content function m = .ok (m.content function) m := rfl
    dsimp only
    rw [Run.bind_ok hread, h function rfl]
    rfl

/-- The order of two values as a number. -/
def orderNumber : Ordering → Int
  | .lt => -1
  | .eq => 0
  | .gt => 1

theorem naturalOrder_ok {order : Ordering} (h : compareValues a b m = .ok order m) :
    naturalOrder a b m = .ok (orderNumber order) m := by
  unfold naturalOrder
  rw [Run.bind_ok h]
  cases order <;> rfl

/-- The natural order of two values of one kind says which of them goes before the other. -/
theorem naturalOrder_achieves (hkind : kind.isOrdered) (ha : m.kind a = kind)
    (hb : m.kind b = kind) :
    Achieves (· = m) (fun c ↦ decide (c < 0) = m.goesBefore a b ∧
      decide (0 < (c * -1).bmod (twoTo 64)) = m.goesBefore a b ∧
      decide (0 < (c * 1).bmod (twoTo 64)) = m.goesBefore b a) (naturalOrder a b) := by
  rintro k rfl
  subst ha
  obtain ⟨order, horder, hcompared⟩ := compareValues_of_kind_eq hkind hb
  refine ⟨orderNumber order, k, naturalOrder_ok hcompared, rfl, ?_⟩
  rw [Machine.goesBefore_eq hkind (hb ▸ hkind), Machine.goesBefore_eq (hb ▸ hkind) hkind, hb,
    Machine.orderAs_swap (a := a) (b := b), horder]
  cases order <;> decide

/-- Assumes: values or keys of one kind, whichever is compared. The entries are sorted stably by the
natural order, and then an array or an object is made of them. -/
theorem sortEntries_natural (call : Call) (ref : TableRef) (byKey keyed : Bool)
    (hargs : m.LacksComparator args) (hkind : kind.isOrdered)
    (hkeyed : (byKey && !m.isArray ref) = keyed)
    (hentries : ∀ entry ∈ (m.table ref).entries, m.kind (sortedPart keyed entry) = kind) :
    ∃ sorted, StablySorted (fun entry ↦ m.kind (sortedPart keyed entry) = kind)
        (fun a b ↦ m.goesBefore (sortedPart keyed a) (sortedPart keyed b))
        (m.table ref).entries sorted ∧
      sortEntries call ref args byKey m = rebuild (m.isArray ref) sorted m := by
  obtain ⟨sorted, k, rfl, hsorted, hrun⟩ := sortEntries_apply (I := (· = m)) ref byKey keyed
    (comparator_natural call hargs) rfl (fun k hk ↦ by rw [hk, hkeyed])
    (Machine.ranks_goesBefore hkind)
    (fun a b ha hb ↦ (naturalOrder_achieves hkind ha hb).mono fun c hc ↦ hc.1) hentries
  exact ⟨sorted, hsorted, hrun⟩

/-- Assumes: some values of one kind. The first least and the first greatest of them are found. -/
theorem extreme_natural {values : List CellRef} (call : Call) (hargs : m.LacksComparator args)
    (hkind : kind.isOrdered) (hvalues : ∀ value ∈ values, m.kind value = kind) (hsome : values ≠ []) :
    (∃ least, extreme call values args (-1) m = .ok least m ∧
        IsFirstBest m.goesBefore values least) ∧
      ∃ greatest, extreme call values args 1 m = .ok greatest m ∧
        IsFirstBest (fun a b ↦ m.goesBefore b a) values greatest := by
  have hranks := Machine.ranks_goesBefore (m := m) hkind
  have hcomparator := comparator_natural call hargs
  obtain ⟨least, k, hmin, rfl, hleast⟩ := extreme_apply (I := (· = m)) (-1) hcomparator rfl hranks
    (fun a b ha hb ↦ (naturalOrder_achieves hkind ha hb).mono fun c hc ↦ hc.2.1) hvalues hsome
  obtain ⟨greatest, k, hmax, rfl, hgreatest⟩ := extreme_apply (I := (· = k)) 1 hcomparator rfl
    hranks.flip (fun a b ha hb ↦ (naturalOrder_achieves hkind ha hb).mono fun c hc ↦ hc.2.2) hvalues
    hsome
  exact ⟨⟨least, hmin, hleast⟩, greatest, hmax, hgreatest⟩

/-- Assumes: entries of an object in order, arranged anew. An object can be made of them. -/
theorem rebuild_makesObject (horderly : m.Orderly ref) {sorted : List Entry}
    (hperm : sorted.Perm (m.table ref).entries) :
    m.MakesObject (rebuild false sorted) fun n new ↦ (n.table new).entries = sorted := by
  obtain ⟨out, n, new, hrun, hout, hbuilt, hentries⟩ := rebuild_apply (m := m) false sorted
    fun _ ↦ ⟨fun entry hentry ↦ horderly.keys entry (hperm.mem_iff.mp hentry),
      (hperm.map fun entry ↦ m.keyId entry.key).nodup_iff.mpr horderly.inOrder.nodup_ids⟩
  exact ⟨out, n, new, hrun, hout, hbuilt, hentries⟩

/-- Assumes: an object, and no function to compare by. If its values are of one kind, an array of them
is sorted stably into a new array, and any other object, if it is in order, into a new object with the
same entries; and the first least and the first greatest value are found. If an object that is no
array is in order and has keys of one kind, it is sorted stably by its keys. What there was is left
alone. -/
theorem natural_sort_is_stable (call : Call) (hself : m.content self = .object ref)
    (hargs : m.LacksComparator args) (hkind : kind.isOrdered) :
    ((∀ value ∈ (m.table ref).values, m.kind value = kind) →
      (m.isArray ref = true → m.MakesObject (run call .sort self args) fun n new ↦
        ∃ sorted, StablySorted (m.kind · = kind) m.goesBefore (m.table ref).values sorted ∧
          n.HasItems new sorted) ∧
      (m.isArray ref = false → m.Orderly ref → m.MakesObject (run call .sort self args) fun n new ↦
        StablySorted (fun entry ↦ m.kind entry.value = kind)
          (fun a b ↦ m.goesBefore a.value b.value) (m.table ref).entries (n.table new).entries) ∧
      ((m.table ref).values ≠ [] →
        (∃ least, run call .min self args m = .ok least m ∧
          IsFirstBest m.goesBefore (m.table ref).values least) ∧
        ∃ greatest, run call .max self args m = .ok greatest m ∧
          IsFirstBest (fun a b ↦ m.goesBefore b a) (m.table ref).values greatest)) ∧
    (m.isArray ref = false → m.Orderly ref → (∀ key ∈ (m.table ref).keys, m.kind key = kind) →
      m.MakesObject (run call .sortKey self args) fun n new ↦
        StablySorted (fun entry ↦ m.kind entry.key = kind)
          (fun a b ↦ m.goesBefore a.key b.key) (m.table ref).entries (n.table new).entries) := by
  have hsort : run call .sort self args m = sortEntries call ref args false m :=
    Run.bind_ok (tableOrNew_apply hself)
  have hsortKey : run call .sortKey self args m = sortEntries call ref args true m :=
    Run.bind_ok (tableOrNew_apply hself)
  refine ⟨fun hvalues ↦ ?_, fun harray horderly hkeys ↦ ?_⟩
  · obtain ⟨sorted, hsorted, hrun⟩ := sortEntries_natural call ref false false hargs hkind rfl
      fun entry hentry ↦ hvalues _ (List.mem_map_of_mem hentry)
    refine ⟨fun harray ↦ ?_, fun harray horderly ↦ ?_, fun hsome ↦ ?_⟩
    · obtain ⟨out, n, new, hrebuilt, hout, hbuilt, hitems⟩ := rebuild_apply (m := m) true sorted nofun
      rw [harray] at hrun
      have hstable : StablySorted (m.kind · = kind) m.goesBefore (m.table ref).values
          (sorted.map Entry.value) := hsorted.map fun value ↦ ⟨⟨value, value⟩, rfl⟩
      exact ⟨out, n, new, hsort.trans (hrun.trans hrebuilt), hout, hbuilt, _, hstable, hitems⟩
    · obtain ⟨out, n, new, hrebuilt, hout, hbuilt, rfl⟩ := rebuild_makesObject horderly hsorted.perm
      rw [harray] at hrun
      exact ⟨out, n, new, hsort.trans (hrun.trans hrebuilt), hout, hbuilt, hsorted⟩
    · have hread := valuesOf_of_object hself
      obtain ⟨⟨least, hmin, hleast⟩, greatest, hmax, hgreatest⟩ :=
        extreme_natural call hargs hkind hvalues hsome
      exact ⟨⟨least, (Run.bind_ok hread).trans hmin, hleast⟩, greatest,
        (Run.bind_ok hread).trans hmax, hgreatest⟩
  · have hkeyed : (true && !m.isArray ref) = true := by rw [harray]; rfl
    obtain ⟨sorted, hsorted, hrun⟩ := sortEntries_natural call ref true true hargs hkind hkeyed
      fun entry hentry ↦ hkeys _ (List.mem_map_of_mem hentry)
    obtain ⟨out, n, new, hrebuilt, hout, hbuilt, rfl⟩ := rebuild_makesObject horderly hsorted.perm
    rw [harray] at hrun
    exact ⟨out, n, new, hsortKey.trans (hrun.trans hrebuilt), hout, hbuilt, hsorted⟩

/-- Cells for two names and two numbers, and an object without entries. -/
def namesAndNumbers : Machine where
  cells := #[.object ⟨0⟩, .string "x", .number (Decimal.ofInt 2), .string "y",
    .number (Decimal.ofInt 1)]
  tables := #[{}]

/-- The numbers under the names, the greater one first. -/
def greaterFirst : Machine :=
  (namesAndNumbers.after (.enter ⟨0⟩ ⟨1⟩ ⟨2⟩)).after (.enter ⟨0⟩ ⟨3⟩ ⟨4⟩)

theorem greaterFirst_entries : greaterFirst.Orderly ⟨0⟩ ∧
    (greaterFirst.table ⟨0⟩).entries = [⟨⟨1⟩, ⟨2⟩⟩, ⟨⟨3⟩, ⟨4⟩⟩] := by
  have hempty : namesAndNumbers.Orderly ⟨0⟩ := Machine.orderly_of_empty (by decide) rfl
  have hnone (id : KeyId) : (namesAndNumbers.table ⟨0⟩).get? id = none := Table.get?_empty id
  have hfirst : (namesAndNumbers.after (.enter ⟨0⟩ ⟨1⟩ ⟨2⟩)).Orderly ⟨0⟩ :=
    hempty.after fun _ ↦ by decide
  refine ⟨hfirst.after fun _ ↦ by decide, ?_⟩
  unfold greaterFirst
  rw [hfirst.entries_enter, hempty.entries_enter (hnone _)]
  · rfl
  · rw [hempty.get?_enter, hnone]
    decide

/-- An object with a greater number before a smaller one is sorted, each number under its name. -/
theorem smaller_number_comes_first :
    greaterFirst.Orderly ⟨0⟩ ∧ ∃ out n new,
      run (Call.detached 20 1) .sort ⟨0⟩ [] greaterFirst = .ok out n ∧
        n.content out = .object new ∧ (n.table new).entries = [⟨⟨3⟩, ⟨4⟩⟩, ⟨⟨1⟩, ⟨2⟩⟩] := by
  obtain ⟨horderly, hentries⟩ := greaterFirst_entries
  have hvalues : ∀ value ∈ (greaterFirst.table ⟨0⟩).values, greaterFirst.kind value = .number := by
    rw [Table.values, hentries]
    decide
  have harray : greaterFirst.isArray ⟨0⟩ = false := by
    have hkey : ⟨1⟩ ∈ (greaterFirst.table ⟨0⟩).keys := by
      rw [Table.keys, hentries]
      decide
    exact Machine.not_isArray_of_name hkey (rfl : greaterFirst.content ⟨1⟩ = .string "x")
  have hself : greaterFirst.content ⟨0⟩ = .object ⟨0⟩ := rfl
  have hargs : greaterFirst.LacksComparator [] := by
    intro function hnone
    cases hnone
  have hkind : Kind.number.isOrdered := rfl
  obtain ⟨hsorts, -⟩ := natural_sort_is_stable (.detached 20 1) hself hargs hkind
  obtain ⟨out, n, new, hrun, hout, -, hsorted⟩ := (hsorts hvalues).2.1 harray horderly
  refine ⟨horderly, out, n, new, hrun, hout, ?_⟩
  rw [hentries] at hsorted
  exact hsorted.pair (by decide)

end ObjectMethod

end TreeScript
