import Mathlib.Data.Option.NAry
import Mathlib.Order.Compare
import TreeScript.Proofs.Numbers.Rational
import TreeScript.Proofs.Equality.Comparing
import TreeScript.Proofs.Export.Exporting

/-!
# The order of values

Two values are compared by the measure of the first: numbers by what they stand for, strings by the
texts, booleans by truth, objects by size, and the empty value by emptiness (`Machine.orderAs`,
`compareValues_eq`). Each measure takes every value to a linear order, so values that are compared by
one measure are in order (`Machine.orderAs_swap`, `Machine.orderAs_trans`). All values of one kind
are, and they never fail to compare (`compareValues_is_ordering_within_kinds`).

Values of different kinds are measured one way in one direction and another way in the other, and
then the two need not agree: the empty value comes before the empty string, whose text comes before
its own.
-/

set_option autoImplicit false

namespace TreeScript

theorem Decimal.cmp_eq (a b : Decimal) : a.cmp b = compare a.toRat b.toRat := by
  have hlt := Decimal.lt_iff (a := a) (b := b)
  have hgt := Decimal.lt_iff (a := b) (b := a)
  unfold Decimal.lt at hlt hgt
  rw [beq_iff_eq] at hlt hgt
  have hswap : b.cmp a = (a.cmp b).swap := Std.OrientedOrd.eq_swap
  rw [hswap, Ordering.swap_eq_lt] at hgt
  rcases lt_trichotomy a.toRat b.toRat with h | h | h
  · rw [hlt.mpr h, compare_lt_iff_lt.mpr h]
  · cases horder : a.cmp b with
    | eq => rw [h, compare_eq_iff_eq.mpr rfl]
    | lt => exact absurd (hlt.mp horder) h.not_lt
    | gt => exact absurd (hgt.mp horder) h.not_gt
  · rw [hgt.mpr h, compare_gt_iff_gt.mpr h]

/-- The kinds of values that are ordered by what they hold, and not by where they are stored. -/
def Kind.isOrdered : Kind → Bool
  | empty | number | string | boolean | object => true
  | _ => false

namespace Machine

/-- The number of entries of an object and of characters of a string. -/
def count (m : Machine) (cell : CellRef) : Nat :=
  match m.content cell with
  | .object ref => (m.table ref).size
  | .string s => s.length
  | _ => 1

/-- The empty value comes before all others. -/
def emptiness (m : Machine) (cell : CellRef) : Nat := if (m.content cell).isEmpty then 0 else 1

/-- The order of two values by the measure of a kind, if both have it. -/
def orderAs (m : Machine) (kind : Kind) (a b : CellRef) : Option Ordering :=
  match kind with
  | .number => Option.map₂ Decimal.cmp (m.number? a) (m.number? b)
  | .string => some (Text.compareText (m.display a) (m.display b))
  | .boolean => some (compare (m.isTrue a).toNat (m.isTrue b).toNat)
  | .object => some (compare (m.count a) (m.count b))
  | .empty => some (compare (m.emptiness a) (m.emptiness b))
  | _ => none

variable {m : Machine} {kind : Kind} {a b c : CellRef} {order order' : Ordering}

/-- The measure of a kind takes values to a linear order. -/
theorem exists_measure (m : Machine) (kind : Kind) :
    ∃ (τ : Type) (_ : Ord τ) (_ : Std.TransOrd τ) (measure : CellRef → Option τ),
      ∀ a b, m.orderAs kind a b = Option.map₂ compare (measure a) (measure b) := by
  cases kind with
  | number =>
    refine ⟨ℚ, inferInstance, inferInstance, fun cell ↦ (m.number? cell).map Decimal.toRat,
      fun a b ↦ ?_⟩
    have hcmp : Decimal.cmp = fun x y ↦ compare x.toRat y.toRat := funext₂ Decimal.cmp_eq
    rw [Option.map₂_map_left, Option.map₂_map_right, ← hcmp]
    rfl
  | string =>
    exact ⟨String, inferInstance, inferInstance, fun cell ↦ some (m.display cell), fun _ _ ↦ rfl⟩
  | boolean =>
    exact ⟨Nat, inferInstance, inferInstance, fun cell ↦ some (m.isTrue cell).toNat, fun _ _ ↦ rfl⟩
  | object =>
    exact ⟨Nat, inferInstance, inferInstance, fun cell ↦ some (m.count cell), fun _ _ ↦ rfl⟩
  | empty =>
    exact ⟨Nat, inferInstance, inferInstance, fun cell ↦ some (m.emptiness cell), fun _ _ ↦ rfl⟩
  | _ => exact ⟨Nat, inferInstance, inferInstance, fun _ ↦ none, fun _ _ ↦ rfl⟩

theorem orderAs_swap : m.orderAs kind b a = (m.orderAs kind a b).map Ordering.swap := by
  obtain ⟨τ, _, _, measure, hmeasure⟩ := m.exists_measure kind
  rw [hmeasure, hmeasure]
  cases measure a <;> cases measure b <;> try rfl
  exact congrArg some Std.OrientedOrd.eq_swap

/-- Assumes: values of which each is at most the next one. The first is at most the last, and comes
before it if it does so somewhere on the way. -/
theorem orderAs_trans (hab : m.orderAs kind a b = some order) (hbc : m.orderAs kind b c = some order')
    (hle : order.isLE) (hle' : order'.isLE) :
    ∃ order'', m.orderAs kind a c = some order'' ∧ order''.isLE ∧
      (order = .lt ∨ order' = .lt → order'' = .lt) := by
  obtain ⟨τ, _, _, measure, hmeasure⟩ := m.exists_measure kind
  rw [hmeasure] at hab hbc ⊢
  obtain ⟨x, y, hx, hy, rfl⟩ := Option.map₂_eq_some_iff.mp hab
  obtain ⟨y', z, hy', hz, rfl⟩ := Option.map₂_eq_some_iff.mp hbc
  cases hy.symm.trans hy'
  refine ⟨compare x z, Option.map₂_eq_some_iff.mpr ⟨x, z, hx, hz, rfl⟩,
    Std.TransOrd.isLE_trans hle hle', fun hbefore ↦ ?_⟩
  rcases hbefore with hbefore | hbefore
  · exact Std.TransCmp.lt_of_lt_of_isLE hbefore hle'
  · exact Std.TransCmp.lt_of_isLE_of_lt hle hbefore

theorem number?_eq_some {d : Decimal} (h : m.content a = .number d) : m.number? a = some d := by
  rw [number?, h]

theorem isTrue_boolean {x : Bool} (h : m.content a = .boolean x) : m.isTrue a = x := by
  rw [isTrue, isTrueIn, h]

theorem exists_number (h : m.kind a = .number) : ∃ d, m.content a = .number d := by
  unfold kind at h
  cases hcontent : m.content a with
  | number d => exact ⟨d, rfl⟩
  | _ => rw [hcontent] at h; cases h

/-- The values of a kind all have its measure. -/
theorem isSome_orderAs (hkind : kind.isOrdered) (ha : m.kind a = kind) (hb : m.kind b = kind) :
    (m.orderAs kind a b).isSome := by
  cases kind with
  | number =>
    obtain ⟨x, hx⟩ := exists_number ha
    obtain ⟨y, hy⟩ := exists_number hb
    change (Option.map₂ Decimal.cmp (m.number? a) (m.number? b)).isSome
    rw [number?_eq_some hx, number?_eq_some hy]
    rfl
  | string | boolean | object | empty => rfl
  | _ => cases hkind

/-- Equal values hold the same, or are objects of one size. -/
theorem content_eq_of_equal (ha : (m.kind a).isOrdered) (hequal : m.equal a b = true) :
    m.content b = m.content a ∨ ∃ s t, m.content a = .object s ∧ m.content b = .object t ∧
      (m.table s).size = (m.table t).size := by
  unfold equal at hequal
  by_cases hobjects : ∃ s t, m.content a = .object s ∧ m.content b = .object t
  · obtain ⟨s, t, hs, ht⟩ := hobjects
    rw [equalIn_objects (tableOf?_eq_some_iff.mpr hs) (tableOf?_eq_some_iff.mpr ht)] at hequal
    refine .inr ⟨s, t, hs, ht, ?_⟩
    by_contra hsizes
    have hdifferent : s ≠ t := fun h ↦ hsizes (by rw [h])
    simp [hsizes, hdifferent] at hequal
  · left
    rw [equalIn] at hequal
    unfold kind at ha
    cases hx : m.content a <;> cases hy : m.content b <;>
      simp_all [Content.kind, Kind.isOrdered]

/-- Equal values are of one kind, and the same by its measure. -/
theorem orderAs_of_equal (ha : (m.kind a).isOrdered) (hequal : m.equal a b = true) :
    m.kind b = m.kind a ∧ m.orderAs (m.kind a) a b = some .eq := by
  unfold kind at ha ⊢
  rcases content_eq_of_equal ha hequal with hsame | ⟨s, t, hs, ht, hsizes⟩
  · refine ⟨by rw [hsame], ?_⟩
    cases hx : m.content a with
    | number d =>
      simp [orderAs, Content.kind, number?_eq_some hx, number?_eq_some (hsame.trans hx),
        Decimal.cmp_eq]
    | string s =>
      simp [orderAs, Content.kind, display_string hx, display_string (hsame.trans hx),
        Text.compareText]
    | boolean x => simp [orderAs, Content.kind, isTrue_boolean hx, isTrue_boolean (hsame.trans hx)]
    | object ref => simp [orderAs, Content.kind, count, hsame]
    | empty => simp [orderAs, Content.kind, emptiness, hsame]
    | _ => rw [hx] at ha; cases ha
  · simp [orderAs, hs, ht, Content.kind, count, hsizes]

end Machine

section

variable {m n : Machine} {a b c : CellRef}

theorem sizeOf_ok (ha : (m.kind a).isOrdered) : sizeOf a m = .ok (m.count a) m := by
  unfold Machine.kind at ha
  unfold sizeOf Machine.count
  rw [Run.get_bind]
  generalize m.content a = x at *
  cases x <;> first | rfl | cases ha

/-- Two values are compared by the measure of the first. Only numbers do not measure everything. -/
theorem compareValues_eq (ha : (m.kind a).isOrdered) (hb : (m.kind b).isOrdered) :
    compareValues a b m =
      match m.orderAs (m.kind a) a b with
      | some order => .ok order m
      | none => .error (.plain s!"cannot compare number with {m.typeName b}") m := by
  have hsize := sizeOf_ok ha
  have hsize' := sizeOf_ok hb
  unfold compareValues
  rw [Run.get_bind]
  unfold Machine.kind at ha ⊢
  cases hx : m.content a with
  | number d =>
    simp only [Machine.orderAs, Content.kind, Machine.number?_eq_some hx]
    cases m.number? b <;> rfl
  | string s => rw [Content.kind, Machine.orderAs, Machine.display_string hx]; rfl
  | boolean x => rw [Content.kind, Machine.orderAs, Machine.isTrue_boolean hx]; rfl
  | object ref => exact (Run.bind_ok hsize).trans (Run.bind_ok hsize')
  | empty =>
    simp only [Machine.orderAs, Content.kind, Machine.emptiness, hx]
    cases m.content b <;> rfl
  | _ => rw [hx] at ha; cases ha

theorem compareValues_eq_ok_iff (ha : (m.kind a).isOrdered) (hb : (m.kind b).isOrdered)
    {order : Ordering} :
    compareValues a b m = .ok order n ↔ m.orderAs (m.kind a) a b = some order ∧ n = m := by
  rw [compareValues_eq ha hb]
  cases m.orderAs (m.kind a) a b <;> simp [eq_comm]

/-- Values of one kind always compare. -/
theorem compareValues_of_kind_eq (ha : (m.kind a).isOrdered) (hkind : m.kind b = m.kind a) :
    ∃ order, m.orderAs (m.kind a) a b = some order ∧ compareValues a b m = .ok order m := by
  obtain ⟨order, horder⟩ := Option.isSome_iff_exists.mp (Machine.isSome_orderAs ha rfl hkind)
  exact ⟨order, horder, (compareValues_eq_ok_iff ha (hkind ▸ ha)).mpr ⟨horder, rfl⟩⟩

/-- Assumes: a number and a value of another kind. They do not compare. -/
theorem compareValues_number_error (ha : m.kind a = .number) (hb : (m.kind b).isOrdered)
    (hkind : m.kind b ≠ .number) :
    compareValues a b m = .error (.plain s!"cannot compare number with {m.typeName b}") m := by
  have hnone : m.number? b = none := by
    unfold Machine.kind at hb hkind
    unfold Machine.number?
    cases hy : m.content b with
    | number d => exact absurd (by rw [hy]; rfl) hkind
    | _ => first | rfl | rw [hy] at hb; cases hb
  rw [compareValues_eq (by rw [ha]; rfl) hb, ha, Machine.orderAs, hnone, Option.map₂_none_right]

/-- Assumes: values that are ordered by what they hold. Values of one kind always compare, and the
other way round they compare the other way round; a number and a value of another kind never compare
both ways. If the first two are of one kind, and each of the three is at most the next one, then the
first is at most the last, and before it if it is before the second or that before the last.
Equal values compare as equal. -/
theorem compareValues_is_ordering_within_kinds (ha : (m.kind a).isOrdered)
    (hb : (m.kind b).isOrdered) (hc : (m.kind c).isOrdered) :
    (m.kind a = m.kind b → ∃ order, compareValues a b m = .ok order m ∧
        compareValues b a m = .ok order.swap m) ∧
      (m.kind a = .number → m.kind b ≠ .number → compareValues a b m =
        .error (.plain s!"cannot compare number with {m.typeName b}") m) ∧
      (m.kind a = m.kind b → ∀ order order' n n', compareValues a b m = .ok order n →
        compareValues b c m = .ok order' n' → order.isLE → order'.isLE →
        ∃ order'', compareValues a c m = .ok order'' m ∧ order''.isLE ∧
          (order = .lt ∨ order' = .lt → order'' = .lt)) ∧
      (m.equal a b = true → compareValues a b m = .ok .eq m) := by
  refine ⟨fun hkind ↦ ?_, fun hnumber hother ↦ compareValues_number_error hnumber hb hother,
    fun hkind order order' n n' hab hbc hle hle' ↦ ?_, fun hequal ↦ ?_⟩
  · obtain ⟨order, horder, hforth⟩ := compareValues_of_kind_eq ha hkind.symm
    refine ⟨order, hforth, (compareValues_eq_ok_iff hb ha).mpr ⟨?_, rfl⟩⟩
    rw [← hkind, Machine.orderAs_swap, horder, Option.map_some]
  · have horder := ((compareValues_eq_ok_iff ha hb).mp hab).1
    have horder' := ((compareValues_eq_ok_iff hb hc).mp hbc).1
    rw [← hkind] at horder'
    obtain ⟨order'', hlast, hbefore⟩ := Machine.orderAs_trans horder horder' hle hle'
    exact ⟨order'', (compareValues_eq_ok_iff ha hc).mpr ⟨hlast, rfl⟩, hbefore⟩
  · have horder := (Machine.orderAs_of_equal ha hequal).2
    exact (compareValues_eq_ok_iff ha hb).mpr ⟨horder, rfl⟩

/-- A store with three texts. -/
def threeTexts : Machine := { cells := #[.string "a", .string "b", .string "c"] }

/-- The first text comes before the second and that before the third, so the second comes after the
first, and the third after the first as well. -/
theorem texts_compare_in_line :
    compareValues ⟨1⟩ ⟨0⟩ threeTexts = .ok .gt threeTexts ∧
      compareValues ⟨0⟩ ⟨2⟩ threeTexts = .ok .lt threeTexts := by
  have hfirst : compareValues ⟨0⟩ ⟨1⟩ threeTexts = .ok .lt threeTexts :=
    congrArg (EStateM.Result.ok · _) (by decide : Text.compareText "a" "b" = .lt)
  have hsecond : compareValues ⟨1⟩ ⟨2⟩ threeTexts = .ok .lt threeTexts :=
    congrArg (EStateM.Result.ok · _) (by decide : Text.compareText "b" "c" = .lt)
  obtain ⟨hboth, -, htrans, -⟩ := compareValues_is_ordering_within_kinds (m := threeTexts)
    (a := ⟨0⟩) (b := ⟨1⟩) (c := ⟨2⟩) rfl rfl rfl
  obtain ⟨order, horder, hback⟩ := hboth rfl
  obtain ⟨order', hlast, -, hbefore⟩ := htrans rfl _ _ _ _ hfirst hsecond rfl rfl
  cases hfirst.symm.trans horder
  rw [hbefore (.inl rfl)] at hlast
  exact ⟨hback, hlast⟩

/-- The empty value comes before the empty text, and the empty text before the empty value, which
is not before itself. -/
theorem empty_and_empty_text_precede_each_other :
    let m : Machine := { cells := #[.empty, .string ""] }
    compareValues ⟨0⟩ ⟨1⟩ m = .ok .lt m ∧ compareValues ⟨1⟩ ⟨0⟩ m = .ok .lt m ∧
      compareValues ⟨0⟩ ⟨0⟩ m = .ok .eq m := by
  refine ⟨rfl, ?_, rfl⟩
  have hbefore : Text.compareText "" "null" = .lt := by decide
  exact congrArg (EStateM.Result.ok · _) hbefore

end

end TreeScript
