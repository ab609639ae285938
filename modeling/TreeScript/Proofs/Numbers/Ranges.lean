import Mathlib.Data.Rat.Floor
import Mathlib.Order.Interval.Set.UnorderedInterval
import TreeScript.Proofs.Iteration.Arrays
import TreeScript.Proofs.Numbers.Remainders

/-!
# Ranges of numbers

The range from one number to another has the numbers that are reached in steps from the first one
towards the second one and do not pass it (`IsRange`). There is only one such list
(`IsRange.unique`): it begins with the first number, its length is counted by the quotient of the
distance and the step, and it has the second number exactly if the distance is a multiple of the step.

The language finds a range by a loop without a counter. A turn of it goes on from the next number or
ends it (`Native.numbersFrom_of_notPast`, `Native.numbersFrom_of_past`). It comes to an end because a
step takes it closer to the end (`Native.stepsAhead_next`), and by induction on the number of turns to
come it finds as many numbers as do not pass the end (`Native.numbersFrom_eq`). So a range with any
step but zero can be made and is complete (`number_ranges_end_and_are_complete`).
-/

set_option autoImplicit false

namespace TreeScript

/-! ### Terms -/

/-- A number is not past another one, in the direction of a walk. -/
def NotPast (stop : ℚ) (downwards : Bool) (q : ℚ) : Prop := if downwards then stop ≤ q else q ≤ stop

/-- The term of a range at a place: so many steps from the start, which are directed towards the
stop. -/
def rangeTerm (start stop step : ℚ) (i : ℕ) : ℚ :=
  start + i * (if stop < start then -|step| else |step|)

/-- The terms of a range, in their order: all that do not pass the stop. -/
structure IsRange (start stop step : ℚ) (terms : List ℚ) : Prop where
  term : ∀ (i : ℕ) (hi : i < terms.length), terms[i] = rangeTerm start stop step i
  complete : ∀ i, i < terms.length ↔ rangeTerm start stop step i ∈ Set.uIcc start stop

section

variable {start stop step : ℚ} {terms others : List ℚ} {i : ℕ}

/-- A term is not past the stop if the steps up to it fit into the distance. -/
theorem notPast_rangeTerm_iff :
    NotPast stop (stop < start) (rangeTerm start stop step i) ↔ i * |step| ≤ |stop - start| := by
  unfold NotPast rangeTerm
  by_cases hdown : stop < start
  · rw [if_pos (decide_eq_true hdown), if_pos hdown, abs_of_neg (sub_neg.mpr hdown)]
    constructor <;> intro h <;> linarith
  · rw [if_neg (by rwa [decide_eq_true_iff]), if_neg hdown,
      abs_of_nonneg (sub_nonneg.mpr (not_lt.mp hdown))]
    constructor <;> intro h <;> linarith

/-- Terms lie on the side of the start that the stop is on, so that they are between both if they are
not past the stop. -/
theorem rangeTerm_mem_iff :
    rangeTerm start stop step i ∈ Set.uIcc start stop ↔ i * |step| ≤ |stop - start| := by
  have hforward : 0 ≤ i * |step| := mul_nonneg (Nat.cast_nonneg i) (abs_nonneg step)
  rw [← notPast_rangeTerm_iff]
  unfold NotPast rangeTerm
  by_cases hdown : stop < start
  · rw [if_pos hdown, if_pos (decide_eq_true hdown), Set.uIcc_of_ge hdown.le, Set.mem_Icc]
    exact and_iff_left (by linarith)
  · rw [if_neg hdown, if_neg (by rwa [decide_eq_true_iff]), Set.uIcc_of_le (not_lt.mp hdown),
      Set.mem_Icc]
    exact and_iff_right (by linarith)

/-- So many steps fit into a distance, and there is one more term than steps. -/
theorem lt_floor_succ_iff (hstep : step ≠ 0) :
    i < ⌊|stop - start| / |step|⌋₊ + 1 ↔ i * |step| ≤ |stop - start| := by
  rw [Nat.lt_succ_iff, Nat.le_floor_iff (by positivity), le_div_iff₀ (abs_pos.mpr hstep)]

/-- A term is the stop if the steps up to it are the distance. -/
theorem rangeTerm_eq_stop_iff : rangeTerm start stop step i = stop ↔ |stop - start| = i * |step| := by
  unfold rangeTerm
  by_cases hdown : stop < start
  · rw [if_pos hdown, abs_of_neg (sub_neg.mpr hdown)]
    constructor <;> intro h <;> linarith
  · rw [if_neg hdown, abs_of_nonneg (sub_nonneg.mpr (not_lt.mp hdown))]
    constructor <;> intro h <;> linarith

namespace IsRange

theorem unique (h : IsRange start stop step terms) (h' : IsRange start stop step others) :
    terms = others := by
  refine List.ext_getElem (eq_of_forall_lt_iff fun i ↦ ?_) fun i hi hi' ↦ ?_
  · rw [h.complete, h'.complete]
  · rw [h.term i hi, h'.term i hi']

theorem length (h : IsRange start stop step terms) (hstep : step ≠ 0) :
    terms.length = ⌊|stop - start| / |step|⌋₊ + 1 := by
  refine eq_of_forall_lt_iff fun i ↦ ?_
  rw [h.complete, rangeTerm_mem_iff, lt_floor_succ_iff hstep]

theorem head (h : IsRange start stop step terms) : terms.head? = some start := by
  have hfirst : 0 < terms.length := by
    rw [h.complete, rangeTerm_mem_iff, Nat.cast_zero, zero_mul]
    exact abs_nonneg _
  rw [List.head?_eq_getElem?, List.getElem?_eq_getElem hfirst, h.term, rangeTerm, Nat.cast_zero,
    zero_mul, add_zero]

theorem mem_uIcc (h : IsRange start stop step terms) {q : ℚ} (hq : q ∈ terms) :
    q ∈ Set.uIcc start stop := by
  obtain ⟨i, hi, rfl⟩ := List.getElem_of_mem hq
  rw [h.term i hi, ← h.complete]
  exact hi

theorem stop_mem_iff (h : IsRange start stop step terms) (hstep : step ≠ 0) :
    stop ∈ terms ↔ ∃ k : ℤ, |stop - start| = k * |step| := by
  constructor
  · intro hmem
    obtain ⟨i, hi, hterm⟩ := List.getElem_of_mem hmem
    rw [h.term i hi, rangeTerm_eq_stop_iff] at hterm
    exact ⟨i, hterm⟩
  · rintro ⟨k, hk⟩
    have hnatural : 0 ≤ k := by
      have hproduct : 0 ≤ k * |step| := hk ▸ abs_nonneg _
      exact_mod_cast nonneg_of_mul_nonneg_left hproduct (abs_pos.mpr hstep)
    obtain ⟨i, rfl⟩ := Int.eq_ofNat_of_zero_le hnatural
    rw [Int.cast_natCast] at hk
    have hi : i < terms.length := (h.complete i).mpr (rangeTerm_mem_iff.mpr hk.ge)
    rw [← rangeTerm_eq_stop_iff.mpr hk, ← h.term i hi]
    exact List.getElem_mem hi

end IsRange

end

/-! ### The loop -/

namespace Native

variable {stop step n : Decimal} {hstep : 0 < step.coeff} {downwards : Bool} {found : Array Decimal}

theorem goesOn_iff : (if downwards then stop.le n else n.le stop) = true ↔
    NotPast stop.toRat downwards n.toRat := by
  cases downwards with
  | false => exact Decimal.le_iff
  | true => exact Decimal.le_iff

/-- A number that is not past the end is found, and the loop goes on with the next one. -/
theorem numbersFrom_of_notPast (h : NotPast stop.toRat downwards n.toRat) :
    numbersFrom stop step hstep downwards n found = numbersFrom stop step hstep downwards
      (if downwards then n - step else n + step) (found.push n) := by
  rw [numbersFrom, if_pos (goesOn_iff.mpr h)]

/-- A number that is past the end is not found, and the loop ends. -/
theorem numbersFrom_of_past (h : ¬NotPast stop.toRat downwards n.toRat) :
    numbersFrom stop step hstep downwards n found = found := by
  rw [numbersFrom, if_neg (mt goesOn_iff.mp h)]

/-- Assumes: a number of terms that are not past the end, after which all are. The loop ends, and has
found these terms. -/
theorem numbersFrom_eq (hstep : 0 < step.coeff) (count : ℕ) (n : Decimal) (found : Array Decimal)
    (hcount : ∀ i : ℕ, i < count ↔ NotPast stop.toRat downwards
      (n.toRat + i * (if downwards then -step.toRat else step.toRat))) :
    ∃ numbers : List Decimal,
      numbersFrom stop step hstep downwards n found = found ++ numbers.toArray ∧
      numbers.map Decimal.toRat = (List.range count).map fun (i : ℕ) ↦
        n.toRat + i * (if downwards then -step.toRat else step.toRat) := by
  induction count generalizing n found with
  | zero =>
    have hpast : ¬NotPast stop.toRat downwards n.toRat := by
      have hnone := hcount 0
      rw [Nat.cast_zero, zero_mul, add_zero] at hnone
      exact mt hnone.mpr (Nat.lt_irrefl 0)
    exact ⟨[], by rw [numbersFrom_of_past hpast, Array.append_empty], rfl⟩
  | succ count ih =>
    have hwithin : NotPast stop.toRat downwards n.toRat := by
      have hsome := (hcount 0).mp (Nat.succ_pos count)
      rwa [Nat.cast_zero, zero_mul, add_zero] at hsome
    have hnext : (if downwards then n - step else n + step).toRat =
        n.toRat + (if downwards then -step.toRat else step.toRat) := by
      cases downwards with
      | false => exact Decimal.toRat_add n step
      | true => exact (Decimal.toRat_sub n step).trans (sub_eq_add_neg _ _)
    have hlater (i : ℕ) : (if downwards then n - step else n + step).toRat +
        i * (if downwards then -step.toRat else step.toRat) =
          n.toRat + (i + 1 : ℕ) * (if downwards then -step.toRat else step.toRat) := by
      rw [hnext]
      push_cast
      ring
    obtain ⟨numbers, hloop, hnumbers⟩ := ih _ (found.push n) fun i ↦ by
      rw [hlater, ← hcount, Nat.succ_lt_succ_iff]
    refine ⟨n :: numbers, ?_, ?_⟩
    · rw [numbersFrom_of_notPast hwithin, hloop]
      simp
    · rw [List.map_cons, hnumbers, List.range_succ_eq_map, List.map_cons, List.map_map]
      simp only [hlater, Nat.cast_zero, zero_mul, add_zero]
      rfl

/-- The loop finds the range in steps of a width of either sign. -/
theorem numberRange_isRange (start stop : Decimal) (hstep : 0 < step.coeff) {width : ℚ}
    (hwidth : step.toRat = |width|) :
    IsRange start.toRat stop.toRat width
      ((numberRange start stop step hstep).map Decimal.toRat) := by
  have hnonzero : width ≠ 0 := abs_pos.mp (hwidth ▸ Decimal.toRat_pos_iff.mpr hstep)
  have hdirection : stop.lt start = decide (stop.toRat < start.toRat) :=
    Bool.eq_iff_iff.mpr (Decimal.lt_iff.trans decide_eq_true_iff.symm)
  have hterm (i : ℕ) : start.toRat + i * (if stop.lt start then -step.toRat else step.toRat) =
      rangeTerm start.toRat stop.toRat width i := by
    rw [hwidth, hdirection, rangeTerm]
    simp only [decide_eq_true_iff]
  obtain ⟨numbers, hloop, hnumbers⟩ :=
    numbersFrom_eq hstep (⌊|stop.toRat - start.toRat| / |width|⌋₊ + 1) start #[] fun i ↦ by
      rw [hterm, hdirection, notPast_rangeTerm_iff, lt_floor_succ_iff hnonzero]
  rw [numberRange, hloop, Array.toList_append, List.nil_append]
  refine ⟨fun i hi ↦ ?_, fun i ↦ ?_⟩
  · simp only [hnumbers, List.getElem_map, List.getElem_range, hterm]
  · rw [hnumbers, List.length_map, List.length_range, lt_floor_succ_iff hnonzero,
      rangeTerm_mem_iff]

end Native

/-! ### The array -/

/-- New cells for numbers, each with its number. -/
theorem mapM_newNumber (numbers : List Decimal) (m : Machine) :
    ∃ cells n, numbers.mapM newNumber m = .ok cells n ∧ m.Grown n ∧
      (∀ cell ∈ cells, cell.index < n.cells.size) ∧
      cells.map n.content = numbers.map .number :=
  Machine.mapM_contents .number numbers m

theorem numberArg_apply {m : Machine} {args : List CellRef} {i : Nat} {d : Decimal} (name : String)
    (h : args[i]?.bind m.number? = some d) : numberArg name args i m = .ok d m := by
  unfold numberArg
  rw [Run.get_bind]
  simp only [h]
  rfl

/-- A range between two numbers is the array of the numbers that the loop finds. -/
theorem Native.rangeBy_apply {m : Machine} {start stop step : Decimal} {hstep : 0 < step.coeff}
    (args : List CellRef) (hstart : args[0]?.bind m.number? = some start)
    (hstop : args[1]?.bind m.number? = some stop) :
    rangeBy args step hstep m =
      ((numberRange start stop step hstep).mapM newNumber >>= newArray) m := by
  unfold rangeBy
  rw [Run.get_bind]
  simp only [hstart, hstop]

/-- Assumes: two numbers, and a step width that is a number other than zero, of either sign. The range
between the numbers can be made, in a finite number of steps. It is a new array that has the first
number and those that are reached from it in steps towards the last one, all that do not pass it, in
their order, and nothing else. So the first one is at its beginning, there is one more than the steps
that fit into the distance, and the last number is in it exactly if the distance is a multiple of the
width. -/
theorem number_ranges_end_and_are_complete (interp : Interp) (site : Site) (call : Call)
    {m : Machine} {first last width : CellRef} {start stop step : Decimal}
    (hstart : m.number? first = some start) (hstop : m.number? last = some stop)
    (hstep : m.number? width = some step) (hnonzero : step.toRat ≠ 0) :
    ∃ (out : CellRef) (n : Machine) (items : List CellRef) (numbers : List Decimal),
      Native.run interp site call .range [first, last, width] m = .ok out n ∧ m.Grown n ∧
      n.IsArrayOf out items ∧ items.map n.content = numbers.map .number ∧
      IsRange start.toRat stop.toRat step.toRat (numbers.map Decimal.toRat) ∧
      numbers.length = ⌊|stop.toRat - start.toRat| / |step.toRat|⌋₊ + 1 ∧
      numbers.head? = some start ∧
      (stop ∈ numbers ↔ ∃ k : ℤ, |stop.toRat - start.toRat| = k * |step.toRat|) := by
  have hwidth : step.abs.toRat = |step.toRat| := Decimal.toRat_abs step
  have hpositive : 0 < step.abs.coeff := by
    rw [← Decimal.toRat_pos_iff, hwidth]
    exact abs_pos.mpr hnonzero
  have hrange := Native.numberRange_isRange start stop hpositive hwidth
  generalize hnumbers : Native.numberRange start stop step.abs hpositive = numbers at hrange
  obtain ⟨items, n, hitems, hgrown, hbound, hcontents⟩ := mapM_newNumber numbers m
  obtain ⟨out, k, hmade, hmore, harray⟩ := Machine.newArray_items items n
  have hrun : Native.run interp site call .range [first, last, width] m = .ok out k := by
    have hargument : numberArg "range" [first, last, width] 2 m = .ok step m :=
      numberArg_apply "range" hstep
    change (Decimal.abs <$> numberArg "range" [first, last, width] 2 >>= fun magnitude ↦
      if hmagnitude : 0 < magnitude.coeff then
        Native.rangeBy [first, last, width] magnitude hmagnitude
      else Run.fail "range() expects a non-zero step size") m = _
    rw [map_eq_pure_bind, bind_assoc, Run.bind_ok hargument, pure_bind, dif_pos hpositive,
      Native.rangeBy_apply [first, last, width] hstart hstop, hnumbers]
    exact (Run.bind_ok hitems).trans hmade
  refine ⟨out, k, items, numbers, hrun, hgrown.trans hmore, harray, ?_, hrange, ?_, ?_, ?_⟩
  · rw [← hcontents]
    exact List.map_congr_left fun item hitem ↦ hmore.cells.content item (hbound item hitem)
  · rw [← hrange.length hnonzero, List.length_map]
  · have hfirst := hrange.head
    rw [List.head?_map, Option.map_eq_some_iff] at hfirst
    obtain ⟨number, hnumber, hsame⟩ := hfirst
    rw [hnumber, Decimal.toRat_injective hsame]
  · rw [← hrange.stop_mem_iff hnonzero, List.mem_map_of_injective Decimal.toRat_injective]

/-- The numbers 2, 0.5 and -0.75. -/
def fractionalRange : Machine where
  cells := #[.number (.ofInt 2), .number (.ofScientific 5 (-1)), .number (.ofScientific (-75) (-2))]

/-- The range from 2 to 0.5 in steps of -0.75 has the numbers 2, 1.25 and 0.5. -/
theorem range_descends_in_fractions :
    ∃ (out : CellRef) (n : Machine) (items : List CellRef),
      Native.run (interp 1) ⟨⟨0⟩, default⟩ (.detached 20 1) .range [⟨0⟩, ⟨1⟩, ⟨2⟩]
        fractionalRange = .ok out n ∧
      n.IsArrayOf out items ∧
      items.map n.content = [.number (.ofInt 2), .number (.ofScientific 125 (-2)),
        .number (.ofScientific 5 (-1))] := by
  have hstart : fractionalRange.number? ⟨0⟩ = some (.ofInt 2) := rfl
  have hstop : fractionalRange.number? ⟨1⟩ = some (.ofScientific 5 (-1)) := rfl
  have hstep : fractionalRange.number? ⟨2⟩ = some (.ofScientific (-75) (-2)) := rfl
  have hwidth : (Decimal.ofScientific (-75) (-2)).toRat ≠ 0 := by
    rw [Decimal.toRat_ofScientific]
    norm_num
  obtain ⟨out, n, items, numbers, hrun, -, harray, hcontents, hrange, -⟩ :=
    number_ranges_end_and_are_complete (interp 1) ⟨⟨0⟩, default⟩ (.detached 20 1) hstart hstop
      hstep hwidth
  have hexpected : IsRange (Decimal.ofInt 2).toRat (Decimal.ofScientific 5 (-1)).toRat
      (Decimal.ofScientific (-75) (-2)).toRat
      ([.ofInt 2, .ofScientific 125 (-2), .ofScientific 5 (-1)].map Decimal.toRat) := by
    simp only [List.map_cons, List.map_nil, Decimal.toRat_ofInt, Decimal.toRat_ofScientific]
    norm_num
    refine ⟨fun i hi ↦ ?_, fun i ↦ ?_⟩
    · have hplace : i = 0 ∨ i = 1 ∨ i = 2 := by
        simp only [List.length_cons, List.length_nil] at hi
        omega
      rcases hplace with rfl | rfl | rfl <;> norm_num [rangeTerm, abs_of_neg]
    · rw [rangeTerm_mem_iff, ← lt_floor_succ_iff (by norm_num)]
      norm_num [abs_of_neg]
  have hnumbers := List.map_injective_iff.mpr Decimal.toRat_injective (hrange.unique hexpected)
  exact ⟨out, n, items, hrun, harray, by rw [hcontents, hnumbers]; rfl⟩

end TreeScript
