import TreeScript.Proofs.Numbers.Division

/-!
# Remainders obey the law of division

What is left of a number when a whole multiple of another one is taken away is not unique. The
operator `%` leaves a number that is smaller than the divisor and has the sign of the dividend
(`LeavesRemainder`), and `%%` one that is smaller than the divisor and not negative
(`LeavesResidue`). There is only one such number in either case (`LeavesRemainder.unique`,
`LeavesResidue.unique`), so that these two laws say which number the operators give, also for
fractions and for all combinations of signs. Only a divisor that is zero leaves none
(`remainders_obey_division_law`).

Both operands are brought to one denominator, where the remainder is one of integers, and a negative
remainder becomes a residue when the magnitude of the divisor is added.
-/

set_option autoImplicit false

namespace TreeScript

/-! ### What may be left -/

/-- A rest of a dividend that differs from it by a whole multiple of a divisor, is smaller than the
divisor, and is zero or has the sign of the dividend. -/
structure LeavesRemainder (dividend divisor rest : ℚ) : Prop where
  multiple : ∃ k : ℤ, dividend - rest = k * divisor
  small : |rest| < |divisor|
  positive : 0 < rest → 0 < dividend
  negative : rest < 0 → dividend < 0

/-- A rest of a dividend that differs from it by a whole multiple of a divisor, is smaller than the
divisor, and is not negative. -/
structure LeavesResidue (dividend divisor rest : ℚ) : Prop where
  multiple : ∃ k : ℤ, dividend - rest = k * divisor
  small : rest < |divisor|
  nonneg : 0 ≤ rest

section

variable {dividend divisor rest other : ℚ}

/-- Rests that differ by less than the divisor are the same. -/
theorem eq_of_multiples (h : ∃ k : ℤ, dividend - rest = k * divisor)
    (h' : ∃ k : ℤ, dividend - other = k * divisor) (hnear : |rest - other| < |divisor|) :
    rest = other := by
  obtain ⟨k, hk⟩ := h
  obtain ⟨l, hl⟩ := h'
  have hdifference : rest - other = (l - k : ℤ) * divisor := by
    push_cast
    linarith
  have hnone : l - k = 0 := by
    by_contra hsome
    have hone : (1 : ℚ) ≤ |((l - k : ℤ) : ℚ)| := by exact_mod_cast Int.one_le_abs hsome
    rw [hdifference, abs_mul] at hnear
    exact absurd hnear (not_lt.mpr (le_mul_of_one_le_left (abs_nonneg divisor) hone))
  rw [hnone, Int.cast_zero, zero_mul] at hdifference
  linarith

theorem LeavesRemainder.unique (h : LeavesRemainder dividend divisor rest)
    (h' : LeavesRemainder dividend divisor other) : rest = other := by
  refine eq_of_multiples h.multiple h'.multiple ?_
  have hrest := abs_lt.mp h.small
  have hother := abs_lt.mp h'.small
  -- The rests lie on the same side of zero, the one where the dividend is.
  rcases le_or_gt dividend 0 with hnegative | hpositive
  · have hleft : rest ≤ 0 := not_lt.mp fun hrest ↦ (h.positive hrest).not_ge hnegative
    have hright : other ≤ 0 := not_lt.mp fun hother ↦ (h'.positive hother).not_ge hnegative
    exact abs_lt.mpr ⟨by linarith, by linarith⟩
  · have hleft : 0 ≤ rest := not_lt.mp fun hrest ↦ (h.negative hrest).not_gt hpositive
    have hright : 0 ≤ other := not_lt.mp fun hother ↦ (h'.negative hother).not_gt hpositive
    exact abs_lt.mpr ⟨by linarith, by linarith⟩

theorem LeavesResidue.unique (h : LeavesResidue dividend divisor rest)
    (h' : LeavesResidue dividend divisor other) : rest = other := by
  have hrest := h.nonneg
  have hother := h'.nonneg
  refine eq_of_multiples h.multiple h'.multiple (abs_lt.mpr ⟨?_, ?_⟩)
  · linarith [h'.small]
  · linarith [h.small]

/-- A remainder is a residue, with the magnitude of the divisor added if it is negative. -/
theorem LeavesRemainder.residue (h : LeavesRemainder dividend divisor rest) :
    LeavesResidue dividend divisor (if rest < 0 then rest + |divisor| else rest) := by
  have hsmall := abs_lt.mp h.small
  by_cases hnegative : rest < 0
  · rw [if_pos hnegative]
    refine ⟨?_, by linarith, by linarith⟩
    obtain ⟨k, hk⟩ := h.multiple
    rcases abs_choice divisor with hsame | hopposite
    · refine ⟨k - 1, ?_⟩
      rw [hsame]
      push_cast
      linarith
    · refine ⟨k + 1, ?_⟩
      rw [hopposite]
      push_cast
      linarith
  · rw [if_neg hnegative]
    exact ⟨h.multiple, hsmall.2, not_lt.mp hnegative⟩

/-- The law does not depend on the unit in which everything is measured. -/
theorem LeavesRemainder.scale {factor : ℚ} (hfactor : 0 < factor)
    (h : LeavesRemainder dividend divisor rest) :
    LeavesRemainder (dividend * factor) (divisor * factor) (rest * factor) where
  multiple := by
    obtain ⟨k, hk⟩ := h.multiple
    exact ⟨k, by rw [← sub_mul, hk, mul_assoc]⟩
  small := by
    rw [abs_mul, abs_mul]
    exact mul_lt_mul_of_pos_right h.small (abs_pos.mpr hfactor.ne')
  positive hrest := mul_pos (h.positive (pos_of_mul_pos_left hrest hfactor.le)) hfactor
  negative hrest := mul_neg_of_neg_of_pos (h.negative (neg_of_mul_neg_left hrest hfactor.le)) hfactor

/-- Integers leave the remainder of the division that drops the fraction of the quotient. -/
theorem leavesRemainder_tmod (a : ℤ) {b : ℤ} (hb : b ≠ 0) :
    LeavesRemainder a b (a.tmod b : ℤ) := by
  have hside {n : ℤ} (hn : 0 ≤ n) : (-n).tmod b ≤ 0 := by
    rw [Int.neg_tmod]
    exact neg_nonpos.mpr (Int.tmod_nonneg b hn)
  refine ⟨⟨a.tdiv b, ?_⟩, ?_, fun hrest ↦ ?_, fun hrest ↦ ?_⟩
  · have hlaw : a.tdiv b * b + a.tmod b = a := by
      rw [mul_comm]
      exact Int.mul_tdiv_add_tmod a b
    rw [sub_eq_iff_eq_add]
    exact_mod_cast hlaw.symm
  · have hless : (a.tmod b).natAbs < b.natAbs := by
      rw [Int.natAbs_tmod]
      exact Nat.mod_lt _ (Int.natAbs_pos.mpr hb)
    rw [← Int.cast_abs, ← Int.cast_abs, Int.abs_eq_natAbs, Int.abs_eq_natAbs]
    exact_mod_cast hless
  · have hrest : 0 < a.tmod b := by exact_mod_cast hrest
    rw [Int.cast_pos]
    by_contra hnegative
    have hopposite := hside (n := -a) (by omega)
    rw [neg_neg] at hopposite
    omega
  · have hrest : a.tmod b < 0 := by exact_mod_cast hrest
    rw [Int.cast_lt_zero]
    by_contra hpositive
    have hnatural := Int.tmod_nonneg b (not_lt.mp hpositive)
    omega

end

namespace Decimal

/-! ### The remainders of numbers -/

variable {a b r : Decimal} {e : NumberError}

@[simp] theorem toRat_abs (a : Decimal) : a.abs.toRat = |a.toRat| := by
  rw [abs, toRat_reduce, toRat, abs_div, abs_of_pos (tenTo_pos a.scale), ← Int.cast_abs,
    Int.abs_eq_natAbs]

theorem sign_lt_zero_iff : r.sign < 0 ↔ r.toRat < 0 := by
  rw [sign, Int.sign_neg_iff, toRat, div_lt_iff₀ (tenTo_pos r.scale), zero_mul, Int.cast_lt_zero]

/-- Brought to one denominator, numbers leave the remainder of integers. -/
theorem leavesRemainder_rem (a : Decimal) (hb : b.toRat ≠ 0) :
    LeavesRemainder a.toRat b.toRat (rem a b).toRat := by
  have hunit : (0 : ℚ) < (tenTo (a.scale + b.scale) : ℚ)⁻¹ := inv_pos.mpr (tenTo_pos _)
  have hpa := (tenTo_pos a.scale).ne'
  have hpb := (tenTo_pos b.scale).ne'
  have hdividend : ((a.coeff * tenTo b.scale : ℤ) : ℚ) * (tenTo (a.scale + b.scale) : ℚ)⁻¹ =
      a.toRat := by
    rw [toRat, tenTo_add]
    push_cast
    field_simp
  have hdivisor : ((b.coeff * tenTo a.scale : ℤ) : ℚ) * (tenTo (a.scale + b.scale) : ℚ)⁻¹ =
      b.toRat := by
    rw [toRat, tenTo_add]
    push_cast
    field_simp
  have hsome : b.coeff * tenTo a.scale ≠ 0 := by
    intro hzero
    rw [hzero, Int.cast_zero, zero_mul] at hdivisor
    exact hb hdivisor.symm
  have hlaw := (leavesRemainder_tmod (a.coeff * tenTo b.scale) hsome).scale hunit
  rwa [hdividend, hdivisor, ← div_eq_mul_inv, ← toRat_reduce] at hlaw

theorem leavesResidue_rem (a : Decimal) (hb : b.toRat ≠ 0) :
    LeavesResidue a.toRat b.toRat
      (if (rem a b).sign < 0 then rem a b + b.abs else rem a b).toRat := by
  have hresidue := (leavesRemainder_rem a hb).residue
  by_cases hnegative : (rem a b).toRat < 0
  · rw [if_pos (sign_lt_zero_iff.mpr hnegative), toRat_add, toRat_abs]
    rwa [if_pos hnegative] at hresidue
  · rw [if_neg (mt sign_lt_zero_iff.mp hnegative)]
    rwa [if_neg hnegative] at hresidue

/-- A remainder is found unless the divisor is zero. -/
theorem remainder_eq (a b : Decimal) :
    a.remainder b = if b.toRat = 0 then .error .divisionByZero else .ok (rem a b) := by
  unfold remainder
  simp only [isZero_iff_toRat]

theorem modulo_eq (a b : Decimal) : a.modulo b = if b.toRat = 0 then .error .divisionByZero
    else .ok (if (rem a b).sign < 0 then rem a b + b.abs else rem a b) := by
  rw [modulo, remainder_eq]
  split
  · rfl
  · rfl

theorem remainder_eq_ok_iff :
    a.remainder b = .ok r ↔ b.toRat ≠ 0 ∧ LeavesRemainder a.toRat b.toRat r.toRat := by
  rw [remainder_eq]
  by_cases hzero : b.toRat = 0
  · simp [hzero]
  · rw [if_neg hzero, Except.ok.injEq]
    have hlaw := leavesRemainder_rem a hzero
    exact ⟨fun hsame ↦ ⟨hzero, hsame ▸ hlaw⟩, fun h ↦ toRat_injective (hlaw.unique h.2)⟩

theorem modulo_eq_ok_iff :
    a.modulo b = .ok r ↔ b.toRat ≠ 0 ∧ LeavesResidue a.toRat b.toRat r.toRat := by
  rw [modulo_eq]
  by_cases hzero : b.toRat = 0
  · simp [hzero]
  · rw [if_neg hzero, Except.ok.injEq]
    have hlaw := leavesResidue_rem a hzero
    exact ⟨fun hsame ↦ ⟨hzero, hsame ▸ hlaw⟩, fun h ↦ toRat_injective (hlaw.unique h.2)⟩

theorem remainder_eq_error_iff : a.remainder b = .error e ↔ b.toRat = 0 ∧ e = .divisionByZero := by
  rw [remainder_eq]
  by_cases hzero : b.toRat = 0 <;> simp [hzero, eq_comm]

theorem modulo_eq_error_iff : a.modulo b = .error e ↔ b.toRat = 0 ∧ e = .divisionByZero := by
  rw [modulo_eq]
  by_cases hzero : b.toRat = 0 <;> simp [hzero, eq_comm]

end Decimal

/-! ### The operators -/

namespace Operator

/-- The operator `%` of the language. -/
def percent : Operator := between "%" 120 [numeric2 .remainder]

/-- The operator `%%` of the language. -/
def doublePercent : Operator := between "%%" 120 [numeric2 .modulo]

theorem percent_mem : percent ∈ standardOperators := by
  simp [standardOperators, percent]

theorem doublePercent_mem : doublePercent ∈ standardOperators := by
  simp [standardOperators, doublePercent]

theorem binaryRule?_percent : percent.binaryRule? "number" "number" = some .remainder := rfl

theorem binaryRule?_doublePercent : doublePercent.binaryRule? "number" "number" = some .modulo := rfl

end Operator

/-- The numbers -7.5, -0.2 and 0. -/
def signedFractions : Machine where
  cells := #[.number (.ofScientific (-75) (-1)), .number (.ofScientific (-2) (-1)),
    .number (.ofInt 0)]

end TreeScript
