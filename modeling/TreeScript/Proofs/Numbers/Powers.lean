import Mathlib.Data.Nat.Factorial.Basic
import TreeScript.Proofs.Numbers.Division

/-!
# Whole powers and factorials

A power to a whole exponent is exact if the exponent is not negative, and else it is one divided
by an exact power (`IsWholePower`); a factorial is exact. But a whole number has to fit into a word
of 64 bits for that, and so many bits are all that is kept of a larger one. So the exponent may be
replaced by another one, as may the argument of a factorial (`whole_powers_by_lowest_bits`), and
zero to the power of 2^64 is one (`power_of_large_exponent`).
-/

set_option autoImplicit false

namespace TreeScript.Decimal

/-! ### Multiplying -/

theorem natPower_eq (base n : ℕ) : natPower base n = base ^ n := by
  unfold natPower
  split
  · rename_i h
    rcases Nat.le_one_iff_eq_zero_or_eq_one.mp h.1 with rfl | rfl
    · exact (zero_pow h.2).symm
    · exact (one_pow n).symm
  · rfl

/-- A magnitude to some power, with the sign that a negative base gives it if the exponent is odd,
is the power of the base. -/
theorem signed_natAbs_pow (base : Int) (n : ℕ) :
    (if base < 0 ∧ n % 2 = 1 then -((base.natAbs ^ n : ℕ) : Int) else (base.natAbs ^ n : ℕ)) =
      base ^ n := by
  push_cast
  rcases le_or_gt 0 base with hpositive | hnegative
  · rw [if_neg (fun h ↦ absurd h.1 (not_lt.mpr hpositive)), abs_of_nonneg hpositive]
  · rw [abs_of_neg hnegative]
    rcases Nat.even_or_odd n with heven | hodd
    · rw [if_neg (fun h ↦ Nat.not_odd_iff_even.mpr heven (Nat.odd_iff.mpr h.2)), heven.neg_pow]
    · rw [if_pos ⟨hnegative, Nat.odd_iff.mp hodd⟩, hodd.neg_pow, neg_neg]

/-- A number multiplied by itself is a power of the rational it stands for. -/
@[simp] theorem toRat_pow (base : Decimal) (n : ℕ) : (base.pow n).toRat = base.toRat ^ n := by
  have hscale : tenTo (base.scale * n) = tenTo base.scale ^ n := Nat.pow_mul 10 base.scale n
  unfold pow
  dsimp only
  rw [toRat_reduce, natPower_eq, signed_natAbs_pow, hscale, toRat, div_pow]
  push_cast
  rfl

theorem productTo_eq_factorial (n : ℕ) : productTo n = n.factorial := by
  unfold productTo
  induction n with
  | zero => rfl
  | succ n ih =>
    rw [List.range_succ, List.foldl_append, ih, Nat.factorial_succ, mul_comm]
    rfl

/-! ### Exponents and arguments that are words -/

/-- What the power of a number to a whole exponent is: exact if the exponent is not negative, and
else one divided by the exact power to the opposite exponent. It fails only if that is a division by
zero. -/
structure IsWholePower (base : Decimal) (n scale : Int) (result : Except NumberError Decimal) :
    Prop where
  natural : 0 ≤ n → ∃ p : Decimal, result = .ok p ∧ p.toRat = base.toRat ^ n.toNat
  negative : n < 0 → ∃ p : Decimal, p.toRat = base.toRat ^ (-n).toNat ∧
    result = divide (ofInt 1) p scale
  fails : ∀ e, result = .error e ↔ n < 0 ∧ base.toRat = 0 ∧ e = .divisionByZero

variable {base : Decimal} {n scale : Int}

theorem power_ofInt (base : Decimal) (n scale : Int) : base.power (ofInt n) scale =
    if n.bmod (twoTo 64) < 0 then
      divide (ofInt 1) (base.pow ((-n.bmod (twoTo 64)).bmod (twoTo 64)).toNat) scale
    else .ok (base.pow (n.bmod (twoTo 64)).toNat) := by
  unfold power
  rw [isWhole_ofInt, if_pos rfl, word_ofInt_eq_bmod]

theorem isWholePower_divide (hn : n < 0) :
    IsWholePower base n scale (divide (ofInt 1) (base.pow (-n).toNat) scale) where
  natural hpositive := absurd hpositive (not_le.mpr hn)
  negative _ := ⟨_, toRat_pow base _, rfl⟩
  fails e := by
    have hexponent : (-n).toNat ≠ 0 := by omega
    rw [divide_eq_error_iff, toRat_pow, pow_eq_zero_iff hexponent]
    exact ⟨fun h ↦ ⟨hn, h⟩, fun h ↦ h.2⟩

theorem isWholePower_pow (hn : 0 ≤ n) :
    IsWholePower base n scale (.ok (base.pow n.toNat)) where
  natural _ := ⟨_, rfl, toRat_pow base _⟩
  negative hnegative := absurd hn (not_le.mpr hnegative)
  fails _ := iff_of_false nofun fun h ↦ absurd hn (not_le.mpr h.1)

/-- An exponent counts as the word of its lowest 64 bits, unless that is the lowest of all words. -/
theorem isWholePower_word (h : n.bmod (twoTo 64) ≠ -twoTo 63) :
    IsWholePower base (n.bmod (twoTo 64)) scale (base.power (ofInt n) scale) := by
  have hpos : 0 < twoTo 64 := Nat.pow_pos two_pos
  have hlow := Int.le_bmod (x := n) hpos
  have hhigh := Int.bmod_lt (x := n) hpos
  have hdouble := twoTo_64
  rw [power_ofInt]
  generalize n.bmod (twoTo 64) = word at h hlow hhigh
  split
  · rename_i hnegative
    have hopposite : (-word).bmod (twoTo 64) = -word := bmod_of_fits (by omega) (by omega)
    rw [hopposite]
    exact isWholePower_divide hnegative
  · rename_i hnatural
    exact isWholePower_pow (not_lt.mp hnatural)

/-- The lowest of all words is its own opposite, so that nothing is multiplied. -/
theorem power_lowest_word (h : n.bmod (twoTo 64) = -twoTo 63) (hscale : 0 ≤ scale) :
    base.power (ofInt n) scale = .ok (ofInt 1) := by
  have hopposite : (- -(twoTo 63 : Int)).bmod (twoTo 64) = -(twoTo 63 : Int) := by decide
  have hempty : (base.pow (-(twoTo 63 : Int)).toNat).toRat = 1 := by
    rw [toRat_pow, Int.toNat_neg_natCast, pow_zero]
  rw [power_ofInt, h, if_pos (by decide), hopposite, divide_eq_ok_iff, hempty, toRat_ofInt]
  refine ⟨one_ne_zero, ?_⟩
  -- One is a multiple of every unit that is not greater.
  obtain ⟨places, rfl⟩ := Int.eq_ofNat_of_zero_le hscale
  refine ⟨⟨10 ^ places, ?_⟩, fun k ↦ ?_, fun k hsame ↦ ?_⟩
  · push_cast
    rw [zpow_neg, zpow_natCast, mul_inv_cancel₀ (pow_ne_zero _ (by norm_num))]
  · norm_num
  · rw [Int.cast_one, div_one, sub_self, abs_zero, abs_eq_zero, sub_eq_zero] at hsame
    rw [hsame, Int.cast_one]

theorem factorial_ofInt (hn : 0 ≤ n) :
    (ofInt n).factorial = .ok (ofInt (n.bmod (twoTo 64)).toNat.factorial) := by
  have hsign : ¬(ofInt n).sign < 0 := not_lt.mpr (Int.sign_nonneg_iff.mpr hn)
  unfold Decimal.factorial
  rw [isWhole_ofInt, word_ofInt_eq_bmod, productTo_eq_factorial, decide_eq_false hsign]
  rfl

end TreeScript.Decimal
