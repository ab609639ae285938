import Mathlib.Algebra.Order.Field.Rat
import Mathlib.Data.Rat.Cast.Order
import Mathlib.Tactic.FieldSimp
import Mathlib.Tactic.Ring
import Mathlib.Tactic.Linarith
import TreeScript.Decimal.Basic

/-!
# Numbers as rationals

A decimal fraction stands for a rational number, `Decimal.toRat`. Numbers are kept in lowest terms,
so two of them stand for the same rational only if they are the same (`Decimal.toRat_injective`),
and sums, products and the order of numbers are those of the rationals.
-/

set_option autoImplicit false

namespace TreeScript

theorem tenTo_pos (n : Nat) : (0 : ℚ) < tenTo n :=
  Nat.cast_pos.mpr (Nat.pow_pos (by decide))

theorem twoTo_64 : twoTo 64 = 2 * twoTo 63 := Nat.pow_succ'

/-- A number that fits into a word is the word of its lowest 64 bits. -/
theorem bmod_of_fits {n : Int} (hlow : -(twoTo 63 : Int) ≤ n) (hhigh : n < twoTo 63) :
    n.bmod (twoTo 64) = n := by
  have hdouble := twoTo_64
  exact Int.bmod_eq_of_le (by omega) (by omega)

namespace Decimal

/-- The rational number that a decimal fraction writes. -/
def toRat (d : Decimal) : ℚ := d.coeff / tenTo d.scale

/-- Lowest terms stand for the same number. -/
theorem toRat_reduce (coeff : Int) (scale : Nat) :
    (reduce coeff scale).toRat = coeff / tenTo scale := by
  have hcross : ((reduce coeff scale).coeff : ℚ) * tenTo scale =
      coeff * tenTo (reduce coeff scale).scale := by
    exact_mod_cast reduce_coeff coeff scale
  unfold toRat
  rw [div_eq_div_iff (tenTo_pos _).ne' (tenTo_pos _).ne', hcross]

/-- Lowest terms need no more fractional digits. -/
theorem scale_reduce_le (coeff : Int) (scale : Nat) : (reduce coeff scale).scale ≤ scale := by
  induction scale generalizing coeff with
  | zero => exact Nat.le_refl 0
  | succ scale ih =>
    unfold reduce
    split
    · exact Nat.le_succ_of_le (ih _)
    · exact Nat.le_refl _

@[simp] theorem toRat_ofInt (n : Int) : (ofInt n).toRat = n := by
  simp [toRat, ofInt]

theorem toRat_ofScientific (coeff exponent : Int) :
    (ofScientific coeff exponent).toRat = coeff * 10 ^ exponent := by
  have htenTo (n : Nat) : ((tenTo n : Nat) : ℚ) = 10 ^ (n : Int) := by
    rw [zpow_natCast, tenTo]
    exact_mod_cast rfl
  unfold ofScientific
  split
  · rename_i hnegative
    have hplaces : ((-exponent).toNat : Int) = -exponent := Int.toNat_of_nonneg (by omega)
    rw [toRat_reduce, htenTo, hplaces, zpow_neg, div_inv_eq_mul]
  · rename_i hpositive
    have hplaces : (exponent.toNat : Int) = exponent := Int.toNat_of_nonneg (by omega)
    rw [toRat_ofInt, Int.cast_mul, Int.cast_natCast, htenTo, hplaces]

theorem scale_ofScientific_le (coeff exponent : Int) :
    ((ofScientific coeff exponent).scale : Int) ≤ max 0 (-exponent) := by
  unfold ofScientific
  split
  · have hreduced := scale_reduce_le coeff (-exponent).toNat
    omega
  · exact le_max_left _ _

@[simp] theorem toRat_add (a b : Decimal) : (a + b).toRat = a.toRat + b.toRat := by
  change (add a b).toRat = _
  rw [add, toRat_reduce, tenTo_add]
  unfold toRat
  have ha := (tenTo_pos a.scale).ne'
  have hb := (tenTo_pos b.scale).ne'
  push_cast
  field_simp

@[simp] theorem toRat_neg (a : Decimal) : (-a).toRat = -a.toRat := by
  change (neg a).toRat = _
  rw [neg, toRat_reduce, toRat]
  push_cast
  exact neg_div _ _

@[simp] theorem toRat_sub (a b : Decimal) : (a - b).toRat = a.toRat - b.toRat := by
  change (a + -b).toRat = _
  rw [toRat_add, toRat_neg, sub_eq_add_neg]

@[simp] theorem toRat_mul (a b : Decimal) : (a * b).toRat = a.toRat * b.toRat := by
  change (mul a b).toRat = _
  rw [mul, toRat_reduce, tenTo_add]
  unfold toRat
  rw [div_mul_div_comm]
  push_cast
  rfl

/-- Assumes: two numbers that stand for the same rational. The second has no more decimal places. -/
theorem scale_le_of_toRat_eq {a b : Decimal} (h : a.toRat = b.toRat) : b.scale ≤ a.scale := by
  refine Nat.le_of_not_lt fun hless ↦ ?_
  obtain ⟨places, hplaces⟩ := Nat.exists_eq_add_of_lt hless
  have hcoeff : b.coeff = a.coeff * tenTo places * 10 := by
    unfold toRat at h
    rw [div_eq_div_iff (tenTo_pos _).ne' (tenTo_pos _).ne', hplaces, Nat.add_assoc, tenTo_add,
      tenTo_succ] at h
    have hcancel := mul_right_cancel₀ (tenTo_pos a.scale).ne'
      (h.symm.trans (by push_cast; ring :
        _ = ((a.coeff * tenTo places * 10 : Int) : ℚ) * tenTo a.scale))
    exact_mod_cast hcancel
  -- Then the second is not in lowest terms.
  rcases b.reduced with hwhole | hlowest
  · omega
  · exact hlowest ⟨a.coeff * tenTo places, by rw [hcoeff, mul_comm]⟩

/-- Numbers in lowest terms are the same if they stand for the same rational. -/
theorem toRat_injective : Function.Injective toRat := by
  intro a b h
  have hscale := Nat.le_antisymm (scale_le_of_toRat_eq h.symm) (scale_le_of_toRat_eq h)
  have hcoeff : a.coeff = b.coeff := by
    unfold toRat at h
    rw [hscale, div_left_inj' (tenTo_pos _).ne'] at h
    exact_mod_cast h
  cases a
  cases b
  cases hscale
  cases hcoeff
  rfl

theorem isZero_iff {d : Decimal} : d.isZero = true ↔ d = ofInt 0 := by
  refine ⟨fun h ↦ toRat_injective ?_, fun h ↦ by rw [h]; rfl⟩
  have hcoeff : d.coeff = 0 := beq_iff_eq.mp h
  rw [toRat_ofInt, toRat, hcoeff, Int.cast_zero, zero_div]

theorem toRat_pos_iff {d : Decimal} : 0 < d.toRat ↔ 0 < d.coeff := by
  rw [toRat, lt_div_iff₀ (tenTo_pos d.scale), zero_mul, Int.cast_pos]

theorem isZero_iff_toRat {d : Decimal} : d.isZero = true ↔ d.toRat = 0 := by
  rw [isZero_iff, ← toRat_injective.eq_iff, toRat_ofInt, Int.cast_zero]

/-- A whole number counts as its lowest 64 bits, where a word is needed. -/
theorem word_ofInt_eq_bmod (n : Int) : (ofInt n).word = n.bmod (twoTo 64) := by
  have hwhole : (ofInt n).truncate = n := Int.tdiv_one n
  rw [word, hwhole]

/-- The order of numbers is that of the rationals. -/
theorem lt_iff {a b : Decimal} : a.lt b = true ↔ a.toRat < b.toRat := by
  unfold lt cmp toRat
  rw [beq_iff_eq, compare_lt_iff_lt, div_lt_div_iff₀ (tenTo_pos _) (tenTo_pos _)]
  exact_mod_cast Iff.rfl

theorem le_iff {a b : Decimal} : a.le b = true ↔ a.toRat ≤ b.toRat := by
  unfold le cmp toRat
  rw [bne_iff_ne, compare_le_iff_le, div_le_div_iff₀ (tenTo_pos _) (tenTo_pos _)]
  exact_mod_cast Iff.rfl

end Decimal

end TreeScript
