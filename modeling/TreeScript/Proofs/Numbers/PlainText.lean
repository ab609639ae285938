import Mathlib.Algebra.Order.Field.Basic
import TreeScript.Proofs.Numbers.Numerals

/-!
# The text of a number

The text of a number is a numeral in plain notation (`Numeral.IsPlain`) that denotes the number
(`Decimal.exists_plain_text`): without an exponent, without needless zeros in front or behind the
point, and without a sign for zero. Read as a number it gives the number again
(`Decimal.parse?_text_self`), as long as the number has no more decimal places than a numeral may
have.
-/

set_option autoImplicit false

namespace TreeScript

/-- A numeral in plain notation: there is no exponent, no sign but that of a negative number, no
zero in front of other digits, and behind the point, if there is one, no zero at the end. -/
inductive Numeral.IsPlain : Numeral → Prop where
  | intro {sign : Numeral.Sign} {whole : List (Fin 10)} {fraction : Option (List (Fin 10))}
      (hsign : sign = .absent ∨
        sign = .minus ∧ Numeral.value ⟨.usual sign whole fraction, none⟩ < 0)
      (hwhole : whole ≠ []) (hleading : whole.head? = some 0 → whole = [0])
      (htrailing : ∀ digits ∈ fraction, digits ≠ [] ∧ digits.getLast? ≠ some 0) :
      IsPlain ⟨.usual sign whole fraction, none⟩

theorem Numeral.IsPlain.hasDigits {numeral : Numeral} (h : numeral.IsPlain) :
    numeral.HasDigits := by
  cases h with
  | @intro sign whole fraction hsign hwhole hleading htrailing =>
    refine ⟨?_, nofun⟩
    cases fraction with
    | none => exact hwhole
    | some fraction => exact List.append_ne_nil_of_left_ne_nil hwhole fraction

/-! ### Digits of natural numbers -/

/-- The text of a natural number has its digits, without needless zeros in front, and no more of
them than it takes. -/
theorem exists_digits_of_toString (n : Nat) :
    ∃ digits : List (Fin 10), (toString n).toList = digitChars digits ∧ placeValue digits = n ∧
      digits ≠ [] ∧ (digits.head? = some 0 → digits = [0]) ∧
      ∀ count, 0 < count → n < tenTo count → digits.length ≤ count := by
  have hchars (n : Nat) : (toString n).toList = Nat.toDigits 10 n := Nat.toList_repr
  induction n using Nat.strong_induction_on with
  | _ n ih =>
  by_cases hsmall : n < 10
  · refine ⟨[⟨n, hsmall⟩], ?_, placeValue_singleton _, List.cons_ne_nil _ _, ?_,
      fun count hcount _ ↦ ?_⟩
    · rw [hchars, Nat.toDigits_of_lt_base hsmall]
      rfl
    · intro hzero
      rw [Option.some.inj hzero]
    · exact hcount
  · have hless : n / 10 < n := Nat.div_lt_self (by omega) (by decide)
    have hlast : n % 10 < 10 := Nat.mod_lt _ (by decide)
    obtain ⟨digits, htext, hvalue, hne, hleading, hcount⟩ := ih (n / 10) hless
    refine ⟨digits ++ [⟨n % 10, hlast⟩], ?_, ?_, ?_, ?_, fun count hpositive hbound ↦ ?_⟩
    · rw [hchars, Nat.toDigits_of_base_le (by decide) (Nat.le_of_not_lt hsmall), ← hchars, htext,
        digitChars_append]
      rfl
    · rw [placeValue_append, hvalue, placeValue_singleton]
      exact Nat.div_add_mod' n 10
    · exact List.append_ne_nil_of_left_ne_nil hne _
    · intro hzero
      rw [List.head?_append_of_ne_nil _ hne] at hzero
      rw [hleading hzero] at hvalue
      have hnone : n / 10 = 0 := hvalue.symm
      omega
    · obtain ⟨less, rfl⟩ : ∃ less, count = less + 1 := ⟨count - 1, by omega⟩
      have hten : tenTo (less + 1) = tenTo less * 10 := tenTo_succ less
      have hrest : n / 10 < tenTo less := by omega
      have hmore : 0 < less := by
        refine Nat.pos_of_ne_zero fun hzero ↦ ?_
        rw [hzero, tenTo_zero] at hrest
        omega
      have hlength := hcount less hmore hrest
      rw [List.length_append, List.length_singleton]
      omega

theorem placeValue_replicate_zero (count : Nat) : placeValue (List.replicate count 0) = 0 := by
  induction count with
  | zero => rfl
  | succ count ih =>
    rw [List.replicate_succ', placeValue_append, ih, placeValue_singleton]
    rfl

/-- The last digit is what is left over from the tens. -/
theorem getLast?_digits {digits : List (Fin 10)} (h : placeValue digits % 10 ≠ 0) :
    digits.getLast? ≠ some 0 := by
  intro hlast
  obtain ⟨front, rfl⟩ := List.getLast?_eq_some_iff.mp hlast
  rw [placeValue_append, placeValue_singleton] at h
  exact h (Nat.mul_mod_left _ _)

namespace Decimal

/-- The decimal places of a number are digits that write what is behind the point, as many of them
as there are places. -/
theorem exists_digits_of_fractionText {scale part : Nat} (hscale : 0 < scale)
    (hpart : part < tenTo scale) :
    ∃ digits : List (Fin 10), (fractionText scale part).toList = digitChars digits ∧
      placeValue digits = part ∧ digits.length = scale := by
  obtain ⟨digits, htext, hvalue, -, -, hcount⟩ := exists_digits_of_toString part
  have hlength := hcount scale hscale hpart
  refine ⟨List.replicate (scale - digits.length) 0 ++ digits, ?_, ?_, ?_⟩
  · have hsize : (toString part).length = digits.length := by
      rw [← String.length_toList, htext, length_digitChars]
    unfold fractionText
    dsimp only
    rw [String.toList_append, String.toList_ofList, hsize, htext, digitChars_append]
    have hzeros : digitChars (List.replicate (scale - digits.length) 0) =
        List.replicate (scale - digits.length) '0' := List.map_replicate
    rw [hzeros]
  · rw [placeValue_append, placeValue_replicate_zero, Nat.zero_mul, Nat.zero_add, hvalue]
  · rw [List.length_append, List.length_replicate]
    omega

/-- The text of a number without its sign. -/
def unsignedText (d : Decimal) : String :=
  if d.scale = 0 then toString d.coeff.natAbs
  else
    toString (d.coeff.natAbs / tenTo d.scale) ++ "." ++
      fractionText d.scale (d.coeff.natAbs % tenTo d.scale)

theorem text_eq (d : Decimal) :
    d.text = if d.coeff < 0 then "-" ++ d.unsignedText else d.unsignedText := rfl

/-- The digits of a number, before and behind the point. -/
theorem exists_unsigned (d : Decimal) :
    ∃ (whole : List (Fin 10)) (fraction : Option (List (Fin 10))),
      d.unsignedText.toList = (Numeral.Mantissa.usual .absent whole fraction).chars ∧
        (Numeral.Mantissa.usual .absent whole fraction).value = d.coeff.natAbs / tenTo d.scale ∧
        (Numeral.Mantissa.usual .absent whole fraction).places = d.scale ∧
        whole ≠ [] ∧ (whole.head? = some 0 → whole = [0]) ∧
        ∀ digits ∈ fraction, digits ≠ [] ∧ digits.getLast? ≠ some 0 := by
  by_cases hscale : d.scale = 0
  · obtain ⟨whole, htext, hvalue, hne, hleading, -⟩ := exists_digits_of_toString d.coeff.natAbs
    refine ⟨whole, none, ?_, ?_, hscale.symm, hne, hleading, nofun⟩
    · rw [unsignedText, if_pos hscale, htext]
      rfl
    · simp [Numeral.Mantissa.value, Numeral.Sign.factor, hvalue, hscale]
  · have hpositive : 0 < d.scale := Nat.pos_of_ne_zero hscale
    have hten : 0 < tenTo d.scale := Nat.pow_pos (by decide)
    obtain ⟨whole, htext, hvalue, hne, hleading, -⟩ :=
      exists_digits_of_toString (d.coeff.natAbs / tenTo d.scale)
    obtain ⟨fraction, hfraction, hpart, hlength⟩ :=
      exists_digits_of_fractionText hpositive (Nat.mod_lt d.coeff.natAbs hten)
    refine ⟨whole, some fraction, ?_, ?_, hlength, hne, hleading, ?_⟩
    · rw [unsignedText, if_neg hscale, String.toList_append, String.toList_append, htext, hfraction,
        List.append_assoc]
      rfl
    · have hsplit : d.coeff.natAbs = tenTo d.scale * (d.coeff.natAbs / tenTo d.scale) +
          d.coeff.natAbs % tenTo d.scale := (Nat.div_add_mod _ _).symm
      have hten' : (tenTo d.scale : ℚ) ≠ 0 := (tenTo_pos _).ne'
      change ((1 : Int) : ℚ) * (placeValue whole + placeValue fraction / tenTo fraction.length) = _
      rw [hvalue, hpart, hlength, Int.cast_one, one_mul]
      have hsplit' : (d.coeff.natAbs : ℚ) = tenTo d.scale * (d.coeff.natAbs / tenTo d.scale : Nat) +
          (d.coeff.natAbs % tenTo d.scale : Nat) := by exact_mod_cast hsplit
      rw [eq_div_iff hten', add_mul, div_mul_cancel₀ _ hten', hsplit', mul_comm]
    · rintro _ ⟨⟩
      refine ⟨List.ne_nil_of_length_pos (hlength ▸ hpositive), getLast?_digits ?_⟩
      -- In lowest terms the last place is not zero.
      have hdvd : 10 ∣ tenTo d.scale := dvd_pow_self 10 hscale
      rw [hpart, Nat.mod_mod_of_dvd _ hdvd]
      intro hzero
      exact (d.reduced.resolve_left hscale)
        (Int.natCast_dvd.mpr (Nat.dvd_of_mod_eq_zero hzero))

/-- The text of a number is a plain numeral for it, with as many places as the number has. -/
theorem exists_plain_text (d : Decimal) :
    ∃ numeral : Numeral, numeral.IsPlain ∧ numeral.text = d.text ∧ numeral.value = d.toRat ∧
      numeral.power = 0 ∧ numeral.mantissa.places = d.scale := by
  obtain ⟨whole, fraction, htext, hvalue, hplaces, hne, hleading, htrailing⟩ := d.exists_unsigned
  by_cases hnegative : d.coeff < 0
  · have habs : (d.coeff.natAbs : ℚ) = -d.coeff := by
      rw [Nat.cast_natAbs, abs_of_neg hnegative, Int.cast_neg]
    have hminus : (Numeral.Mantissa.usual .minus whole fraction).value = d.toRat := by
      have hflip : (Numeral.Mantissa.usual .minus whole fraction).value =
          -(Numeral.Mantissa.usual .absent whole fraction).value := by
        cases fraction <;> simp [Numeral.Mantissa.value, Numeral.Sign.factor]
      rw [hflip, hvalue, habs, neg_div, neg_neg]
      rfl
    have hall : Numeral.value ⟨.usual .minus whole fraction, none⟩ = d.toRat := by
      rw [Numeral.value, hminus]
      exact mul_one _
    have hbelow : d.toRat < 0 :=
      div_neg_of_neg_of_pos (Int.cast_lt_zero.mpr hnegative) (tenTo_pos _)
    refine ⟨_, .intro (.inr ⟨rfl, hall.trans_lt hbelow⟩) hne hleading htrailing, ?_, hall, rfl, ?_⟩
    · have hchars : Numeral.chars ⟨.usual .minus whole fraction, none⟩ =
          '-' :: (Numeral.Mantissa.usual .absent whole fraction).chars := by
        cases fraction <;> simp [Numeral.chars, Numeral.Mantissa.chars, Numeral.Sign.chars]
      rw [text_eq, if_pos hnegative, Numeral.text, hchars, ← htext, ← String.toList_inj,
        String.toList_ofList, String.toList_append]
      rfl
    · rw [← hplaces]
      cases fraction <;> rfl
  · have habs : (d.coeff.natAbs : ℚ) = d.coeff := by
      rw [Nat.cast_natAbs, abs_of_nonneg (Int.not_lt.mp hnegative)]
    have hall : Numeral.value ⟨.usual .absent whole fraction, none⟩ = d.toRat := by
      rw [Numeral.value, hvalue, habs]
      exact mul_one _
    refine ⟨_, .intro (.inl rfl) hne hleading htrailing, ?_, hall, rfl, hplaces⟩
    rw [text_eq, if_neg hnegative, Numeral.text, Numeral.chars]
    change String.ofList (_ ++ []) = _
    rw [List.append_nil, ← htext, String.ofList_toList]

/-- Assumes: a number that a numeral can have the places of. Its text is read as the number itself.
-/
theorem parse?_text_self {d : Decimal} (hscale : d.scale ≤ twoTo 31) : parse? d.text = some d := by
  obtain ⟨numeral, hplain, htext, hvalue, hpower, hplaces⟩ := d.exists_plain_text
  have hread := parse?_text hplain.hasDigits
  rw [hpower, hplaces, if_pos] at hread
  · have hsame := toRat_of_parse? hplain.hasDigits hread
    rw [← htext, hread]
    exact congrArg some (toRat_injective (hsame.trans hvalue))
  · have hword : 0 < twoTo 31 := Nat.pow_pos (by decide)
    unfold fitsHalfWord
    simp only [Bool.and_eq_true, decide_eq_true_eq]
    omega

end Decimal

end TreeScript
