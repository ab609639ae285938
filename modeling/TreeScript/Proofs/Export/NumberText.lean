import TreeScript.Proofs.Numbers.PlainText
import TreeScript.Proofs.Trees.JsonText

/-!
# The text of a number in JSON

A plain numeral is a number of JSON as it stands: the reader takes its sign, the digits in front of
the point and those behind it, and stops at whatever follows the number
(`Numeral.IsPlain.isNumber`). So the text of any number may stand in JSON text, and is read whole
(`Decimal.isNumber_text`).
-/

set_option autoImplicit false

namespace TreeScript

namespace Json

open Reader

theorem isDigit_digitChar (digit : Fin 10) : (digitChar digit).isDigit = true := by
  revert digit
  decide

theorem digitChar_ne_zero {digit : Fin 10} (h : digit ≠ 0) : digitChar digit ≠ '0' := by
  revert digit
  decide

/-- What follows a number neither continues its digits nor begins a fraction or an exponent. -/
theorem Follows.head {c : Char} {cs : List Char} (h : Follows (c :: cs)) :
    c.isDigit = false ∧ c ≠ '.' ∧ (c == 'e' || c == 'E') = false := by
  rcases h c rfl with rfl | rfl | rfl <;> decide

theorem Follows.not_digit {rest : List Char} (h : Follows rest) :
    ∀ c ∈ rest.head?, c.isDigit = false := by
  cases rest with
  | nil => exact nofun
  | cons c cs =>
    rintro c ⟨⟩
    exact h.head.1

/-- Digits are read up to a character that is none. -/
theorem digits_digitChars (ds : List (Fin 10)) {rest : List Char}
    (hrest : ∀ c ∈ rest.head?, c.isDigit = false) :
    digits (digitChars ds ++ rest) = (digitChars ds, rest) := by
  have hall : ∀ c ∈ digitChars ds, c.isDigit = true := by
    intro c hc
    obtain ⟨digit, -, rfl⟩ := List.mem_map.mp hc
    exact isDigit_digitChar digit
  unfold digits
  rw [List.takeWhile_append_of_pos hall, List.dropWhile_append_of_pos hall]
  cases rest with
  | nil => rw [List.takeWhile_nil, List.dropWhile_nil, List.append_nil]
  | cons c cs =>
    have hc : ¬c.isDigit = true := Bool.eq_false_iff.mp (hrest c rfl)
    rw [List.takeWhile_cons_of_neg hc, List.dropWhile_cons_of_neg hc, List.append_nil]

/-- Digits without needless zeros in front are read as the whole part of a number. -/
theorem wholeDigits_digitChars {ds : List (Fin 10)} (hne : ds ≠ [])
    (hleading : ds.head? = some 0 → ds = [0]) {rest : List Char}
    (hrest : ∀ c ∈ rest.head?, c.isDigit = false) :
    wholeDigits (digitChars ds ++ rest) = some (digitChars ds, rest) := by
  obtain ⟨digit, others, rfl⟩ := List.exists_cons_of_ne_nil hne
  by_cases hzero : digit = 0
  · subst hzero
    cases hleading rfl
    rfl
  · have hdigits := digits_digitChars (digit :: others) hrest
    unfold wholeDigits
    split
    · rename_i heq
      exact absurd (List.cons.inj heq).1 (digitChar_ne_zero hzero)
    · rw [hdigits]
      rfl

theorem fractionDigits_point {ds : List (Fin 10)} (hne : ds ≠ []) {rest : List Char}
    (hrest : ∀ c ∈ rest.head?, c.isDigit = false) :
    fractionDigits ('.' :: (digitChars ds ++ rest)) = some ('.' :: digitChars ds, rest) := by
  obtain ⟨digit, others, rfl⟩ := List.exists_cons_of_ne_nil hne
  rw [fractionDigits, digits_digitChars (digit :: others) hrest]
  rfl

theorem fractionDigits_of_follows {rest : List Char} (hrest : Follows rest) :
    fractionDigits rest = some ([], rest) := by
  cases rest with
  | nil => rfl
  | cons c cs =>
    unfold fractionDigits
    split
    · rename_i heq
      exact absurd (List.cons.inj heq).1 hrest.head.2.1
    · rfl

theorem exponentDigits_of_follows {rest : List Char} (hrest : Follows rest) :
    exponentDigits rest = some ([], rest) := by
  cases rest with
  | nil => rfl
  | cons c cs =>
    unfold exponentDigits
    dsimp only
    rw [if_neg (Bool.eq_false_iff.mp hrest.head.2.2)]

/-- A number is read as its sign and the parts behind it. -/
theorem number_parts {sign : Numeral.Sign} (hsign : sign ≠ .plus) {cs rest : List Char}
    (hcs : ∀ c ∈ cs.head?, c ≠ '-') {whole fraction afterWhole : List Char}
    (hwhole : wholeDigits cs = some (whole, afterWhole))
    (hfraction : fractionDigits afterWhole = some (fraction, rest))
    (hexponent : exponentDigits rest = some ([], rest)) :
    Reader.number (sign.chars ++ cs) =
      some (.number (String.ofList (sign.chars ++ whole ++ fraction)), rest) := by
  unfold Reader.number
  cases sign with
  | plus => exact absurd rfl hsign
  | absent =>
    rw [Numeral.Sign.chars, List.nil_append]
    split
    rename_i hsplit
    split at hsplit
    · exact absurd rfl (hcs '-' rfl)
    · cases hsplit
      simp only [hwhole, hfraction, hexponent, bind, Option.bind, List.append_nil]
  | minus =>
    simp only [Numeral.Sign.chars, List.singleton_append, hwhole, hfraction, hexponent, bind,
      Option.bind, List.append_nil]

end Json

open Json Json.Reader

/-- A numeral without an exponent is written as its mantissa. -/
theorem Numeral.toList_text (mantissa : Numeral.Mantissa) :
    (Numeral.text ⟨mantissa, none⟩).toList = mantissa.chars := by
  rw [Numeral.text, String.toList_ofList]
  exact List.append_nil _

/-- The text of a plain numeral is read as a number to its end. -/
theorem Numeral.IsPlain.isNumber {numeral : Numeral} (h : numeral.IsPlain) :
    IsNumber numeral.text := by
  cases h with
  | @intro sign whole fraction hsign hwhole hleading htrailing =>
    have hplus : sign ≠ .plus := by
      rcases hsign with rfl | ⟨rfl, -⟩ <;> exact nofun
    obtain ⟨digit, others, rfl⟩ := List.exists_cons_of_ne_nil hwhole
    have hminus (cs : List Char) : ∀ c ∈ (digitChars (digit :: others) ++ cs).head?, c ≠ '-' := by
      rintro c ⟨⟩
      exact (Decimal.digitChar_ne digit).1
    constructor
    · cases sign with
      | plus => exact absurd rfl hplus
      | minus => cases fraction <;> exact ⟨'-', _, String.toList_ofList, .inl rfl⟩
      | absent =>
        cases fraction <;>
          exact ⟨digitChar digit, _, String.toList_ofList, .inr (isDigit_digitChar digit)⟩
    · intro rest hrest
      cases fraction with
      | none =>
        have hnumber := number_parts hplus (hminus rest)
          (wholeDigits_digitChars hwhole hleading hrest.not_digit) (fractionDigits_of_follows hrest)
          (exponentDigits_of_follows hrest)
        rw [← List.append_assoc, List.append_nil] at hnumber
        have htext : (Numeral.text ⟨.usual sign (digit :: others) none, none⟩).toList =
            sign.chars ++ digitChars (digit :: others) := Numeral.toList_text _
        rw [htext, hnumber, ← htext, String.ofList_toList]
      | some fraction =>
        have hpoint : ∀ c ∈ ('.' :: (digitChars fraction ++ rest)).head?, c.isDigit = false := by
          rintro c ⟨⟩
          rfl
        have hnumber := number_parts hplus (hminus _)
          (wholeDigits_digitChars hwhole hleading hpoint)
          (fractionDigits_point (htrailing fraction rfl).1 hrest.not_digit)
          (exponentDigits_of_follows hrest)
        have htext : (Numeral.text ⟨.usual sign (digit :: others) (some fraction), none⟩).toList =
            sign.chars ++ digitChars (digit :: others) ++ '.' :: digitChars fraction :=
          Numeral.toList_text _
        rw [← htext, String.ofList_toList, ← List.append_assoc] at hnumber
        rw [← hnumber, htext, List.append_assoc]
        rfl

/-- The text of a number is read as a number to its end. -/
theorem Decimal.isNumber_text (d : Decimal) : IsNumber d.text := by
  obtain ⟨numeral, hplain, htext, -⟩ := d.exists_plain_text
  exact htext ▸ hplain.isNumber

end TreeScript
