import Mathlib.Data.List.TakeWhile
import Mathlib.Data.Nat.Digits.Defs
import TreeScript.Decimal.Power
import TreeScript.Proofs.Numbers.Rational

/-!
# Numerals and what they denote

A numeral is written with a sign, digits with a point among them, and an exponent of ten
(`Numeral`). It denotes a rational number by the places of its digits (`Numeral.value`). Every text
that is read as a number is a numeral (`Decimal.exists_numeral_of_parse?`), and the number it is
read as is the one it denotes (`Decimal.toRat_of_parse?`), so that texts that are read denote one
rational each (`Decimal.denotes_iff`).

A sign may also stand behind a leading point, where it takes up a place: `.-5` is read as five
hundredths below zero. Such numerals have mantissas of a form of their own (`Mantissa.inner`).
-/

set_option autoImplicit false

namespace TreeScript

/-! ### Digits -/

/-- The number that digits write, the last one being that of the ones. -/
def placeValue (digits : List (Fin 10)) : Nat := Nat.ofDigits 10 (digits.reverse.map Fin.val)

def digitChar (digit : Fin 10) : Char := Nat.digitChar digit

def digitChars (digits : List (Fin 10)) : List Char := digits.map digitChar

@[simp] theorem placeValue_nil : placeValue [] = 0 := rfl

@[simp] theorem length_digitChars (digits : List (Fin 10)) :
    (digitChars digits).length = digits.length := List.length_map _

theorem digitChars_append (first second : List (Fin 10)) :
    digitChars (first ++ second) = digitChars first ++ digitChars second := List.map_append

theorem placeValue_append (first second : List (Fin 10)) :
    placeValue (first ++ second) = placeValue first * tenTo second.length + placeValue second := by
  unfold placeValue
  rw [List.reverse_append, List.map_append, Nat.ofDigits_append, List.length_map,
    List.length_reverse]
  change _ + 10 ^ second.length * _ = _ * 10 ^ second.length + _
  ring

theorem placeValue_singleton (digit : Fin 10) : placeValue [digit] = digit := by
  simp [placeValue]

namespace Decimal

theorem digitValue?_digitChar (digit : Fin 10) :
    digitValue? (digitChar digit) = some digit.val := by
  revert digit
  decide

theorem digitValue?_eq_some {c : Char} {value : Nat} (h : digitValue? c = some value) :
    ∃ digit : Fin 10, c = digitChar digit ∧ value = digit := by
  unfold digitValue? at h
  split at h
  · rename_i hrange
    have hlow : 48 ≤ c.toNat := hrange.1
    have hhigh : c.toNat ≤ 57 := hrange.2
    have hvalue : c.toNat - 48 = value := Option.some.inj h
    refine ⟨⟨value, by omega⟩, ?_, rfl⟩
    apply Char.toNat_inj.mp
    unfold digitChar
    have hdigit : value < 10 := by omega
    rw [Nat.toNat_digitChar_of_lt_ten hdigit]
    change c.toNat = 48 + value
    omega
  · cases h

/-- Digits are read from left to right. -/
theorem readDigits_digitChars (soFar : Nat) (digits : List (Fin 10)) :
    readDigits soFar (digitChars digits) =
      some (soFar * tenTo digits.length + placeValue digits) := by
  induction digits generalizing soFar with
  | nil => simp [digitChars, readDigits]
  | cons digit digits ih =>
    change readDigits soFar (digitChar digit :: digitChars digits) = _
    rw [readDigits, digitValue?_digitChar, Option.bind_some, ih]
    have hsplit := placeValue_append [digit] digits
    rw [placeValue_singleton] at hsplit
    rw [List.length_cons, tenTo_succ, ← List.singleton_append, hsplit]
    congr 1
    ring

/-- What is read as digits is digits. -/
theorem exists_digits_of_readDigits {soFar value : Nat} {cs : List Char}
    (h : readDigits soFar cs = some value) : ∃ digits, cs = digitChars digits := by
  induction cs generalizing soFar with
  | nil => exact ⟨[], rfl⟩
  | cons c cs ih =>
    obtain ⟨found, hfound, hrest⟩ := Option.bind_eq_some_iff.mp h
    obtain ⟨digit, rfl, -⟩ := digitValue?_eq_some hfound
    obtain ⟨digits, rfl⟩ := ih hrest
    exact ⟨digit :: digits, rfl⟩

end Decimal

/-! ### Numerals -/

namespace Numeral

inductive Sign where
  | absent | plus | minus

namespace Sign

def chars : Sign → List Char
  | absent => []
  | plus => ['+']
  | minus => ['-']

def factor : Sign → Int
  | absent | plus => 1
  | minus => -1

end Sign

/-- Digits with at most one point, and a sign: in front, or behind a point that comes first. -/
inductive Mantissa where
  | usual (sign : Sign) (whole : List (Fin 10)) (fraction : Option (List (Fin 10)))
  | inner (sign : Sign) (fraction : List (Fin 10))

namespace Mantissa

def chars : Mantissa → List Char
  | usual sign whole none => sign.chars ++ digitChars whole
  | usual sign whole (some fraction) =>
    sign.chars ++ digitChars whole ++ '.' :: digitChars fraction
  | inner sign fraction => '.' :: (sign.chars ++ digitChars fraction)

/-- The number a mantissa denotes. A sign behind the point takes up a place. -/
def value : Mantissa → ℚ
  | usual sign whole none => sign.factor * placeValue whole
  | usual sign whole (some fraction) =>
    sign.factor * (placeValue whole + placeValue fraction / tenTo fraction.length)
  | inner sign fraction =>
    sign.factor * (placeValue fraction / tenTo (sign.chars.length + fraction.length))

def sign : Mantissa → Sign
  | usual sign _ _ | inner sign _ => sign

/-- All digits, without the point. -/
def digits : Mantissa → List (Fin 10)
  | usual _ whole none => whole
  | usual _ whole (some fraction) => whole ++ fraction
  | inner _ fraction => fraction

/-- The number of characters behind the point. -/
def places : Mantissa → Nat
  | usual _ _ none => 0
  | usual _ _ (some fraction) => fraction.length
  | inner sign fraction => sign.chars.length + fraction.length

/-- A mantissa denotes what its digits do, moved by the places behind the point. -/
theorem value_eq (mantissa : Mantissa) :
    mantissa.value =
      ((mantissa.sign.factor * placeValue mantissa.digits : Int) : ℚ) / tenTo mantissa.places := by
  cases mantissa with
  | usual sign whole fraction =>
    cases fraction with
    | none => simp [value, Mantissa.sign, digits, places]
    | some fraction =>
      have hplaces := (tenTo_pos fraction.length).ne'
      simp only [value, Mantissa.sign, digits, places, placeValue_append]
      push_cast
      field_simp
  | inner sign fraction =>
    simp only [value, Mantissa.sign, digits, places]
    push_cast
    ring

end Mantissa

/-- An exponent of ten, behind its mark. -/
structure Exponent where
  capital : Bool
  sign : Sign
  digits : List (Fin 10)

namespace Exponent

def mark (exponent : Exponent) : Char := if exponent.capital then 'E' else 'e'

def chars (exponent : Exponent) : List Char :=
  exponent.mark :: (exponent.sign.chars ++ digitChars exponent.digits)

def value (exponent : Exponent) : Int := exponent.sign.factor * placeValue exponent.digits

end Exponent

end Numeral

/-- A number as it is written. -/
structure Numeral where
  mantissa : Numeral.Mantissa
  exponent : Option Numeral.Exponent

namespace Numeral

def chars (numeral : Numeral) : List Char :=
  numeral.mantissa.chars ++ (numeral.exponent.map Exponent.chars).getD []

def text (numeral : Numeral) : String := String.ofList numeral.chars

/-- The power of ten, zero where none is written. -/
def power (numeral : Numeral) : Int := (numeral.exponent.map Exponent.value).getD 0

/-- The number that a numeral denotes. -/
def value (numeral : Numeral) : ℚ := numeral.mantissa.value * 10 ^ numeral.power

end Numeral

/-- A numeral with digits wherever there have to be some. -/
structure Numeral.HasDigits (numeral : Numeral) : Prop where
  mantissa : numeral.mantissa.digits ≠ []
  exponent : ∀ exponent ∈ numeral.exponent, exponent.digits ≠ []

/-- A text is a numeral for a number. -/
def Denotes (text : String) (number : ℚ) : Prop :=
  ∃ numeral : Numeral, numeral.HasDigits ∧ numeral.text = text ∧ numeral.value = number

/-! ### Reading -/

namespace Decimal

open Numeral

/-- Digits are neither signs nor points nor marks of an exponent. -/
theorem digitChar_ne (digit : Fin 10) : digitChar digit ≠ '-' ∧ digitChar digit ≠ '+' ∧
    digitChar digit ≠ '.' ∧ isExponentMark (digitChar digit) = false := by
  revert digit
  decide

theorem readInt?_minus (cs : List Char) :
    readInt? ('-' :: cs) = (readNat? cs).map fun n : Nat ↦ -(n : Int) := by
  rw [readInt?]
  cases readNat? cs <;> rfl

theorem readInt?_plus (cs : List Char) :
    readInt? ('+' :: cs) = (readNat? cs).map fun n : Nat ↦ (n : Int) := by
  rw [readInt?]
  cases readNat? cs <;> rfl

theorem readInt?_unsigned {cs : List Char} (hminus : ∀ rest, cs ≠ '-' :: rest)
    (hplus : ∀ rest, cs ≠ '+' :: rest) :
    readInt? cs = (readNat? cs).map fun n : Nat ↦ (n : Int) := by
  unfold readInt?
  split
  · exact absurd rfl (hminus _)
  · exact absurd rfl (hplus _)
  · cases readNat? cs <;> rfl

theorem readNat?_digitChars {digits : List (Fin 10)} (hdigits : digits ≠ []) :
    readNat? (digitChars digits) = some (placeValue digits) := by
  obtain ⟨digit, digits, rfl⟩ := List.exists_cons_of_ne_nil hdigits
  have hall := readDigits_digitChars 0 (digit :: digits)
  rw [Nat.zero_mul, Nat.zero_add] at hall
  exact hall

theorem exists_digits_of_readNat? {cs : List Char} {n : Nat} (h : readNat? cs = some n) :
    ∃ digits, digits ≠ [] ∧ cs = digitChars digits := by
  cases cs with
  | nil => cases h
  | cons c cs =>
    obtain ⟨digits, hdigits⟩ := exists_digits_of_readDigits h
    refine ⟨digits, ?_, hdigits⟩
    rintro rfl
    cases hdigits

theorem readInt?_chars (sign : Sign) {digits : List (Fin 10)} (hdigits : digits ≠ []) :
    readInt? (sign.chars ++ digitChars digits) = some (sign.factor * placeValue digits) := by
  cases sign with
  | plus =>
    rw [Sign.chars, List.singleton_append, readInt?_plus, readNat?_digitChars hdigits,
      Option.map_some, Sign.factor, one_mul]
  | minus =>
    rw [Sign.chars, List.singleton_append, readInt?_minus, readNat?_digitChars hdigits,
      Option.map_some, Sign.factor, neg_one_mul]
  | absent =>
    obtain ⟨digit, rest, rfl⟩ := List.exists_cons_of_ne_nil hdigits
    obtain ⟨hminus, hplus, -⟩ := digitChar_ne digit
    rw [Sign.chars, List.nil_append, readInt?_unsigned, readNat?_digitChars hdigits,
      Option.map_some, Sign.factor, one_mul]
    · exact fun _ heq ↦ hminus (List.cons.inj heq).1
    · exact fun _ heq ↦ hplus (List.cons.inj heq).1

/-- What is read as an integer is a sign and digits. -/
theorem exists_sign_of_readInt? {cs : List Char} {value : Int} (h : readInt? cs = some value) :
    ∃ (sign : Sign) (digits : List (Fin 10)), digits ≠ [] ∧
      cs = sign.chars ++ digitChars digits ∧ value = sign.factor * placeValue digits := by
  have hsigned : ∃ (sign : Sign) (digits : List (Fin 10)), digits ≠ [] ∧
      cs = sign.chars ++ digitChars digits := by
    by_cases hminus : ∃ rest, cs = '-' :: rest
    · obtain ⟨rest, rfl⟩ := hminus
      rw [readInt?_minus] at h
      obtain ⟨n, hn, -⟩ := Option.map_eq_some_iff.mp h
      obtain ⟨digits, hne, rfl⟩ := exists_digits_of_readNat? hn
      exact ⟨.minus, digits, hne, rfl⟩
    · by_cases hplus : ∃ rest, cs = '+' :: rest
      · obtain ⟨rest, rfl⟩ := hplus
        rw [readInt?_plus] at h
        obtain ⟨n, hn, -⟩ := Option.map_eq_some_iff.mp h
        obtain ⟨digits, hne, rfl⟩ := exists_digits_of_readNat? hn
        exact ⟨.plus, digits, hne, rfl⟩
      · rw [readInt?_unsigned (not_exists.mp hminus) (not_exists.mp hplus)] at h
        obtain ⟨n, hn, -⟩ := Option.map_eq_some_iff.mp h
        obtain ⟨digits, hne, rfl⟩ := exists_digits_of_readNat? hn
        exact ⟨.absent, digits, hne, rfl⟩
  obtain ⟨sign, digits, hne, rfl⟩ := hsigned
  exact ⟨sign, digits, hne, rfl, Option.some.inj (h.symm.trans (readInt?_chars sign hne))⟩

/-! #### Mantissas -/

theorem not_point_of_mem {digits : List (Fin 10)} {c : Char} (h : c ∈ digitChars digits) :
    c ≠ '.' := by
  obtain ⟨digit, -, rfl⟩ := List.mem_map.mp h
  exact (digitChar_ne digit).2.2.1

theorem not_point_of_mem_sign {sign : Sign} {digits : List (Fin 10)} {c : Char}
    (h : c ∈ sign.chars ++ digitChars digits) : c ≠ '.' := by
  rcases List.mem_append.mp h with hsign | hdigit
  · cases sign with
    | absent => cases hsign
    | plus | minus =>
      rw [List.mem_singleton.mp hsign]
      decide
  · exact not_point_of_mem hdigit

/-- Without a point the whole text is read as an integer. -/
theorem readMantissa?_whole {cs : List Char} (hcs : ∀ c ∈ cs, c ≠ '.') :
    readMantissa? cs = (readInt? cs).map fun n ↦ (n, 0) := by
  have htake : cs.takeWhile (· ≠ '.') = cs :=
    List.takeWhile_eq_self_iff.mpr fun c hc ↦ decide_eq_true (hcs c hc)
  have hdrop : cs.dropWhile (· ≠ '.') = [] :=
    List.dropWhile_eq_nil_iff.mpr fun c hc ↦ decide_eq_true (hcs c hc)
  unfold readMantissa?
  rw [htake, hdrop, List.drop_nil]
  dsimp only
  rw [List.append_nil]
  rfl

/-- The characters around a point are read together as an integer. -/
theorem readMantissa?_point {front back : List Char} (hfront : ∀ c ∈ front, c ≠ '.') :
    readMantissa? (front ++ '.' :: back) =
      if back.contains '.' then none
      else (readInt? (front ++ back)).map fun n ↦ (n, back.length) := by
  have htake : (front ++ '.' :: back).takeWhile (· ≠ '.') = front := by
    rw [List.takeWhile_append_of_pos fun c hc ↦ decide_eq_true (hfront c hc)]
    simp
  have hdrop : (front ++ '.' :: back).dropWhile (· ≠ '.') = '.' :: back := by
    rw [List.dropWhile_append_of_pos fun c hc ↦ decide_eq_true (hfront c hc)]
    simp
  unfold readMantissa?
  rw [htake, hdrop]
  rfl

theorem not_contains_point {cs : List Char} (hcs : ∀ c ∈ cs, c ≠ '.') :
    cs.contains '.' = false := by
  rw [List.contains_eq_mem, decide_eq_false_iff_not]
  exact fun hmem ↦ hcs _ hmem rfl

/-- A mantissa with digits is read as the integer they write, with the places behind the point. -/
theorem readMantissa?_chars {mantissa : Mantissa} (hdigits : mantissa.digits ≠ []) :
    readMantissa? mantissa.chars =
      some (mantissa.sign.factor * placeValue mantissa.digits, mantissa.places) := by
  cases mantissa with
  | usual sign whole fraction =>
    cases fraction with
    | none =>
      change readMantissa? (sign.chars ++ digitChars whole) = _
      have hwhole : whole ≠ [] := hdigits
      rw [readMantissa?_whole fun c ↦ not_point_of_mem_sign, readInt?_chars sign hwhole]
      rfl
    | some fraction =>
      change readMantissa? (sign.chars ++ digitChars whole ++ '.' :: digitChars fraction) = _
      have hall : whole ++ fraction ≠ [] := hdigits
      rw [readMantissa?_point fun c ↦ not_point_of_mem_sign,
        if_neg (by rw [not_contains_point fun c ↦ not_point_of_mem]; exact Bool.false_ne_true),
        List.append_assoc, ← digitChars_append, readInt?_chars sign hall, length_digitChars]
      rfl
  | inner sign fraction =>
    change readMantissa? ([] ++ '.' :: (sign.chars ++ digitChars fraction)) = _
    have hfraction : fraction ≠ [] := hdigits
    rw [readMantissa?_point fun c hc ↦ absurd hc List.not_mem_nil,
      if_neg (by rw [not_contains_point fun c ↦ not_point_of_mem_sign]; exact Bool.false_ne_true),
      List.nil_append, readInt?_chars sign hfraction, List.length_append, length_digitChars]
    rfl

/-- What is read as a mantissa is one, and has digits. -/
theorem exists_mantissa_of_readMantissa? {cs : List Char} {found : Int × Nat}
    (h : readMantissa? cs = some found) :
    ∃ mantissa : Mantissa, mantissa.digits ≠ [] ∧ cs = mantissa.chars := by
  by_cases hpoint : '.' ∈ cs
  · obtain ⟨front, back, rfl, hfront⟩ := List.eq_append_cons_of_mem hpoint
    rw [readMantissa?_point fun c hc heq ↦ hfront (heq ▸ hc)] at h
    split at h
    · cases h
    · obtain ⟨value, hvalue, -⟩ := Option.map_eq_some_iff.mp h
      obtain ⟨sign, digits, hne, hsplit, -⟩ := exists_sign_of_readInt? hvalue
      -- The point stands among the digits, or between the sign and the digits, or before the sign.
      rcases List.append_eq_append_iff.mp hsplit with ⟨rest, hsign, rfl⟩ | ⟨rest, rfl, hrest⟩
      · cases front with
        | nil =>
          rw [List.nil_append] at hsign
          exact ⟨.inner sign digits, hne, by rw [← hsign]; rfl⟩
        | cons c front =>
          have hrest : rest = [] := by
            cases sign <;> simp [Sign.chars] at hsign
            all_goals exact hsign.2.2
          subst hrest
          rw [List.append_nil] at hsign
          refine ⟨.usual sign [] (some digits), hne, ?_⟩
          rw [← hsign, List.nil_append]
          change _ = sign.chars ++ [] ++ '.' :: digitChars digits
          rw [List.append_nil]
      · obtain ⟨whole, fraction, rfl, rfl, rfl⟩ := List.map_eq_append_iff.mp hrest
        exact ⟨.usual sign whole (some fraction), hne, rfl⟩
  · rw [readMantissa?_whole fun c hc heq ↦ hpoint (heq ▸ hc)] at h
    obtain ⟨value, hvalue, -⟩ := Option.map_eq_some_iff.mp h
    obtain ⟨sign, digits, hne, rfl, -⟩ := exists_sign_of_readInt? hvalue
    exact ⟨.usual sign digits none, hne, rfl⟩

/-! #### Exponents -/

/-- An exponent with digits is read if it fits. -/
theorem readExponent?_chars {exponent : Exponent} (hdigits : exponent.digits ≠ []) :
    readExponent? exponent.chars =
      if fitsHalfWord exponent.value then some exponent.value else none := by
  unfold readExponent? Exponent.chars
  dsimp only
  rw [readInt?_chars exponent.sign hdigits, Option.bind_some]
  rfl

/-- What is read as an exponent is none, or begins with a character that is taken for its mark. -/
theorem exists_exponent_of_readExponent? {cs : List Char} {power : Int}
    (hmark : ∀ c rest, cs = c :: rest → isExponentMark c = true)
    (h : readExponent? cs = some power) :
    ∃ exponent : Option Exponent, (∀ found ∈ exponent, found.digits ≠ []) ∧
      cs = (exponent.map Exponent.chars).getD [] := by
  cases cs with
  | nil => exact ⟨none, nofun, rfl⟩
  | cons c rest =>
    obtain ⟨n, hn, -⟩ := Option.bind_eq_some_iff.mp h
    obtain ⟨sign, digits, hne, rfl, -⟩ := exists_sign_of_readInt? hn
    have hc := hmark c _ rfl
    simp only [isExponentMark, Bool.or_eq_true, beq_iff_eq] at hc
    rcases hc with rfl | rfl
    · exact ⟨some ⟨false, sign, digits⟩, by rintro _ ⟨⟩; exact hne, rfl⟩
    · exact ⟨some ⟨true, sign, digits⟩, by rintro _ ⟨⟩; exact hne, rfl⟩

/-! #### Numerals -/

theorem mantissa_unmarked {mantissa : Mantissa} {c : Char} (h : c ∈ mantissa.chars) :
    isExponentMark c = false := by
  have hdigit {digits : List (Fin 10)} (h : c ∈ digitChars digits) : isExponentMark c = false := by
    obtain ⟨digit, -, rfl⟩ := List.mem_map.mp h
    exact (digitChar_ne digit).2.2.2
  have hsign {sign : Sign} (h : c ∈ sign.chars) : isExponentMark c = false := by
    cases sign with
    | absent => cases h
    | plus | minus =>
      rw [List.mem_singleton.mp h]
      decide
  cases mantissa with
  | usual sign whole fraction =>
    cases fraction with
    | none => exact (List.mem_append.mp h).elim hsign hdigit
    | some fraction =>
      rcases List.mem_append.mp h with hbefore | hafter
      · exact (List.mem_append.mp hbefore).elim hsign hdigit
      · rcases List.mem_cons.mp hafter with rfl | hafter
        · decide
        · exact hdigit hafter
  | inner sign fraction =>
    rcases List.mem_cons.mp h with rfl | h
    · decide
    · exact (List.mem_append.mp h).elim hsign hdigit

/-- The exponent of a numeral is read if it fits. -/
theorem readExponent?_power {numeral : Numeral} (hdigits : numeral.HasDigits) :
    readExponent? ((numeral.exponent.map Exponent.chars).getD []) =
      if fitsHalfWord numeral.power then some numeral.power else none := by
  obtain ⟨mantissa, exponent⟩ := numeral
  cases exponent with
  | none => rfl
  | some exponent => exact readExponent?_chars (hdigits.exponent exponent rfl)

/-- A numeral is read in two parts, its mantissa and its exponent. -/
theorem parts_of_chars (numeral : Numeral) :
    numeral.text.toList.takeWhile (!isExponentMark ·) = numeral.mantissa.chars ∧
      numeral.text.toList.dropWhile (!isExponentMark ·) =
        (numeral.exponent.map Exponent.chars).getD [] := by
  have hmantissa : ∀ c ∈ numeral.mantissa.chars, (!isExponentMark c) = true := by
    intro c hc
    rw [mantissa_unmarked hc]
    rfl
  rw [Numeral.text, String.toList_ofList, Numeral.chars, List.takeWhile_append_of_pos hmantissa,
    List.dropWhile_append_of_pos hmantissa]
  cases numeral.exponent with
  | none => exact ⟨List.append_nil _, rfl⟩
  | some exponent =>
    have hmark : (!isExponentMark exponent.mark) = false := by
      unfold Exponent.mark
      cases exponent.capital <;> decide
    change _ ++ List.takeWhile _ (exponent.mark :: _) = _ ∧
      List.dropWhile _ (exponent.mark :: _) = exponent.mark :: _
    rw [List.takeWhile_cons_of_neg (by rw [hmark]; exact Bool.false_ne_true),
      List.dropWhile_cons_of_neg (by rw [hmark]; exact Bool.false_ne_true)]
    exact ⟨List.append_nil _, rfl⟩

/-- A numeral is read if its powers of ten fit. -/
theorem parse?_text {numeral : Numeral} (hdigits : numeral.HasDigits) :
    parse? numeral.text =
      if fitsHalfWord numeral.power && fitsHalfWord (numeral.power - numeral.mantissa.places) then
        some (ofScientific (numeral.mantissa.sign.factor * placeValue numeral.mantissa.digits)
          (numeral.power - numeral.mantissa.places))
      else none := by
  obtain ⟨hmantissa, hexponent⟩ := parts_of_chars numeral
  unfold parse?
  dsimp only
  rw [hmantissa, hexponent, readExponent?_power hdigits, readMantissa?_chars hdigits.mantissa]
  cases fitsHalfWord numeral.power
  · rfl
  · rw [if_pos rfl, Option.bind_some, Option.bind_some, Bool.true_and]

/-- The number that a numeral is read as is the one it denotes. -/
theorem toRat_of_parse? {numeral : Numeral} {d : Decimal} (hdigits : numeral.HasDigits)
    (h : parse? numeral.text = some d) : d.toRat = numeral.value := by
  rw [parse?_text hdigits] at h
  split at h
  · cases h
    rw [toRat_ofScientific, Numeral.value, Mantissa.value_eq, zpow_sub₀ (by norm_num), zpow_natCast]
    change _ = _ / ((10 ^ numeral.mantissa.places : Nat) : ℚ) * _
    push_cast
    ring
  · cases h

/-- A text that is read is a numeral. -/
theorem exists_numeral_of_parse? {text : String} {d : Decimal} (h : parse? text = some d) :
    ∃ numeral : Numeral, numeral.HasDigits ∧ numeral.text = text := by
  obtain ⟨power, hpower, hrest⟩ := Option.bind_eq_some_iff.mp h
  obtain ⟨found, hfound, -⟩ := Option.bind_eq_some_iff.mp hrest
  obtain ⟨mantissa, hdigits, hmantissa⟩ := exists_mantissa_of_readMantissa? hfound
  have hmark (c : Char) (rest : List Char)
      (hcons : text.toList.dropWhile (!isExponentMark ·) = c :: rest) :
      isExponentMark c = true := by
    have hhead := List.head?_dropWhile_not (!isExponentMark ·) text.toList
    rw [hcons] at hhead
    simpa using hhead
  obtain ⟨exponent, hdigits', hexponent⟩ := exists_exponent_of_readExponent? hmark hpower
  refine ⟨⟨mantissa, exponent⟩, ⟨hdigits, hdigits'⟩, ?_⟩
  have hall : text.toList = mantissa.chars ++ (exponent.map Exponent.chars).getD [] := by
    rw [← hmantissa, ← hexponent, List.takeWhile_append_dropWhile]
  rw [Numeral.text, Numeral.chars, ← hall, String.ofList_toList]

/-- A text that is read denotes the number it is read as, and no other. -/
theorem denotes_iff {text : String} {d : Decimal} (h : parse? text = some d) (number : ℚ) :
    Denotes text number ↔ number = d.toRat := by
  constructor
  · rintro ⟨numeral, hdigits, rfl, rfl⟩
    exact (toRat_of_parse? hdigits h).symm
  · rintro rfl
    obtain ⟨numeral, hdigits, rfl⟩ := exists_numeral_of_parse? h
    exact ⟨numeral, hdigits, rfl, (toRat_of_parse? hdigits h).symm⟩

/-- A number that is read has no more decimal places than a 32 bit word can count. -/
theorem scale_of_parse? {text : String} {d : Decimal} (h : parse? text = some d) :
    d.scale ≤ twoTo 31 := by
  obtain ⟨numeral, hdigits, rfl⟩ := exists_numeral_of_parse? h
  rw [parse?_text hdigits] at h
  split at h
  · rename_i hfits
    cases h
    rw [Bool.and_eq_true] at hfits
    have hbound := hfits.2
    unfold fitsHalfWord at hbound
    rw [Bool.and_eq_true, decide_eq_true_eq] at hbound
    have hscale := scale_ofScientific_le
      (numeral.mantissa.sign.factor * placeValue numeral.mantissa.digits)
      (numeral.power - numeral.mantissa.places)
    omega
  · cases h

end Decimal

end TreeScript
