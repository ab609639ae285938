import Mathlib.Data.Int.GCD
import Mathlib.Data.Nat.Prime.Basic
import Mathlib.Data.Set.List
import TreeScript.Proofs.Numbers.Ranges

/-!
# Ranges of characters

A range of characters is found by a loop over their codes, which are words of 32 bits. A step counts as
the word of its lowest bits, and a code that leaves the words comes in again at the other end
(`Native.codeAfter`). The loop finds the codes it comes by up to the first one that is past the end
(`Native.charCodes_eq_some`), and if there is none, it does not end (`Native.charCodes_eq_none`).

As long as no code leaves the words, the codes are the terms of a range of numbers
(`Native.charRange_isRange`), as for all steps up to almost `twoTo 31`. Wider steps may lead to other
codes, and even to an end they lead only if their lowest bits differ from zero, on the way up without
the highest one of them (`Native.exists_past`, `Native.notPast_of_dvd`). Together this says what becomes
of any whole step (`character_ranges_by_lowest_bits`).
-/

set_option autoImplicit false

namespace TreeScript

/-- Modulo a power of two, a power of two is a multiple of every number that the next power does not
divide. -/
theorem exists_mul_eq_twoPow {step : ℤ} {d n : ℕ} (hstep : ¬(2 ^ (d + 1) : ℤ) ∣ step) :
    ∃ k : ℕ, k < 2 ^ n ∧ (2 ^ n : ℤ) ∣ 2 ^ d - k * step := by
  obtain ⟨j, -, hgcd⟩ := (Nat.dvd_prime_pow Nat.prime_two).mp
    (Int.natAbs_pow 2 n ▸ Int.gcd_dvd_natAbs_right step (2 ^ n))
  have hcommon : (Int.gcd step (2 ^ n) : ℤ) = 2 ^ j := by rw [hgcd]; push_cast; rfl
  have hj : j ≤ d := by
    by_contra! hlarge
    exact hstep ((pow_dvd_pow 2 hlarge).trans (hcommon ▸ Int.gcd_dvd_left step (2 ^ n)))
  obtain ⟨c, hc⟩ := pow_dvd_pow (2 : ℤ) hj
  have hbezout := Int.gcd_eq_gcd_ab step (2 ^ n)
  rw [hcommon] at hbezout
  have hpositive : (0 : ℤ) < 2 ^ n := by positivity
  refine ⟨(Int.gcdA step (2 ^ n) * c % 2 ^ n).toNat, ?_, ?_⟩
  · have hlt := Int.emod_lt_of_pos (Int.gcdA step (2 ^ n) * c) hpositive
    zify
    rw [Int.toNat_of_nonneg (Int.emod_nonneg _ hpositive.ne')]
    exact hlt
  · rw [Int.toNat_of_nonneg (Int.emod_nonneg _ hpositive.ne'), Int.emod_def]
    refine ⟨Int.gcdB step (2 ^ n) * c + Int.gcdA step (2 ^ n) * c / 2 ^ n * step, ?_⟩
    rw [hc, hbezout]
    ring

namespace Native

/-- The code that a loop over codes has come to after a number of turns. -/
def codeAfter (start step : ℤ) (downwards : Bool) (i : ℕ) : ℤ :=
  (if downwards then start - i * step else start + i * step).bmod (twoTo 32)

section

variable {start stop step code : ℤ} {downwards : Bool} {found : Array ℤ}

theorem codeAfter_succ (i : ℕ) :
    (if downwards then codeAfter start step downwards i - step
      else codeAfter start step downwards i + step).bmod (twoTo 32) =
        codeAfter start step downwards (i + 1) := by
  unfold codeAfter
  cases downwards with
  | false =>
    simp only [Bool.false_eq_true, if_false]
    rw [Int.bmod_add_bmod]
    push_cast
    ring_nf
  | true =>
    simp only [if_true]
    rw [Int.bmod_sub_bmod]
    push_cast
    ring_nf

theorem codeGoesOn_iff :
    (if downwards then stop ≤ code else code ≤ stop) ↔ NotPast stop downwards code := by
  cases downwards with
  | false => exact Int.cast_le.symm
  | true => exact Int.cast_le.symm

/-- A code that is not past the end is found, and the loop goes on with the next one. -/
theorem charCodes_of_notPast {k : ℕ} (turns : ℕ)
    (h : NotPast stop downwards (codeAfter start step downwards k)) :
    charCodes stop step downwards (turns + 1) (codeAfter start step downwards k) found =
      charCodes stop step downwards turns (codeAfter start step downwards (k + 1))
        (found.push (codeAfter start step downwards k)) := by
  rw [charCodes, if_pos (codeGoesOn_iff.mpr h)]
  dsimp only
  rw [codeAfter_succ]

/-- A code that is past the end is not found, and the loop ends. -/
theorem charCodes_of_past {k : ℕ} (turns : ℕ)
    (h : ¬NotPast stop downwards (codeAfter start step downwards k)) :
    charCodes stop step downwards (turns + 1) (codeAfter start step downwards k) found =
      some found := by
  rw [charCodes, if_neg (mt codeGoesOn_iff.mp h)]

/-- Assumes: a number of turns at which the code is not past the end, after which it is. The loop ends,
and has found these codes. -/
theorem charCodes_eq_some (found : Array ℤ) (count k : ℕ) {turns : ℕ} (hturns : count < turns)
    (hwithin : ∀ i < count, NotPast stop downwards (codeAfter start step downwards (k + i)))
    (hpast : ¬NotPast stop downwards (codeAfter start step downwards (k + count))) :
    charCodes stop step downwards turns (codeAfter start step downwards k) found =
      some (found ++
        ((List.range count).map fun i ↦ codeAfter start step downwards (k + i)).toArray) := by
  induction count generalizing k turns found with
  | zero =>
    cases turns with
    | zero => exact absurd hturns (Nat.not_lt_zero 0)
    | succ turns => rw [charCodes_of_past (k := k) turns hpast, List.range_zero, List.map_nil,
        Array.append_empty]
  | succ count ih =>
    cases turns with
    | zero => exact absurd hturns (Nat.not_lt_zero _)
    | succ turns =>
      have hlater (i : ℕ) : k + 1 + i = k + (i + 1) := Nat.add_right_comm k 1 i
      rw [charCodes_of_notPast (k := k) turns (hwithin 0 (Nat.succ_pos count)),
        ih _ (k + 1) (Nat.lt_of_succ_lt_succ hturns)
          (fun i hi ↦ by rw [hlater]; exact hwithin (i + 1) (Nat.succ_lt_succ hi))
          (by rw [hlater]; exact hpast), List.range_succ_eq_map]
      simp [hlater, Function.comp_def]

/-- If no code is past the end, then the loop does not end. -/
theorem charCodes_eq_none (found : Array ℤ)
    (hwithin : ∀ i, NotPast stop downwards (codeAfter start step downwards i))
    (turns k : ℕ) :
    charCodes stop step downwards turns (codeAfter start step downwards k) found = none := by
  induction turns generalizing k found with
  | zero => rfl
  | succ turns ih => rw [charCodes_of_notPast turns (hwithin k), ih _ (k + 1)]

end

section

variable {start stop step : ℤ} {i : ℕ}

theorem bmod_of_fits_halfWord {n : ℤ} (hlow : -(twoTo 31 : ℤ) ≤ n) (hhigh : n < twoTo 31) :
    n.bmod (twoTo 32) = n := by
  have hhalf : (twoTo 32 : ℤ) = 2 * twoTo 31 := rfl
  exact Int.bmod_eq_of_le (by omega) (by omega)

/-- The loop comes by a code that is a quarter of all words above the start, which is past an end that
is above it, or by one that is half of them below the start. -/
theorem exists_past (hstart : 0 ≤ start) (hstop : 0 ≤ stop) (hstart' : start < twoTo 30)
    (hstop' : stop < twoTo 30) (hupwards : start ≤ stop → ¬(twoTo 31 : ℤ) ∣ step)
    (hdownwards : stop < start → ¬(twoTo 32 : ℤ) ∣ step) :
    ∃ i < twoTo 32, ¬NotPast stop (stop < start) (codeAfter start step (stop < start) i) := by
  have hquarter : (twoTo 31 : ℤ) = 2 * twoTo 30 := rfl
  unfold NotPast codeAfter
  by_cases hdown : stop < start
  · obtain ⟨k, hk, q, hq⟩ := exists_mul_eq_twoPow (n := 32) (d := 31) (hdownwards hdown)
    have hcode : start - k * step = start - twoTo 31 + twoTo 32 * q := by
      change (twoTo 31 : ℤ) - k * step = twoTo 32 * q at hq
      linarith
    refine ⟨k, hk, ?_⟩
    rw [if_pos (decide_eq_true hdown), if_pos (decide_eq_true hdown), hcode,
      Int.add_mul_bmod_self_left, bmod_of_fits_halfWord (by omega) (by omega), Int.cast_le]
    omega
  · obtain ⟨k, hk, q, hq⟩ := exists_mul_eq_twoPow (n := 32) (d := 30) (hupwards (not_lt.mp hdown))
    have hcode : start + k * step = start + twoTo 30 + twoTo 32 * -q := by
      change (twoTo 30 : ℤ) - k * step = twoTo 32 * q at hq
      linarith
    refine ⟨k, hk, ?_⟩
    rw [if_neg (by rwa [decide_eq_true_iff]), if_neg (by rwa [decide_eq_true_iff]), hcode,
      Int.add_mul_bmod_self_left, bmod_of_fits_halfWord (by omega) (by omega), Int.cast_le]
    omega

/-- Steps whose lowest bits are zero get nowhere; on the way up that is so for the lowest bits but the
highest one, too, for with that one the codes are the start and one below. -/
theorem notPast_of_dvd (hstart : 0 ≤ start) (hstart' : start < twoTo 30)
    (hupwards : start ≤ stop → (twoTo 31 : ℤ) ∣ step)
    (hdownwards : stop < start → (twoTo 32 : ℤ) ∣ step) :
    NotPast stop (stop < start) (codeAfter start step (stop < start) i) := by
  have hquarter : (twoTo 31 : ℤ) = 2 * twoTo 30 := rfl
  unfold NotPast codeAfter
  by_cases hdown : stop < start
  · obtain ⟨q, rfl⟩ := hdownwards hdown
    rw [if_pos (decide_eq_true hdown), if_pos (decide_eq_true hdown), mul_left_comm,
      Int.sub_eq_add_neg, ← mul_neg, Int.add_mul_bmod_self_left,
      bmod_of_fits_halfWord (by omega) (by omega), Int.cast_le]
    exact hdown.le
  · obtain ⟨q, rfl⟩ := hupwards (not_lt.mp hdown)
    rw [if_neg (by rwa [decide_eq_true_iff]), if_neg (by rwa [decide_eq_true_iff]), Int.cast_le]
    have hhalf : (twoTo 32 : ℤ) = 2 * twoTo 31 := rfl
    obtain ⟨r, hr⟩ := Int.dvd_bmod_sub_self (x := start + i * (twoTo 31 * q)) (m := twoTo 32)
    have hlow := Int.le_bmod (x := start + i * (twoTo 31 * q)) (m := twoTo 32) (by decide)
    have hhigh := Int.bmod_lt (x := start + i * (twoTo 31 * q)) (m := twoTo 32) (by decide)
    generalize (start + i * (twoTo 31 * q)).bmod (twoTo 32) = code at hr hlow hhigh ⊢
    have hcode : code = start + twoTo 31 * (i * q + 2 * r) := by
      rw [hhalf] at hr
      linarith
    generalize i * q + 2 * r = u at hcode
    have hnumeral : (twoTo 31 : ℤ) = 2147483648 := rfl
    rw [hnumeral] at hcode
    omega

end

/-! ### The characters -/

theorem toNat_lt_of_valid (c : Char) : c.toNat < 0x110000 := by
  rcases c.valid with h | h
  · exact Nat.lt_trans h (by decide)
  · exact h.2

theorem char_lt_iff {c d : Char} : c < d ↔ (c.toNat : ℤ) < d.toNat :=
  UInt32.lt_iff_toNat_lt.trans Int.ofNat_lt.symm

theorem char_le_iff {c d : Char} : c ≤ d ↔ (c.toNat : ℤ) ≤ d.toNat :=
  UInt32.le_iff_toNat_le.trans Int.ofNat_le.symm

theorem charText_toNat (c : Char) : charText c.toNat = c.toString := by
  unfold charText
  rw [Int.toNat_natCast, if_pos ⟨Int.natCast_nonneg _, c.valid⟩, Char.ofNat_toNat]

/-- The codes between two halves of the characters, which stand for none. -/
def IsSurrogate (code : ℤ) : Prop := 0xD800 ≤ code ∧ code ≤ 0xDFFF

theorem exists_char {code : ℤ} (hcode : 0 ≤ code) (hcode' : code < 0x110000)
    (hsurrogate : ¬IsSurrogate code) : ∃ c : Char, (c.toNat : ℤ) = code := by
  obtain ⟨n, rfl⟩ := Int.eq_ofNat_of_zero_le hcode
  have hvalid : n.isValidChar := by
    unfold IsSurrogate at hsurrogate
    unfold Nat.isValidChar
    omega
  exact ⟨Char.ofNatAux n hvalid, rfl⟩

theorem charText_surrogate {code : ℤ} (h : IsSurrogate code) : charText code = "\ufffd" := by
  have hinvalid : ¬(0 ≤ code ∧ code.toNat.isValidChar) := by
    unfold IsSurrogate at h
    unfold Nat.isValidChar
    omega
  unfold charText
  rw [if_neg hinvalid]

/-- The codes of a range between two characters are those of characters, surrogates apart. -/
theorem exists_chars {start stop : Char} {step : ℚ} {codes : List ℤ}
    (hcodes : IsRange start.toNat stop.toNat step (codes.map Int.cast))
    (hnone : ∀ code ∈ codes, ¬IsSurrogate code) :
    ∃ chars : List Char, codes = chars.map fun c ↦ (c.toNat : ℤ) := by
  have hstart := toNat_lt_of_valid start
  have hstop := toNat_lt_of_valid stop
  have heach : codes ∈ Set.range (List.map fun c : Char ↦ (c.toNat : ℤ)) := by
    rw [Set.range_list_map]
    intro code hcode
    have hbetween := hcodes.mem_uIcc (List.mem_map_of_mem hcode)
    rw [Set.mem_uIcc] at hbetween
    norm_cast at hbetween
    exact exists_char (by omega) (by omega) (hnone code hcode)
  obtain ⟨chars, hchars⟩ := heach
  exact ⟨chars, hchars.symm⟩

section

variable {start stop : Char} {step : ℤ}

theorem codeAfter_zero (start : Char) (step : ℤ) (downwards : Bool) :
    codeAfter start.toNat step downwards 0 = start.toNat := by
  have hstart := toNat_lt_of_valid start
  have hnumeral : (twoTo 31 : ℤ) = 2147483648 := rfl
  unfold codeAfter
  rw [Int.natCast_zero, zero_mul, sub_zero, add_zero, ite_self]
  exact bmod_of_fits_halfWord (by omega) (by omega)

theorem charRange_eq_some {count : ℕ} (hcount : count ≤ twoTo 32)
    (hwithin : ∀ i < count, NotPast (stop.toNat : ℤ) (stop < start)
      (codeAfter start.toNat step (stop < start) i))
    (hpast : ¬NotPast (stop.toNat : ℤ) (stop < start)
      (codeAfter start.toNat step (stop < start) count)) :
    charRange start stop step =
      some (((List.range count).map (codeAfter start.toNat step (stop < start))).map charText) := by
  have hcodes := charCodes_eq_some #[] count 0 (Nat.lt_succ_of_le hcount)
    (by simpa only [Nat.zero_add] using hwithin) (by simpa only [Nat.zero_add] using hpast)
  rw [codeAfter_zero] at hcodes
  unfold charRange
  rw [hcodes]
  simp

/-- The loop over the codes between two characters ends unless the lowest bits of the step are zero,
or, on the way up, the lowest bits but the highest one. -/
theorem exists_charRange (hupwards : start ≤ stop → ¬(twoTo 31 : ℤ) ∣ step)
    (hdownwards : stop < start → ¬(twoTo 32 : ℤ) ∣ step) :
    ∃ texts, charRange start stop step = some texts := by
  classical
  have hquarter : (twoTo 30 : ℤ) = 1073741824 := rfl
  have hstart := toNat_lt_of_valid start
  have hstop := toNat_lt_of_valid stop
  have hpast := exists_past (Int.natCast_nonneg start.toNat) (Int.natCast_nonneg stop.toNat)
    (by omega) (by omega)
    (fun h ↦ hupwards (char_le_iff.mpr h))
    (fun h ↦ hdownwards (char_lt_iff.mpr h))
  rw [← decide_eq_decide.mpr char_lt_iff] at hpast
  obtain ⟨i, hi, hi'⟩ := hpast
  have hends : ∃ i, ¬NotPast (stop.toNat : ℤ) (stop < start)
      (codeAfter start.toNat step (stop < start) i) := ⟨i, hi'⟩
  exact ⟨_, charRange_eq_some ((Nat.find_min' hends hi').trans hi.le)
    (fun k hk ↦ not_not.mp (Nat.find_min hends hk)) (Nat.find_spec hends)⟩

/-- Otherwise it does not end after any number of turns. -/
theorem charCodes_never_ends (hupwards : start ≤ stop → (twoTo 31 : ℤ) ∣ step)
    (hdownwards : stop < start → (twoTo 32 : ℤ) ∣ step) (turns : ℕ) :
    charCodes stop.toNat step (stop < start) turns start.toNat #[] = none := by
  have hquarter : (twoTo 30 : ℤ) = 1073741824 := rfl
  have hstart := toNat_lt_of_valid start
  have hwithin := fun i ↦ notPast_of_dvd (i := i) (Int.natCast_nonneg start.toNat) (by omega)
    (fun h ↦ hupwards (char_le_iff.mpr h))
    (fun h ↦ hdownwards (char_lt_iff.mpr h))
  rw [← decide_eq_decide.mpr char_lt_iff] at hwithin
  have hnone := charCodes_eq_none #[] hwithin turns 0
  rwa [codeAfter_zero] at hnone

/-- Assumes: a step that is a positive word, and does not lead beyond the words from the stop. A code
that is at most one step behind the stop is the term of the range of numbers, for it has not left the
words. -/
theorem codeAfter_eq_rangeTerm (hstep : 0 < step) (hword : step < twoTo 31)
    (hroom : start ≤ stop → stop.toNat + step < twoTo 31) {i : ℕ}
    (hi : i * step ≤ |(stop.toNat : ℤ) - start.toNat| + step) :
    (codeAfter start.toNat step (stop < start) i : ℚ) =
      rangeTerm start.toNat stop.toNat step i := by
  have hwhole : (twoTo 31 : ℤ) = 2147483648 := rfl
  have hstart := toNat_lt_of_valid start
  have hstop := toNat_lt_of_valid stop
  have hmagnitude : |(step : ℚ)| = step := abs_of_pos (by exact_mod_cast hstep)
  have hforward := mul_nonneg (Int.natCast_nonneg i) hstep.le
  unfold codeAfter rangeTerm
  by_cases hdown : stop < start
  · have hlt := char_lt_iff.mp hdown
    rw [abs_of_neg (sub_neg.mpr hlt)] at hi
    rw [if_pos (decide_eq_true hdown), if_pos (by exact_mod_cast hlt),
      bmod_of_fits_halfWord (by omega) (by omega), hmagnitude]
    push_cast
    ring
  · have hle := not_lt.mp (mt char_lt_iff.mpr hdown)
    have hend := hroom (char_le_iff.mpr hle)
    rw [abs_of_nonneg (sub_nonneg.mpr hle)] at hi
    rw [if_neg (by rwa [decide_eq_true_iff]), if_neg (not_lt.mpr (by exact_mod_cast hle)),
      bmod_of_fits_halfWord (by omega) (by omega), hmagnitude]
    push_cast
    rfl

/-- The same assumed, the codes are the terms of the range of numbers from the one code to the other. -/
theorem charRange_isRange (hstep : 0 < step) (hword : step < twoTo 31)
    (hroom : start ≤ stop → stop.toNat + step < twoTo 31) :
    ∃ codes : List ℤ, charRange start stop step = some (codes.map charText) ∧
      IsRange start.toNat stop.toNat step (codes.map Int.cast) := by
  have hstart := toNat_lt_of_valid start
  have hstop := toNat_lt_of_valid stop
  have hnonzero : (step : ℚ) ≠ 0 := by exact_mod_cast hstep.ne'
  have hmagnitude : |(step : ℚ)| = step := abs_of_pos (by exact_mod_cast hstep)
  have hdirection : decide (stop < start) = decide ((stop.toNat : ℚ) < start.toNat) :=
    decide_eq_decide.mpr (char_lt_iff.trans (by rw [Int.ofNat_lt, Nat.cast_lt]))
  generalize hcount : ⌊|(stop.toNat : ℚ) - start.toNat| / |(step : ℚ)|⌋₊ = steps
  have hfits (i : ℕ) : i < steps + 1 ↔ i * step ≤ |(stop.toNat : ℤ) - start.toNat| := by
    rw [← hcount, lt_floor_succ_iff hnonzero, hmagnitude]
    exact_mod_cast Iff.rfl
  have hmem (i : ℕ) : i < steps + 1 ↔
      rangeTerm start.toNat stop.toNat step i ∈ Set.uIcc (start.toNat : ℚ) stop.toNat := by
    rw [← hcount, lt_floor_succ_iff hnonzero, rangeTerm_mem_iff]
  have hpasses (i : ℕ) (hi : i * step ≤ |(stop.toNat : ℤ) - start.toNat| + step) : i < steps + 1 ↔
      NotPast (stop.toNat : ℤ) (stop < start) (codeAfter start.toNat step (stop < start) i) := by
    rw [codeAfter_eq_rangeTerm hstep hword hroom hi, Int.cast_natCast, hdirection,
      notPast_rangeTerm_iff, ← rangeTerm_mem_iff, hmem]
  have hreached (i : ℕ) (hi : i < steps + 1) :
      i * step ≤ |(stop.toNat : ℤ) - start.toNat| + step :=
    ((hfits i).mp hi).trans (le_add_of_nonneg_right hstep.le)
  have hnext : ((steps + 1 : ℕ) : ℤ) * step ≤ |(stop.toNat : ℤ) - start.toNat| + step := by
    have hsteps := (hfits steps).mp (Nat.lt_succ_self steps)
    push_cast
    linarith
  have hfew : steps + 1 ≤ twoTo 32 := by
    by_contra! hmany
    have hdistance := (hfits _).mp hmany
    have hwide : (twoTo 32 : ℤ) ≤ (twoTo 32 : ℕ) * step := le_mul_of_one_le_right (by decide) hstep
    have hnumeral : (twoTo 32 : ℤ) = 4294967296 := rfl
    have hnear : |(stop.toNat : ℤ) - start.toNat| < 0x110000 :=
      abs_sub_lt_of_nonneg_of_lt (by omega) (by omega) (by omega) (by omega)
    omega
  refine ⟨(List.range (steps + 1)).map (codeAfter start.toNat step (stop < start)),
    charRange_eq_some hfew (fun i hi ↦ (hpasses i (hreached i hi)).mp hi)
      (mt (hpasses _ hnext).mpr (Nat.lt_irrefl _)), fun i hi ↦ ?_, fun i ↦ ?_⟩
  · simp only [List.length_map, List.length_range] at hi
    simp only [List.getElem_map, List.getElem_range]
    exact codeAfter_eq_rangeTerm hstep hword hroom (hreached i hi)
  · rw [List.length_map, List.length_map, List.length_range, hmem]

end

end Native

/-! ### The array -/

/-- A range between two characters is the array of the texts that the loop finds. -/
theorem Native.rangeBy_characters {m : Machine} {first last : CellRef} {start stop : Char}
    {texts : List String} (rest : List CellRef) {step : ℤ}
    (hmagnitude : 0 < (Decimal.ofInt step).coeff)
    (hstart : m.content first = .string start.toString)
    (hstop : m.content last = .string stop.toString)
    (htexts : charRange start stop (Decimal.ofInt step).halfWord = some texts) :
    rangeBy (first :: last :: rest) (.ofInt step) hmagnitude m = newTextArray texts m := by
  have hnumber : m.number? first = none := by
    unfold Machine.number?
    rw [hstart]
  have hsingle (c : Char) : c.toString.toList = [c] := by
    rw [Char.toString_eq_singleton, String.toList_singleton]
  unfold rangeBy
  rw [Run.get_bind]
  dsimp only [List.getElem?_cons_zero, List.getElem?_cons_succ, Option.bind_some, Option.map_some]
  simp only [hnumber, hstart, hstop, hsingle, Decimal.isWhole_ofInt, htexts]
  rfl

/-- Assumes: two characters, and a step width that is a whole number other than zero, of either sign
and any magnitude. The width counts as the word of its lowest 32 bits.

Where that word is positive and does not lead beyond the words from the last character, the range
between the characters is a new array of texts, one for each code that is reached from the first
character in steps of the word towards the last one and does not pass it, in their order. Unless one of
these codes is a surrogate, the texts are the characters with these codes; for a surrogate there is the
replacement sign. For widths of less than `twoTo 31 - 0x110000` the word is the magnitude of the width,
and all this is so.

Otherwise, the range still comes to an end unless the last 32 bits of the width are zero, or on the way
up the last 31 of them. In these cases the loop goes on after any number of turns. -/
theorem character_ranges_by_lowest_bits (interp : Interp) (site : Site) (call : Call) {m : Machine}
    {first last width : CellRef} {start stop : Char} {step word : ℤ}
    (hstart : m.content first = .string start.toString)
    (hstop : m.content last = .string stop.toString)
    (hstep : m.number? width = some (.ofInt step)) (hnonzero : step ≠ 0)
    (hword : word = |step|.bmod (twoTo 32)) :
    (0 < word → (start ≤ stop → stop.toNat + word < twoTo 31) →
      ∃ (out : CellRef) (n : Machine) (items : List CellRef) (codes : List ℤ),
        Native.run interp site call .range [first, last, width] m = .ok out n ∧ m.Grown n ∧
        n.IsArrayOf out items ∧
        items.map n.content = codes.map (fun code ↦ .string (Native.charText code)) ∧
        IsRange start.toNat stop.toNat word (codes.map Int.cast) ∧
        (∀ code ∈ codes, Native.IsSurrogate code → Native.charText code = "\ufffd") ∧
        ((∀ code ∈ codes, ¬Native.IsSurrogate code) → ∃ chars : List Char,
          codes = chars.map (fun c ↦ (c.toNat : ℤ)) ∧
          items.map n.content = chars.map fun c ↦ .string c.toString)) ∧
    (|step| < twoTo 31 - 0x110000 → word = |step| ∧ 0 < word ∧ stop.toNat + word < twoTo 31) ∧
    ((start ≤ stop → ¬(twoTo 31 : ℤ) ∣ step) → (stop < start → ¬(twoTo 32 : ℤ) ∣ step) →
      ∃ out n, Native.run interp site call .range [first, last, width] m = .ok out n) ∧
    ((start ≤ stop → (twoTo 31 : ℤ) ∣ step) → (stop < start → (twoTo 32 : ℤ) ∣ step) →
      ∀ turns, Native.charCodes stop.toNat word (stop < start) turns start.toNat #[] = none) := by
  have hmagnitude : 0 < (Decimal.ofInt |step|).coeff := abs_pos.mpr hnonzero
  have hhalf : (Decimal.ofInt |step|).halfWord = word := by
    rw [Decimal.halfWord, Decimal.word_ofInt_eq_bmod, Int.bmod_bmod_of_dvd (by decide), hword]
  have hrun {texts : List String} (htexts : Native.charRange start stop word = some texts) :
      Native.run interp site call .range [first, last, width] m = newTextArray texts m := by
    have habs : (Decimal.ofInt step).abs = .ofInt |step| := by
      rw [Int.abs_eq_natAbs]
      rfl
    have hargument : numberArg "range" [first, last, width] 2 m = .ok (.ofInt step) m :=
      numberArg_apply "range" hstep
    change (Decimal.abs <$> numberArg "range" [first, last, width] 2 >>= fun magnitude ↦
      if hmagnitude : 0 < magnitude.coeff then
        Native.rangeBy [first, last, width] magnitude hmagnitude
      else Run.fail "range() expects a non-zero step size") m = _
    rw [map_eq_pure_bind, bind_assoc, Run.bind_ok hargument, pure_bind, habs, dif_pos hmagnitude]
    exact Native.rangeBy_characters [width] hmagnitude hstart hstop (hhalf ▸ htexts)
  have hstop := Native.toNat_lt_of_valid stop
  have hnumeral : (twoTo 31 : ℤ) = 2147483648 := rfl
  have hdvd (d : ℤ) (hd : d ∣ (twoTo 32 : ℤ)) : d ∣ word ↔ d ∣ step := by
    rw [hword, ← dvd_abs d step]
    exact (dvd_iff_dvd_of_dvd_sub (hd.trans Int.dvd_bmod_sub_self))
  refine ⟨fun hpositive hroom ↦ ?_, fun hsmall ↦ ?_, fun hup hdown ↦ ?_, fun hup hdown ↦ ?_⟩
  · have hhigh := Int.bmod_lt (x := |step|) (m := twoTo 32) (by decide)
    rw [← hword] at hhigh
    obtain ⟨codes, htexts, hcodes⟩ := Native.charRange_isRange hpositive
      (hhigh.trans_le (by decide)) hroom
    obtain ⟨out, n, items, hmade, hgrown, harray, hcontents⟩ :=
      Machine.newTextArray_items (codes.map Native.charText) m
    rw [List.map_map] at hcontents
    refine ⟨out, n, items, codes, (hrun htexts).trans hmade, hgrown, harray, hcontents, hcodes,
      fun code _ ↦ Native.charText_surrogate, fun hnone ↦ ?_⟩
    obtain ⟨chars, rfl⟩ := Native.exists_chars hcodes hnone
    refine ⟨chars, rfl, hcontents.trans ?_⟩
    rw [List.map_map]
    exact List.map_congr_left fun c _ ↦ congrArg Content.string (Native.charText_toNat c)
  · have hfits : |step|.bmod (twoTo 32) = |step| :=
      Native.bmod_of_fits_halfWord (by have := abs_nonneg step; omega) (by omega)
    rw [hfits] at hword
    exact ⟨hword, hword ▸ abs_pos.mpr hnonzero, by omega⟩
  · obtain ⟨texts, htexts⟩ := Native.exists_charRange
      (fun h ↦ mt (hdvd _ (by decide)).mp (hup h)) (fun h ↦ mt (hdvd _ dvd_rfl).mp (hdown h))
    obtain ⟨out, n, -, hmade, -⟩ := Machine.newTextArray_items texts m
    exact ⟨out, n, (hrun htexts).trans hmade⟩
  · exact Native.charCodes_never_ends (fun h ↦ (hdvd _ (by decide)).mpr (hup h))
      (fun h ↦ (hdvd _ dvd_rfl).mpr (hdown h))

/-- The characters a and c, and a step that is one more than all words. -/
def overwideRange : Machine where
  cells := #[.string "a", .string "c", .number (.ofInt 4294967297)]

/-- A step that is one more than all words counts as one: the range from a to c has the character b,
too, although the step leads far beyond c. -/
theorem overwide_step_counts_as_one :
    ∃ (out : CellRef) (n : Machine) (items : List CellRef),
      Native.run (interp 1) ⟨⟨0⟩, default⟩ (.detached 20 1) .range [⟨0⟩, ⟨1⟩, ⟨2⟩] overwideRange =
        .ok out n ∧
      n.IsArrayOf out items ∧
      items.map n.content = [.string "a", .string "b", .string "c"] := by
  have hstart : overwideRange.content ⟨0⟩ = .string 'a'.toString := rfl
  have hstop : overwideRange.content ⟨1⟩ = .string 'c'.toString := rfl
  have hstep : overwideRange.number? ⟨2⟩ = some (.ofInt 4294967297) := rfl
  have hword : (1 : ℤ) = |(4294967297 : ℤ)|.bmod (twoTo 32) := by decide
  obtain ⟨hrange, -⟩ := character_ranges_by_lowest_bits (interp 1) ⟨⟨0⟩, default⟩ (.detached 20 1)
    hstart hstop hstep (by decide) hword
  obtain ⟨out, n, items, codes, hrun, -, harray, hcontents, hcodes, -⟩ :=
    hrange (by decide) (by decide)
  have hexpected : IsRange (97 : ℕ) (99 : ℕ) (1 : ℤ) ([97, 98, 99].map (Int.cast : ℤ → ℚ)) := by
    refine ⟨fun i hi ↦ ?_, fun i ↦ ?_⟩
    · have hplace : i = 0 ∨ i = 1 ∨ i = 2 := by
        simp only [List.length_map, List.length_cons, List.length_nil] at hi
        omega
      rcases hplace with rfl | rfl | rfl <;> norm_num [rangeTerm]
    · rw [rangeTerm_mem_iff, ← lt_floor_succ_iff (by norm_num)]
      norm_num
  have hsame : codes = [97, 98, 99] :=
    List.map_injective_iff.mpr Int.cast_injective (hcodes.unique hexpected)
  exact ⟨out, n, items, hrun, harray, by rw [hcontents, hsame]; rfl⟩

end TreeScript
