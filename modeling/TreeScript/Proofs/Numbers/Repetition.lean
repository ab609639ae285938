import TreeScript.Proofs.Export.Exporting
import TreeScript.Proofs.Numbers.Formatting

/-!
# Repeated texts

A text times a number is the text written that often, on whichever side the number stands. The number
has to be whole and not negative, and the text that is written must not have more than 2^28 bytes
(`Repeats`). The bound is tested on the number: the limit is divided by the bytes of the text, and
what is left over does not matter, since the number is whole (`limit_lt_iff`). An empty text has no
bytes to divide by, and may be repeated without end (`repetition_is_exact`).
-/

set_option autoImplicit false

namespace TreeScript

namespace Decimal

/-- A number is a natural one if it is whole and its coefficient is that number. -/
theorem toRat_eq_natCast_iff {d : Decimal} {count : ℕ} :
    d.toRat = count ↔ d.isWhole = true ∧ d.coeff = count := by
  have hcount : ((count : ℤ) : ℚ) = count := Int.cast_natCast count
  rw [← hcount, ← toRat_ofInt, toRat_injective.eq_iff]
  constructor
  · rintro rfl
    exact ⟨rfl, rfl⟩
  · rintro ⟨hwhole, hcoeff⟩
    obtain ⟨coeff, scale, hreduced⟩ := d
    obtain rfl : scale = 0 := beq_iff_eq.mp hwhole
    obtain rfl : coeff = count := hcoeff
    rfl

end Decimal

/-- A number says how often a text is to be written, and the text may be written so often. -/
def Repeats (s : String) (d : Decimal) (count : ℕ) : Prop :=
  d.toRat = count ∧ (s = "" ∨ count * s.utf8ByteSize ≤ 2 ^ 28)

section

variable {s : String} {d : Decimal} {m n : Machine} {x y out : CellRef}

theorem repeatText_empty (count : ℕ) : Text.repeatText count "" = "" := by
  refine String.toList_injective ?_
  rw [Text.repeatText, String.toList_join, List.flatMap_replicate]
  simp

/-- The limit, divided by the bytes of a text, is how often the text may be written. -/
theorem limit_lt_iff (hs : s ≠ "") (count : ℕ) :
    ((maxRepeatSize / s.utf8ByteSize : ℕ) : ℤ) < count ↔ ¬count * s.utf8ByteSize ≤ 2 ^ 28 := by
  have hbytes : 0 < s.utf8ByteSize := Nat.pos_of_ne_zero (mt String.utf8ByteSize_eq_zero_iff.mp hs)
  rw [Nat.cast_lt, ← not_le, Nat.le_div_iff_mul_le hbytes]
  rfl

/-- A text that may be written so often is written into a new cell. -/
theorem repeatString_of_repeats {count : ℕ} (h : Repeats s d count) :
    repeatString s d m =
      .ok ⟨m.cells.size⟩ (m.withCell (.string (Text.repeatText count s))) := by
  obtain ⟨hnumber, hfits⟩ := h
  obtain ⟨hwhole, hcoeff⟩ := Decimal.toRat_eq_natCast_iff.mp hnumber
  have hcount : ¬(!d.isWhole || d.sign < 0) = true := by
    unfold Decimal.sign
    simp [hwhole, hcoeff]
  unfold repeatString
  rw [if_neg hcount]
  dsimp only
  by_cases hempty : s = ""
  · subst hempty
    rw [if_pos rfl, repeatText_empty]
    rfl
  · have hsize := hfits.resolve_left hempty
    rw [if_neg hempty, hcoeff, if_neg (mt (limit_lt_iff hempty count).mp (not_not_intro hsize)),
      Int.toNat_natCast]
    rfl

/-- A text that may not be written so often is not written. -/
theorem repeatString_fails (h : ∀ count, ¬Repeats s d count) :
    ∃ message, repeatString s d m = .error (.plain message) m := by
  unfold repeatString
  by_cases hcount : (!d.isWhole || d.sign < 0) = true
  · rw [if_pos hcount]
    exact ⟨_, rfl⟩
  · rw [if_neg hcount]
    rw [Bool.not_eq_true, Bool.or_eq_false_iff, Bool.not_eq_false', decide_eq_false_iff_not, not_lt] at hcount
    obtain ⟨hwhole, hsign⟩ := hcount
    obtain ⟨count, hcoeff⟩ := Int.eq_ofNat_of_zero_le (Int.sign_nonneg_iff.mp hsign)
    have hnumber := Decimal.toRat_eq_natCast_iff.mpr ⟨hwhole, hcoeff⟩
    obtain ⟨hempty, hsize⟩ := not_or.mp fun hfits ↦ h count ⟨hnumber, hfits⟩
    dsimp only
    rw [if_neg hempty, hcoeff, if_pos ((limit_lt_iff hempty count).mpr hsize)]
    exact ⟨_, rfl⟩

/-- The operator `*` repeats the text among its operands. -/
theorem evaluate_times_text {call : Call} (hfuel : 0 < call.fuel) (hx : m.content x = .string s)
    (hy : m.content y = .number d) :
    Operator.standard.evaluate call "*" .infixOp [x, y] m = repeatString s d m ∧
      Operator.standard.evaluate call "*" .infixOp [y, x] m = repeatString s d m := by
  obtain ⟨fuel, hless⟩ : ∃ fuel, call.fuel = fuel + 1 := ⟨call.fuel - 1, by omega⟩
  have hevaluate (left right : CellRef) :
      Operator.standard.evaluate call "*" .infixOp [left, right] m =
        Operator.times.dispatch2 call (fuel + 1) left right m := by
    rw [← hless]
    exact Operator.evaluate_eq_dispatch rfl (Operator.find?_standard Operator.times_mem) rfl rfl m
  have htext : m.typeName x = "string" := by
    unfold Machine.typeName
    rw [hx]
    rfl
  have hnumber : m.typeName y = "number" := by
    unfold Machine.typeName
    rw [hy]
    rfl
  have hcount : m.numberKey? y = some d := by
    unfold Machine.numberKey?
    rw [hy]
  have hleft : Operator.times.binaryRule? "string" "number" = some .repeatLeft := rfl
  have hright : Operator.times.binaryRule? "number" "string" = some .repeatRight := rfl
  rw [hevaluate, hevaluate, Operator.dispatch2, Operator.dispatch2, Run.get_bind, Run.get_bind,
    htext, hnumber, hleft, hright]
  dsimp only
  rw [BinaryRule.apply, BinaryRule.apply, Run.get_bind, Run.get_bind, BinaryRule.arithmetic?,
    BinaryRule.arithmetic?]
  · dsimp only
    rw [Machine.display_string hx, hcount]
    exact ⟨rfl, rfl⟩
  all_goals decide

end

/-- A text times a number, whichever stands first. Both give the same answer, and it is the text
written that often, in a new cell, if the number is a natural one and the text is empty or does not
get more than 2^28 bytes; otherwise both fail, and change nothing. -/
theorem repetition_is_exact (call : Call) (m : Machine) (x y : CellRef) (s : String) (d : Decimal)
    (hfuel : 0 < call.fuel) (hx : m.content x = .string s) (hy : m.content y = .number d) :
    Operator.standard.evaluate call "*" .infixOp [y, x] m =
      Operator.standard.evaluate call "*" .infixOp [x, y] m ∧
    (∀ (out : CellRef) (n : Machine),
      Operator.standard.evaluate call "*" .infixOp [x, y] m = .ok out n ↔
        ∃ count, Repeats s d count ∧ out = ⟨m.cells.size⟩ ∧
          n = m.withCell (.string (String.join (List.replicate count s)))) ∧
    ((∀ count, ¬Repeats s d count) → ∃ message,
      Operator.standard.evaluate call "*" .infixOp [x, y] m = .error (.plain message) m) ∧
    (s = "" → ∀ count : ℕ, d.toRat = count →
      Operator.standard.evaluate call "*" .infixOp [x, y] m =
        .ok ⟨m.cells.size⟩ (m.withCell (.string ""))) := by
  obtain ⟨hxy, hyx⟩ := evaluate_times_text hfuel hx hy
  rw [hxy, hyx]
  refine ⟨rfl, fun out n ↦ ⟨fun hok ↦ ?_, ?_⟩, repeatString_fails, ?_⟩
  · by_cases hcount : ∃ count, Repeats s d count
    · obtain ⟨count, hcount⟩ := hcount
      rw [repeatString_of_repeats hcount] at hok
      cases hok
      exact ⟨count, hcount, rfl, rfl⟩
    · obtain ⟨message, hfails⟩ := repeatString_fails (m := m) (not_exists.mp hcount)
      rw [hfails] at hok
      cases hok
  · rintro ⟨count, hcount, rfl, rfl⟩
    exact repeatString_of_repeats hcount
  · rintro rfl count hnumber
    rw [repeatString_of_repeats ⟨hnumber, .inl rfl⟩, repeatText_empty]

/-- A text of three bytes, an empty one, the most often that the first may be written, once more
than that, and a half. -/
def textsAndCounts : Machine where
  cells := #[.string "abc", .string "", .number (.ofInt 89478485), .number (.ofInt 89478486),
    .number (.ofScientific 5 (-1))]

/-- Three bytes may be written 89478485 times and not once more, nothing may be written more often
than that, and neither half a time. -/
theorem three_bytes_repeat_up_to_the_limit :
    (∃ n, Operator.standard.evaluate (.detached 20 1) "*" .infixOp [⟨0⟩, ⟨2⟩] textsAndCounts =
      .ok ⟨5⟩ n ∧ n.content ⟨5⟩ = .string (String.join (List.replicate 89478485 "abc"))) ∧
    (∃ message, Operator.standard.evaluate (.detached 20 1) "*" .infixOp [⟨3⟩, ⟨0⟩] textsAndCounts =
      .error (.plain message) textsAndCounts) ∧
    Operator.standard.evaluate (.detached 20 1) "*" .infixOp [⟨1⟩, ⟨3⟩] textsAndCounts =
      .ok ⟨5⟩ (textsAndCounts.withCell (.string "")) ∧
    ∃ message, Operator.standard.evaluate (.detached 20 1) "*" .infixOp [⟨0⟩, ⟨4⟩] textsAndCounts =
      .error (.plain message) textsAndCounts := by
  have hnat (count : ℕ) : (Decimal.ofInt count).toRat = count := by
    rw [Decimal.toRat_ofInt, Int.cast_natCast]
  obtain ⟨-, hmost, -⟩ := repetition_is_exact (.detached 20 1) textsAndCounts ⟨0⟩ ⟨2⟩ "abc"
    (.ofInt 89478485) Nat.one_pos rfl rfl
  obtain ⟨hsides, -, hmore, -⟩ := repetition_is_exact (.detached 20 1) textsAndCounts ⟨0⟩ ⟨3⟩ "abc"
    (.ofInt 89478486) Nat.one_pos rfl rfl
  obtain ⟨-, -, -, hempty⟩ := repetition_is_exact (.detached 20 1) textsAndCounts ⟨1⟩ ⟨3⟩ ""
    (.ofInt 89478486) Nat.one_pos rfl rfl
  obtain ⟨-, -, hhalf, -⟩ := repetition_is_exact (.detached 20 1) textsAndCounts ⟨0⟩ ⟨4⟩ "abc"
    (.ofScientific 5 (-1)) Nat.one_pos rfl rfl
  refine ⟨⟨_, (hmost _ _).mpr ⟨89478485, ⟨hnat 89478485, .inr (by decide)⟩, rfl, rfl⟩,
    Machine.content_new _ _⟩, ?_, hempty rfl 89478486 (hnat 89478486), ?_⟩
  · rw [hsides]
    refine hmore fun count hcount ↦ ?_
    obtain ⟨hnumber, hfits⟩ := hcount
    obtain rfl : 89478486 = count := Nat.cast_injective ((hnat 89478486).symm.trans hnumber)
    revert hfits
    decide
  · refine hhalf fun count hcount ↦ ?_
    have hwhole := (Decimal.toRat_eq_natCast_iff.mp hcount.1).1
    revert hwhole
    decide

end TreeScript
