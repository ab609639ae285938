import TreeScript.Decimal.Text
import TreeScript.Decimal.Binary
import TreeScript.Text.Quote

/-!
The operations on numbers that can fail: division, powers, factorials and whole numbers, with the
scale that rounds their results.
-/

set_option autoImplicit false

namespace TreeScript

/-- Why an operation on numbers has no result. -/
inductive NumberError where
  | invalid (text : String)
  | divisionByZero
  | notReal (base exponent : Decimal)
  | notFactorial (n : Decimal)
  | notWhole (n : Decimal)
  | badShift (amount : Int)
deriving DecidableEq

def NumberError.message : NumberError → String
  | .invalid text => "invalid number " ++ Text.quote text
  | .divisionByZero => "Division by zero"
  | .notReal base exponent => s!"{base.text} to the power of {exponent.text} is not a real number"
  | .notFactorial n => s!"factorial requires a non-negative whole number, got {n.text}"
  | .notWhole n => s!"{n.text} is not a whole number"
  | .badShift amount => s!"shift amount must be a non-negative whole number, got {amount}"

/-- The number of fractional digits division keeps unless told otherwise. -/
def defaultDivisionScale : Nat := 20

/-- The greatest division scale that may be configured. -/
def maxDivisionScale : Nat := 100

/-- The complaint about a division scale out of range, if it is. -/
def divisionScaleIssue? (scale : Int) : Option String :=
  if scale < 0 ∨ maxDivisionScale < scale then
    some s!"division scale must be between 0 and {maxDivisionScale}, got {scale}"
  else none

namespace Decimal

def read (text : String) : Except NumberError Decimal :=
  match parse? text with
  | some d => .ok d
  | none => .error (.invalid text)

def divide (a b : Decimal) (scale : Int) : Except NumberError Decimal :=
  if b.isZero then .error .divisionByZero else .ok (divRound a b scale)

/-- A natural number multiplied by itself `n` times. Zero and one are not changed by that, however large
`n` is. -/
def natPower (base n : Nat) : Nat := if base ≤ 1 ∧ n ≠ 0 then base else Nat.pow base n

/-- A number multiplied by itself `n` times. -/
def pow (base : Decimal) (n : Nat) : Decimal :=
  let magnitude : Int := natPower base.coeff.natAbs n
  reduce (if base.coeff < 0 ∧ n % 2 = 1 then -magnitude else magnitude) (base.scale * n)

/-- Raises to a power. A whole exponent counts as a 64 bit word, and a negative one divides; any
other exponent goes through doubles and is rounded. -/
def power (base exponent : Decimal) (scale : Int) : Except NumberError Decimal :=
  if exponent.isWhole then
    let n := exponent.word
    if n < 0 then divide (ofInt 1) (base.pow ((-n).bmod (twoTo 64)).toNat) scale
    else .ok (base.pow n.toNat)
  else
    let x := base.toDouble.pow exponent.toDouble
    if isReal x then .ok ((ofDouble x).round scale) else .error (.notReal base exponent)

/-- The product of the numbers from 1 to `n`. -/
def productTo (n : Nat) : Nat := (List.range n).foldl (fun acc i => acc * (i + 1)) 1

/-- The factorial of a whole number, which counts as a 64 bit word. -/
def factorial (n : Decimal) : Except NumberError Decimal :=
  if !n.isWhole || n.sign < 0 then .error (.notFactorial n)
  else .ok (ofInt (productTo n.word.toNat))

def whole (d : Decimal) : Except NumberError Int :=
  if d.isWhole then .ok d.coeff else .error (.notWhole d)

def remainder (a b : Decimal) : Except NumberError Decimal :=
  if b.isZero then .error .divisionByZero else .ok (rem a b)

/-- The remainder that is never negative. -/
def modulo (a b : Decimal) : Except NumberError Decimal :=
  (remainder a b).map fun r => if r.sign < 0 then r + b.abs else r

/-- A shift amount has to be a natural number that fits a 64 bit word. -/
def shiftAmount (b : Int) : Except NumberError Nat :=
  if b < 0 ∨ twoTo 63 ≤ b then .error (.badShift b) else .ok b.toNat

end Decimal

end TreeScript
