import TreeScript.Decimal.Basic

/-!
Decimal text. A number is written in plain notation without trailing fractional zeros. It is read
from an optional sign and digits with at most one point among them, followed by an optional
exponent of ten that has to fit a 32 bit word, as has the exponent after the point is accounted for.
-/

set_option autoImplicit false

namespace TreeScript.Decimal

/-- The fractional digits of a magnitude, padded to the scale. -/
def fractionText (scale magnitude : Nat) : String :=
  let digits := toString magnitude
  String.ofList (List.replicate (scale - digits.length) '0') ++ digits

def text (d : Decimal) : String :=
  let magnitude := d.coeff.natAbs
  let unsigned :=
    if d.scale = 0 then toString magnitude
    else
      toString (magnitude / tenTo d.scale) ++ "." ++
        fractionText d.scale (magnitude % tenTo d.scale)
  if d.coeff < 0 then "-" ++ unsigned else unsigned

def digitValue? (c : Char) : Option Nat :=
  if '0' ≤ c ∧ c ≤ '9' then some (c.toNat - '0'.toNat) else none

/-- Digits to the right of what has been read already. -/
def readDigits (soFar : Nat) : List Char → Option Nat
  | [] => some soFar
  | c :: cs => (digitValue? c).bind fun digit => readDigits (10 * soFar + digit) cs

def readNat? : List Char → Option Nat
  | [] => none
  | cs => readDigits 0 cs

/-- An optional sign and at least one digit. -/
def readInt? : List Char → Option Int
  | '-' :: cs => (readNat? cs).map fun n => -(n : Int)
  | '+' :: cs => (readNat? cs).map fun n => (n : Int)
  | cs => (readNat? cs).map fun n => (n : Int)

def fitsHalfWord (n : Int) : Bool := -(twoTo 31 : Int) ≤ n && n < twoTo 31

/-- Reads a mantissa: the digits with the point taken out, and the number of digits behind it. -/
def readMantissa? (cs : List Char) : Option (Int × Nat) :=
  let whole := cs.takeWhile (· ≠ '.')
  let fraction := (cs.dropWhile (· ≠ '.')).drop 1
  if fraction.contains '.' then none
  else (readInt? (whole ++ fraction)).map fun n => (n, fraction.length)

def isExponentMark (c : Char) : Bool := c == 'e' || c == 'E'

/-- Reads the exponent that follows the mantissa, zero when there is none. -/
def readExponent? : List Char → Option Int
  | [] => some 0
  | _ :: cs => (readInt? cs).bind fun n => if fitsHalfWord n then some n else none

def parse? (s : String) : Option Decimal :=
  let mantissa := s.toList.takeWhile (!isExponentMark ·)
  let rest := s.toList.dropWhile (!isExponentMark ·)
  (readExponent? rest).bind fun exponent =>
    (readMantissa? mantissa).bind fun (digits, places) =>
      let shifted := exponent - places
      if fitsHalfWord shifted then some (ofScientific digits shifted) else none

end TreeScript.Decimal
