import TreeScript.Decimal.Basic

/-!
Binary fractions. A decimal goes to the nearest double, a half to the even neighbour, and a double
comes back as the shortest decimal that reads as it, the nearest one when there are several.
-/

set_option autoImplicit false

namespace TreeScript.Decimal

/-- The integer nearest to `num / den`; a half goes to the even neighbour. -/
def roundEven (num den : Nat) : Nat :=
  let q := num / den
  let r := num % den
  if 2 * r < den then q
  else if den < 2 * r then q + 1
  else if q % 2 = 0 then q else q + 1

/-- The bits of the double nearest to the positive number `num / den`. -/
def nearestBits (num den : Nat) : UInt64 :=
  if num = 0 then 0
  else
    -- The binary exponent: `2 ^ e ≤ num / den < 2 ^ (e + 1)`.
    let guess : Int := (num.log2 : Int) - den.log2
    let below := if 0 ≤ guess then den * twoTo guess.toNat ≤ num else den ≤ num * twoTo (-guess).toNat
    let e := if below then guess else guess - 1
    -- The exponent of the last bit kept; subnormal numbers all share the lowest one.
    let q := max (e - 52) (-1074)
    let m := if 0 ≤ q then roundEven num (den * twoTo q.toNat) else roundEven (num * twoTo (-q).toNat) den
    let (m, q) := if m = twoTo 53 then (twoTo 52, q + 1) else (m, q)
    if 971 < q then 0x7FF0000000000000
    else if m < twoTo 52 then m.toUInt64
    else ((q + 1075).toNat * twoTo 52 + (m - twoTo 52)).toUInt64

def toDouble (d : Decimal) : Float :=
  let magnitude := Float.ofBits (nearestBits d.coeff.natAbs (tenTo d.scale))
  if d.coeff < 0 then -magnitude else magnitude

/-- The magnitude of a finite double as `m * 2 ^ q`. -/
def mantissaExponent (x : Float) : Nat × Int :=
  let bits := x.toBits.toNat % twoTo 63
  let e : Nat := bits / twoTo 52
  let m : Nat := bits % twoTo 52
  if e = 0 then (m, -1074) else (m + twoTo 52, (e : Int) - 1075)

/-- The rational `m * 2 ^ q` as a fraction of natural numbers. -/
def binaryRatio (m : Nat) (q : Int) : Nat × Nat :=
  if 0 ≤ q then (m * twoTo q.toNat, 1) else (m, twoTo (-q).toNat)

/-- Whether `digits * 10 ^ exponent` reads back as the double with the given bits. -/
def readsAs (bits : UInt64) (digits : Nat) (exponent : Int) : Bool :=
  nearestBits (digits * tenTo exponent.toNat) (tenTo (-exponent).toNat) == bits

/-- The decimal with the fewest digits that reads as the double with the given bits: the grids
`10 ^ exponent` are tried from coarse to fine, and on a grid the two neighbours of the value, the
nearer one first. -/
def shortestOn (bits : UInt64) (num den : Nat) : Nat → Int → Nat × Int
  | 0, exponent => (roundEven (num * tenTo (-exponent).toNat) (den * tenTo exponent.toNat), exponent)
  | tries + 1, exponent =>
    let n := num * tenTo (-exponent).toNat
    let d := den * tenTo exponent.toNat
    let lower := n / d
    let nearer := if 2 * (n % d) ≤ d then lower else lower + 1
    let farther := if nearer = lower then lower + 1 else lower
    if readsAs bits nearer exponent then (nearer, exponent)
    else if readsAs bits farther exponent then (farther, exponent)
    else shortestOn bits num den tries (exponent - 1)

/-- The shortest decimal of a finite double. -/
def ofDouble (x : Float) : Decimal :=
  let (m, q) := mantissaExponent x
  if m = 0 then ofInt 0
  else
    let (num, den) := binaryRatio m q
    let top : Int := ((num.log2 : Int) - den.log2) * 3 / 10 + 2
    let bits := (x.toBits.toNat % twoTo 63).toUInt64
    let (digits, exponent) := shortestOn bits num den 25 top
    ofScientific (if x < 0 then -(digits : Int) else digits) exponent

/-- A double that is a number: neither infinite nor undefined. -/
def isReal (x : Float) : Bool := !x.isNaN && !x.isInf

end TreeScript.Decimal
