/-!
Decimal fractions of any size. A number is an integer coefficient over a power of ten, kept in
lowest terms, so that equal numbers are one value: `reduce` brings any such pair to lowest terms and
the arithmetic is exact, but for division. Quotients are rounded to a number of decimal places, which may be negative,
and a half goes away from zero; remainders take the sign of the dividend.
-/

set_option autoImplicit false

namespace TreeScript

/-! ### Powers of ten and of two

A number moves by `n` decimal places when it is multiplied by `tenTo n`, and by `n` bits when it is
multiplied by `twoTo n`. -/

def tenTo (n : Nat) : Nat := Nat.pow 10 n

def twoTo (n : Nat) : Nat := Nat.pow 2 n

@[simp] theorem tenTo_zero : tenTo 0 = 1 := rfl

theorem tenTo_succ (n : Nat) : tenTo (n + 1) = tenTo n * 10 := rfl

theorem tenTo_add (a b : Nat) : tenTo (a + b) = tenTo a * tenTo b := Nat.pow_add 10 a b

theorem natCast_tenTo_pos (n : Nat) : (0 : Int) < tenTo n :=
  Int.natCast_pos.mpr (Nat.pow_pos (by decide))

@[simp] theorem twoTo_zero : twoTo 0 = 1 := rfl

theorem twoTo_succ (n : Nat) : twoTo (n + 1) = twoTo n * 2 := rfl

/-! ### Decimal fractions -/

/-- The number `coeff / 10 ^ scale`, with the least scale that can write it. -/
structure Decimal where
  coeff : Int
  scale : Nat
  reduced : scale = 0 ∨ ¬ (10 : Int) ∣ coeff
deriving DecidableEq

namespace Decimal

/-- Brings `coeff / 10 ^ scale` to lowest terms. -/
def reduce (coeff : Int) : Nat → Decimal
  | 0 => ⟨coeff, 0, Or.inl rfl⟩
  | scale + 1 =>
    if h : (10 : Int) ∣ coeff then reduce (coeff / 10) scale else ⟨coeff, scale + 1, Or.inr h⟩

def ofInt (n : Int) : Decimal := ⟨n, 0, Or.inl rfl⟩

instance : Coe Int Decimal := ⟨ofInt⟩

instance : Inhabited Decimal := ⟨ofInt 0⟩

instance : Hashable Decimal := ⟨fun d => mixHash (hash d.coeff) (hash d.scale)⟩

/-- The number `coeff * 10 ^ exponent`. -/
def ofScientific (coeff exponent : Int) : Decimal :=
  if exponent < 0 then reduce coeff (-exponent).toNat else ofInt (coeff * tenTo exponent.toNat)

def isZero (d : Decimal) : Bool := d.coeff == 0

def isWhole (d : Decimal) : Bool := d.scale == 0

def sign (d : Decimal) : Int := d.coeff.sign

def add (a b : Decimal) : Decimal :=
  reduce (a.coeff * tenTo b.scale + b.coeff * tenTo a.scale) (a.scale + b.scale)

def neg (a : Decimal) : Decimal := reduce (-a.coeff) a.scale

def sub (a b : Decimal) : Decimal := add a (neg b)

def mul (a b : Decimal) : Decimal := reduce (a.coeff * b.coeff) (a.scale + b.scale)

def abs (a : Decimal) : Decimal := reduce a.coeff.natAbs a.scale

instance : Add Decimal := ⟨add⟩
instance : Neg Decimal := ⟨neg⟩
instance : Sub Decimal := ⟨sub⟩
instance : Mul Decimal := ⟨mul⟩

/-- Order of the two numbers, by cross multiplication. -/
def cmp (a b : Decimal) : Ordering := compare (a.coeff * tenTo b.scale) (b.coeff * tenTo a.scale)

def lt (a b : Decimal) : Bool := cmp a b == .lt

def le (a b : Decimal) : Bool := cmp a b != .gt

/-- The integer part: fractional digits are dropped. -/
def truncate (d : Decimal) : Int := d.coeff.tdiv (tenTo d.scale)

/-- The integer part as a 64 bit word: the bits that do not fit are lost. -/
def word (d : Decimal) : Int := d.truncate.bmod (twoTo 64)

/-- The integer part as a 32 bit word, cut down from the 64 bit one. -/
def halfWord (d : Decimal) : Int := d.word.bmod (twoTo 32)

@[simp] theorem reduce_zero (coeff : Int) : reduce coeff 0 = ofInt coeff := rfl

@[simp] theorem isWhole_ofInt (n : Int) : (ofInt n).isWhole = true := rfl

theorem reduce_coeff (coeff : Int) (scale : Nat) :
    (reduce coeff scale).coeff * tenTo scale = coeff * tenTo (reduce coeff scale).scale := by
  induction scale generalizing coeff with
  | zero => simp [reduce]
  | succ scale ih =>
    unfold reduce
    split
    · rename_i h
      obtain ⟨k, rfl⟩ := h
      have hk : (10 * k) / 10 = k := Int.mul_ediv_cancel_left k (by decide)
      rw [hk, tenTo_succ, Int.natCast_mul, ← Int.mul_assoc, ih k, Int.mul_assoc 10 k, Int.mul_comm 10]
      rfl
    · rfl

theorem add_coeff (a b : Decimal) :
    (a + b).coeff * (tenTo a.scale * tenTo b.scale) =
      (a.coeff * tenTo b.scale + b.coeff * tenTo a.scale) * tenTo (a + b).scale := by
  have h := reduce_coeff (a.coeff * tenTo b.scale + b.coeff * tenTo a.scale) (a.scale + b.scale)
  rw [tenTo_add, Int.natCast_mul] at h
  exact h

theorem neg_coeff (a : Decimal) : (-a).coeff * tenTo a.scale = -a.coeff * tenTo (-a).scale :=
  reduce_coeff (-a.coeff) a.scale

theorem sub_coeff (a b : Decimal) :
    (a - b).coeff * (tenTo a.scale * tenTo b.scale) =
      (a.coeff * tenTo b.scale - b.coeff * tenTo a.scale) * tenTo (a - b).scale := by
  have hsum : (a - b).coeff * (tenTo a.scale * tenTo (-b).scale) =
      (a.coeff * tenTo (-b).scale + (-b).coeff * tenTo a.scale) * tenTo (a - b).scale :=
    add_coeff a (-b)
  have hneg := neg_coeff b
  refine Int.eq_of_mul_eq_mul_left (Int.ne_of_gt (natCast_tenTo_pos (-b).scale)) ?_
  grind

theorem le_iff_coeff {a b : Decimal} :
    a.le b = true ↔ a.coeff * tenTo b.scale ≤ b.coeff * tenTo a.scale := by
  rw [le, cmp, bne_iff_ne, Int.compare_ne_gt]

/-! ### Quotients and rounding -/

/-- The integer nearest to `num / den`; a half goes away from zero. -/
def roundDiv (num den : Int) : Int :=
  num.sign * den.sign * ((2 * num.natAbs + den.natAbs) / (2 * den.natAbs) : Nat)

/-- The multiple of `10 ^ -places` nearest to `a / b`. -/
def divRound (a b : Decimal) (places : Int) : Decimal :=
  let num := a.coeff * tenTo b.scale * tenTo places.toNat
  let den := b.coeff * tenTo a.scale * tenTo (-places).toNat
  ofScientific (roundDiv num den) (-places)

/-- The multiple of `10 ^ -places` nearest to a number. -/
def round (d : Decimal) (places : Int) : Decimal :=
  if d.scale ≤ places then d
  else ofScientific (roundDiv (d.coeff * tenTo places.toNat) (tenTo d.scale * tenTo (-places).toNat))
    (-places)

def floor (d : Decimal) : Decimal := ofInt (d.coeff.fdiv (tenTo d.scale))

def ceil (d : Decimal) : Decimal := ofInt (-((-d.coeff).fdiv (tenTo d.scale)))

/-- The remainder of the division that drops the fraction of the quotient. -/
def rem (a b : Decimal) : Decimal :=
  reduce ((a.coeff * tenTo b.scale).tmod (b.coeff * tenTo a.scale)) (a.scale + b.scale)

end Decimal

/-! ### Bits

Bitwise operations on integers, each taken as an endless row of bits with the sign repeated to the
left. A negative number is the complement of a natural number, so every case comes down to the natural
numbers. -/

namespace Bits

/-- Every bit turned over. -/
def complement (n : Int) : Int := -n - 1

/-- The bits of `a` that are not bits of `b`. -/
def without (a b : Nat) : Nat := a - (a &&& b)

def and : Int → Int → Int
  | .ofNat a, .ofNat b => (a &&& b : Nat)
  | .ofNat a, .negSucc b => without a b
  | .negSucc a, .ofNat b => without b a
  | .negSucc a, .negSucc b => .negSucc (a ||| b)

def or : Int → Int → Int
  | .ofNat a, .ofNat b => (a ||| b : Nat)
  | .ofNat a, .negSucc b => .negSucc (without b a)
  | .negSucc a, .ofNat b => .negSucc (without a b)
  | .negSucc a, .negSucc b => .negSucc (a &&& b)

def shiftLeft (n : Int) (amount : Nat) : Int := n * twoTo amount

/-- Drops the lowest bits, which rounds down. -/
def shiftRight (n : Int) (amount : Nat) : Int := n >>> amount

end Bits

end TreeScript
