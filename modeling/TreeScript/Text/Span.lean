/-!
Spans of character codes: an arithmetic progression between two ends. Tables of character
properties are lists of spans.
-/

set_option autoImplicit false

namespace TreeScript.Text

/-- The codes `lo`, `lo + stride`, … up to `hi`. -/
structure Span where
  lo : Nat
  hi : Nat
  stride : Nat := 1
deriving DecidableEq, Repr

namespace Span

def has (s : Span) (code : Nat) : Bool :=
  s.lo ≤ code && code ≤ s.hi && (code - s.lo) % s.stride == 0

def covers (table : List Span) (c : Char) : Bool := table.any (·.has c.toNat)

theorem has_iff (s : Span) (code : Nat) :
    s.has code = true ↔ s.lo ≤ code ∧ code ≤ s.hi ∧ (code - s.lo) % s.stride = 0 := by
  simp [has, and_assoc]

end Span

end TreeScript.Text
