import TreeScript.Text.Basic

/-!
Which known names a name that could not be found resembles. The characters of the name are looked for
in a candidate from left to right. A character found right behind the one before counts twice as much
as one found behind a gap, and the sum is divided by the length of the longer of the two.
-/

set_option autoImplicit false

namespace TreeScript.Suggestion

/-- Twice the sum that the characters of a name, found in a candidate, count for. -/
def score : Bool → List Char → List Char → Nat
  | _, [], _ => 0
  | _, _, [] => 0
  | adjacent, c :: candidate, d :: name =>
    if c = d then (if adjacent then 2 else 1) + score true candidate name
    else score false candidate (d :: name)

theorem score_cons_self (adjacent : Bool) (c : Char) (candidate name : List Char) :
    score adjacent (c :: candidate) (c :: name) =
      (if adjacent then 2 else 1) + score true candidate name := if_pos rfl

theorem score_cons_of_ne {c d : Char} (h : c ≠ d) (adjacent : Bool) (candidate name : List Char) :
    score adjacent (c :: candidate) (d :: name) = score false candidate (d :: name) := if_neg h

/-- A likeness, as a fraction. -/
structure Likeness where
  numerator : Nat
  denominator : Nat

def likeness (candidate name : String) : Likeness :=
  let a := (Text.toLower candidate).toList
  let b := (Text.toLower name).toList
  ⟨score true a b, max 1 (max a.length b.length)⟩

def Likeness.le (a b : Likeness) : Bool :=
  a.numerator * b.denominator ≤ b.numerator * a.denominator

/-- The candidates, each once, the likest first and among equals in text order, but no more than
`limit`. -/
def suggest (name : String) (candidates : List String) (limit : Nat) : List String :=
  let known := Text.sortNames ((candidates.filter (· ≠ "")).eraseDups)
  let ranked := known.map fun candidate => (candidate, likeness candidate name)
  ((ranked.mergeSort fun a b => b.2.le a.2).map (·.1)).take limit

end TreeScript.Suggestion
