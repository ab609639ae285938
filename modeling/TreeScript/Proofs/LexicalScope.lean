import TreeScript.Proofs.Comparison.Twins

/-!
# Scoping is lexical

What a closure does depends on the place it was defined at and not on the place it is called from
(`closure_call_does_not_depend_on_caller`). The two runs of a call from two sites are twin runs: the
body starts at sites that differ in nothing but the stack trace they write to, and no rule of the
language looks at stack traces, but for the texts of failures. So it is enough to follow twin runs
at sites that are alike, without following the scopes (`Tracking.nothing`).
-/

set_option autoImplicit false

namespace TreeScript

/-- Outcomes that differ at most in stack traces: the same cell, or failures of the same kind with
the same message, and machines that are twins. -/
inductive Outcome.Alike : Outcome CellRef → Outcome CellRef → Prop
  | ok (cell : CellRef) {m m' : Machine} (htwin : m.Twin m') : Alike (.ok cell m) (.ok cell m')
  | error {e e' : Failure} {m m' : Machine} (hfailure : e.Alike e') (htwin : m.Twin m') :
    Alike (.error e m) (.error e' m')

/-- Assumes: a callee that holds a closure. Its call, from any two sites, gives the same cell and
leaves machines that differ at most in stack traces, or fails with the same kind and message. -/
theorem closure_call_does_not_depend_on_caller {m : Machine} {function : CellRef} {stamp : Stamp}
    {closure : Closure} (hclosure : m.content function = .function stamp closure) (n : Nat)
    (first second : Site) (name : String) (preparation : Preparation) (args : List CellRef) :
    Outcome.Alike ((interp n).call first name preparation function args m)
      ((interp n).call second name preparation function args m) := by
  cases n with
  | zero => exact .error .outOfFuel (.refl m)
  | succ n =>
    let K := Tracking.nothing.comparison
    have hinterp : K.Evaluates (interp n) := by
      rw [← interpAvoiding_nothing n]
      exact K.evaluates_interpAvoiding n
    have hcallers : K.Callers m first second := trivial
    have hends := Comparison.callValue_closure hinterp hcallers ⟨.refl m, trivial⟩ name preparation
      args hclosure
    change Outcome.Alike ((interp n).callValue first name preparation function args m)
      ((interp n).callValue second name preparation function args m)
    revert hends
    generalize (interp n).callValue first name preparation function args m = o
    generalize (interp n).callValue second name preparation function args m = o'
    intro hends
    cases hends with
    | ok _ hlike hvalue =>
      cases hvalue
      exact .ok _ hlike.1
    | error _ hlike hfails => exact .error hfails hlike.1

/-- A function that gives the value of `x`. -/
def readingClosure : Closure where
  params := []
  body := .identifier "x"
  context := ⟨0⟩
  frame := { top := ⟨0⟩, outer := [], trace := ⟨0⟩ }

/-- A machine with that function, defined in the first of two scopes that bind `x`. -/
def readingMachine : Machine where
  cells := #[.function ⟨0⟩ readingClosure, .boolean true, .boolean false]
  scopes := #[Std.TreeMap.insert {} "x" ⟨1⟩, Std.TreeMap.insert {} "x" ⟨2⟩]
  traces := #[{}]
  contexts := #[{ source := "main", globals := ⟨0⟩, trace := ⟨0⟩ }]

/-- The function gives the `x` of its definition, also where it is called under another `x`. -/
theorem reading_call_does_not_depend_on_caller :
    let first : Site := ⟨⟨0⟩, { top := ⟨0⟩, outer := [], trace := ⟨0⟩ }⟩
    let second : Site := ⟨⟨0⟩, { top := ⟨1⟩, outer := [], trace := ⟨0⟩ }⟩
    readingMachine.content ⟨0⟩ = .function ⟨0⟩ readingClosure ∧
      Outcome.Alike ((interp 4).call first "f" .none ⟨0⟩ [] readingMachine)
        ((interp 4).call second "f" .none ⟨0⟩ [] readingMachine) ∧
      (match (interp 4).call second "f" .none ⟨0⟩ [] readingMachine with
        | .ok cell m => m.isTrue cell
        | .error .. => false) = true := by
  intro first second
  have hclosure : readingMachine.content ⟨0⟩ = .function ⟨0⟩ readingClosure := rfl
  refine ⟨hclosure, closure_call_does_not_depend_on_caller hclosure 4 first second "f" .none [], ?_⟩
  decide

end TreeScript
