import TreeScript.Proofs.Comparison.Sealed

/-!
# A call binds nothing outside of its own frame

All scopes that exist when a closure is called bind the same names to the same cells when the call
has ended, however it ended (`closure_call_keeps_scopes`). So these are the scopes that are sealed
during the call. Its body runs in a frame of its own, with a name for each variable of its source,
and that is all that sealed scopes ask for. The frame the call is made from does not matter.
-/

set_option autoImplicit false

namespace TreeScript

/-- A call goes as it would if some natives were refused, as every call does that calls none of
them. -/
def CallAvoids (avoided : Native → Bool) (n : Nat) (site : Site) (name : String)
    (preparation : Preparation) (function : CellRef) (args : List CellRef) (m : Machine) : Prop :=
  (interpAvoiding avoided n).call site name preparation function args m =
    (interp n).call site name preparation function args m

/-- Assumes: a callee that holds a closure, and a call that neither removes names nor makes a host
call back at the root of a source. All scopes there were are kept. -/
theorem CallAvoids.keeps {m : Machine} {function : CellRef} {stamp : Stamp} {closure : Closure}
    {n : Nat} {site : Site} {name : String} {preparation : Preparation} {args : List CellRef}
    (havoids : CallAvoids Native.rebindsAnywhere n site name preparation function args m)
    (hclosure : m.content function = .function stamp closure) :
    m.Keeps (fun ref ↦ ref.index < m.scopes.size)
      (Outcome.final ((interp n).call site name preparation function args m)) := by
  let before (ref : ScopeRef) : Prop := ref.index < m.scopes.size
  rw [← havoids]
  cases n with
  | zero => exact .refl m
  | succ n =>
    let K := (Tracking.sealing before).comparison
    have hinterp : K.Evaluates (interpAvoiding Native.rebindsAnywhere n) :=
      K.evaluates_interpAvoiding n
    have hcallers : K.Callers m site site := trivial
    have hends := Comparison.callValue_closure hinterp hcallers ⟨.refl m, fun _ h ↦ h⟩ name
      preparation args hclosure
    change m.Keeps before (Outcome.final ((interpAvoiding Native.rebindsAnywhere
      n).callAvoiding Native.rebindsAnywhere site name preparation function args m))
    rw [Interp.callAvoiding_closure _ _ _ _ _ _ hclosure]
    exact hends.later

/-- Assumes: a callee that holds a closure, and a call that neither removes names nor makes a host
call back at the root of a source. However the call ends, all scopes there were bind the same names
to the same cells as before, and each source has its variables in the same scope. -/
theorem closure_call_keeps_scopes {m : Machine} {function : CellRef} {stamp : Stamp}
    {closure : Closure} {n : Nat} {site : Site} {name : String} {preparation : Preparation}
    {args : List CellRef} (hclosure : m.content function = .function stamp closure)
    (havoids : CallAvoids Native.rebindsAnywhere n site name preparation function args m) :
    let final := Outcome.final ((interp n).call site name preparation function args m)
    (∀ ref : ScopeRef, ref.index < m.scopes.size → final.scope ref = m.scope ref) ∧
      ∀ context : ContextRef, (final.context context).globals = (m.context context).globals := by
  intro final
  have hkeeps := havoids.keeps hclosure
  exact ⟨hkeeps.scope, fun context ↦ by rw [hkeeps.context]⟩

/-- A function that declares another one. -/
def declaringClosure : Closure where
  params := []
  body := .declaration "g" [] none false
  context := ⟨0⟩
  frame := { top := ⟨0⟩, outer := [], trace := ⟨0⟩ }

/-- A machine with that function and a source without variables. -/
def declaringMachine : Machine where
  cells := #[.function ⟨0⟩ declaringClosure]
  scopes := #[{}]
  traces := #[{}]
  contexts := #[{ source := "main", globals := ⟨0⟩, trace := ⟨0⟩ }]

/-- The name that the function declares is bound in the frame of its call, and not outside. -/
theorem declaring_call_keeps_scopes :
    let site : Site := ⟨⟨0⟩, (declaringMachine.context ⟨0⟩).frame⟩
    let final := Outcome.final ((interp 2).call site "f" .none ⟨0⟩ [] declaringMachine)
    declaringMachine.content ⟨0⟩ = .function ⟨0⟩ declaringClosure ∧
      CallAvoids Native.rebindsAnywhere 2 site "f" .none ⟨0⟩ [] declaringMachine ∧
      (final.scope ⟨1⟩).contains "g" ∧ final.scope ⟨0⟩ = declaringMachine.scope ⟨0⟩ := by
  intro site final
  have hclosure : declaringMachine.content ⟨0⟩ = .function ⟨0⟩ declaringClosure := rfl
  have havoids : CallAvoids Native.rebindsAnywhere 2 site "f" .none ⟨0⟩ [] declaringMachine := by
    change (interpAvoiding Native.rebindsAnywhere 1).callAvoiding Native.rebindsAnywhere site "f"
      .none ⟨0⟩ [] declaringMachine = (interp 1).callValue site "f" .none ⟨0⟩ [] declaringMachine
    rw [Interp.callAvoiding_closure _ _ _ _ _ _ hclosure, Interp.callValue_closure hclosure,
      Interp.callValue_closure hclosure]
    rfl
  refine ⟨hclosure, havoids, ?_, (closure_call_keeps_scopes hclosure havoids).1 ⟨0⟩ (by decide)⟩
  decide +kernel

end TreeScript
