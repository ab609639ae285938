import TreeScript.Store.Access
import TreeScript.Store.Trace

/-!
What evaluation hands around: the site code runs at, how an evaluation ended, and the two functions
that evaluate everything else in terms of each other. The rules of the language are written over an
`Interp`, which stands for evaluation with less fuel.
-/

set_option autoImplicit false

namespace TreeScript

/-- How an evaluation ended. Sequences stop at the first end that is not normal, loops take in breaks
and continues, and calls take in returns. -/
inductive Flow where
  | normal | returned | broken | continued
deriving DecidableEq, Repr

def Flow.word : Flow → String
  | normal => "normal"
  | returned => "return"
  | broken => "break"
  | continued => "continue"

/-- The flows that only a loop can take in. -/
def Flow.needsLoop : Flow → Bool
  | broken | continued => true
  | _ => false

structure Completion where
  value : CellRef
  flow : Flow := .normal

/-- What happens to a name that is not bound. -/
inductive Mode where
  | required
  | createIfMissing
  /-- Also a name that is bound gets a new cell. -/
  | createNew
deriving DecidableEq, Repr

def Mode.creates (mode : Mode) : Bool := mode != .required

/-- What the frame of a function gets before all else. -/
inductive Preparation where
  | none
  | args (object : CellRef)
  | self (receiver : CellRef)

/-- The source and the frame that code runs in. -/
structure Site where
  context : ContextRef
  frame : Frame

namespace Site

def raise {α : Type} (site : Site) (kind : ErrorKind) (message : String) : Run α :=
  TreeScript.raise site.frame site.context kind message

def traced {α : Type} (site : Site) (kind : ErrorKind) (act : Run α) : Run α :=
  TreeScript.traced site.frame site.context kind act

def fork (site : Site) : Run Site := return { site with frame := ← site.frame.fork }

/-- A fork in which `self` is bound. -/
def forkSelf (site : Site) (self : CellRef) : Run Site := do
  let inner ← site.fork
  inner.frame.putSelf self
  return inner

end Site

structure Interp where
  eval : Site → Mode → Node → Run Completion
  /-- Calls a function under a name that stack traces show. -/
  call : Site → String → Preparation → CellRef → List CellRef → Run CellRef
  fuel : Nat

namespace Interp

/-- The value of an expression whose flow does not matter. -/
def value (interp : Interp) (site : Site) (node : Node) (mode : Mode := .required) : Run CellRef := do
  return (← interp.eval site mode node).value

def values (interp : Interp) (site : Site) (nodes : List Node) : Run (List CellRef) :=
  nodes.mapM fun node => interp.value site node

/-- What functions that are not written in the language get when they are called from a site. -/
def callFrom (interp : Interp) (site : Site) : Run Call := do
  return {
    scale := Call.effectiveScale (← get).options.divisionScale
    invoke := fun name function args => interp.call site name .none function args
    fuel := interp.fuel }

end Interp

end TreeScript
