import TreeScript.Store.Access

/-!
Types a host program registers: their constructors and methods.
-/

set_option autoImplicit false

namespace TreeScript

def newInstance (value : Instance) : Run CellRef := do
  let ref : InstanceRef ← modifyGet fun m =>
    (⟨m.instances.size⟩, { m with instances := m.instances.push value })
  alloc (.custom ref)

def newVector (type : HostType) (x y : Decimal) : Run CellRef := do
  let x ← newNumber x
  let y ← newNumber y
  newInstance (.vector type x y none)

namespace HostType

def instantiate (type : HostType) (args : List CellRef) : Run CellRef := do
  let m ← get
  match type.shape, args with
  | .vector, [x, y] =>
    match m.number? x, m.number? y with
    | some x, some y => newVector type x y
    | _, _ => Run.fail s!"{type.name} expects 2 numbers"
  | .vector, _ => Run.fail s!"{type.name} expects 2 numbers"
  | .odd, [mode] => newInstance (.odd type (m.display mode))
  | .odd, _ => Run.fail s!"{type.name} expects a mode"
  | .opaqueCount, _ => newInstance (.counted type args.length)
  | .sealed, _ => Run.fail s!"custom type {type.name} cannot be constructed"

end HostType

namespace HostAction

/-- A method of a vector with the given parts. -/
def onVector (call : Call) (action : HostAction) (type : HostType) (x y : CellRef)
    (args : List CellRef) : Run CellRef := do
  let m ← get
  let number (cell : CellRef) : Decimal := (m.number? cell).getD (Decimal.ofInt 0)
  match action, args with
  | dot, _ => newNumber (number x * number x + number y * number y)
  | scale, [k] => newVector type (number x * number k) (number y * number k)
  | scale, _ => Run.fail "scale expects 1 argument"
  | apply, [function] => call.invoke "apply" function [x, y]
  | apply, _ => Run.fail "apply expects a function"
  | fail, _ => Run.fail "vec failure"
  | _, _ => newEmpty

/-- A method of the type of vectors. -/
def onType (action : HostAction) (type : HostType) (args : List CellRef) : Run CellRef :=
  match action with
  | staticUnit => newVector type (Decimal.ofInt 1) (Decimal.ofInt 0)
  | staticDot => newString s!"static dot of {args.length}"
  | _ => newEmpty

end HostAction

/-- Calls a method of a host type on the value it was looked up on. -/
def HostMethod.run (call : Call) (method : HostMethod) (receiver : CellRef) (args : List CellRef) :
    Run CellRef := do
  if method.isStatic then
    return ← method.action.onType method.type args
  match ← content receiver with
  | .custom ref =>
    match (← get).instanceOf ref with
    | .vector type x y _ => method.action.onVector call type x y args
    | _ => newEmpty
  | _ => Run.fail s!"method {method.type.name}.{method.name} requires an instance receiver"

end TreeScript
