import TreeScript.Method.Name
import TreeScript.Store.Compare

/-!
Looking a key up on a value, adding one, and iterating. Methods are found before the entries of an
object. A function that is not written in the language gets more from its caller than its arguments: the
scale of division, the way to call back, and fuel for what recurses over nested objects.
-/

set_option autoImplicit false

namespace TreeScript

/-- The method or part of an instance of a host type under a name. -/
def accessInstance (receiver : CellRef) (ref : InstanceRef) (name : String) :
    Run (Option CellRef) := do
  let found := (← get).instanceOf ref
  let part :=
    match found with
    | .vector _ x y z =>
      if name = "x" then some x else if name = "y" then some y else if name = "z" then z else none
    | _ => none
  if part.isSome then
    return part
  match found.type.methods.lookup name with
  | some action =>
    let method : HostMethod := { type := found.type, name, action, isStatic := false }
    return some (← alloc (.hostMethod (← newStamp) method receiver))
  | none => return none

/-- What a key leads to on a value. An empty key leads to an empty value. -/
def access (cell key : CellRef) : Run (Option CellRef) := do
  let m ← get
  if (m.content key).isEmpty then
    return some (← newEmpty)
  let name := m.display key
  let content := m.content cell
  match Method.find? content.kind name with
  | some method => return some (← alloc (.method (← newStamp) method cell))
  | none =>
    match content with
    | .object ref => return m.lookUp ref key
    | .custom ref => accessInstance cell ref name
    | .hostType type =>
      match type.staticMethods.lookup name with
      | some action =>
        let method : HostMethod := { type, name, action, isStatic := true }
        return some (← alloc (.hostMethod (← newStamp) method cell))
      | none => return none
    | _ => return none

/-- Adds a key to a value, and answers whether the value takes it. Where the key is not the last of
a chain its value becomes an empty object. -/
def createEntry (cell key value : CellRef) (isFinal : Bool) : Run Bool := do
  match ← content cell with
  | .object ref =>
    if !isFinal then
      write value (.object (← newTable))
    setEntry ref key value
    return true
  | .custom ref =>
    match (← get).instanceOf ref with
    | .vector type x y _ =>
      if isFinal && (← display key) == "z" then
        modify fun m =>
          { m with
            instances := m.instances.setIfInBounds ref.index (.vector type x y (some value)) }
        return true
      return false
    | _ => return false
  | _ => return false

/-- The names that can be reached from a value. -/
def Machine.candidates (m : Machine) (cell : CellRef) : List String :=
  let own :=
    match m.content cell with
    | .object ref => (m.table ref).keys.map m.display
    | _ => []
  let host :=
    match m.content cell with
    | .custom ref => (m.instanceOf ref).type.methodNames
    | .hostType type => type.methodNames
    | _ => []
  own ++ Method.names (m.kind cell) ++ host

/-- What an instance of a host type gives when it is iterated: nothing, or a value that is an iterator
if the type is sound. -/
def iterateInstance : Instance → Run (Option CellRef)
  | .vector _ x y _ => return some (← newIterator [x, y])
  | .odd _ "error" => Run.fail "odd iterator failed"
  | .odd _ "bad" => return some (← newNumber (Decimal.ofInt 1))
  | .odd _ "pairs" => do
    let numbers (ns : List Int) : Run CellRef := do
      newArray (← ns.mapM fun n => newNumber (Decimal.ofInt n))
    return some (← newIterator [← numbers [1, 2], ← numbers [3, 4, 5]])
  | _ => return none

/-- The elements of a value, as an iterator: the pairs of key and value of an object, the characters of
a string. -/
def iterate (cell : CellRef) : Run (Option CellRef) := do
  match ← content cell with
  | .iterator _ => return some cell
  | .object ref =>
    let pairs ← (← tableOf ref).entries.mapM fun entry => newArray [entry.key, entry.value]
    return some (← newIterator pairs)
  | .string s =>
    let chars ← s.toList.mapM fun c => newString c.toString
    return some (← newIterator chars)
  | .custom ref => iterateInstance ((← get).instanceOf ref)
  | _ => return none

def makeIterator (cell : CellRef) : Run CellRef := do
  match ← iterate cell with
  | some iterator => return iterator
  | none =>
    let type := (← get).typeName cell
    Run.fail s!"[{type}] is not iterable."

/-! ### Callers of natives -/

structure Call where
  scale : Int
  invoke : String → CellRef → List CellRef → Run CellRef
  fuel : Nat

namespace Call

/-- The division scale a configured one stands for. -/
def effectiveScale (scale : Int) : Int := if scale ≤ 0 then defaultDivisionScale else scale

/-- A caller that no function can be called through. -/
def detached (scale : Int) (fuel : Nat) : Call where
  scale := effectiveScale scale
  invoke := fun name _ _ => Run.fail s!"cannot call {name}: no interpreter attached"
  fuel := fuel

end Call

/-- Fails unless enough arguments are given. -/
def requireArgs (name : String) (args : List CellRef) (count : Nat) : Run Unit :=
  if args.length < count then
    Run.fail s!"{name} requires {count} argument(s), but {args.length} were given"
  else pure ()

/-- An argument, or a new empty value where none is given. -/
def argument (args : List CellRef) (i : Nat) : Run CellRef :=
  match args[i]? with
  | some cell => pure cell
  | none => newEmpty

end TreeScript
