import TreeScript.Eval.Resolve
import TreeScript.Operator.Apply

/-!
Statements: sequences, branches, loops, assignments and declarations.
-/

set_option autoImplicit false

namespace TreeScript

namespace Interp

/-- Evaluates statements in order until one does not end normally; `last` is how the one before ended. -/
def sequenceFrom (interp : Interp) (site : Site) (mode : Mode) :
    Completion → List Node → Run Completion
  | last, [] => return last
  | _, node :: nodes => do
    let result ← interp.eval site mode node
    if result.flow = .normal then interp.sequenceFrom site mode result nodes else return result

def sequence (interp : Interp) (site : Site) (mode : Mode) (nodes : List Node) : Run Completion := do
  interp.sequenceFrom site mode ⟨← newEmpty, .normal⟩ nodes

/-- Runs the first branch whose condition holds. -/
def branches (interp : Interp) (site : Site) : List (Option Node × Node) → Run Completion
  | [] => return { value := ← newEmpty }
  | (none, body) :: _ => interp.eval site .required body
  | (some condition, body) :: rest => do
    if ← isTrue (← interp.value site condition) then interp.eval site .required body
    else interp.branches site rest

def returned (interp : Interp) (site : Site) (argument : Option Node) : Run Completion := do
  match argument with
  | some node => return { value := ← interp.value site node, flow := .returned }
  | none => return { value := ← newEmpty, flow := .returned }

/-- One pass of a loop: whether the loop is over, and how the pass ended. -/
def pass (interp : Interp) (site : Site) (body : Node) : Run (Bool × Completion) := do
  let result ← interp.eval site .required body
  match result.flow with
  | .normal => return (false, result)
  | .returned => return (true, result)
  | .broken => return (true, { value := ← newEmpty })
  | .continued => return (false, { value := ← newEmpty })

/-- Binds the variables of a loop to an element. An array is spread over as many variables, and a pair
gives its second part to a single one. -/
def bindElement (names : List String) (element : CellRef) (frame : Frame) : Run Unit := do
  let m ← get
  let array? := (m.tableOf? element).filter m.isArray
  match array?.map fun ref => (m.table ref).values with
  | some items =>
    if items.length = names.length then
      for (name, item) in names.zip items do
        frame.putOnTop name (← copy item)
    else
      match items, names with
      | [_, second], [name] => frame.putOnTop name (← copy second)
      | _, _ =>
        let shown := m.display element
        Run.fail
          s!"Expected {names.length} variables, but got {items.length} for iterator element: {shown}"
  | none =>
    match names with
    | [name] => frame.putOnTop name (← copy element)
    | _ =>
      let type := m.typeName element
      let shown := m.display element
      Run.fail s!"Iterator element is {type} but expected object: {shown}"

/-- Passes over the elements left in an iterator, of which there are at most `count`. -/
def forElements (interp : Interp) (site : Site) (names : List String) (body : Node)
    (ref : IteratorRef) : Nat → Completion → Run Completion
  | 0, last => return last
  | count + 1, last => do
    match ← next? ref with
    | none => return last
    | some element =>
      let inner ← site.fork
      site.traced .invalidControl (bindElement names element inner.frame)
      let (ended, result) ← interp.pass inner body
      if ended then return result else interp.forElements site names body ref count result

def forLoop (interp : Interp) (site : Site) (names : List String) (iterable body : Node) :
    Run Completion := do
  let cell ← interp.value site iterable
  let iterator ← site.traced .invalidControl (makeIterator cell)
  match ← content iterator with
  | .iterator ref =>
    let count := ((← get).remaining ref).length
    interp.forElements site names body ref count { value := ← newEmpty }
  | _ => site.raise .invalidControl "Iterator element did not provide iterable"

/-- Passes while the condition holds. -/
def whileHolds (interp : Interp) (site : Site) (condition body : Node) :
    Nat → Completion → Run Completion
  | 0, _ => throw .outOfFuel
  | fuel + 1, last => do
    let test ← interp.value site condition
    match ← content test with
    | .boolean true =>
      let (ended, result) ← interp.pass site body
      if ended then return result else interp.whileHolds site condition body fuel result
    | .boolean false => return last
    | _ =>
      let shown ← display test
      site.raise .invalidControl ("While condition is not a boolean: " ++ shown)

def whileLoop (interp : Interp) (site : Site) (condition body : Node) : Run Completion := do
  interp.whileHolds (← site.fork) condition body interp.fuel { value := ← newEmpty }

/-- Applies an operator. -/
def applyOperator (interp : Interp) (site : Site) (symbol : String) (fixity : Fixity)
    (args : List CellRef) : Run CellRef := do
  let call ← interp.callFrom site
  site.traced .typeMismatch (Operator.standard.evaluate call symbol fixity args)

/-- What was probably meant by an assignment to a call. -/
def assignmentHint? : Node → Option String
  | .functionCall .. =>
    some "Assignments are not allowed on function calls. Try removing the parentheses."
  | .access steps =>
    match steps.getLast? with
    | some (.call args) =>
      some ("To define a function on an object, use the '->' arrow syntax: " ++
        (Node.access steps.dropLast).code ++ " = (" ++ Node.commas (args.map Node.code) ++
        ") -> \x7b ... \x7d")
    | _ => none
  | _ => none

/-- Assigns by overwriting the cell of the target. A compound assignment to an empty target just
assigns. -/
def assign (interp : Interp) (site : Site) (operator : String) (target value : Node) :
    Run CellRef := do
  if let some hint := assignmentHint? target then
    site.raise .invalidControl ("Cannot assign to " ++ target.code ++ "\n" ++ hint)
  let new ← interp.value site value
  let cell ← interp.value site target .createIfMissing
  if operator ≠ "" && operator ≠ "=" && !(← content cell).isEmpty then
    let combined ← interp.applyOperator site operator .infixOp [cell, new]
    inherit cell combined
  else inherit cell new
  if (← get).options.logAssignments then
    let shown ← display cell
    logInfo ("assignment: [" ++ target.code ++ "] = [" ++ shown ++ "]")
  return cell

end Interp

/-- A function of the language, defined at a site. -/
def newFunction (site : Site) (params : List String) (body : Node) : Run CellRef := do
  alloc (.function (← newStamp) { params, body, context := site.context, frame := site.frame })

/-- The native function registered under a name for one of several modules. -/
def Machine.native? (m : Machine) (modules : List String) (name : String) : Option Native :=
  modules.findSome? fun module =>
    (m.natives.find? fun native => native.module == module && native.name == name).map (·.function)

/-- The native function a declaration stands for: one of a module the source exports, or of a module
named like the source. -/
def declaredNative (site : Site) (name : String) : Run CellRef := do
  if !site.frame.isRoot then
    site.raise .native "Native functions can only be declared in the global context"
  let context := (← get).context site.context
  let modules := context.modules.toList.map (·.name) ++ [context.source]
  match (← get).native? modules name with
  | some function => alloc (.native (← newStamp) function)
  | none =>
    site.raise .native
      ("Native function [" ++ name ++ "] not found using candidates: [" ++ Node.commas modules ++ "]")

namespace Interp

def declare (interp : Interp) (site : Site) (origin : Node) (name : String) (params : List String)
    (body : Option Node) (native : Bool) : Run CellRef := do
  let function ←
    if native then declaredNative site name
    else newFunction site params (body.getD (.block []))
  let cell ← resolve interp site origin .createIfMissing [.identifier name]
  inherit cell function
  return cell

end Interp

end TreeScript
