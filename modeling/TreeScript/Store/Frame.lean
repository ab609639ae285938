import TreeScript.Store.Machine

/-!
Operations on frames. A fork sees everything its parent sees and keeps new names to itself; the frame
of a function body starts empty. Both write to the stack trace of the frame they come from.
-/

set_option autoImplicit false

namespace TreeScript

namespace Scope

/-- All bindings of both scopes, those of `inner` winning. -/
def overlay (base inner : Scope) : Scope :=
  if base.isEmpty then inner else inner.foldl (fun acc name cell => acc.insert name cell) base

end Scope

def newScope (scope : Scope) : Run ScopeRef :=
  modifyGet fun m => (⟨m.scopes.size⟩, { m with scopes := m.scopes.push scope })

def modifyScope (ref : ScopeRef) (change : Scope → Scope) : Run Unit :=
  modify fun m => { m with scopes := m.scopes.modify ref.index change }

def newTrace (trace : StackTrace) : Run TraceRef :=
  modifyGet fun m => (⟨m.traces.size⟩, { m with traces := m.traces.push trace })

def modifyTrace (ref : TraceRef) (change : StackTrace → StackTrace) : Run Unit :=
  modify fun m => { m with traces := m.traces.modify ref.index change }

namespace StackTrace

def depth (trace : StackTrace) : Nat := trace.entries.size

/-- Records a node. It belongs to the function entered last, or else to that of the node below. -/
def push (trace : StackTrace) (source : String) (node : Node) : StackTrace :=
  let function :=
    if trace.pending ≠ "" then trace.pending
    else (trace.entries.back?.map (·.function)).getD ""
  { trace with entries := trace.entries.push ⟨source, function, node⟩, pending := "" }

def popTo (trace : StackTrace) (depth : Nat) : StackTrace :=
  if depth < trace.entries.size then { trace with entries := trace.entries.shrink depth } else trace

end StackTrace

namespace Machine

/-- The cell a name is bound to in the innermost scope that binds it. -/
def lookUpName (m : Machine) (frame : Frame) (name : String) : Option CellRef :=
  frame.scopes.findSome? fun ref => (m.scope ref)[name]?

/-- The innermost scope that binds a name. -/
def binderOf? (m : Machine) (frame : Frame) (name : String) : Option ScopeRef :=
  frame.scopes.find? fun ref => (m.scope ref).contains name

/-- All visible bindings. -/
def snapshot (m : Machine) (frame : Frame) : Scope :=
  frame.scopes.foldr (fun ref acc => acc.overlay (m.scope ref)) {}

/-- A variable of a source. -/
def global? (m : Machine) (context : ContextRef) (name : String) : Option CellRef :=
  (m.scope (m.context context).globals)[name]?

/-- The names of the variables of a source, in order. -/
def variableNames (m : Machine) (context : ContextRef) : List String :=
  (m.scope (m.context context).globals).keys

end Machine

namespace Frame

/-- Binds a name in the innermost scope. -/
def putOnTop (frame : Frame) (name : String) (cell : CellRef) : Run Unit :=
  modifyScope frame.top (·.insert name cell)

/-- Rebinds a name where it is bound, or binds it in the innermost scope. -/
def put (frame : Frame) (name : String) (cell : CellRef) : Run Unit := do
  let target := ((← get).binderOf? frame name).getD frame.top
  modifyScope target (·.insert name cell)

/-- Binds `self`; a `self` that was visible before stays reachable as `super`. -/
def putSelf (frame : Frame) (cell : CellRef) : Run Unit := do
  if let some former := (← get).lookUpName frame "self" then
    putOnTop frame "super" former
  putOnTop frame "self" cell

/-- Removes the innermost binding of a name and tells whether there was one. -/
def remove (frame : Frame) (name : String) : Run Bool := do
  match (← get).binderOf? frame name with
  | some ref =>
    modifyScope ref (·.erase name)
    return true
  | none => return false

def fork (frame : Frame) : Run Frame := do
  let top ← newScope {}
  return { top, outer := frame.scopes, trace := frame.trace }

/-- A frame with a single scope of its own. -/
def forkWith (frame : Frame) (scope : Scope) : Run Frame := do
  return { top := ← newScope scope, outer := [], trace := frame.trace }

def forkFunction (frame : Frame) : Run Frame := frame.forkWith {}

/-- Records a node on the stack trace and answers the depth to go back to. -/
def push (frame : Frame) (source : String) (node : Node) : Run Nat := do
  modifyTrace frame.trace (·.push source node)
  return ((← get).trace frame.trace).depth - 1

def popTo (frame : Frame) (depth : Nat) : Run Unit := modifyTrace frame.trace (·.popTo depth)

/-- Names the function that the next recorded node belongs to. -/
def enter (frame : Frame) (function : String) : Run Unit :=
  modifyTrace frame.trace fun trace => { trace with pending := function }

end Frame

/-- A new source without content. -/
def newContext (source : String) (debugValues : List String) : Run ContextRef := do
  let globals ← newScope {}
  let trace ← newTrace { debugValues }
  modifyGet fun m =>
    (⟨m.contexts.size⟩, { m with contexts := m.contexts.push { source, globals, trace } })

def modifyContext (ref : ContextRef) (change : Context → Context) : Run Unit :=
  modify fun m => { m with contexts := m.contexts.modify ref.index change }

def setVariable (context : ContextRef) (name : String) (cell : CellRef) : Run Unit := do
  modifyScope ((← get).context context).globals (·.insert name cell)

def removeVariable (context : ContextRef) (name : String) : Run Unit := do
  modifyScope ((← get).context context).globals (·.erase name)

end TreeScript
