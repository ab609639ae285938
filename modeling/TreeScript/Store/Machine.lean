import Std.Data.TreeMap
import TreeScript.Store.Table
import TreeScript.Store.Error

/-!
The state of an interpreter: the store with its cells, tables, scopes, stack traces, iterators and
instances, the loaded sources with their modules and imports, the options in force, and what has been
written and logged so far. Computations on it are of type `Run`: they may fail, and what they did to
the state before failing stays done.
-/

set_option autoImplicit false

namespace TreeScript

/-- Names bound to cells. -/
abbrev Scope := Std.TreeMap String CellRef

/-- A node that is being evaluated, with the source and the function it belongs to. -/
structure TraceEntry where
  source : String
  function : String
  node : Node

/-- The nodes being evaluated, outermost first. `pending` names the function that the next node
belongs to, and the values of `debugValues` are shown with every trace. -/
structure StackTrace where
  entries : Array TraceEntry := #[]
  pending : String := ""
  debugValues : List String := []
deriving Inhabited

/-- A module: a set of symbols a source exports. Modules are numbered within their source. -/
structure Module where
  name : String
  symbols : List String
deriving Inhabited, Repr

structure ModuleRef where
  context : ContextRef
  index : Nat
deriving DecidableEq, Repr, Inhabited

/-- An import of a source, linked to a module once that is known. -/
structure Import where
  name : String
  asName : String
  inline : Bool
  target : Option ModuleRef := none
deriving Repr, Inhabited

namespace Import

/-- The name an import goes by. -/
def key (i : Import) : String := if i.asName ≠ "" then i.asName else i.name

def text (i : Import) : String :=
  if i.inline then "import " ++ i.name ++ " inline"
  else if i.asName ≠ "" then "import " ++ i.name ++ " as " ++ i.asName
  else "import " ++ i.name

end Import

/-- A loaded source. Its variables are the only scope of its root frame. -/
structure Context where
  source : String
  globals : ScopeRef
  trace : TraceRef
  modules : Array Module := #[]
  imports : Array Import := #[]
  /-- The statements that are left once imports and exports are taken out. -/
  body : List Node := []
  evaluated : Bool := false
deriving Inhabited

def Context.frame (context : Context) : Frame :=
  { top := context.globals, outer := [], trace := context.trace, isRoot := true }

/-- An instance of a host type. -/
inductive Instance where
  | vector (type : HostType) (x y : CellRef) (z : Option CellRef)
  | odd (type : HostType) (mode : String)
  | counted (type : HostType) (count : Nat)

instance : Inhabited Instance := ⟨.counted ⟨⟨0⟩, "", "", .opaqueCount⟩ 0⟩

def Instance.type : Instance → HostType
  | vector type .. => type
  | odd type _ => type
  | counted type _ => type

/-- An iterator over a list of values. It can only tell whether there is another element by taking it
from the list, and keeps what it has taken until it is asked for the element. -/
structure Iterator where
  /-- The values that have not been taken yet. -/
  rest : List CellRef
  /-- A value that has been taken and not handed out. -/
  peeked : Option CellRef := none
  /-- Whether there was nothing more to take. -/
  done : Bool := false
deriving Inhabited

namespace Iterator

/-- Whether there is another element, and the iterator once that is known. -/
def hasNext (it : Iterator) : Bool × Iterator :=
  if it.peeked.isSome then (true, it)
  else if it.done then (false, it)
  else
    match it.rest with
    | [] => (false, { it with done := true })
    | item :: rest => (true, { it with rest, peeked := some item })

/-- The next element, if there is one, and the iterator once that is handed out. -/
def next (it : Iterator) : Option CellRef × Iterator :=
  let (found, it) := it.hasNext
  if found then (it.peeked, { it with peeked := none }) else (none, it)

/-- The elements that are yet to be handed out. -/
def remaining (it : Iterator) : List CellRef :=
  it.peeked.toList ++ if it.done then [] else it.rest

/-- The iterator once all its elements are used up. -/
def usedUp (it : Iterator) : Iterator := { it with rest := [], peeked := none, done := true }

end Iterator

/-- What a debugger is told to do at a halted node. -/
inductive DebugAction where
  | resume
  | symbols
  | stack
  | resumeAll
  | unknown (code : Int)
deriving DecidableEq, Repr

def DebugAction.name : DebugAction → String
  | resume => "resume"
  | symbols => "symbols"
  | stack => "stack"
  | resumeAll => "resume all"
  | unknown code => s!"DebugAction({code})"

def DebugAction.ofCode : Int → DebugAction
  | 0 => resume
  | 1 => symbols
  | 2 => stack
  | 3 => resumeAll
  | code => unknown code

/-- Where a debugger's actions come from. -/
inductive ActionSource where
  /-- Lines typed at a console; lines that make no sense are complained about if `complains`. -/
  | console (lines : List String) (complains : Bool)
  /-- Actions given in advance; when they run out the source fails, or ends the session. -/
  | queue (actions : List DebugAction) (failsAtEnd : Bool)

/-- A debugger halts before nodes: at all of them when stepping, else at those whose code is a
breakpoint. -/
structure Debugger where
  breakpoints : List String := []
  step : Bool := false
  actions : Option ActionSource := none
  /-- Whether it writes to a channel of its own instead of the program's output. -/
  separate : Bool := false
  disabled : Bool := false

/-- The settings of an interpreter. -/
structure Options where
  divisionScale : Int := 0
  suggestions : Int := 0
  forbiddenImports : List String := []
  autoImports : List String := []
  /-- The evaluation trace: 0 none, 1 code before, 2 code before and result, 3 result only. -/
  trace : Int := 0
  logResolve : Bool := false
  logAssignments : Bool := false
  logCalls : Bool := false
  traceValues : List String := []
  debugger : Option Debugger := none

inductive LogLevel where
  | verbose | info | error
deriving DecidableEq, Repr

def LogLevel.number : LogLevel → Nat
  | verbose => 1
  | info => 2
  | error => 4

def LogLevel.name : LogLevel → String
  | verbose => "Verbose"
  | info => "Info"
  | error => "Error"

/-- A native function with the module and name it is registered under. -/
structure NativeBinding where
  module : String
  name : String
  function : Native

structure Machine where
  cells : Array Content := #[]
  tables : Array Table := #[]
  scopes : Array Scope := #[]
  traces : Array StackTrace := #[]
  iterators : Array Iterator := #[]
  instances : Array Instance := #[]
  contexts : Array Context := #[]
  /-- The loaded sources in load order. -/
  loaded : Array ContextRef := #[]
  /-- The sources whose evaluation has begun and not ended. -/
  evaluating : List ContextRef := []
  /-- The sources made for the modules of host types. -/
  hostModules : List (String × ContextRef) := []
  /-- Registered natives, the latest first. -/
  natives : List NativeBinding := []
  options : Options := {}
  logLevel : LogLevel := .info
  output : String := ""
  debugOutput : String := ""
  log : Array String := #[]
  stamps : Nat := 0
deriving Inhabited

/-- A computation on a machine. -/
abbrev Run := EStateM Failure Machine

namespace Machine

def content (m : Machine) (cell : CellRef) : Content := m.cells[cell.index]?.getD .empty

def table (m : Machine) (ref : TableRef) : Table := m.tables[ref.index]?.getD {}

def scope (m : Machine) (ref : ScopeRef) : Scope := m.scopes[ref.index]?.getD {}

def trace (m : Machine) (ref : TraceRef) : StackTrace := m.traces[ref.index]?.getD {}

def context (m : Machine) (ref : ContextRef) : Context := m.contexts[ref.index]?.getD default

def instanceOf (m : Machine) (ref : InstanceRef) : Instance := m.instances[ref.index]?.getD default

def iterator (m : Machine) (ref : IteratorRef) : Iterator := m.iterators[ref.index]?.getD default

/-- The elements an iterator has yet to hand out. -/
def remaining (m : Machine) (ref : IteratorRef) : List CellRef := (m.iterator ref).remaining

def module? (m : Machine) (ref : ModuleRef) : Option Module :=
  (m.context ref.context).modules[ref.index]?

/-- The table of an object. -/
def tableOf? (m : Machine) (cell : CellRef) : Option TableRef :=
  match m.content cell with
  | .object table => some table
  | _ => none

def kind (m : Machine) (cell : CellRef) : Kind := (m.content cell).kind

def typeName (m : Machine) (cell : CellRef) : String := (m.content cell).typeName

def keyId (m : Machine) (cell : CellRef) : KeyId := (m.content cell).keyId

/-- Looks a cell up under a key of an object. -/
def lookUp (m : Machine) (table : TableRef) (key : CellRef) : Option CellRef :=
  (m.table table).get? (m.keyId key)

def lookUpText (m : Machine) (table : TableRef) (key : String) : Option CellRef :=
  (m.table table).get? (.string key)

end Machine

namespace Run

def fail {α : Type} (message : String) : Run α := throw (.plain message)

/-- Lets a number operation fail with its message. -/
def ofNumber {α : Type} : Except NumberError α → Run α
  | .ok a => pure a
  | .error e => fail e.message

end Run

/-! ### Cells -/

def alloc (content : Content) : Run CellRef :=
  modifyGet fun m => (⟨m.cells.size⟩, { m with cells := m.cells.push content })

/-- Overwrites a cell, which every name that shares it sees. -/
def write (cell : CellRef) (content : Content) : Run Unit :=
  modify fun m => { m with cells := m.cells.setIfInBounds cell.index content }

def content (cell : CellRef) : Run Content := return (← get).content cell

/-- Overwrites a cell with the content of another. -/
def inherit (cell source : CellRef) : Run Unit := do write cell (← content source)

/-- A new cell with the same content. -/
def copy (cell : CellRef) : Run CellRef := do alloc (← content cell)

def newEmpty : Run CellRef := alloc .empty

def newNumber (d : Decimal) : Run CellRef := alloc (.number d)

def newString (s : String) : Run CellRef := alloc (.string s)

def newBoolean (b : Bool) : Run CellRef := alloc (.boolean b)

def newStamp : Run Stamp := modifyGet fun m => (⟨m.stamps⟩, { m with stamps := m.stamps + 1 })

/-! ### Objects -/

def newTable : Run TableRef :=
  modifyGet fun m => (⟨m.tables.size⟩, { m with tables := m.tables.push {} })

def modifyTable (ref : TableRef) (change : Table → Table) : Run Unit :=
  modify fun m => { m with tables := m.tables.modify ref.index change }

def tableOf (ref : TableRef) : Run Table := return (← get).table ref

/-- Sets the value under a key. -/
def setEntry (ref : TableRef) (key value : CellRef) : Run Unit := do
  let id := (← get).keyId key
  modifyTable ref fun table => table.set id key value

def setText (ref : TableRef) (key : String) (value : CellRef) : Run Unit := do
  setEntry ref (← newString key) value

/-- Removes a key and answers what was under it. -/
def eraseEntry (ref : TableRef) (key : CellRef) : Run (Option CellRef) := do
  let cells := (← get).cells
  let idOf (cell : CellRef) : KeyId := (cells[cell.index]?.getD .empty).keyId
  let (table, removed) := (← tableOf ref).erase idOf (idOf key)
  modifyTable ref fun _ => table
  return removed

/-- An object whose values are the given cells, under the keys 0, 1 and so on. -/
def newArrayTable (items : List CellRef) : Run TableRef := do
  let ref ← newTable
  for (item, i) in items.zipIdx do
    setEntry ref (← newNumber (Decimal.ofInt i)) item
  return ref

def newObject (ref : TableRef) : Run CellRef := alloc (.object ref)

def newArray (items : List CellRef) : Run CellRef := do newObject (← newArrayTable items)

def newTextArray (items : List String) : Run CellRef := do newArray (← items.mapM newString)

/-- The table of an object, or an empty one for a value that is no object. -/
def tableOrNew (cell : CellRef) : Run TableRef := do
  match ← content cell with
  | .object ref => return ref
  | _ => newTable

/-- Runs an action on every entry a walk finds, in order, with the state built up so far. -/
def forEntries {σ : Type} (ref : TableRef) (init : σ) (act : σ → Entry → Run σ) : Run σ := do
  let walk := (← tableOf ref).walk
  (List.range walk.length).foldlM
    (fun state i => do
      match (← tableOf ref).entryAt walk i with
      | some entry => act state entry
      | none => return state)
    init

/-! ### Iterators -/

def newIterator (items : List CellRef) : Run CellRef := do
  let ref : IteratorRef ← modifyGet fun m =>
    (⟨m.iterators.size⟩, { m with iterators := m.iterators.push { rest := items } })
  alloc (.iterator ref)

def setIterator (ref : IteratorRef) (it : Iterator) : Run Unit :=
  modify fun m => { m with iterators := m.iterators.setIfInBounds ref.index it }

def hasNext (ref : IteratorRef) : Run Bool := do
  let (found, it) := ((← get).iterator ref).hasNext
  setIterator ref it
  return found

/-- Hands out the next element. -/
def next? (ref : IteratorRef) : Run (Option CellRef) := do
  let (item?, it) := ((← get).iterator ref).next
  setIterator ref it
  return item?

/-! ### Output -/

def say (text : String) : Run Unit := modify fun m => { m with output := m.output ++ text }

def sayDebug (text : String) : Run Unit :=
  modify fun m => { m with debugOutput := m.debugOutput ++ text }

def logInfo (text : String) : Run Unit :=
  modify fun m =>
    if m.logLevel = .error then m else { m with log := m.log.push ("[I]> " ++ text) }

def logVerbose (text : String) : Run Unit :=
  modify fun m =>
    if m.logLevel = .verbose then { m with log := m.log.push ("[V]> " ++ text) } else m

end TreeScript
