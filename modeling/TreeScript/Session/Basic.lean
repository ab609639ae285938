import TreeScript.Eval.Interp
import TreeScript.Session.Source

/-!
Sessions. Sources are loaded, linked to the modules they import from, and run after the sources they
depend on. The first of them are the core modules, each a source that declares its native functions and
exports them. All functions of a session change its machine; one that fails leaves behind what it did
before.
-/

set_option autoImplicit false

namespace TreeScript

structure CoreModule where
  name : String
  /-- The functions, in the order of their names. -/
  functions : List (String × Native)

namespace CoreModule

def all : List CoreModule :=
  [ { name := "system"
      functions :=
        [ ("callFunctionByName", .callFunctionByName), ("getImports", .getImports),
          ("getVariable", .getVariable), ("print", .print), ("removeVariable", .removeVariable),
          ("setVariable", .setVariable) ] },
    { name := "reflect"
      functions := [("access", .access), ("inherit", .inherit), ("type", .typeName)] },
    { name := "math"
      functions :=
        [ ("abs", .abs), ("ceil", .ceil), ("cos", .cos), ("floor", .floor), ("range", .range),
          ("round", .round), ("sin", .sin), ("space", .space), ("sqrt", .sqrt), ("tan", .tan),
          ("toNumber", .toNumber) ] },
    { name := "debug"
      functions := [("stackTraceValues", .stackTraceValues), ("trace", .trace)] } ]

def source (module : CoreModule) : String := module.name ++ ".mtr"

def statements (module : CoreModule) : List Node :=
  module.functions.map (fun (name, _) => .declaration name [] none true) ++
    [.exportStatement (module.functions.map (·.1)) module.name]

def bindings (module : CoreModule) : List NativeBinding :=
  module.functions.map fun (name, function) => { module := module.name, name, function }

end CoreModule

/-- The natives a host program adds. -/
def hostBindings : List NativeBinding :=
  [ ("twice", HostFunction.twice), ("fail", .fail), ("failTyped", .failTyped),
    ("nothing", .nothing), ("invoke", .invoke), ("bare", .bare) ].map fun (name, function) =>
      { module := "host", name, function := .host function }

end TreeScript

namespace TreeScript.Session

/-- The fuel of every evaluation a session starts. -/
def fuel : Nat := 1000000000000

/-- The number of suggestions made unless another is set. -/
def defaultSuggestions : Int := 3

namespace Lookup

/-- The source loaded last under a name. -/
def context? (m : Machine) (source : String) : Option ContextRef :=
  m.loaded.toList.reverse.find? fun ref => (m.context ref).source == source

/-- The module of a source declared last under a name. -/
def moduleIn? (m : Machine) (name : String) (context : ContextRef) : Option ModuleRef :=
  let modules := (m.context context).modules.toList
  (modules.zipIdx.reverse.find? fun (module, _) => module.name == name).map fun (_, i) => ⟨context, i⟩

/-- The module loaded last under a name. -/
def module? (m : Machine) (name : String) : Option ModuleRef :=
  m.loaded.toList.reverse.findSome? (moduleIn? m name)

/-- Every module name once, in load order. -/
def moduleNames (m : Machine) : List String :=
  (m.loaded.toList.flatMap fun ref =>
    (m.context ref).modules.toList.map (·.name)).eraseDups

/-- The other sources that a source imports from. -/
def dependencies (m : Machine) (context : ContextRef) : List ContextRef :=
  (m.context context).imports.toList.filterMap fun i =>
    (i.target.map (·.context)).filter (· ≠ context)

end Lookup

open Lookup

def requireContext (source : String) : Run ContextRef := do
  match context? (← get) source with
  | some ref => return ref
  | none => throw (SourceError.notLoaded source).failure

/-- Adds an import unless there is one under the same name, and tells which. -/
def addImport (context : ContextRef) (i : Import) : Run Bool := do
  if Declarations.hasImport ((← get).context context).imports i.key then
    return false
  modifyContext context fun c => { c with imports := c.imports.push i }
  return true

/-- Loads a source. Sources of users are held to the forbidden imports and get the automatic ones. -/
def loadSource (source : String) (statements : List Node) (isUser : Bool) : Run ContextRef := do
  let options := (← get).options
  let forbidden := if isUser then options.forbiddenImports else []
  let declared ← Run.ofSource (Declarations.collect source forbidden statements)
  let context ← newContext source options.traceValues
  modifyContext context fun c =>
    { c with imports := declared.imports, modules := declared.modules, body := declared.body.toList }
  if isUser then
    for text in options.autoImports do
      let i ← Run.ofSource (Import.parse text)
      let _ ← addImport context i
  modify fun m => { m with loaded := m.loaded.push context }
  let imports := ((← get).context context).imports.size
  logVerbose s!"loaded {source}: {declared.modules.size} module(s), {imports} import(s)"
  return context

def load (source : String) (statements : List Node) : Run ContextRef :=
  loadSource source statements true

/-- The import with the module it stands for. An import that is linked stays as it is. -/
def linked (i : Import) : Run Import := do
  if i.target.isSome then
    return i
  let m ← get
  match module? m i.name with
  | some ref => return { i with target := some ref }
  | none => throw (SourceError.missingModule i.name (moduleNames m)).failure

/-- Links the imports of a source. -/
def linkContext (context : ContextRef) : Run Unit := do
  for (i, k) in ((← get).context context).imports.toList.zipIdx do
    let i ← linked i
    modifyContext context fun c => { c with imports := c.imports.setIfInBounds k i }

/-- Links the imports of all loaded sources. -/
def link : Run Unit := do
  for context in (← get).loaded do
    linkContext context

/-- Runs statements in the root frame of a source. -/
def evaluateStatements (context : ContextRef) (statements : List Node) : Run CellRef := do
  let site : Site := { context, frame := ((← get).context context).frame }
  let result ← (interp fuel).eval site .required (.root statements)
  if result.flow.needsLoop then
    let source := ((← get).context context).source
    site.raise .invalidControl
      ("Unexpected " ++ result.flow.word ++ " outside of a loop in " ++ source)
  return result.value

/-- Runs an action while a source counts as being evaluated. -/
def whileEvaluating {α : Type} (context : ContextRef) (act : Run α) : Run α := do
  modify fun m => { m with evaluating := context :: m.evaluating }
  let done : Run Unit :=
    modify fun m => { m with evaluating := m.evaluating.filter (· ≠ context) }
  let result ← tryCatch act fun failure => do
    done
    throw failure
  done
  return result

/-- Evaluates a source after those it depends on, unless that has been done or is being done. The fuel
bounds the length of a chain of dependencies. -/
def evaluateContext : Nat → ContextRef → Run CellRef
  | 0, _ => newEmpty
  | fuel + 1, context => do
    let m ← get
    if (m.context context).evaluated || m.evaluating.contains context then
      return ← newEmpty
    whileEvaluating context do
      for dependency in dependencies (← get) context do
        let _ ← evaluateContext fuel dependency
      let c := (← get).context context
      logVerbose ("evaluating " ++ c.source)
      modifyContext context fun c => { c with evaluated := true }
      evaluateStatements context c.body

def evaluateLoaded (context : ContextRef) : Run CellRef := do
  evaluateContext ((← get).contexts.size + 1) context

/-- Runs a loaded source and answers the value of its last statement. -/
def run (source : String) : Run CellRef := do
  let context ← requireContext source
  link
  evaluateLoaded context

/-- Runs every loaded source that has not been run. -/
def runAll : Run Unit := do
  link
  for context in (← get).loaded do
    if !((← get).context context).evaluated then
      let _ ← evaluateLoaded context

/-- Loads a source and runs it. -/
def evaluate (source : String) (statements : List Node) : Run CellRef := do
  let _ ← load source statements
  run source

/-- Runs more statements in a source that is loaded already. -/
def evaluateIn (source : String) (statements : List Node) : Run CellRef := do
  let context ← requireContext source
  let forbidden := (← get).options.forbiddenImports
  let declared ← Run.ofSource (Declarations.collect source forbidden statements)
  for i in declared.imports do
    if !(← addImport context i) then
      throw (SourceError.duplicateImport i.key source).failure
  modifyContext context fun c => { c with modules := c.modules ++ declared.modules }
  runAll
  evaluateStatements context declared.body.toList

/-- The variables of a source as an object. -/
def symbols (source : String) : Run (Option CellRef) := do
  match context? (← get) source with
  | some context => return some (← symbolsObject context)
  | none => return none

/-- Calls a function from outside of the language. -/
def callFunction (source : String) (function : CellRef) (args : List CellRef) : Run CellRef := do
  let context ← requireContext source
  let site : Site := { context, frame := ((← get).context context).frame }
  (interp fuel).call site "<host>" .none function args

/-- What a function gets that is called from nowhere: calls fall back to the source loaded last. -/
def outerCall (scale : Int) : Call where
  scale := Call.effectiveScale scale
  invoke := fun name function args => do
    match Native.lastSite? (← get) with
    | some site => (interp fuel).call site name .none function args
    | none => Run.fail s!"cannot call {name}: no context loaded"
  fuel := fuel

/-- A source of a program. -/
structure SourceText where
  name : String
  statements : List Node

/-- Loads the sources of a program and runs its entry. -/
def runProgram (name : String) (entry : Option SourceText) (sources : List SourceText) :
    Run CellRef := do
  match entry with
  | none => throw SourceError.noEntry.failure
  | some entry =>
    for source in sources do
      let _ ← load source.name source.statements
    if (context? (← get) entry.name).isNone then
      let _ ← load entry.name entry.statements
    logVerbose s!"program {name}: running {entry.name} with {sources.length} source(s)"
    run entry.name

/-! ### Setting up -/

def registerNatives (bindings : List NativeBinding) : Run Unit :=
  modify fun m => { m with natives := bindings.reverse ++ m.natives }

/-- Makes a host type a symbol of its module. The module gets a source of its own when it is first
named. -/
def registerType (module name : String) (shape : HostShape) : Run Unit := do
  if module = "" then
    Run.fail ("custom type " ++ Text.quote name ++ ": module name must be provided")
  if name = "" then
    Run.fail ("custom type in module " ++ Text.quote module ++ ": type name must be provided")
  let context ← match (← get).hostModules.lookup module with
    | some context => pure context
    | none =>
      let context ← newContext module []
      modifyContext context fun c =>
        { c with modules := #[{ name := module, symbols := [] }], evaluated := true }
      modify fun m =>
        { m with
          hostModules := (module, context) :: m.hostModules, loaded := m.loaded.push context }
      pure context
  let type : HostType := { stamp := ← newStamp, module, name, shape }
  setVariable context name (← alloc (.hostType type))
  modifyContext context fun c =>
    { c with modules := c.modules.modify 0 fun module =>
        if module.symbols.contains name then module
        else { module with symbols := module.symbols ++ [name] } }

/-- The module and the types a host program registers. -/
def registerHostTypes : Run Unit := do
  registerType "geo" "Vec" .vector
  registerType "geo" "Odd" .odd
  registerType "geo" "Opaque" .opaqueCount
  registerType "geo" "Sealed" .sealed

/-- Loads a core module and runs it. -/
def loadCore (module : CoreModule) : Run Unit := do
  registerNatives module.bindings
  let context ← loadSource module.source module.statements false
  let _ ← evaluateLoaded context

/-- The options with defaults for what is not set, or a complaint. -/
def checkOptions (options : Options) : Except String Options := do
  let scale := if options.divisionScale = 0 then (defaultDivisionScale : Int)
    else options.divisionScale
  if let some issue := divisionScaleIssue? scale then
    throw issue
  let suggestions := if options.suggestions = 0 then defaultSuggestions else options.suggestions
  if suggestions < 0 then
    throw s!"suggestions must not be negative, got {suggestions}"
  if options.trace < 0 ∨ Native.maxTraceStyle < options.trace then
    throw s!"trace style must be between 0 and {Native.maxTraceStyle}, got {options.trace}"
  return { options with divisionScale := scale, suggestions }

/-- Starts a session: the core modules are loaded without a debugger and without evaluation logs. -/
def start (options : Options) : Run Unit := do
  match checkOptions options with
  | .error issue => Run.fail issue
  | .ok options =>
    let quiet : Options :=
      { options with
        trace := 0, logResolve := false, logAssignments := false, logCalls := false,
        debugger := none }
    modify fun m => { m with options := quiet }
    for module in CoreModule.all do
      loadCore module
    modify fun m => { m with options }

end TreeScript.Session
