import TreeScript.Eval.Basic
import TreeScript.Eval.Suggestion

/-!
Access chains. The head is looked up among the visible names, the variables of the source and its
imports; every later step is a call or the look-up of a key on the value before. An import that is not
inline moves the rest of the chain into the module, of which only exported symbols can be seen.
-/

set_option autoImplicit false

namespace TreeScript

/-- How far a chain has got. -/
structure Resolution where
  context : ContextRef
  frame : Frame
  /-- The module the chain has moved into. -/
  module : Option ModuleRef := none
  value : Option CellRef := none
  /-- The last object on the way, which becomes `self` of a call. -/
  self : Option CellRef := none

/-- What stays the same along a chain: the node it comes from, the site it is evaluated at, and what
happens to missing names. -/
structure Chain where
  origin : Node
  site : Site
  mode : Mode

namespace Machine

def exports (m : Machine) (ref : ModuleRef) (symbol : String) : Bool :=
  (m.module? ref).any (·.symbols.contains symbol)

def moduleName (m : Machine) (ref : ModuleRef) : String := ((m.module? ref).map (·.name)).getD ""

/-- What a name could have meant: what can be reached from the value before, or the variables and
imports of a source. -/
def candidateNames (m : Machine) (previous : Option CellRef) (context : ContextRef) : List String :=
  match previous with
  | some cell => m.candidates cell
  | none =>
    m.variableNames context ++
      (m.context context).imports.toList.flatMap fun i =>
        match i.target with
        | none => []
        | some ref => if i.inline then ((m.module? ref).map (·.symbols)).getD [] else [i.key]

def unresolvedMessage (m : Machine) (origin : Node) (name : String) (previous : Option CellRef)
    (context : ContextRef) : String :=
  let found :=
    Suggestion.suggest name (m.candidateNames previous context) m.options.suggestions.toNat
  "Cannot resolve symbol '" ++ name ++ "' on [" ++ origin.code ++ "]" ++
    (match previous with
      | some cell => "\nEvaluation stopped at value: " ++ m.display cell
      | none => "") ++
    if found.isEmpty then ""
    else "\nDid you mean " ++ Node.commas (found.map fun name => "'" ++ name ++ "'") ++ "?"

end Machine

/-- The variables of a source as an object. -/
def symbolsObject (context : ContextRef) : Run CellRef := do
  let m ← get
  let ref ← newTable
  for (name, cell) in (m.scope (m.context context).globals).toList do
    setText ref name cell
  newObject ref

def logStep (i : Nat) (key source : String) : Run Unit := do
  if (← get).options.logResolve then
    logInfo s!"resolve step {i} [{key}] from {source}"

namespace Chain

def raise {α : Type} (chain : Chain) (kind : ErrorKind) (message : String) : Run α :=
  chain.site.raise kind message

def crossModule : String := "\nAccessing symbols across modules is disallowed."

/-- Moves a chain into the module of an import that goes by a name. The symbol of an inline import
becomes the value at once, unless it is written to. Imports are followed only out of the source a chain
started in. -/
def switchToImport (chain : Chain) (name : String) (writing : Bool) (r : Resolution) :
    List Import → Run (Option Resolution)
  | [] => return none
  | i :: imports => do
    match i.target with
    | none => chain.raise .importError ("Module has not finished loading yet: " ++ i.text)
    | some ref =>
      let m ← get
      let fits := if i.inline then !writing && m.exports ref name else i.key == name
      if !fits then
        return ← chain.switchToImport name writing r imports
      let moduleName := m.moduleName ref
      if r.context ≠ chain.site.context then
        if i.inline then
          chain.raise .illegalModuleAccess
            ("Illegal access on [" ++ chain.origin.code ++ "]: [" ++ name ++
              "] references a symbol from the [" ++ moduleName ++ "] module." ++ crossModule)
        else
          chain.raise .illegalModuleAccess
            ("Illegal access on [" ++ chain.origin.code ++ "]: Cannot access reference to the [" ++
              moduleName ++ "] module." ++ crossModule)
      let value := m.global? ref.context name
      if i.inline && value.isNone then
        chain.raise .unresolvedSymbol
          ("Module [" ++ moduleName ++ "] exports [" ++ name ++ "], but does not define it")
      let frame ← chain.site.frame.forkWith (m.scope (m.context ref.context).globals)
      return some
        { r with
          context := ref.context, module := some ref, frame,
          value := if i.inline then value else none }

/-- Creates a name or gives up on it. -/
def createName (chain : Chain) (i : Nat) (isFinal : Bool) (name : String) (r : Resolution) :
    Run Resolution := do
  if !chain.mode.creates then
    let message := (← get).unresolvedMessage chain.origin name r.value r.context
    chain.raise .unresolvedSymbol message
  let cell ← if isFinal then newEmpty else newObject (← newTable)
  r.frame.put name cell
  logStep i name "created"
  return { r with value := some cell }

/-- Fails because a module does not export a name. -/
def notExported {α : Type} (chain : Chain) (ref : ModuleRef) (name : String) : Run α := do
  let moduleName := (← get).moduleName ref
  chain.raise .illegalModuleAccess
    ("Illegal access on [" ++ moduleName ++ "." ++ name ++ "]: module does not export symbol")

/-- The cell a name is bound to, or a copy of it that the name is bound to from now on. -/
def refresh (chain : Chain) (cell : CellRef) (rebind : CellRef → Run Unit) : Run CellRef := do
  if chain.mode = .createNew then
    let fresh ← copy cell
    rebind fresh
    return fresh
  return cell

/-- A name at the head of a chain that is imported, or that is not known at all. -/
def resolveForeign (chain : Chain) (i : Nat) (isFinal : Bool) (name : String) (r : Resolution) :
    Run Resolution := do
  let imports := ((← get).context r.context).imports.toList
  match ← chain.switchToImport name (chain.mode.creates && isFinal) r imports with
  | some moved =>
    let moduleName := (moved.module.map (← get).moduleName).getD ""
    logStep i name ("import of " ++ moduleName)
    if moved.value.isNone && isFinal then
      chain.raise .illegalModuleAccess
        ("Illegal access on [" ++ chain.origin.code ++ "]: Cannot access reference to the [" ++
          moduleName ++ "] module." ++ crossModule)
    return moved
  | none =>
    if name = "symbols" ∧ r.context ≠ chain.site.context then
      let symbols ← symbolsObject r.context
      logStep i name "module symbols"
      return { r with value := some symbols }
    match r.module, chain.mode.creates with
    | some ref, true => chain.notExported ref name
    | _, _ => chain.createName i isFinal name r

/-- A name at the head of a chain, or the first one behind an import. -/
def resolveName (chain : Chain) (i : Nat) (isFinal : Bool) (name : String) (r : Resolution) :
    Run Resolution := do
  match (← get).lookUpName r.frame name with
  | some cell =>
    if let some ref := r.module then
      if !(← get).exports ref name then
        chain.notExported ref name
    let cell ← chain.refresh cell (r.frame.put name)
    logStep i name "local symbols"
    return { r with value := some cell }
  | none =>
    match (← get).global? r.context name with
    | some cell =>
      let cell ← chain.refresh cell (setVariable r.context name)
      logStep i name "global variables"
      return { r with value := some cell }
    | none => chain.resolveForeign i isFinal name r

/-- The key a step looks up. -/
def stepKey (chain : Chain) (interp : Interp) : Node → Run CellRef
  | .identifier name => newString name
  | .index key => interp.value chain.site key
  | step => interp.value chain.site step

/-- A step behind the head: a call, or a key that is looked up and, where the mode says so, created. -/
def resolveStep (chain : Chain) (interp : Interp) (i : Nat) (isFinal : Bool) (before : Node)
    (step : Node) (value : CellRef) (r : Resolution) : Run Resolution := do
  match step with
  | .call args =>
    let args ← interp.values chain.site args
    let preparation := (r.self.map Preparation.self).getD .none
    let result ← interp.call chain.site before.code preparation value args
    logStep i step.code "function call"
    return { r with value := some result }
  | _ =>
    let key ← chain.stepKey interp step
    if let some found ← access value key then
      logStep i (← display key) "access on previous value"
      return { r with value := some found }
    if chain.mode.creates then
      let created ← newEmpty
      if !(← createEntry value key created isFinal) then
        let m ← get
        chain.raise .typeMismatch
          ("Cannot create [" ++ m.display key ++ "] on value of type " ++ m.typeName value ++ ": " ++
            chain.origin.code)
      logStep i (← display key) "created on previous value"
      return { r with value := some created }
    chain.createName i isFinal (← display key) r

/-- Takes the remaining steps, the first of which has number `i` and comes behind the step `before`. -/
def resolveSteps (chain : Chain) (interp : Interp) :
    Nat → Node → List Node → Resolution → Run CellRef
  | _, _, [], r =>
    match r.value with
    | some cell => return cell
    | none => newEmpty
  | i, before, step :: steps, r => do
    let isFinal := steps.isEmpty
    let m ← get
    let isObject := r.value.any fun cell => m.kind cell = .object
    let r := if isObject then { r with self := r.value } else r
    let r ← match r.value, step with
      | some value, _ => chain.resolveStep interp i isFinal before step value r
      | none, .identifier name => chain.resolveName i isFinal name r
      | none, _ => do
        let value ← interp.value chain.site step
        logStep i step.code "evaluated node"
        pure { r with value := some value }
    chain.resolveSteps interp (i + 1) step steps r

end Chain

/-- The value an access chain leads to. -/
def resolve (interp : Interp) (site : Site) (origin : Node) (mode : Mode) (steps : List Node) :
    Run CellRef := do
  if steps.isEmpty then
    site.raise .unresolvedSymbol ("Cannot resolve symbol from " ++ origin.code)
  if (← get).options.logResolve then
    logInfo ("resolve start: " ++ origin.code)
  let chain : Chain := { origin, site, mode }
  chain.resolveSteps interp 0 origin steps { context := site.context, frame := site.frame }

end TreeScript
