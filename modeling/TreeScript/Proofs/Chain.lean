import TreeScript.Proofs.Run
import TreeScript.Eval.Resolve

/-!
# The parts of the steps of an access chain

A chain that meets an import moves into its module in three parts: it makes sure that it is still in
the source it started in (`requireHome`), that the symbol of an inline import is defined
(`requireDefined`), and opens a frame with the variables of the module's source (`enterModule`).
`switchToImport_cons` takes the search among the imports apart into these. `createName_eq` does the
same for the creation of a name, and `resolveSteps_cons` cuts a chain behind its first step
(`advance`).
-/

set_option autoImplicit false

namespace TreeScript

/-- Whether an import goes by a name. -/
def Machine.fits (m : Machine) (i : Import) (ref : ModuleRef) (name : String) (writing : Bool) :
    Bool :=
  if i.inline then !writing && m.exports ref name else i.key == name

namespace Chain

/-- Refuses to follow an import out of another source than the one the chain started in. -/
def requireHome (chain : Chain) (name moduleName : String) (inline : Bool) (context : ContextRef) :
    Run Unit :=
  if context ≠ chain.site.context then
    if inline then
      chain.raise .illegalModuleAccess
        ("Illegal access on [" ++ chain.origin.code ++ "]: [" ++ name ++
          "] references a symbol from the [" ++ moduleName ++ "] module." ++ crossModule)
    else
      chain.raise .illegalModuleAccess
        ("Illegal access on [" ++ chain.origin.code ++ "]: Cannot access reference to the [" ++
          moduleName ++ "] module." ++ crossModule)
  else pure ()

/-- Refuses an inline import of a symbol that is not defined. -/
def requireDefined (chain : Chain) (name moduleName : String) (inline : Bool)
    (value : Option CellRef) : Run Unit :=
  if inline && value.isNone then
    chain.raise .unresolvedSymbol
      ("Module [" ++ moduleName ++ "] exports [" ++ name ++ "], but does not define it")
  else pure ()

/-- Opens a frame with the variables of a module's source and moves a chain there. -/
def enterModule (chain : Chain) (ref : ModuleRef) (globals : Scope) (value : Option CellRef)
    (r : Resolution) : Run Resolution := do
  let frame ← chain.site.frame.forkWith globals
  return { r with context := ref.context, module := some ref, frame, value }

/-- Moves a chain into the module of an import that goes by a name. -/
def follow (chain : Chain) (m : Machine) (i : Import) (ref : ModuleRef) (name : String)
    (r : Resolution) : Run Resolution := do
  chain.requireHome name (m.moduleName ref) i.inline r.context
  chain.requireDefined name (m.moduleName ref) i.inline (m.global? ref.context name)
  chain.enterModule ref (m.scope (m.context ref.context).globals)
    (if i.inline then m.global? ref.context name else none) r

/-- The search among the imports follows the first one that goes by the name. -/
theorem switchToImport_cons (chain : Chain) (name : String) (writing : Bool) (r : Resolution)
    (i : Import) (imports : List Import) :
    chain.switchToImport name writing r (i :: imports) =
      match i.target with
      | none => chain.raise .importError ("Module has not finished loading yet: " ++ i.text)
      | some ref => (do
        let m ← get
        if m.fits i ref name writing then some <$> chain.follow m i ref name r
        else chain.switchToImport name writing r imports) := by
  rw [switchToImport]
  cases i.target with
  | none => rfl
  | some ref =>
    refine bind_congr fun m ↦ ?_
    unfold Machine.fits follow requireHome requireDefined enterModule
    dsimp only
    generalize (if i.inline = true then !writing && m.exports ref name else i.key == name) = fits
    cases fits with
    | false => rfl
    | true =>
      by_cases hhome : r.context ≠ chain.site.context
      all_goals
        cases i.inline <;> by_cases hvalue : (m.global? ref.context name).isNone = true <;>
          simp [hhome, hvalue]

/-! ### Creating a name -/

/-- Gives up on a name where no names are created. -/
def requireCreating (chain : Chain) (name : String) (r : Resolution) : Run Unit := do
  if !chain.mode.creates then
    let message := (← get).unresolvedMessage chain.origin name r.value r.context
    chain.raise .unresolvedSymbol message

/-- The cell of a name that is created: empty at the end of a chain, and else an empty object. -/
def newPlace (isFinal : Bool) : Run CellRef := do
  if isFinal then newEmpty else newObject (← newTable)

/-- A name is created by binding it to a new cell. -/
theorem createName_eq (chain : Chain) (i : Nat) (isFinal : Bool) (name : String) (r : Resolution) :
    chain.createName i isFinal name r = (do
      chain.requireCreating name r
      let cell ← newPlace isFinal
      r.frame.put name cell
      logStep i name "created"
      return { r with value := some cell }) := by
  unfold createName requireCreating newPlace
  dsimp only
  by_cases hcreates : (!chain.mode.creates) = true
  · cases isFinal <;> simp [hcreates]
  · cases isFinal <;> simp [hcreates]

/-! ### Steps -/

/-- Remembers the value a chain has got to if it is an object. -/
def remember (m : Machine) (r : Resolution) : Resolution :=
  if r.value.any fun cell => m.kind cell = .object then { r with self := r.value } else r

/-- Takes a step by what the chain has got to: a value, or none yet. -/
def takeStep (chain : Chain) (interp : Interp) (i : Nat) (isFinal : Bool) (before step : Node)
    (r : Resolution) : Run Resolution :=
  match r.value, step with
  | some value, _ => chain.resolveStep interp i isFinal before step value r
  | none, .identifier name => chain.resolveName i isFinal name r
  | none, _ => do
    let value ← interp.value chain.site step
    logStep i step.code "evaluated node"
    return { r with value := some value }

/-- Takes one step of a chain, which has number `i` and comes behind the step `before`. -/
def advance (chain : Chain) (interp : Interp) (i : Nat) (isFinal : Bool) (before step : Node)
    (r : Resolution) : Run Resolution := do
  let m ← get
  chain.takeStep interp i isFinal before step (remember m r)

/-- A chain takes its steps one by one. -/
theorem resolveSteps_cons (chain : Chain) (interp : Interp) (i : Nat) (before step : Node)
    (steps : List Node) (r : Resolution) :
    chain.resolveSteps interp i before (step :: steps) r = (do
      let r ← chain.advance interp i steps.isEmpty before step r
      chain.resolveSteps interp (i + 1) step steps r) := by
  unfold advance
  rw [resolveSteps, bind_assoc]
  refine bind_congr fun m ↦ ?_
  change (match (remember m r).value, step with
    | some value, _ => _
    | none, .identifier name => _
    | none, _ => _) = _
  unfold takeStep
  split
  · rfl
  · rfl
  · simp only [bind_assoc, pure_bind]
    rfl

end Chain

end TreeScript
