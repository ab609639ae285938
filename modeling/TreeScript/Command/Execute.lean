import TreeScript.Command.Arguments
import TreeScript.Project.Loader
import TreeScript.Store.Export
import TreeScript.Syntax.Encode

/-!
Carrying out commands. The result says all that can be seen of it: what is written, what is logged, and the
exit code.
-/

set_option autoImplicit false

namespace TreeScript.Command

open Project

/-- What can be seen of a command. -/
structure Outcome where
  code : Nat
  stdout : String := ""
  stderr : String := ""
  log : Array String := #[]

/-- Changes the log level. The change is logged if it is one and the level so far shows it. -/
def setLogLevel (level : LogLevel) : Run Unit := do
  let before := (← get).logLevel
  if level ≠ before then
    logInfo s!"Log level is now {level.number} {level.name} (was {before.number} {before.name})"
    modify fun m => { m with logLevel := level }

/-- A machine with the log level that the arguments ask for. -/
def loggingMachine (args : List String) : Machine :=
  match ((args.filterMap logLevel?).forM setLogLevel).run {} with
  | .ok _ m | .error _ m => m

namespace Outcome

def failed (m : Machine) (text : String) : Outcome :=
  { code := 1, stdout := m.output, stderr := text ++ "\n", log := m.log }

def done (m : Machine) (text : String) : Outcome :=
  { code := 0, stdout := m.output ++ text, log := m.log }

end Outcome

/-- The debugger that the flags of a run ask for. It halts everywhere unless there are breakpoints. -/
def debugger? (flags : RunFlags) (input : String) : Option Debugger :=
  if flags.debug || !flags.breakpoints.isEmpty then
    some
      { Debugger.ofBreakpoints flags.breakpoints with
        step := flags.debug && flags.breakpoints.isEmpty
        actions := some (.console (ActionSource.consoleLines input) true) }
  else none

def runOptions (flags : RunFlags) (settings : Settings) (input : String) : Options :=
  let options := settings.options
  { options with trace := flags.trace.getD options.trace, debugger := debugger? flags input }

def encodingComplaint (e : ExportError) : String := "failed to encode result: " ++ e.message

/-- The text of a result, or why it has none. Nothing is not written, unless as JSON. Written over
several lines, no value may nest too deep. -/
def resultText (m : Machine) (asJson : Bool) (cell : CellRef) : Except String String :=
  if asJson then
    match m.toJson cell with
    | .ok json =>
      match json.excess? Json.Reader.maxDepth with
      | some bracket => .error (encodingComplaint (.tooDeep 0 bracket))
      | none => .ok (json.pretty 0 ++ "\n")
    | .error e => .error (encodingComplaint e)
  else if (m.content cell).isEmpty then .ok ""
  else .ok (m.display cell ++ "\n")

/-- Runs a loaded program on a machine. -/
def runProgram (machine : Machine) (flags : RunFlags) (program : Program) (input : String) :
    Outcome :=
  match (Session.start (runOptions flags program.settings input)).run machine with
  | .error failure m => .failed m ("invalid options: " ++ failure.text)
  | .ok _ m =>
    let text (source : Source) : Session.SourceText := ⟨source.name, source.statements⟩
    match (Session.runProgram program.name (text program.entry) (program.sources.map text)).run m with
    | .error failure m => .failed m failure.text
    | .ok cell m =>
      match resultText m flags.json cell with
      | .ok text => .done m text
      | .error complaint => .failed m complaint

/-- Writes down what loading took note of. -/
def withNotes (machine : Machine) (notes : Array String) : Machine :=
  match (notes.toList.forM logVerbose).run machine with
  | .ok _ m | .error _ m => m

def loadComplaint : LoadError → String
  | .noManifest => "menter run requires a source file or a project (menter.yml not found)"
  | e => "failed to load program: " ++ e.message

section

variable {m : Type → Type} [Monad m]

/-- Runs what the arguments point at. What is typed is asked for only by a debugger. -/
def run (files : Files m) (input : m String) (machine : Machine) (args : List String) :
    m Outcome := do
  match RunFlags.parse args with
  | .error e => return .failed machine e.message
  | .ok flags =>
    let (loaded, notes) ← (loadTarget files flags.target).run.run #[]
    let machine := withNotes machine notes
    match loaded with
    | .error e => return .failed machine (loadComplaint e)
    | .ok program =>
      let typed ← if flags.debug || !flags.breakpoints.isEmpty then input else pure ""
      return runProgram machine flags program typed

/-- The text of a statement: its code, or its tree. -/
def statementText (asCode : Bool) (node : Node) : String :=
  (if asCode then node.code else node.toJson.pretty 0) ++ "\n"

/-- Writes the statements of files, up to the first file that cannot be read. -/
def showTrees (files : Files m) (machine : Machine) (asCode : Bool) :
    List String → String → m Outcome
  | [], written => return .done machine written
  | path :: paths, written => do
    match ← (loadFile files path).run.run #[] with
    | (.error e, _) => return { Outcome.failed machine e.message with stdout := written }
    | (.ok source, _) =>
      showTrees files machine asCode paths
        (written ++ String.join (source.statements.map (statementText asCode)))

def trees (files : Files m) (machine : Machine) (args : List String) : m Outcome := do
  match args.filter (· ≠ "--code") with
  | [] => return .failed machine "menter ast requires at least one tree file"
  | paths => showTrees files machine (args.contains "--code") paths ""

/-- Carries out what the arguments ask for. -/
def execute (files : Files m) (input : m String) (args : List String) : m Outcome := do
  let machine := loggingMachine args
  match Request.ofArgs (args.filter fun arg => (logLevel? arg).isNone) with
  | .usage wanted =>
    return { code := if wanted then 0 else 1, stderr := usage, log := machine.log }
  | .version => return .done machine (version ++ "\n")
  | .run args => run files input machine args
  | .trees args => trees files machine args

end

end TreeScript.Command
