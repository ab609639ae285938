import TreeScript.Eval.Basic
import TreeScript.Text.Quote

/-!
The debugger. Before a node is evaluated it may halt there, show what it is told to show, and go on.
-/

set_option autoImplicit false

namespace TreeScript

namespace DebugAction

/-- The action a line typed at the console asks for. An empty line resumes. -/
def parse? (line : String) : Option DebugAction :=
  match Text.toLower (Text.collapse line) with
  | "resume" | "r" | "" => some resume
  | "symbols" | "s" => some symbols
  | "stack" | "st" | "trace" | "stacktrace" => some stack
  | "resume all" | "ra" => some resumeAll
  | _ => none

end DebugAction

/-- What an action source says next. -/
inductive NextAction where
  | act (action : DebugAction)
  | finished
  | failed (message : String)

namespace ActionSource

def complaint (line : String) : String :=
  "unknown action " ++ Text.quote (Text.trim line) ++
    ", expected resume, symbols, stack or resume all\n"

/-- The first line that asks for an action, the lines behind it, and the complaints about those that
make no sense. -/
def readLine : List String → NextAction × List String × String
  | [] => (.finished, [], "")
  | line :: lines =>
    match DebugAction.parse? line with
    | some action => (.act action, lines, "")
    | none =>
      let (next, rest, complaints) := readLine lines
      (next, rest, complaint line ++ complaints)

/-- The next action, what is left of the source, and complaints. -/
def next : ActionSource → NextAction × ActionSource × String
  | console lines complains =>
    let (next, rest, complaints) := readLine lines
    (next, console rest complains, if complains then complaints else "")
  | queue [] failsAtEnd =>
    (if failsAtEnd then .failed "no more actions" else .finished, queue [] failsAtEnd, "")
  | queue (action :: actions) failsAtEnd => (.act action, queue actions failsAtEnd, "")

/-- The lines of what is typed at a console. A line may end with a carriage return as well, and the end
of the text ends a line that is not empty. -/
def consoleLines (text : String) : List String :=
  let lines := (Text.splitBy (· == '\n') text.toList)
  let lines := if lines.getLast? = some [] then lines.dropLast else lines
  lines.map fun line =>
    String.ofList (if line.getLast? = some '\r' then line.dropLast else line)

/-- A bound on the number of actions to come. -/
def length : ActionSource → Nat
  | console lines _ => lines.length
  | queue actions _ => actions.length

end ActionSource

namespace Debugger

/-- A debugger with breakpoints. White space in their code does not matter. -/
def ofBreakpoints (codes : List String) : Debugger := { breakpoints := codes.map Text.collapse }

def shouldHalt (debugger : Debugger) (node : Node) : Bool :=
  !debugger.disabled && debugger.actions.isSome && !node.isSequence &&
    (debugger.step ||
      (!debugger.breakpoints.isEmpty && debugger.breakpoints.contains (Text.collapse node.code)))

end Debugger

def modifyDebugger (change : Debugger → Debugger) : Run Unit :=
  modify fun m => { m with options := { m.options with debugger := m.options.debugger.map change } }

def disableDebugger : Run Unit := modifyDebugger fun debugger => { debugger with disabled := true }

/-- Writes where the debugger writes. -/
def sayFromDebugger (text : String) : Run Unit := do
  match (← get).options.debugger with
  | some debugger => if debugger.separate then sayDebug text else say text
  | none => say text

/-- The text the debugger shows for a value: that of what it holds, if it is an opaque instance. -/
def Machine.inspect (m : Machine) (cell : CellRef) : String :=
  match m.content cell with
  | .custom ref =>
    match m.instanceOf ref with
    | .counted _ count => countText count
    | _ => m.display cell
  | _ => m.display cell

/-- The visible symbols with their values, one a line. -/
def Machine.describeFrame (m : Machine) (frame : Frame) : String :=
  "\n".intercalate ((m.snapshot frame).toList.map fun (name, cell) =>
    name ++ " (" ++ m.typeName cell ++ ") = " ++ m.inspect cell)

/-- The next action of the debugger, with its complaints written. -/
def nextDebugAction : Run NextAction := do
  match (← get).options.debugger.bind (·.actions) with
  | none => return .finished
  | some source =>
    let (next, rest, complaints) := source.next
    modifyDebugger fun debugger => { debugger with actions := some rest }
    say complaints
    return next

/-- Does what the action source says until it resumes, which takes at most `count` actions. -/
def followActions (site : Site) : Nat → Run Unit
  | 0 => disableDebugger
  | count + 1 => do
    match ← nextDebugAction with
    | .finished => disableDebugger
    | .failed message => site.raise .internal ("debugger: " ++ message)
    | .act .resume => return
    | .act .resumeAll => disableDebugger
    | .act .symbols =>
      sayFromDebugger ((← get).describeFrame site.frame ++ "\n")
      followActions site count
    | .act .stack =>
      sayFromDebugger ((← get).formatTrace site.frame site.context ++ "\n")
      followActions site count
    | .act action =>
      sayFromDebugger ("unknown debugger action " ++ action.name ++ "\n")
      followActions site count

/-- Halts at a node if the debugger wants to. -/
def haltAt (site : Site) (node : Node) : Run Unit := do
  match (← get).options.debugger with
  | none => return
  | some debugger =>
    if debugger.shouldHalt node then
      sayFromDebugger (">>> " ++ Text.collapse node.code ++ " [resume, symbols, stack, resume all]\n")
      followActions site ((debugger.actions.map (·.length)).getD 0 + 1)

end TreeScript
