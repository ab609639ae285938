import TreeScript.Store.Display
import TreeScript.Text.Basic

/-!
The text of a stack trace: the nodes being evaluated, the visible symbols with their types, and the
values a program asked to see.
-/

set_option autoImplicit false

namespace TreeScript

/-- At most so many symbols are listed. -/
def traceSymbolLimit : Nat := 20

/-- At most so many bytes of code are shown. -/
def traceCodeLimit : Nat := 120

namespace TraceEntry

def label (entry : TraceEntry) : String :=
  if entry.function = "" then entry.source else entry.source ++ "." ++ entry.function

/-- The code of a node on one line, cut off where it is long. -/
def shortCode (node : Node) : String := Text.ellipsis traceCodeLimit (Text.collapse node.code)

/-- One line of a trace, with the label padded to a width. -/
def line (width : Nat) (entry : TraceEntry) : String :=
  "\tin [" ++ Text.padRight width entry.label ++ "] at " ++ shortCode entry.node ++ "\n"

end TraceEntry

namespace Machine

/-- The names of a scope with the types of their values. -/
def describeSymbols (m : Machine) (symbols : Scope) : String :=
  let shown := symbols.toList.take traceSymbolLimit
  Node.commas (shown.map fun (name, cell) => name ++ " (" ++ m.typeName cell ++ ")") ++
    if traceSymbolLimit < symbols.size then ", ..." else ""

/-- The visible bindings that are not just those of the source. -/
def localSymbols (m : Machine) (frame : Frame) (globals : Scope) : Scope :=
  (m.snapshot frame).filter fun name cell => globals[name]? ≠ some cell

/-- A value a program asked to see in every trace. -/
def debugValue (m : Machine) (frame : Frame) (globals : Scope) (name : String) : String :=
  match m.lookUpName frame name <|> globals[name]? with
  | some cell => name ++ " = " ++ m.display cell
  | none => name ++ " = <unresolved>"

def formatTrace (m : Machine) (frame : Frame) (context : ContextRef) : String :=
  let trace := m.trace frame.trace
  let entries := trace.entries.toList
  let width := entries.foldl (fun width entry => max width entry.label.utf8ByteSize) 0
  let globals := m.scope (m.context context).globals
  String.join (entries.map (TraceEntry.line width)) ++
    "\tLocal symbols:  " ++ m.describeSymbols (m.localSymbols frame globals) ++
    "\n\tGlobal symbols: " ++ m.describeSymbols globals ++
    if trace.debugValues.isEmpty then ""
    else
      "\n\tDebugger symbols: " ++ Node.commas (trace.debugValues.map (m.debugValue frame globals))

end Machine

/-- Fails with the stack trace of a frame. -/
def raise {α : Type} (frame : Frame) (context : ContextRef) (kind : ErrorKind) (message : String) :
    Run α := do
  let trace := (← get).formatTrace frame context
  throw (.fault { kind, message, trace })

/-- Gives a failure of an action the stack trace of a frame, unless it has one. -/
def traced {α : Type} (frame : Frame) (context : ContextRef) (kind : ErrorKind) (act : Run α) :
    Run α :=
  tryCatch act fun failure => do
    throw (failure.attach kind ((← get).formatTrace frame context))

end TreeScript
