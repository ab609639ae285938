import TreeScript.Eval.Debugger
import TreeScript.Eval.Expression
import TreeScript.Eval.Native
import TreeScript.Method.Text

/-!
The interpreter. `interp n` evaluates with fuel `n`: every node and every call inside another one has
one unit less, so that evaluation ends also where a program would not. An evaluation that ends within
its fuel does not depend on how much of it there was.
-/

set_option autoImplicit false

namespace TreeScript

namespace Interp

/-- Runs the body of a function in a frame that gets, in this order, what was prepared, the variables of
the source the function was defined in, what was visible where it was defined, and the parameters. -/
def callClosure (interp : Interp) (site : Site) (name : String) (preparation : Preparation)
    (function : CellRef) (closure : Closure) (args : List CellRef) : Run CellRef := do
  let defining : Site := { site with context := closure.context }
  if args.length ≠ closure.params.length then
    let shown ← display function
    defining.raise .arity
      s!"Function [{shown}] requires {closure.params.length} arguments, but {args.length} were given"
  let copies ← args.mapM copy
  let m ← get
  let prepared : Scope := match preparation with
    | .none => {}
    | .args object => Std.TreeMap.insert {} "args" object
    | .self receiver => Std.TreeMap.insert {} "self" receiver
  let globals := m.scope (m.context closure.context).globals
  let visible := (prepared.overlay globals).overlay (m.snapshot closure.frame)
  let scope := (closure.params.zip copies).foldl (fun scope (name, cell) => scope.insert name cell)
    visible
  let frame ← site.frame.forkWith scope
  site.frame.enter name
  let result ← interp.eval { context := closure.context, frame } .required closure.body
  if result.flow.needsLoop then
    defining.raise .invalidControl
      ("Unexpected " ++ result.flow.word ++ " outside of a loop in function [" ++ name ++ "]")
  copy result.value

/-- Calls any kind of function. Functions of the language run in the source they were defined in, all
others see the site they are called from. -/
def callValue (interp : Interp) (site : Site) (name : String) (preparation : Preparation)
    (function : CellRef) (args : List CellRef) : Run CellRef := do
  let content ← content function
  if !content.isFunction then
    let shown ← display function
    site.raise .typeMismatch ("Value is not a function [" ++ shown ++ "]")
  if (← get).options.logCalls then
    let m ← get
    logInfo
      ("calling function [" ++ name ++ "] with parameters [" ++
        Node.commas (args.map m.display) ++ "]")
  let call ← interp.callFrom site
  match content with
  | .function _ closure => interp.callClosure site name preparation function closure args
  | .native _ native => site.traced .native (native.run interp site call args)
  | .method _ method receiver => site.traced .native (method.run call receiver args)
  | .hostMethod _ method receiver => site.traced .native (method.run call receiver args)
  | _ => newEmpty

def expression (interp : Interp) (site : Site) (mode : Mode) (node : Node) : Run CellRef := do
  match node with
  | .number text => site.traced .typeMismatch (parseNumber text)
  | .string value => newString value
  | .boolean value => newBoolean value
  | .null => newEmpty
  | .regex pattern flags =>
    alloc (.regex (← site.traced .typeMismatch (Regex.compile pattern flags)))
  | .identifier _ => resolve interp site node mode [node]
  | .access steps => resolve interp site node mode steps
  | .functionCall callee args => interp.callNode site node callee args
  | .constructorCall callee args => interp.construct site callee args
  | .operation symbol fixity operands => interp.operation site symbol fixity operands
  | .operatorFunction symbol fixity => operatorValue site symbol fixity
  | .assignment operator target value => interp.assign site operator target value
  | .parenthesis elements => interp.parenthesis site mode elements
  | .array elements => interp.arrayLiteral site elements
  | .mapLiteral entries => interp.mapLiteral site entries
  | .declaration name params body native => interp.declare site node name params body native
  | .function params body => newFunction site params body
  | .index _ | .call _ =>
    site.raise .internal (node.kind ++ " step outside of an access chain")
  | _ => site.raise .internal ("unsupported node type: " ++ node.kind)

def node (interp : Interp) (site : Site) (mode : Mode) (node : Node) : Run Completion := do
  match node with
  | .root body | .block body => interp.sequence site mode body
  | .conditional branches => interp.branches (← site.fork) branches
  | .forLoop names iterable body => interp.forLoop site names iterable body
  | .whileLoop condition body => interp.whileLoop site condition body
  | .returnStatement argument => interp.returned site argument
  | .breakStatement => return { value := ← newEmpty, flow := .broken }
  | .continueStatement => return { value := ← newEmpty, flow := .continued }
  | .importStatement .. | .exportStatement .. =>
    site.raise .importError
      "Import and export statements are only allowed at the top level of a source"
  | _ => return { value := ← interp.expression site mode node }

/-- The indentation of the evaluation trace. -/
def traceIndent (site : Site) : Run String := do
  return Text.repeatText ((← get).trace site.frame.trace).depth "  "

/-- Evaluates a node with what may surround it: a halt of the debugger and the evaluation trace. -/
def observed (interp : Interp) (site : Site) (mode : Mode) (node : Node) : Run Completion := do
  haltAt site node
  let style := (← get).options.trace
  if style = 1 ∨ style = 2 then
    logInfo ((← traceIndent site) ++ node.code)
  let result ← interp.node site mode node
  if 2 ≤ style then
    logInfo ((← traceIndent site) ++ node.code ++ " -> " ++ (← display result.value))
  return result

/-- Evaluates a node, which stands on the stack trace meanwhile unless it is a sequence. -/
def evalNode (interp : Interp) (site : Site) (mode : Mode) (node : Node) : Run Completion := do
  if node.isSequence then
    return ← interp.observed site mode node
  let depth ← site.frame.push ((← get).context site.context).source node
  let result ← tryCatch (interp.observed site mode node) fun failure => do
    site.frame.popTo depth
    throw failure
  site.frame.popTo depth
  return result

end Interp

/-- The interpreter with a given fuel. -/
def interp : Nat → Interp
  | 0 =>
    { eval := fun _ _ _ => throw .outOfFuel
      call := fun _ _ _ _ _ => throw .outOfFuel
      fuel := 0 }
  | n + 1 =>
    { eval := fun site mode node => (interp n).evalNode site mode node
      call := fun site name preparation function args =>
        (interp n).callValue site name preparation function args
      fuel := n }

end TreeScript
