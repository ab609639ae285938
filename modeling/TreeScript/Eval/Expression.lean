import TreeScript.Eval.Statement
import TreeScript.Host.Instance
import TreeScript.Method.Text

/-!
Expressions: calls, constructions, operators and literals of arrays and objects.
-/

set_option autoImplicit false

namespace TreeScript.Interp

/-- Calls a function. A callee that is a chain is resolved together with the call, so that the object
before the call becomes `self`. -/
def callNode (interp : Interp) (site : Site) (origin callee : Node) (args : List Node) :
    Run CellRef := do
  match callee with
  | .access (first :: second :: rest) =>
    resolve interp site origin .required (first :: second :: rest ++ [.call args])
  | _ =>
    let function ← interp.value site callee
    let values ← interp.values site args
    interp.call site callee.code .none function values

/-- The arguments of a construction, under the names of the parameters where there are names. -/
def argsObject (callee : CellRef) (args : List CellRef) : Run CellRef := do
  match ← content callee with
  | .function _ closure =>
    let ref ← newTable
    for (name, cell) in closure.params.zip args do
      setText ref name cell
    newObject ref
  | _ => newArray args

/-- Constructs an instance of a host type, or calls a function that finds its arguments in `args`. -/
def construct (interp : Interp) (site : Site) (callee : Node) (args : List Node) : Run CellRef := do
  let function ← interp.value site callee
  let values ← interp.values site args
  match ← content function with
  | .hostType type => site.traced .construction (type.instantiate values)
  | content =>
    if !content.isFunction then
      site.raise .construction
        ("Constructor call is not a function or a class: " ++ callee.code)
    let object ← argsObject function values
    interp.call site callee.code (.args object) function values

/-- Applies an operator to expressions. The second operand of `&&` and `||` is evaluated only if the
first one does not decide, and an operand that is stepped in place gets a cell of its own first. -/
def operation (interp : Interp) (site : Site) (symbol : String) (fixity : Fixity)
    (operands : List Node) : Run CellRef := do
  match Operator.standard.find? symbol fixity with
  | none => site.raise .typeMismatch s!"Unknown {fixity.name} operator {symbol}"
  | some op =>
    if operands.length ≠ op.arity then
      site.raise .arity
        s!"Operator {symbol} requires {op.arity} arguments, but {operands.length} were given"
    match fixity, operands with
    | .infixOp, [first, second] =>
      let left ← interp.value site first
      match ← content left with
      | .boolean b =>
        if (symbol == "||" && b) || (symbol == "&&" && !b) then
          newBoolean b
        else
          let right ← interp.value site second
          interp.applyOperator site symbol fixity [left, right]
      | _ =>
        let right ← interp.value site second
        interp.applyOperator site symbol fixity [left, right]
    | _, _ =>
      let steps := fixity == .prefixOp && (symbol == "++" || symbol == "--")
      let mode := if steps then Mode.createNew else .required
      let values ← operands.mapM fun operand => interp.value site operand mode
      interp.applyOperator site symbol fixity values

def operatorValue (site : Site) (symbol : String) (fixity : Fixity) : Run CellRef := do
  if (Operator.standard.find? symbol fixity).isNone then
    site.raise .typeMismatch s!"Unknown {fixity.name} operator {symbol}"
  alloc (.native (← newStamp) (.operator symbol fixity))

/-- The value of a single element, and else an array of copies. -/
def parenthesis (interp : Interp) (site : Site) (mode : Mode) (elements : List Node) :
    Run CellRef := do
  match elements with
  | [element] => interp.value site element mode
  | _ => newArray (← (← interp.values site elements).mapM copy)

/-- An array, which its elements see as `self` while it grows. -/
def arrayLiteral (interp : Interp) (site : Site) (elements : List Node) : Run CellRef := do
  let ref ← newTable
  let result ← newObject ref
  for (element, i) in elements.zipIdx do
    let inner ← site.forkSelf result
    let value ← interp.value inner element
    setEntry ref (← newNumber (Decimal.ofInt i)) (← copy value)
  return result

/-- The keys of a literal object that direct its construction. -/
inductive Directive where
  | bases | fields | initialiser
deriving DecidableEq, Repr

def Directive.ofName : String → Option Directive
  | "$extends" => some bases
  | "$fields" => some fields
  | "$init" => some initialiser
  | _ => none

def directive? : Node → Option Directive
  | .identifier name => Directive.ofName name
  | .string value => Directive.ofName value
  | _ => none

/-- The value an object is to extend. A call there is a construction. -/
def extendsSource (interp : Interp) (site : Site) (node : Node) : Run CellRef :=
  match node with
  | .functionCall callee args => interp.construct site callee args
  | .access steps =>
    match steps.dropLast, steps.getLast? with
    | [callee], some (.call args) => interp.construct site callee args
    | first :: second :: rest, some (.call args) =>
      interp.construct site (.access (first :: second :: rest)) args
    | _, _ => interp.value site node
  | _ => interp.value site node

/-- Copies the entries of all objects that are to be extended. -/
def extend (interp : Interp) (site : Site) (ref : TableRef) (node : Node) : Run Unit := do
  let sources := match node with
    | .array elements => elements
    | _ => [node]
  for source in sources do
    let base ← interp.extendsSource site source
    match (← get).tableOf? base with
    | some baseRef => mergeInto ref baseRef
    | none =>
      let type := (← get).typeName base
      site.raise .construction ("Invalid $extends value, expected an object: " ++ type)

/-- Copies the listed fields out of the arguments of the construction. -/
def copyFields (site : Site) (ref : TableRef) (node : Node) : Run Unit := do
  let malformed : Run Unit :=
    site.raise .construction
      ("Invalid $fields value, expected a list of identifiers: " ++ node.code)
  match node with
  | .array elements =>
    for element in elements do
      match element with
      | .identifier name =>
        let m ← get
        let args := (m.lookUpName site.frame "args").bind m.tableOf?
        match args.bind fun args => m.lookUpText args name with
        | some value => setText ref name (← copy value)
        | none =>
          site.raise .construction
            ("Invalid $fields value, field not found in args: " ++ name)
      | _ => malformed
  | _ => malformed

/-- The key of an entry: a name or a literal stands for itself, anything else for its text. -/
def entryKey (interp : Interp) (site : Site) (node : Node) : Run CellRef := do
  match node with
  | .identifier name => newString name
  | _ =>
    let key ← interp.value site node
    if node.isLiteral then return key else newString (← display key)

/-- An entry of a literal object. A dollar sign before the key is dropped. -/
def addEntry (interp : Interp) (site : Site) (ref : TableRef) (self : CellRef) (key value : Node) :
    Run Unit := do
  let inner ← site.forkSelf self
  let key ← interp.entryKey inner key
  let key ← match ← content key with
    | .string s => if Text.hasPrefix s "$" then newString (Text.dropPrefix s "$") else pure key
    | _ => pure key
  let value ← interp.value inner value
  setEntry ref key (← copy value)

/-- A literal object. First come the objects it extends and the fields it takes over, then its own
entries, and last the call of its initialiser. -/
def mapLiteral (interp : Interp) (site : Site) (entries : List (Node × Node)) : Run CellRef := do
  let ref ← newTable
  let result ← newObject ref
  for (key, value) in entries do
    match directive? key with
    | some .bases => interp.extend site ref value
    | some .fields => copyFields site ref value
    | _ => pure ()
  for (key, value) in entries do
    if (directive? key).isNone then
      interp.addEntry site ref result key value
  match entries.reverse.find? fun (key, _) => directive? key == some .initialiser with
  | some (_, node) =>
    let inner ← site.forkSelf result
    let init ← interp.value inner node
    let _ ← interp.call inner "$init" (.self result) init []
  | none => pure ()
  return result

end TreeScript.Interp
