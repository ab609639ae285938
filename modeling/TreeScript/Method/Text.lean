import TreeScript.Method.Object
import TreeScript.Pattern.Search
import TreeScript.Store.Access

/-!
The methods of strings, regular expressions and iterators, and those that every value has; and calling
any method on the value it was looked up on.
-/

set_option autoImplicit false

namespace TreeScript

namespace Regex

/-- The flags as they are written inside a pattern. -/
def flagGroup (flags : String) : String :=
  let known := flags.toList.filter fun c => c == 'i' || c == 'm' || c == 's'
  if known.isEmpty then "" else "(?" ++ String.ofList known ++ ")"

def compilePattern (pattern : String) : Run Pattern.Program :=
  match Pattern.Program.compile pattern with
  | .ok program => pure program
  | .error e => Run.fail e.message

/-- Compiles a pattern with flags, of which there are `i`, `m` and `s`. -/
def compile (pattern flags : String) : Run Regex := do
  match flags.toList.find? fun c => !(c == 'i' || c == 'm' || c == 's') with
  | some c => Run.fail s!"Unknown regex flag: {c}"
  | none => return { pattern, flags, program := ← compilePattern (flagGroup flags ++ pattern) }

/-- A program that accepts a text only as a whole. -/
def compileWhole (pattern flags : String) : Run Pattern.Program :=
  compilePattern (flagGroup flags ++ "^(?:" ++ pattern ++ ")$")

/-- The program of a regular expression, or of the text of any other value. -/
def ofValue (cell : CellRef) : Run Pattern.Program := do
  match ← content cell with
  | .regex r => return r.program
  | _ => compilePattern (← display cell)

def wholeOfValue (cell : CellRef) : Run Pattern.Program := do
  match ← content cell with
  | .regex r => compileWhole r.pattern r.flags
  | _ => compileWhole (← display cell) ""

/-- The pieces of a text between matches, without empty ones at the end. -/
def splitText (program : Pattern.Program) (s : String) : Run CellRef :=
  newTextArray ((program.split s).reverse.dropWhile (· == "")).reverse

end Regex

namespace TextMethod

/-- A method that tests a text against that of its argument. -/
def predicate? : TextMethod → Option (String → String → Bool)
  | startsWith => some Text.hasPrefix
  | endsWith => some Text.hasSuffix
  | contains => some Text.contains
  | equals => some (· == ·)
  | equalsIgnoreCase => some Text.equalFold
  | _ => none

def requiredArgs : TextMethod → Nat
  | size | toLowerCase | toUpperCase | trim => 0
  | replace | replaceAll => 2
  | _ => 1

def charAtIndex (s : String) (cell : CellRef) : Run CellRef := do
  let m ← get
  match m.number? cell with
  | none => Run.fail s!"charAt requires a number, got {m.typeName cell}"
  | some d =>
    if d.word < 0 then newEmpty
    else
      match s.toList[d.word.toNat]? with
      | some c => newString c.toString
      | none => newEmpty

/-- Takes the characters of a cut set off both ends, or white space if there is none. -/
def trimmed (s : String) (args : List CellRef) : Run CellRef := do
  match args with
  | cut :: _ =>
    if (← content cut).isEmpty then newString (Text.trim s)
    else
      let set := (← display cut).toList
      newString (Text.trimBy set.contains s)
  | [] => newString (Text.trim s)

def run (method : TextMethod) (self : CellRef) (args : List CellRef) : Run CellRef := do
  requireArgs method.name args method.requiredArgs
  let s ← display self
  let first : Run CellRef := argument args 0
  let second : Run String := do display (← argument args 1)
  match method.predicate? with
  | some test => newBoolean (test s (← display (← first)))
  | none =>
    match method with
    | size => newNumber (Decimal.ofInt (← sizeOf self))
    | charAt => do charAtIndex s (← first)
    | fullMatch => do newBoolean ((← Regex.wholeOfValue (← first)).isMatch s)
    | replace => do newString (Text.replaceFirst s (← display (← first)) (← second))
    | replaceAll => do
      let program ← Regex.ofValue (← first)
      newString (program.replaceAll s (← second))
    | split => do Regex.splitText (← Regex.ofValue (← first)) s
    | toUpperCase => newString (Text.toUpper s)
    | toLowerCase => newString (Text.toLower s)
    | _ => trimmed s args

end TextMethod

namespace RegexMethod

def run (method : RegexMethod) (self : CellRef) (args : List CellRef) : Run CellRef := do
  requireArgs method.name args (if method = replace then 2 else 1)
  let subject ← display (← argument args 0)
  if method = fullMatch then
    return ← newBoolean ((← Regex.wholeOfValue self).isMatch subject)
  match ← content self, method with
  | .regex r, find => newTextArray (r.program.findAll subject)
  | .regex r, split => Regex.splitText r.program subject
  | .regex r, replace =>
    newString (r.program.replaceAll subject (← display (← argument args 1)))
  | _, _ => newEmpty

end RegexMethod

namespace IteratorMethod

def run (method : IteratorMethod) (self : CellRef) : Run CellRef := do
  match ← content self with
  | .iterator ref =>
    match method with
    | hasNext => newBoolean (← TreeScript.hasNext ref)
    | next =>
      match ← next? ref with
      | some item => return item
      | none => Run.fail "iterator has no more elements"
  | _ => newEmpty

end IteratorMethod

namespace CommonMethod

/-- What a function is called with for an element. A pair is passed as two arguments to a function with
two parameters, and as its second part if it is an entry of an object. -/
def elementArgs (m : Machine) (self element : CellRef) (params : Option Nat) : List CellRef :=
  match m.tableOf? element with
  | some pair =>
    if (m.table pair).size = 2 && m.isArray pair then
      let values := (m.table pair).values
      if params = some 2 then values
      else if m.kind self = .object then values.drop 1
      else [element]
    else [element]
  | none => [element]

/-- Calls a function for the elements left in an iterator, of which there are at most `count`, and
answers the last result. -/
def forElements (call : Call) (self function : CellRef) (params : Option Nat) (ref : IteratorRef) :
    Nat → CellRef → Run CellRef
  | 0, result => return result
  | count + 1, result => do
    match ← next? ref with
    | none => return result
    | some element =>
      let args := elementArgs (← get) self element params
      forElements call self function params ref count (← call.invoke "forEach" function args)

def run (call : Call) (method : CommonMethod) (self : CellRef) (args : List CellRef) :
    Run CellRef := do
  let m ← get
  match method with
  | type =>
    match m.content self with
    | .custom ref => newString (m.instanceOf ref).type.name
    | content => newString content.typeName
  | iterator => makeIterator self
  | isNull => newBoolean (m.content self).isEmpty
  | functions =>
    let host := match m.content self with
      | .custom ref => (m.instanceOf ref).type.methodNames
      | _ => []
    newTextArray (Method.names (m.kind self) ++ host)
  | forEach =>
    requireArgs method.name args 1
    let function ← argument args 0
    let params := (m.content function).paramCount?
    match ← content (← makeIterator self) with
    | .iterator ref =>
      forElements call self function params ref ((← get).remaining ref).length (← newEmpty)
    | _ => newEmpty

end CommonMethod

end TreeScript

namespace TreeScript.Method

def run (call : Call) (method : Method) (self : CellRef) (args : List CellRef) : Run CellRef :=
  match method with
  | object method => method.run call self args
  | text method => method.run self args
  | regex method => method.run self args
  | iterator method => method.run self
  | common method => method.run call self args

end TreeScript.Method
