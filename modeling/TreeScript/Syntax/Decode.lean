import TreeScript.Syntax.Node
import TreeScript.Json.Reader
import TreeScript.Text.Quote

/-!
Reading syntax trees from JSON. Every node is an object whose `type` names its kind. Unknown
members are ignored and members of the wrong shape count as missing, except where a child node, a
list of nodes or the text of a number is called for.

A tree is read from the leaves up: each member is first taken apart into a `Part`, in which every
object has become the node it stands for or the reason why it stands for none, and a node is then
assembled from its parts.
-/

set_option autoImplicit false

namespace TreeScript

/-- Why a JSON value is not a syntax tree. -/
inductive DecodeError where
  | notJson
  | identifierWithoutName
  | emptyNumber
  | badNumber (shape : String)
  | emptyChain
  | badNode (shape : String)
  | badMapEntry (shape : String)
  | notMapEntry (kind : String)
  | badBranch (shape : String)
  | notBranch (kind : String)
  | importWithoutName
  | exportWithoutName
  | unknownKind (kind : String)
  | missing (kind field : String)
  | notANode (kind field shape : String)
  | unknownFixity (name : String)
deriving DecidableEq

def DecodeError.message : DecodeError → String
  | .notJson => "ast: parse json"
  | .identifierWithoutName => "ast: identifier without name"
  | .emptyNumber => "ast: empty number literal"
  | .badNumber shape => s!"ast: invalid number literal {shape}"
  | .emptyChain => "ast: access chain without steps"
  | .badNode shape => s!"ast: invalid node {shape}"
  | .badMapEntry shape => s!"ast: invalid map entry {shape}"
  | .notMapEntry kind => s!"ast: map literal expects MapEntry, got {kind}"
  | .badBranch shape => s!"ast: invalid conditional branch {shape}"
  | .notBranch kind => s!"ast: conditional expects ConditionalBranch, got {kind}"
  | .importWithoutName => "ast: import without module name"
  | .exportWithoutName => "ast: export without module name"
  | .unknownKind kind => s!"ast: unsupported node type {Text.quote kind}"
  | .missing kind field => s!"ast: {kind} missing {field}"
  | .notANode kind field shape => s!"ast: {kind}.{field} must be a node, got {shape}"
  | .unknownFixity name => s!"ast: unknown operator fixity {Text.quote name}"

namespace Node

/-- A JSON value with its objects read as nodes. -/
inductive Part where
  | null
  | bool (value : Bool)
  | number (text : String)
  | string (value : String)
  | array (items : List Part)
  | node (result : Except DecodeError Node)

namespace Part

/-- The name of a part's shape in complaints. -/
def shape : Part → String
  | null => "<nil>"
  | bool _ => "bool"
  | number _ => "json.Number"
  | string _ => "string"
  | array _ => "[]interface \x7b\x7d"
  | node _ => "map[string]interface \x7b\x7d"

def text : Part → String
  | string s => s
  | _ => ""

def flag : Part → Bool
  | bool b => b
  | _ => false

def items : Part → List Part
  | array parts => parts
  | _ => []

def strings (part : Part) : List String :=
  part.items.filterMap fun item =>
    match item with
    | string s => some s
    | _ => none

end Part

/-- The members of an object, taken apart. A missing member counts as null. -/
abbrev Parts := List (String × Part)

namespace Parts

def get (parts : Parts) (field : String) : Part :=
  parts.foldl (fun found entry => if entry.1 = field then entry.2 else found) .null

/-- Reads every part of a list as a node, in order, complaining about parts that are none. -/
def nodes (complain : String → DecodeError) : List Part → Except DecodeError (List Node)
  | [] => .ok []
  | .node result :: parts => do
    let first ← result
    let rest ← nodes complain parts
    return first :: rest
  | part :: _ => .error (complain part.shape)

def nodeList (parts : Parts) (field : String) : Except DecodeError (List Node) :=
  nodes .badNode (parts.get field).items

def optionalChild (parts : Parts) (kind field : String) : Except DecodeError (Option Node) :=
  match parts.get field with
  | .null => .ok none
  | .node result => result.map some
  | part => .error (.notANode kind field part.shape)

def child (parts : Parts) (kind field : String) : Except DecodeError Node := do
  match ← optionalChild parts kind field with
  | some node => return node
  | none => throw (.missing kind field)

/-- The fixity of an operator: as named, else judged by the number of operands. -/
def fixity (parts : Parts) (operands : Nat) : Except DecodeError Fixity :=
  match (parts.get "fixity").text with
  | "" => .ok (if operands = 1 then .prefixOp else .infixOp)
  | "infix" => .ok .infixOp
  | "prefix" => .ok .prefixOp
  | "postfix" => .ok .postfixOp
  | name => .error (.unknownFixity name)

def numberText (parts : Parts) : Except DecodeError String :=
  match parts.get "value" with
  | .number text => .ok text
  | .string "" => .error .emptyNumber
  | .string text => .ok text
  | part => .error (.badNumber part.shape)

def mapEntries : List Part → Except DecodeError (List (Node × Node))
  | [] => .ok []
  | .node result :: parts => do
    match ← result with
    | .mapEntry key value => return (key, value) :: (← mapEntries parts)
    | node => throw (.notMapEntry node.kind)
  | part :: _ => .error (.badMapEntry part.shape)

def branches : List Part → Except DecodeError (List (Option Node × Node))
  | [] => .ok []
  | .node result :: parts => do
    match ← result with
    | .branch condition body => return (condition, body) :: (← branches parts)
    | node => throw (.notBranch node.kind)
  | part :: _ => .error (.badBranch part.shape)

/-- Assembles the node an object stands for. -/
def assemble (parts : Parts) : Except DecodeError Node := do
  match (parts.get "type").text with
  | "Root" => return .root (← parts.nodeList "body")
  | "Block" => return .block (← parts.nodeList "body")
  | "Identifier" =>
    match (parts.get "name").text with
    | "" => throw .identifierWithoutName
    | name => return .identifier name
  | "NumberLiteral" => return .number (← parts.numberText)
  | "StringLiteral" => return .string (parts.get "value").text
  | "BooleanLiteral" => return .boolean (parts.get "value").flag
  | "RegexLiteral" => return .regex (parts.get "pattern").text (parts.get "flags").text
  | "NullLiteral" => return .null
  | "Access" =>
    match ← parts.nodeList "steps" with
    | [] => throw .emptyChain
    | steps => return .access steps
  | "Index" => return .index (← parts.child "Index" "key")
  | "Call" => return .call (← parts.nodeList "args")
  | "FunctionCall" =>
    return .functionCall (← parts.child "FunctionCall" "callee") (← parts.nodeList "args")
  | "ConstructorCall" =>
    return .constructorCall (← parts.child "ConstructorCall" "callee") (← parts.nodeList "args")
  | "OperatorExpression" =>
    let operands ← parts.nodeList "operands"
    return .operation (parts.get "operator").text (← parts.fixity operands.length) operands
  | "OperatorFunction" =>
    return .operatorFunction (parts.get "operator").text (← parts.fixity 2)
  | "Assignment" =>
    let target ← parts.child "Assignment" "target"
    let value ← parts.child "Assignment" "value"
    match (parts.get "operator").text with
    | "" => return .assignment "=" target value
    | operator => return .assignment operator target value
  | "Parenthesis" => return .parenthesis (← parts.nodeList "elements")
  | "ArrayLiteral" => return .array (← parts.nodeList "elements")
  | "MapLiteral" => return .mapLiteral (← mapEntries (parts.get "entries").items)
  | "MapEntry" =>
    return .mapEntry (← parts.child "MapEntry" "key") (← parts.child "MapEntry" "value")
  | "FunctionDeclaration" =>
    let native := (parts.get "native").flag
    let body ←
      if native then parts.optionalChild "FunctionDeclaration" "body"
      else (parts.child "FunctionDeclaration" "body").map some
    return .declaration (parts.get "name").text (parts.get "params").strings body native
  | "FunctionLiteral" =>
    return .function (parts.get "params").strings (← parts.child "FunctionLiteral" "body")
  | "Conditional" => return .conditional (← branches (parts.get "branches").items)
  | "ConditionalBranch" =>
    return .branch (← parts.optionalChild "ConditionalBranch" "condition")
      (← parts.child "ConditionalBranch" "body")
  | "ForLoop" =>
    let iterable ← parts.child "ForLoop" "iterable"
    let body ← parts.child "ForLoop" "body"
    return .forLoop (parts.get "variables").strings iterable body
  | "WhileLoop" =>
    return .whileLoop (← parts.child "WhileLoop" "condition") (← parts.child "WhileLoop" "body")
  | "ReturnStatement" =>
    return .returnStatement (← parts.optionalChild "ReturnStatement" "argument")
  | "BreakStatement" => return .breakStatement
  | "ContinueStatement" => return .continueStatement
  | "ImportStatement" =>
    match (parts.get "name").text with
    | "" => throw .importWithoutName
    | name => return .importStatement name (parts.get "alias").text (parts.get "inline").flag
  | "ExportStatement" =>
    match (parts.get "module").text with
    | "" => throw .exportWithoutName
    | module => return .exportStatement (parts.get "symbols").strings module
  | kind => throw (.unknownKind kind)

end Parts

mutual

def part : Json → Part
  | .null => .null
  | .bool b => .bool b
  | .number text => .number text
  | .string s => .string s
  | .array items => .array (partAll items)
  | .object members => .node (Parts.assemble (partMembers members))

def partAll : List Json → List Part
  | [] => []
  | item :: items => part item :: partAll items

def partMembers : List (String × Json) → Parts
  | [] => []
  | (name, item) :: members => (name, part item) :: partMembers members

end

theorem partAll_cons (item : Json) (items : List Json) :
    partAll (item :: items) = part item :: partAll items := rfl

theorem partMembers_nil : partMembers [] = [] := rfl

theorem partMembers_cons (name : String) (item : Json) (members : List (String × Json)) :
    partMembers ((name, item) :: members) = (name, part item) :: partMembers members := rfl

/-- Reads a node from a JSON value. A null stands for an object without members. -/
def ofJson (json : Json) : Except DecodeError Node :=
  match json with
  | .object members => Parts.assemble (partMembers members)
  | .null => Parts.assemble []
  | _ => .error .notJson

/-- Reads a node from text. -/
def parse (text : String) : Except DecodeError Node :=
  match Json.parsePrefix? text with
  | some json => ofJson json
  | none => .error .notJson

end Node

end TreeScript
