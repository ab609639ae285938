/-!
Syntax trees. A program is a tree of nodes; there is no source text. Access chains hold their steps
in order, the head first, and a chain's index and call steps are nodes that make sense only there.
-/

set_option autoImplicit false

namespace TreeScript

/-- On which side of its operands an operator stands. Names outside the three usual ones are kept,
so that a table can hold an operator no tree can name. -/
inductive Fixity where
  | infixOp
  | prefixOp
  | postfixOp
  | other (name : String)
deriving DecidableEq, Hashable, Repr, Inhabited

namespace Fixity

def ofName : String → Fixity
  | "infix" => .infixOp
  | "prefix" => .prefixOp
  | "postfix" => .postfixOp
  | name => .other name

def name : Fixity → String
  | .infixOp => "infix"
  | .prefixOp => "prefix"
  | .postfixOp => "postfix"
  | .other name => name

/-- The number of operands: two for an operator between them, one for any other. -/
def arity : Fixity → Nat
  | .infixOp => 2
  | _ => 1

end Fixity

inductive Node where
  | root (body : List Node)
  | block (body : List Node)
  | identifier (name : String)
  | number (text : String)
  | string (value : String)
  | boolean (value : Bool)
  | regex (pattern flags : String)
  | null
  /-- A chain `a.b[c](d)`: the head is looked up, every later step works on the value before it. -/
  | access (steps : List Node)
  | index (key : Node)
  | call (args : List Node)
  | functionCall (callee : Node) (args : List Node)
  | constructorCall (callee : Node) (args : List Node)
  | operation (operator : String) (fixity : Fixity) (operands : List Node)
  /-- An operator used as a value. -/
  | operatorFunction (operator : String) (fixity : Fixity)
  /-- The operator is `=`, or the infix operator of a compound assignment. -/
  | assignment (operator : String) (target value : Node)
  | parenthesis (elements : List Node)
  | array (elements : List Node)
  | mapLiteral (entries : List (Node × Node))
  | mapEntry (key value : Node)
  /-- A native declaration has no need of a body. -/
  | declaration (name : String) (params : List String) (body : Option Node) (native : Bool)
  | function (params : List String) (body : Node)
  | conditional (branches : List (Option Node × Node))
  | branch (condition : Option Node) (body : Node)
  | forLoop (names : List String) (iterable body : Node)
  | whileLoop (condition body : Node)
  | returnStatement (argument : Option Node)
  | breakStatement
  | continueStatement
  | importStatement (name asName : String) (inline : Bool)
  | exportStatement (symbols : List String) (module : String)
deriving Inhabited

namespace Node

/-- The name of the kind of node. -/
def kind : Node → String
  | root .. => "Root"
  | block .. => "Block"
  | identifier .. => "Identifier"
  | number .. => "NumberLiteral"
  | string .. => "StringLiteral"
  | boolean .. => "BooleanLiteral"
  | regex .. => "RegexLiteral"
  | null => "NullLiteral"
  | access .. => "Access"
  | index .. => "Index"
  | call .. => "Call"
  | functionCall .. => "FunctionCall"
  | constructorCall .. => "ConstructorCall"
  | operation .. => "OperatorExpression"
  | operatorFunction .. => "OperatorFunction"
  | assignment .. => "Assignment"
  | parenthesis .. => "Parenthesis"
  | array .. => "ArrayLiteral"
  | mapLiteral .. => "MapLiteral"
  | mapEntry .. => "MapEntry"
  | declaration .. => "FunctionDeclaration"
  | function .. => "FunctionLiteral"
  | conditional .. => "Conditional"
  | branch .. => "ConditionalBranch"
  | forLoop .. => "ForLoop"
  | whileLoop .. => "WhileLoop"
  | returnStatement .. => "ReturnStatement"
  | breakStatement => "BreakStatement"
  | continueStatement => "ContinueStatement"
  | importStatement .. => "ImportStatement"
  | exportStatement .. => "ExportStatement"

/-- Sequences run their statements in order and are not recorded on stack traces. -/
def isSequence : Node → Bool
  | root .. | block .. => true
  | _ => false

/-- Literals may be used directly as keys of an object. -/
def isLiteral : Node → Bool
  | number .. | string .. | boolean .. | regex .. | null => true
  | _ => false

/-- The statements of a tree taken as a program: those of a root, or the node itself. -/
def statements : Node → List Node
  | root body => body
  | node => [node]

end Node

end TreeScript
