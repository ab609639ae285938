import TreeScript.Syntax.Node
import TreeScript.Text.Quote

/-!
The compact source form of a tree, as stack traces, breakpoints and the display of functions show
it. It is meant for reading and cannot be parsed back.
-/

set_option autoImplicit false

namespace TreeScript.Node

def commas (parts : List String) : String := ", ".intercalate parts

mutual

def code : Node → String
  | root body => "; ".intercalate (codeAll body)
  | block body => "\x7b " ++ "; ".intercalate (codeAll body) ++ " \x7d"
  | identifier name => name
  | number text => text
  | string value => Text.quote value
  | boolean value => if value then "true" else "false"
  | regex pattern flags => "r/" ++ pattern ++ "/" ++ flags
  | null => "null"
  | access steps => codeChain true steps
  | index key => "[" ++ code key ++ "]"
  | call args => "(" ++ commas (codeAll args) ++ ")"
  | functionCall callee args => code callee ++ "(" ++ commas (codeAll args) ++ ")"
  | constructorCall callee args => "new " ++ code callee ++ "(" ++ commas (codeAll args) ++ ")"
  | operation operator .prefixOp [operand] => operator ++ code operand
  | operation operator .postfixOp [operand] => code operand ++ operator
  | operation operator _ operands => (" " ++ operator ++ " ").intercalate (codeAll operands)
  | operatorFunction operator .prefixOp => "[" ++ operator ++ ")"
  | operatorFunction operator .postfixOp => "(" ++ operator ++ "]"
  | operatorFunction operator _ => "(" ++ operator ++ ")"
  | assignment operator target value =>
    code target ++ (if operator = "=" ∨ operator = "" then " = " else " " ++ operator ++ "= ") ++
      code value
  | parenthesis elements => "(" ++ commas (codeAll elements) ++ ")"
  | array elements => "[" ++ commas (codeAll elements) ++ "]"
  | mapLiteral entries => "\x7b" ++ commas (codeEntries entries) ++ "\x7d"
  | mapEntry key value => code key ++ ": " ++ code value
  | declaration name params body native =>
    (if native then "native " else "") ++ name ++ "(" ++ commas params ++ ")" ++
      match body with
      | some body => " " ++ code body
      | none => ""
  | function params body => "(" ++ commas params ++ ") -> " ++ code body
  | conditional branches => " else ".intercalate (codeBranches branches)
  | branch condition body =>
    (match condition with
      | some condition => "if (" ++ code condition ++ ") "
      | none => "") ++ code body
  | forLoop names iterable body =>
    "for (" ++ commas names ++ " in " ++ code iterable ++ ") " ++ code body
  | whileLoop condition body => "while (" ++ code condition ++ ") " ++ code body
  | returnStatement none => "return"
  | returnStatement (some argument) => "return " ++ code argument
  | breakStatement => "break"
  | continueStatement => "continue"
  | importStatement name asName inline =>
    "import " ++ name ++
      (if inline then " inline" else if asName ≠ "" then " as " ++ asName else "")
  | exportStatement symbols module => "export [" ++ commas symbols ++ "] as " ++ module

def codeAll : List Node → List String
  | [] => []
  | node :: nodes => code node :: codeAll nodes

/-- The steps of a chain: a dot goes before every step but the head, and before no index or call. -/
def codeChain (isHead : Bool) : List Node → String
  | [] => ""
  | index key :: steps => "[" ++ code key ++ "]" ++ codeChain false steps
  | call args :: steps => "(" ++ commas (codeAll args) ++ ")" ++ codeChain false steps
  | step :: steps => (if isHead then "" else ".") ++ code step ++ codeChain false steps

def codeEntries : List (Node × Node) → List String
  | [] => []
  | (key, value) :: entries => (code key ++ ": " ++ code value) :: codeEntries entries

def codeBranches : List (Option Node × Node) → List String
  | [] => []
  | (some condition, body) :: branches =>
    ("if (" ++ code condition ++ ") " ++ code body) :: codeBranches branches
  | (none, body) :: branches => code body :: codeBranches branches

end

end TreeScript.Node
