import TreeScript.Syntax.Node
import TreeScript.Json.Basic

/-!
Writing syntax trees as JSON. Optional members are left out when they hold nothing.
-/

set_option autoImplicit false

namespace TreeScript.Node

def stringsJson (names : List String) : Json := .array (names.map .string)

/-- An object of the given kind. -/
def kindJson (kind : String) (members : List (String × Json)) : Json :=
  .object (("type", .string kind) :: members)

def textMember (name value : String) : List (String × Json) :=
  if value = "" then [] else [(name, .string value)]

def flagMember (name : String) (value : Bool) : List (String × Json) :=
  if value then [(name, .bool true)] else []

mutual

def toJson : Node → Json
  | root body => kindJson "Root" [("body", .array (toJsonAll body))]
  | block body => kindJson "Block" [("body", .array (toJsonAll body))]
  | identifier name => kindJson "Identifier" [("name", .string name)]
  | number text => kindJson "NumberLiteral" [("value", .string text)]
  | string value => kindJson "StringLiteral" [("value", .string value)]
  | boolean value => kindJson "BooleanLiteral" [("value", .bool value)]
  | regex pattern flags =>
    kindJson "RegexLiteral" (("pattern", .string pattern) :: textMember "flags" flags)
  | null => kindJson "NullLiteral" []
  | access steps => kindJson "Access" [("steps", .array (toJsonAll steps))]
  | index key => kindJson "Index" [("key", toJson key)]
  | call args => kindJson "Call" [("args", .array (toJsonAll args))]
  | functionCall callee args =>
    kindJson "FunctionCall" [("callee", toJson callee), ("args", .array (toJsonAll args))]
  | constructorCall callee args =>
    kindJson "ConstructorCall" [("callee", toJson callee), ("args", .array (toJsonAll args))]
  | operation operator fixity operands =>
    kindJson "OperatorExpression" [("operator", .string operator), ("fixity", .string fixity.name),
      ("operands", .array (toJsonAll operands))]
  | operatorFunction operator fixity =>
    kindJson "OperatorFunction" [("operator", .string operator), ("fixity", .string fixity.name)]
  | assignment operator target value =>
    kindJson "Assignment"
      [("operator", .string operator), ("target", toJson target), ("value", toJson value)]
  | parenthesis elements => kindJson "Parenthesis" [("elements", .array (toJsonAll elements))]
  | array elements => kindJson "ArrayLiteral" [("elements", .array (toJsonAll elements))]
  | mapLiteral entries => kindJson "MapLiteral" [("entries", .array (toJsonEntries entries))]
  | mapEntry key value => kindJson "MapEntry" [("key", toJson key), ("value", toJson value)]
  | declaration name params none native =>
    kindJson "FunctionDeclaration"
      (("name", .string name) :: ("params", stringsJson params) :: flagMember "native" native)
  | declaration name params (some body) native =>
    kindJson "FunctionDeclaration"
      (("name", .string name) :: ("params", stringsJson params) :: ("body", toJson body) ::
        flagMember "native" native)
  | function params body =>
    kindJson "FunctionLiteral" [("params", stringsJson params), ("body", toJson body)]
  | conditional branches => kindJson "Conditional" [("branches", .array (toJsonBranches branches))]
  | branch none body => kindJson "ConditionalBranch" [("body", toJson body)]
  | branch (some condition) body =>
    kindJson "ConditionalBranch" [("condition", toJson condition), ("body", toJson body)]
  | forLoop names iterable body =>
    kindJson "ForLoop"
      [("variables", stringsJson names), ("iterable", toJson iterable), ("body", toJson body)]
  | whileLoop condition body =>
    kindJson "WhileLoop" [("condition", toJson condition), ("body", toJson body)]
  | returnStatement none => kindJson "ReturnStatement" []
  | returnStatement (some argument) => kindJson "ReturnStatement" [("argument", toJson argument)]
  | breakStatement => kindJson "BreakStatement" []
  | continueStatement => kindJson "ContinueStatement" []
  | importStatement name asName inline =>
    kindJson "ImportStatement"
      (("name", .string name) :: textMember "alias" asName ++ flagMember "inline" inline)
  | exportStatement symbols module =>
    kindJson "ExportStatement" [("symbols", stringsJson symbols), ("module", .string module)]

def toJsonAll : List Node → List Json
  | [] => []
  | node :: nodes => toJson node :: toJsonAll nodes

def toJsonEntries : List (Node × Node) → List Json
  | [] => []
  | (key, value) :: entries =>
    kindJson "MapEntry" [("key", toJson key), ("value", toJson value)] :: toJsonEntries entries

def toJsonBranches : List (Option Node × Node) → List Json
  | [] => []
  | (none, body) :: branches =>
    kindJson "ConditionalBranch" [("body", toJson body)] :: toJsonBranches branches
  | (some condition, body) :: branches =>
    kindJson "ConditionalBranch" [("condition", toJson condition), ("body", toJson body)] ::
      toJsonBranches branches

end

theorem toJsonAll_cons (node : Node) (nodes : List Node) :
    toJsonAll (node :: nodes) = toJson node :: toJsonAll nodes := rfl

end TreeScript.Node
