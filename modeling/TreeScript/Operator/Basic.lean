import TreeScript.Syntax.Node
import TreeScript.Syntax.Code

/-!
Operators. An operator has a symbol, a precedence, a fixity and actions; an action says which types of
operands it takes and by which rule it computes. The table lists the operators by falling precedence,
and among those of one precedence the longer symbol first.
-/

set_option autoImplicit false

namespace TreeScript

/-- The order relations. -/
inductive Relation where
  | less | lessOrEqual | greater | greaterOrEqual
deriving DecidableEq, Repr

def Relation.holds : Relation → Ordering → Bool
  | less, c => c == .lt
  | lessOrEqual, c => c != .gt
  | greater, c => c == .gt
  | greaterOrEqual, c => c != .lt

/-- How a result comes from one operand. -/
inductive UnaryRule where
  /-- Changes the operand in place, and answers it as it was or as it is now. -/
  | step (delta : Int) (answersFormer : Bool)
  | factorial
  | same
  | parse
  | negate
  | not
  | complement
deriving DecidableEq, Repr

/-- How a result comes from two operands. -/
inductive BinaryRule where
  | add | subtract | multiply | divide | remainder | modulo | power
  | shiftLeft | shiftRight | bitAnd | bitOr
  | and | or | xor
  | repeatLeft | repeatRight | concatText
  /-- Puts arrays, objects and plain values together. -/
  | append
  | compare (relation : Relation)
  | equal | notEqual
  /-- The left operand unless it is empty. -/
  | orElse
  /-- Calls the right operand with the left one. -/
  | pipe
deriving DecidableEq, Repr

/-- What an operator does with operands of certain types. -/
inductive Action where
  | unary (operand : String) (rule : UnaryRule)
  | binary (left right : String) (rule : BinaryRule)
deriving DecidableEq, Repr

/-- An operator without actions is left to the evaluator. -/
structure Operator where
  symbol : String
  precedence : Int
  fixity : Fixity
  actions : List Action := []
deriving DecidableEq, Repr

namespace Action

/-- The operand types of an action, written around the symbol. -/
def describe (symbol : String) (fixity : Fixity) (action : Action) : String :=
  let first := match action with
    | unary operand _ => operand
    | binary left _ _ => left
  let second := match action with
    | unary .. => "any"
    | binary _ right _ => right
  match fixity with
  | .prefixOp => symbol ++ first
  | .postfixOp => first ++ symbol
  | _ => first ++ " " ++ symbol ++ " " ++ second

end Action

namespace Operator

def arity (op : Operator) : Nat := op.fixity.arity

/-- The symbol with the precedence and the sides operands stand on. -/
def describe (op : Operator) : String :=
  let sides := match op.fixity with
    | .prefixOp => "r"
    | .postfixOp => "l"
    | _ => "l r"
  s!"{op.symbol} ({op.precedence} {sides})"

/-- The operand types the operator takes. -/
def combinations (op : Operator) : String :=
  if op.actions.isEmpty then "none"
  else Node.commas (op.actions.map (·.describe op.symbol op.fixity))

/-- Whether an operator has its place before another one. -/
def before (a b : Operator) : Bool :=
  if a.precedence = b.precedence then b.symbol.utf8ByteSize < a.symbol.utf8ByteSize
  else b.precedence < a.precedence

def sameAs (a b : Operator) : Bool := a.symbol == b.symbol && a.fixity == b.fixity

end Operator

abbrev OperatorTable := List Operator

namespace OperatorTable

/-- Adds an operator. It takes the place of one with the same symbol and fixity, or else its place by
precedence, behind those that are its equals. -/
def add (table : OperatorTable) (op : Operator) : OperatorTable :=
  if table.any op.sameAs then table.map fun other => if op.sameAs other then op else other
  else (table ++ [op]).mergeSort fun a b => !b.before a

def find? (table : OperatorTable) (symbol : String) (fixity : Fixity) : Option Operator :=
  List.find? (fun op => op.symbol == symbol && op.fixity == fixity) table

end OperatorTable

/-! ### The operators of the language -/

namespace Operator

def numeric (rule : UnaryRule) : Action := .unary "number" rule

def numeric2 (rule : BinaryRule) : Action := .binary "number" "number" rule

def boolean2 (rule : BinaryRule) : Action := .binary "boolean" "boolean" rule

def any2 (rule : BinaryRule) : Action := .binary "any" "any" rule

/-- Order is defined between numbers, strings, truth values and host values. -/
def comparison (relation : Relation) : List Action :=
  ["number", "string", "boolean", "custom_type"].map fun type => .binary type type (.compare relation)

def before1 (symbol : String) (precedence : Int) (actions : List Action) : Operator :=
  { symbol, precedence, fixity := .prefixOp, actions }

def after1 (symbol : String) (precedence : Int) (actions : List Action) : Operator :=
  { symbol, precedence, fixity := .postfixOp, actions }

def between (symbol : String) (precedence : Int) (actions : List Action) : Operator :=
  { symbol, precedence, fixity := .infixOp, actions }

def standardOperators : List Operator :=
  [ after1 "++" 150 [numeric (.step 1 true)],
    after1 "--" 150 [numeric (.step (-1) true)],
    after1 "!" 150 [numeric .factorial],
    before1 "++" 140 [numeric (.step 1 false)],
    before1 "--" 140 [numeric (.step (-1) false)],
    before1 "+" 140 [numeric .same, .unary "string" .parse],
    before1 "-" 140 [numeric .negate],
    before1 "!" 140 [.unary "boolean" .not],
    before1 "~" 140 [numeric .complement],
    between "^^" 130 [numeric2 .power],
    between "*" 120
      [numeric2 .multiply, .binary "string" "number" .repeatLeft,
        .binary "number" "string" .repeatRight],
    between "/" 120 [numeric2 .divide],
    between "%" 120 [numeric2 .remainder],
    between "%%" 120 [numeric2 .modulo],
    between "+" 110
      [numeric2 .add, .binary "string" "any" .concatText, .binary "any" "string" .concatText],
    between "-" 110 [numeric2 .subtract],
    between "::" 105 [any2 .append],
    between "<<" 100 [numeric2 .shiftLeft],
    between ">>" 100 [numeric2 .shiftRight],
    between "<" 90 (comparison .less),
    between "<=" 90 (comparison .lessOrEqual),
    between ">" 90 (comparison .greater),
    between ">=" 90 (comparison .greaterOrEqual),
    between "==" 80 [any2 .equal],
    between "!=" 80 [any2 .notEqual],
    between "&" 70 [numeric2 .bitAnd, boolean2 .and],
    between "^" 60 [numeric2 .power, boolean2 .xor],
    between "|" 50 [numeric2 .bitOr, boolean2 .or],
    between "&&" 40 [boolean2 .and],
    between "||" 30 [boolean2 .or],
    between "?" 20 [any2 .orElse],
    between "=" 10 [],
    between "|>" 5 [.binary "any" "function" .pipe],
    between ">|" 5 [.binary "any" "function" .pipe],
    between "->" 0 [] ]

def standard : OperatorTable := standardOperators.foldl OperatorTable.add []

end Operator

end TreeScript
