import TreeScript.Operator.Basic
import TreeScript.Store.Access

/-!
Computing with operators. The first action that takes the types of the operands computes the result;
where there is none and an operand is an object, the operator works on its values one by one.
-/

set_option autoImplicit false

namespace TreeScript

/-- A repeated string has at most so many bytes. -/
def maxRepeatSize : Nat := twoTo 28

def repeatString (s : String) (count : Decimal) : Run CellRef := do
  if !count.isWhole || count.sign < 0 then
    Run.fail s!"string repetition requires a non-negative whole number, got {count.text}"
  if s = "" then
    return ← newString ""
  let size := s.utf8ByteSize
  if ((maxRepeatSize / size : Nat) : Int) < count.coeff then
    Run.fail
      s!"string repetition of {size} bytes by {count.text} exceeds the {maxRepeatSize} byte limit"
  newString (Text.repeatText count.coeff.toNat s)

/-- Reads a number out of a string, which may have white space around it. -/
def parseNumber (s : String) : Run CellRef := do newNumber (← Run.ofNumber (Decimal.read s))

/-- The entries of two objects in one: the values of arrays one behind the other, those of other objects
under their keys. -/
def appendObjects (s t : TableRef) (areArrays : Bool) : Run CellRef := do
  let out ← cloneTable s
  if areArrays then
    for value in (← tableOf t).values do
      pushEntry out value
  else mergeInto out t
  newObject out

/-- Arrays are put behind each other, other objects merged; a plain value is added to an object before
or behind it, and two of them form a pair. -/
def appendValues (left right : CellRef) : Run CellRef := do
  let m ← get
  match m.tableOf? left, m.tableOf? right with
  | some s, some t => appendObjects s t (m.isArray s && m.isArray t)
  | some s, none =>
    let out ← cloneTable s
    pushEntry out right
    newObject out
  | none, some t =>
    if m.isArray t then newArray (left :: (m.table t).values)
    else
      let out ← newTable
      pushEntry out left
      mergeInto out t
      newObject out
  | none, none => newArray [left, right]

namespace UnaryRule

def apply (rule : UnaryRule) (cell : CellRef) : Run CellRef := do
  let content ← content cell
  let d := match content with
    | .number d => d
    | _ => Decimal.ofInt 0
  match rule with
  | step delta answersFormer =>
    let former ← copy cell
    write cell (.number (d + Decimal.ofInt delta))
    return if answersFormer then former else cell
  | factorial => newNumber (← Run.ofNumber d.factorial)
  | same => newNumber d
  | parse => parseNumber (Text.trim (← display cell))
  | negate => newNumber d.neg
  | not => newBoolean (!(← isTrue cell))
  | complement => newNumber (Decimal.ofInt (Bits.complement (← Run.ofNumber d.whole)))

end UnaryRule

namespace BinaryRule

/-- A rule for whole numbers. -/
def wholeNumbers (a b : Decimal) (compute : Int → Int → Except NumberError Int) :
    Except NumberError Decimal := do
  let x ← a.whole
  let y ← b.whole
  return Decimal.ofInt (← compute x y)

/-- The rules that make a number out of two. -/
def arithmetic? (scale : Int) (a b : Decimal) : BinaryRule → Option (Except NumberError Decimal)
  | add => some (.ok (a + b))
  | subtract => some (.ok (a - b))
  | multiply => some (.ok (a * b))
  | divide => some (a.divide b scale)
  | remainder => some (a.remainder b)
  | modulo => some (a.modulo b)
  | power => some (a.power b scale)
  | shiftLeft =>
    some (wholeNumbers a b fun x y => (Decimal.shiftAmount y).map (Bits.shiftLeft x))
  | shiftRight =>
    some (wholeNumbers a b fun x y => (Decimal.shiftAmount y).map (Bits.shiftRight x))
  | bitAnd => some (wholeNumbers a b fun x y => .ok (Bits.and x y))
  | bitOr => some (wholeNumbers a b fun x y => .ok (Bits.or x y))
  | _ => none

def apply (call : Call) (symbol : String) (rule : BinaryRule) (left right : CellRef) :
    Run CellRef := do
  let m ← get
  let number (cell : CellRef) : Decimal := (m.numberKey? cell).getD (Decimal.ofInt 0)
  match rule.arithmetic? call.scale (number left) (number right) with
  | some result => newNumber (← Run.ofNumber result)
  | none =>
    match rule with
    | and => newBoolean (m.isTrue left && m.isTrue right)
    | or => newBoolean (m.isTrue left || m.isTrue right)
    | xor => newBoolean (m.isTrue left != m.isTrue right)
    | repeatLeft => repeatString (m.display left) (number right)
    | repeatRight => repeatString (m.display right) (number left)
    | concatText => newString (m.display left ++ m.display right)
    | append => appendValues left right
    | compare relation => newBoolean (relation.holds (← compareValues left right))
    | equal => newBoolean (m.equal left right)
    | notEqual => newBoolean (!m.equal left right)
    | orElse => return if (m.content left).isEmpty then right else left
    | pipe => call.invoke symbol right [left]
    | _ => newEmpty

end BinaryRule

namespace Operator

/-- The rule for an operand of a type. -/
def unaryRule? (op : Operator) (type : String) : Option UnaryRule :=
  op.actions.findSome? fun
    | .unary operand rule => if isType type operand then some rule else none
    | .binary .. => none

/-- The rule for operands of two types. -/
def binaryRule? (op : Operator) (left right : String) : Option BinaryRule :=
  op.actions.findSome? fun
    | .binary first second rule =>
      if isType left first && isType right second then some rule else none
    | .unary .. => none

/-- An object with the same keys whose values are those an action makes of the values. -/
def mapValues (ref : TableRef) (act : CellRef → CellRef → Run CellRef) : Run CellRef := do
  let out ← newTable
  forEntries ref () fun _ entry => do
    let value ← act entry.key entry.value
    setEntry out entry.key value
  newObject out

def dispatch1 (op : Operator) : Nat → CellRef → Run CellRef
  | 0, _ => throw .outOfFuel
  | fuel + 1, cell => do
    let m ← get
    match op.unaryRule? (m.typeName cell), m.tableOf? cell with
    | some rule, _ => rule.apply cell
    | none, some ref => mapValues ref fun _ value => dispatch1 op fuel value
    | none, none =>
      Run.fail
        s!"No matching type found for {op.symbol} on {m.describe cell}\nAvailable types: {op.combinations}"

def keyList (m : Machine) (ref : TableRef) : String :=
  "[" ++ Node.commas ((m.table ref).keys.map m.display) ++ "]"

def pluralMark (n : Nat) : String := if n = 1 then "" else "s"

/-- Two objects are taken together value by value; they have to have the same keys. -/
def requireSameKeys (op : Operator) (s t : TableRef) : Run Unit := do
  let m ← get
  let left := m.table s
  let right := m.table t
  if left.size ≠ right.size then
    Run.fail s!"Both objects must have the same size, but was: {left.size} != {right.size}"
  if left.keys.any fun key => (m.lookUp t key).isNone then
    let lefts := keyList m s
    let rights := keyList m t
    Run.fail s!"Both objects must contain the same keys, but was: {lefts} {op.symbol} {rights}"

def noCombination (m : Machine) (op : Operator) (left right : CellRef) : String :=
  "No matching type combination found for " ++ m.describe left ++ " " ++ op.symbol ++ " " ++
    m.describe right ++ "\nAvailable combination" ++ pluralMark op.actions.length ++ ": " ++
    op.combinations

def dispatch2 (op : Operator) (call : Call) : Nat → CellRef → CellRef → Run CellRef
  | 0, _, _ => throw .outOfFuel
  | fuel + 1, left, right => do
    let m ← get
    match op.binaryRule? (m.typeName left) (m.typeName right) with
    | some rule => rule.apply call op.symbol left right
    | none =>
      match m.tableOf? left, m.tableOf? right with
      | some s, some t =>
        requireSameKeys op s t
        mapValues s fun key value => do
          match (← get).lookUp t key with
          | some other => dispatch2 op call fuel value other
          | none => do dispatch2 op call fuel value (← newEmpty)
      | some s, none => mapValues s fun _ value => dispatch2 op call fuel value right
      | none, some t => mapValues t fun _ value => dispatch2 op call fuel left value
      | none, none => Run.fail (noCombination m op left right)

def evaluate (op : Operator) (call : Call) (args : List CellRef) : Run CellRef := do
  if args.length ≠ op.arity then
    Run.fail
      s!"Operator {op.symbol} requires {op.arity} argument{pluralMark op.arity}, but {args.length} were given"
  if op.actions.isEmpty then
    Run.fail s!"Operator {op.symbol} cannot be evaluated directly"
  match args with
  | [cell] => op.dispatch1 call.fuel cell
  | [left, right] => op.dispatch2 call call.fuel left right
  | _ => newEmpty

end Operator

/-- Applies the operator with a symbol and fixity. -/
def OperatorTable.evaluate (table : OperatorTable) (call : Call) (symbol : String) (fixity : Fixity)
    (args : List CellRef) : Run CellRef :=
  match table.find? symbol fixity with
  | some op => op.evaluate call args
  | none => Run.fail s!"Unknown {fixity.name} operator {symbol}"

end TreeScript
