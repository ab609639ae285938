import TreeScript.Store.Frame
import TreeScript.Decimal.Text
import TreeScript.Syntax.Code

/-!
The text of a value, as programs print it: `[a, b]` for an array, that is an object whose keys are 0,
1 and so on, and `\x7bk: v\x7d` for any other object. An object inside itself is cut off.
-/

set_option autoImplicit false

namespace TreeScript

namespace Machine

/-- The number a key of an object is, if it is one. Instances of host types do not count. -/
def numberKey? (m : Machine) (cell : CellRef) : Option Decimal :=
  match m.content cell with
  | .number d => some d
  | _ => none

/-- The largest number among the keys, and -1 if there is none. -/
def highestKey (m : Machine) (ref : TableRef) : Decimal :=
  (m.table ref).keys.foldl
    (fun highest key =>
      match m.numberKey? key with
      | some d => if highest.lt d then d else highest
      | none => highest)
    (Decimal.ofInt (-1))

/-- A key an array may have: a whole number that is not negative. -/
def isArrayKey (m : Machine) (cell : CellRef) : Bool :=
  match m.numberKey? cell with
  | some d => d.isWhole && 0 ≤ d.sign
  | none => false

def isZeroKey (m : Machine) (cell : CellRef) : Bool := (m.numberKey? cell).any (·.isZero)

/-- Whether an object is an array. An object without entries is one. -/
def isArray (m : Machine) (ref : TableRef) : Bool :=
  let table := m.table ref
  table.size == 0 ||
    (table.keys.all m.isArrayKey && table.keys.any m.isZeroKey &&
      (m.highestKey ref).word == (table.size : Int) - 1)

/-- The text of what an opaque instance holds. -/
def countText (count : Nat) : String := "int(" ++ toString count ++ ")"

/-- The text of a value inside the objects `outer`. The fuel bounds the depth of nesting. -/
def displayIn (m : Machine) : Nat → List TableRef → CellRef → String
  | 0, _, _ => ""
  | fuel + 1, outer, cell =>
    match m.content cell with
    | .empty => "null"
    | .number d => d.text
    | .string s => s
    | .boolean b => if b then "true" else "false"
    | .regex r => r.pattern
    | .iterator _ => "<<iterator>>"
    | .function _ closure => "(" ++ Node.commas closure.params ++ ") -> " ++ closure.body.code
    | .native .. => "<<native function>>"
    | .method .. => "<<instance function>>"
    | .hostMethod _ method _ => method.type.name ++ "." ++ method.name
    | .hostType type => "type " ++ type.name
    | .custom ref =>
      match m.instanceOf ref with
      | .vector _ x y _ =>
        "<" ++ displayIn m fuel [] x ++ ", " ++ displayIn m fuel [] y ++ ">"
      | .odd _ mode => "Odd:" ++ mode
      | .counted type count => type.name ++ countText count
    | .object ref =>
      if outer.contains ref then "<circular-reference-object@PTR>"
      else
        let inside := displayIn m fuel (ref :: outer)
        let table := m.table ref
        if m.isArray ref then "[" ++ Node.commas (table.values.map inside) ++ "]"
        else
          "\x7b" ++
            Node.commas (table.entries.map fun e => inside e.key ++ ": " ++ inside e.value) ++ "\x7d"

/-- A bound on the depth of any value: between two instances of host types lie at most all tables. -/
def displayDepth (m : Machine) : Nat := (m.tables.size + 1) * (m.instances.size + 1) + 1

def display (m : Machine) (cell : CellRef) : String := m.displayIn m.displayDepth [] cell

/-- The text of a value with its type. -/
def describe (m : Machine) (cell : CellRef) : String :=
  m.display cell ++ " (" ++ m.typeName cell ++ ")"

end Machine

def display (cell : CellRef) : Run String := return (← get).display cell

def describe (cell : CellRef) : Run String := return (← get).describe cell

/-- Adds a value under the key after the largest number. -/
def pushEntry (ref : TableRef) (value : CellRef) : Run Unit := do
  let next := (← get).highestKey ref + Decimal.ofInt 1
  setEntry ref (← newNumber next) value

/-- Enters all entries of one object into another. -/
def mergeInto (target source : TableRef) : Run Unit := do
  for entry in (← tableOf source).entries do
    setEntry target entry.key entry.value

/-- A new object with the same entries. -/
def cloneTable (ref : TableRef) : Run TableRef := do
  let clone ← newTable
  mergeInto clone ref
  return clone

end TreeScript
