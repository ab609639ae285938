import Std.Data.HashSet
import TreeScript.Store.Display
import TreeScript.Text.Basic

/-!
Truth, size, equality and order of values. Objects are equal when they have equal values under the same
keys; two objects that are being compared already count as equal, so circular ones can be compared.
-/

set_option autoImplicit false

namespace TreeScript

namespace Machine

/-- What conditions and filters take for true, where at most `fuel` instances lie inside each other. -/
def isTrueIn (m : Machine) : Nat → CellRef → Bool
  | 0, _ => false
  | fuel + 1, cell =>
    match m.content cell with
    | .boolean b => b
    | .number d => !d.isZero
    | .string s => s ≠ ""
    | .object ref => 0 < (m.table ref).size
    | .function .. | .method .. | .native .. | .hostMethod .. | .regex _ => true
    | .custom ref =>
      match m.instanceOf ref with
      | .vector _ x y _ => m.isTrueIn fuel x || m.isTrueIn fuel y
      | _ => false
    | _ => false

def isTrue (m : Machine) (cell : CellRef) : Bool := m.isTrueIn (m.instances.size + 1) cell

/-- The number a value stands for. A vector stands for its first part if the second is zero. -/
def number? (m : Machine) (cell : CellRef) : Option Decimal :=
  match m.content cell with
  | .number d => some d
  | .custom ref =>
    match m.instanceOf ref with
    | .vector _ x y _ => if (m.numberKey? y).any (·.isZero) then m.numberKey? x else none
    | _ => none
  | _ => none

/-- The order of two texts, numbers or truth values, where there is one. -/
def simpleOrder (m : Machine) (a b : CellRef) : Ordering :=
  match m.content a, m.content b with
  | .number x, .number y => x.cmp y
  | .string s, _ => Text.compareText s (m.display b)
  | _, _ => .eq

/-- Vectors are ordered by their parts. -/
def vectorOrder (m : Machine) (x y x' y' : CellRef) : Ordering :=
  (m.simpleOrder x x').then (m.simpleOrder y y')

/-- Pairs of objects that are taken to be equal. -/
abbrev Assumed := Std.HashSet (TableRef × TableRef)

/-- Whether two values are equal, and the pairs of objects met so far. The fuel bounds the number of
pairs that can be met. -/
def equalIn (m : Machine) : Nat → Assumed → CellRef → CellRef → Bool × Assumed
  | 0, assumed, _, _ => (true, assumed)
  | fuel + 1, assumed, a, b =>
    match m.content a, m.content b with
    | .empty, .empty => (true, assumed)
    | .number x, .number y => (x == y, assumed)
    | .boolean x, .boolean y => (x == y, assumed)
    | .string x, .string y => (x == y, assumed)
    | .regex x, .regex y => (x.pattern == y.pattern && x.flags == y.flags, assumed)
    | .object s, .object t =>
      if s = t ∨ assumed.contains (s, t) then (true, assumed)
      else
        let assumed := assumed.insert (s, t)
        if (m.table s).size ≠ (m.table t).size then (false, assumed)
        else
          (m.table s).entries.foldl
            (fun (same, assumed) entry =>
              if same then
                match m.lookUp t entry.key with
                | some other => equalIn m fuel assumed entry.value other
                | none => (false, assumed)
              else (false, assumed))
            (true, assumed)
    | .custom s, .custom t =>
      if s = t then (true, assumed)
      else
        match m.instanceOf s, m.instanceOf t with
        | .vector type x y _, .vector type' x' y' _ =>
          (type.stamp == type'.stamp && m.vectorOrder x y x' y' == .eq, assumed)
        | _, _ => (false, assumed)
    | x, y => (x.kind == y.kind && x.keyId == y.keyId, assumed)

def equal (m : Machine) (a b : CellRef) : Bool :=
  (m.equalIn (m.tables.size * m.tables.size + 2) {} a b).1

end Machine

/-- The number of entries of an object, of characters of a string and of elements left in an iterator,
which uses them up. Any other value has size 1. -/
def sizeOf (cell : CellRef) : Run Nat := do
  let m ← get
  match m.content cell with
  | .object ref => return (m.table ref).size
  | .string s => return s.length
  | .iterator ref =>
    setIterator ref (m.iterator ref).usedUp
    return (m.remaining ref).length
  | .custom ref =>
    match m.instanceOf ref with
    | .vector .. => return 2
    | _ => return 1
  | _ => return 1

/-- Orders two values: numbers by size, strings as text, false before true, objects by their size and
empty values before all others. -/
def compareValues (a b : CellRef) : Run Ordering := do
  let m ← get
  match m.content a with
  | .number d =>
    match m.number? b with
    | some e => return d.cmp e
    | none => Run.fail s!"cannot compare number with {m.typeName b}"
  | .boolean x => return compare x.toNat (m.isTrue b).toNat
  | .string s => return Text.compareText s (m.display b)
  | .object _ =>
    let left ← sizeOf a
    return compare left (← sizeOf b)
  | .custom ref =>
    match m.instanceOf ref, m.content b with
    | .vector _ x y _, .custom ref' =>
      match m.instanceOf ref' with
      | .vector _ x' y' _ => return m.vectorOrder x y x' y'
      | _ => return .eq
    | other, _ => Run.fail s!"custom type {other.type.name} is not comparable"
  | .empty => return if (m.content b).isEmpty then .eq else .lt
  | content =>
    match m.content b with
    | .empty | .number _ | .boolean _ | .string _ => return .gt
    | other => return if content.keyId = other.keyId then .eq else .lt

def isTrue (cell : CellRef) : Run Bool := return (← get).isTrue cell

def equal (a b : CellRef) : Run Bool := return (← get).equal a b

end TreeScript
