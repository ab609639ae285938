import TreeScript.Store.Display
import TreeScript.Text.Basic
import TreeScript.Json.Reader
import TreeScript.Json.Writer

/-!
Values as JSON. Arrays become arrays and other objects become objects whose member names are the texts
of the keys; functions, iterators and host values are exported by their text. Objects that nest too
deep are refused.
-/

set_option autoImplicit false

namespace TreeScript

namespace Json

/-- Sets a member, which keeps its place if the name is taken. -/
def setMember (name : String) (value : Json) : List (String × Json) → List (String × Json)
  | [] => [(name, value)]
  | (other, former) :: members =>
    if other = name then (name, value) :: members else (other, former) :: setMember name value members

end Json

/-- Why a value has no JSON form. -/
inductive ExportError where
  | circular
  /-- An object nests too deep, or else the whole value. Every object on the way to it says so. -/
  | tooDeep (objects : Nat) (bracket : Char)
deriving DecidableEq, Repr

def ExportError.message : ExportError → String
  | circular => "cannot export circular reference to JSON"
  | tooDeep objects bracket =>
    let refused := "json: error calling MarshalJSON for type *orderedmap.OrderedMap: "
    Text.repeatText objects refused ++ "invalid character '" ++ bracket.toString ++
      "' exceeded max depth"

namespace Machine

/-- The JSON form of a value inside the objects `outer`. The fuel bounds the depth of nesting. -/
def exportIn (m : Machine) : Nat → List TableRef → CellRef → Except ExportError Json
  | 0, _, _ => .error .circular
  | fuel + 1, outer, cell =>
    match m.content cell with
    | .empty => .ok .null
    | .number d => .ok (.number d.text)
    | .string s => .ok (.string s)
    | .boolean b => .ok (.bool b)
    | .object ref =>
      if outer.contains ref then .error .circular
      else do
        let table := m.table ref
        let inside := exportIn m fuel (ref :: outer)
        if m.isArray ref then
          return .array (← table.values.mapM inside)
        let members ← table.entries.mapM fun entry => do
          return (m.display entry.key, ← inside entry.value)
        return .object (members.foldl (fun acc (name, value) => Json.setMember name value acc) [])
    | _ => .ok (.string (m.display cell))

def toJson (m : Machine) (cell : CellRef) : Except ExportError Json := do
  let json ← m.exportIn (m.tables.size + 1) [] cell
  match json.refusal? with
  | some (objects, bracket) => throw (.tooDeep objects bracket)
  | none => return json

end Machine

end TreeScript
