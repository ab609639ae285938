/-!
JSON values. A number keeps the text it was written with, so nothing is lost by reading it, and an
object keeps its members in order, repeated names included.
-/

set_option autoImplicit false

namespace TreeScript

inductive Json where
  | null
  | bool (value : Bool)
  | number (text : String)
  | string (value : String)
  | array (items : List Json)
  | object (members : List (String × Json))
deriving Inhabited

namespace Json

/-- The member of that name; the last one counts when the name is repeated. -/
def member? (members : List (String × Json)) (name : String) : Option Json :=
  members.foldl (fun found entry => if entry.1 = name then some entry.2 else found) none

def field? (json : Json) (name : String) : Option Json :=
  match json with
  | .object members => member? members name
  | _ => none

def string? : Json → Option String
  | .string s => some s
  | _ => none

def bool? : Json → Option Bool
  | .bool b => some b
  | _ => none

def items? : Json → Option (List Json)
  | .array items => some items
  | _ => none

/-- A whole number in the given text notation, as an object member count or index is. -/
def ofInt (n : Int) : Json := .number (toString n)

end Json

end TreeScript
