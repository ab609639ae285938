import TreeScript.Json.Basic
import TreeScript.Text.Quote

/-!
Writing JSON text: compactly, or with every member on a line of its own. Strings escape quotes,
backslashes and control characters, and the characters that are unsafe inside markup and scripts.
-/

set_option autoImplicit false

namespace TreeScript.Json

namespace Writer

def unitEscape (c : Char) : List Char := '\\' :: 'u' :: Text.Quote.hex 4 c.toNat

def escape (c : Char) : List Char :=
  match c with
  | '"' => ['\\', '"']
  | '\\' => ['\\', '\\']
  | '\x08' => ['\\', 'b']
  | '\x0c' => ['\\', 'f']
  | '\n' => ['\\', 'n']
  | '\r' => ['\\', 'r']
  | '\t' => ['\\', 't']
  | '<' | '>' | '&' | '\u2028' | '\u2029' => unitEscape c
  | _ => if c.toNat < 0x20 then unitEscape c else [c]

def quoted (s : String) : String := String.ofList ('"' :: s.toList.flatMap escape ++ ['"'])

/-- The blanks of an indentation level, two a level. -/
def indent (level : Nat) : String := "\n" ++ String.ofList (List.replicate (2 * level) ' ')

end Writer

open Writer

mutual

def compact : Json → String
  | .null => "null"
  | .bool b => if b then "true" else "false"
  | .number text => text
  | .string s => quoted s
  | .array items => "[" ++ ",".intercalate (compactItems items) ++ "]"
  | .object members => "\x7b" ++ ",".intercalate (compactMembers members) ++ "\x7d"

def compactItems : List Json → List String
  | [] => []
  | item :: items => compact item :: compactItems items

def compactMembers : List (String × Json) → List String
  | [] => []
  | (name, item) :: members => (quoted name ++ ":" ++ compact item) :: compactMembers members

end

theorem compactItems_cons (item : Json) (items : List Json) :
    compactItems (item :: items) = compact item :: compactItems items := rfl

theorem compactMembers_cons (name : String) (item : Json) (members : List (String × Json)) :
    compactMembers ((name, item) :: members) =
      (quoted name ++ ":" ++ compact item) :: compactMembers members := rfl

mutual

/-- Text with one item a line, two blanks deeper at every level. -/
def pretty (level : Nat) : Json → String
  | .array [] => "[]"
  | .array (item :: items) =>
    "[" ++ indent (level + 1) ++
      ("," ++ indent (level + 1)).intercalate (prettyItems (level + 1) (item :: items)) ++
      indent level ++ "]"
  | .object [] => "\x7b\x7d"
  | .object (member :: members) =>
    "\x7b" ++ indent (level + 1) ++
      ("," ++ indent (level + 1)).intercalate (prettyMembers (level + 1) (member :: members)) ++
      indent level ++ "\x7d"
  | .null => "null"
  | .bool b => if b then "true" else "false"
  | .number text => text
  | .string s => quoted s

def prettyItems (level : Nat) : List Json → List String
  | [] => []
  | item :: items => pretty level item :: prettyItems level items

def prettyMembers (level : Nat) : List (String × Json) → List String
  | [] => []
  | (name, item) :: members =>
    (quoted name ++ ": " ++ pretty level item) :: prettyMembers level members

end

end TreeScript.Json
