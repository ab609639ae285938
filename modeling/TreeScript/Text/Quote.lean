import TreeScript.Text.Category

/-!
Quoted text: double quotes around, a backslash before quotes and backslashes, short names for the
usual control characters, and the code in hexadecimal for any other character that leaves no ink.
-/

set_option autoImplicit false

namespace TreeScript.Text.Quote

/-- The last `width` hexadecimal digits of a number. -/
def hex (width n : Nat) : List Char :=
  let digits := Nat.toDigits 16 n
  List.replicate (width - digits.length) '0' ++ digits

def escape (c : Char) : List Char :=
  match c with
  | '"' => ['\\', '"']
  | '\\' => ['\\', '\\']
  | '\x07' => ['\\', 'a']
  | '\x08' => ['\\', 'b']
  | '\x0c' => ['\\', 'f']
  | '\n' => ['\\', 'n']
  | '\r' => ['\\', 'r']
  | '\t' => ['\\', 't']
  | '\x0b' => ['\\', 'v']
  | _ =>
    if Category.isGraphic c then [c]
    else if c.toNat < 0x20 || c.toNat == 0x7f then '\\' :: 'x' :: hex 2 c.toNat
    else if c.toNat < 0x10000 then '\\' :: 'u' :: hex 4 c.toNat
    else '\\' :: 'U' :: hex 8 c.toNat

end Quote

def quote (s : String) : String :=
  String.ofList ('"' :: s.toList.flatMap Quote.escape ++ ['"'])

end TreeScript.Text
