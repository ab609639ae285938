import TreeScript.Json.Basic

/-!
Reading JSON text. The reader is strict about the grammar and takes the first value of a text,
whatever follows it. A surrogate escape without its partner reads as the replacement character, and
nesting is limited.
-/

set_option autoImplicit false

namespace TreeScript.Json.Reader

def isBlank (c : Char) : Bool := c == ' ' || c == '\t' || c == '\n' || c == '\r'

def skipBlank (cs : List Char) : List Char := cs.dropWhile isBlank

def hexValue? (c : Char) : Option Nat :=
  if '0' ≤ c ∧ c ≤ '9' then some (c.toNat - '0'.toNat)
  else if 'a' ≤ c ∧ c ≤ 'f' then some (c.toNat - 'a'.toNat + 10)
  else if 'A' ≤ c ∧ c ≤ 'F' then some (c.toNat - 'A'.toNat + 10)
  else none

/-- Four hexadecimal digits. -/
def unit? : List Char → Option (Nat × List Char)
  | a :: b :: c :: d :: rest => do
    let a ← hexValue? a
    let b ← hexValue? b
    let c ← hexValue? c
    let d ← hexValue? d
    some (((a * 16 + b) * 16 + c) * 16 + d, rest)
  | _ => none

def isHighSurrogate (n : Nat) : Bool := 0xD800 ≤ n && n < 0xDC00

def isLowSurrogate (n : Nat) : Bool := 0xDC00 ≤ n && n < 0xE000

/-- The low surrogate that completes a pair, if it is written next. -/
def lowSurrogate? : List Char → Option (Nat × List Char)
  | '\\' :: 'u' :: rest => do
    let (low, rest) ← unit? rest
    if isLowSurrogate low then some (low, rest) else none
  | _ => none

/-- The character of a `\u` escape whose first unit has been read. -/
def escapedChar (unit : Nat) (rest : List Char) : Char × List Char :=
  if isHighSurrogate unit then
    match lowSurrogate? rest with
    | some (low, rest) => (Char.ofNat (0x10000 + (unit - 0xD800) * 0x400 + (low - 0xDC00)), rest)
    | none => ('\ufffd', rest)
  else if isLowSurrogate unit then ('\ufffd', rest)
  else (Char.ofNat unit, rest)

def shortEscape? : Char → Option Char
  | '"' => some '"'
  | '\\' => some '\\'
  | '/' => some '/'
  | 'b' => some '\x08'
  | 'f' => some '\x0c'
  | 'n' => some '\n'
  | 'r' => some '\r'
  | 't' => some '\t'
  | _ => none

/-- The rest of a string literal, characters read so far in reverse. -/
def stringTail : Nat → List Char → List Char → Option (String × List Char)
  | 0, _, _ => none
  | _, _, [] => none
  | _ + 1, read, '"' :: rest => some (String.ofList read.reverse, rest)
  | fuel + 1, read, '\\' :: 'u' :: rest => do
    let (unit, rest) ← unit? rest
    let (c, rest) := escapedChar unit rest
    stringTail fuel (c :: read) rest
  | fuel + 1, read, '\\' :: c :: rest => do
    let c ← shortEscape? c
    stringTail fuel (c :: read) rest
  | fuel + 1, read, c :: rest =>
    if c.toNat < 0x20 || c == '\\' then none else stringTail fuel (c :: read) rest

section

variable (fuel : Nat) (read rest : List Char)

theorem stringTail_quote :
    stringTail (fuel + 1) read ('"' :: rest) = some (String.ofList read.reverse, rest) := rfl

theorem stringTail_unit {cs : List Char} {unit : Nat} (h : unit? cs = some (unit, rest)) :
    stringTail (fuel + 1) read ('\\' :: 'u' :: cs) =
      stringTail fuel ((escapedChar unit rest).1 :: read) (escapedChar unit rest).2 := by
  change (unit? cs).bind _ = _
  rw [h]
  rfl

end

def digits (cs : List Char) : List Char × List Char := (cs.takeWhile Char.isDigit, cs.dropWhile Char.isDigit)

/-- The digits before the point: a single zero, or digits that do not start with one. -/
def wholeDigits : List Char → Option (List Char × List Char)
  | '0' :: rest => some (['0'], rest)
  | cs => match digits cs with
    | ([], _) => none
    | (ds, rest) => some (ds, rest)

def fractionDigits : List Char → Option (List Char × List Char)
  | '.' :: cs => match digits cs with
    | ([], _) => none
    | (ds, rest) => some ('.' :: ds, rest)
  | cs => some ([], cs)

def exponentSign : List Char → List Char × List Char
  | '+' :: cs => (['+'], cs)
  | '-' :: cs => (['-'], cs)
  | cs => ([], cs)

def exponentDigits : List Char → Option (List Char × List Char)
  | c :: cs =>
    if c == 'e' || c == 'E' then
      let (sign, cs) := exponentSign cs
      match digits cs with
      | ([], _) => none
      | (ds, rest) => some (c :: sign ++ ds, rest)
    else some ([], c :: cs)
  | [] => some ([], [])

def number (cs : List Char) : Option (Json × List Char) := do
  let (sign, cs) := match cs with
    | '-' :: rest => (['-'], rest)
    | _ => ([], cs)
  let (whole, cs) ← wholeDigits cs
  let (fraction, cs) ← fractionDigits cs
  let (exponent, cs) ← exponentDigits cs
  some (.number (String.ofList (sign ++ whole ++ fraction ++ exponent)), cs)

mutual

/-- One value. Arrays and objects may nest `depth` levels deep. -/
def value : Nat → Nat → List Char → Option (Json × List Char)
  | 0, _, _ => none
  | fuel + 1, depth, cs =>
    match skipBlank cs with
    | '"' :: rest => (stringTail (rest.length + 1) [] rest).map fun (s, rest) => (.string s, rest)
    | 't' :: 'r' :: 'u' :: 'e' :: rest => some (.bool true, rest)
    | 'f' :: 'a' :: 'l' :: 's' :: 'e' :: rest => some (.bool false, rest)
    | 'n' :: 'u' :: 'l' :: 'l' :: rest => some (.null, rest)
    | '[' :: rest =>
      if depth = 0 then none
      else match skipBlank rest with
        | ']' :: rest => some (.array [], rest)
        | _ => elements fuel (depth - 1) [] rest
    | '\x7b' :: rest =>
      if depth = 0 then none
      else match skipBlank rest with
        | '\x7d' :: rest => some (.object [], rest)
        | _ => members fuel (depth - 1) [] rest
    | cs => number cs

/-- The elements of an array from the next one on, those read so far in reverse. -/
def elements : Nat → Nat → List Json → List Char → Option (Json × List Char)
  | 0, _, _, _ => none
  | fuel + 1, depth, read, cs =>
    match value fuel depth cs with
    | none => none
    | some (item, rest) =>
      match skipBlank rest with
      | ',' :: rest => elements fuel depth (item :: read) rest
      | ']' :: rest => some (.array (item :: read).reverse, rest)
      | _ => none

/-- The members of an object from the next one on, those read so far in reverse. -/
def members : Nat → Nat → List (String × Json) → List Char → Option (Json × List Char)
  | 0, _, _, _ => none
  | fuel + 1, depth, read, cs =>
    match skipBlank cs with
    | '"' :: rest =>
      match stringTail (rest.length + 1) [] rest with
      | none => none
      | some (name, rest) =>
        match skipBlank rest with
        | ':' :: rest =>
          match value fuel depth rest with
          | none => none
          | some (item, rest) =>
            match skipBlank rest with
            | ',' :: rest => members fuel depth ((name, item) :: read) rest
            | '\x7d' :: rest => some (.object ((name, item) :: read).reverse, rest)
            | _ => none
        | _ => none
    | _ => none

end

section

variable (fuel depth : Nat) (rest : List Char)

theorem value_string : value (fuel + 1) depth ('"' :: rest) =
    (stringTail (rest.length + 1) [] rest).map fun (s, rest) => (.string s, rest) := rfl

theorem value_array : value (fuel + 1) depth ('[' :: rest) =
    if depth = 0 then none
    else match skipBlank rest with
      | ']' :: rest => some (.array [], rest)
      | _ => elements fuel (depth - 1) [] rest := rfl

theorem value_object : value (fuel + 1) depth ('\x7b' :: rest) =
    if depth = 0 then none
    else match skipBlank rest with
      | '\x7d' :: rest => some (.object [], rest)
      | _ => members fuel (depth - 1) [] rest := rfl

end

/-- How deep arrays and objects may nest. -/
def maxDepth : Nat := 10000

end Reader

/-- The first value of a text. -/
def parsePrefix? (text : String) : Option Json :=
  let cs := text.toList
  (Reader.value (2 * cs.length + 2) Reader.maxDepth cs).map Prod.fst

/-! ### Nesting

How deep JSON may nest. An object is checked as soon as its members have been written: it is refused if
arrays and objects nest in it deeper than a reader takes them. Arrays are not checked on their own, so
what is written may nest deeper in the end. -/

mutual

/-- The first bracket that opens more than so many levels. -/
def excess? : Nat → Json → Option Char
  | 0, .array _ => some '['
  | 0, .object _ => some '\x7b'
  | limit + 1, .array items => excessOfItems? limit items
  | limit + 1, .object members => excessOfMembers? limit members
  | _, _ => none

def excessOfItems? : Nat → List Json → Option Char
  | _, [] => none
  | limit, item :: items => (excess? limit item).or (excessOfItems? limit items)

def excessOfMembers? : Nat → List (String × Json) → Option Char
  | _, [] => none
  | limit, (_, item) :: members => (excess? limit item).or (excessOfMembers? limit members)

end

mutual

/-- The first object that is refused: how many objects there are from the outermost one to it, and the
bracket that is too much. -/
def refusal? : Json → Option (Nat × Char)
  | .array items => refusalOfItems? items
  | .object members =>
    ((refusalOfMembers? members).or
      ((excess? Reader.maxDepth (.object members)).map fun bracket => (0, bracket))).map
      fun (objects, bracket) => (objects + 1, bracket)
  | _ => none

def refusalOfItems? : List Json → Option (Nat × Char)
  | [] => none
  | item :: items => (refusal? item).or (refusalOfItems? items)

def refusalOfMembers? : List (String × Json) → Option (Nat × Char)
  | [] => none
  | (_, item) :: members => (refusal? item).or (refusalOfMembers? members)

end

end TreeScript.Json
