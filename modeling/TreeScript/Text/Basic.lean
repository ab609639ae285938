import TreeScript.Text.Case

/-!
Plain text operations: white space, words, search and replacement, and the measures in bytes that
layout depends on. Text is a sequence of characters; every function here works on that sequence.
-/

set_option autoImplicit false

namespace TreeScript.Text

/-- White space: the ASCII blanks, the next-line sign and the Unicode spaces. -/
def isSpace (c : Char) : Bool :=
  let code := c.toNat
  (9 ≤ code && code ≤ 13) || code == 0x20 || code == 0x85 || code == 0xA0 || code == 0x1680 ||
    (0x2000 ≤ code && code ≤ 0x200A) || code == 0x2028 || code == 0x2029 || code == 0x202F ||
    code == 0x205F || code == 0x3000

/-- Cuts a sequence at the characters that satisfy a test, which are dropped; the pieces may be
empty. -/
def splitBy (test : Char → Bool) : List Char → List (List Char)
  | [] => [[]]
  | c :: cs =>
    match splitBy test cs with
    | [] => [[c]]
    | piece :: pieces => if test c then [] :: piece :: pieces else (c :: piece) :: pieces

/-- The maximal runs of characters that are not white space. -/
def words (s : String) : List String :=
  ((splitBy isSpace s.toList).filter (· ≠ [])).map String.ofList

/-- The words of a text with one blank between them. -/
def collapse (s : String) : String := " ".intercalate (words s)

def trimBy (test : Char → Bool) (s : String) : String :=
  String.ofList (((s.toList.dropWhile test).reverse.dropWhile test).reverse)

def trim (s : String) : String := trimBy isSpace s

def hasPrefix (whole part : String) : Bool := part.toList.isPrefixOf whole.toList

def hasSuffix (whole part : String) : Bool := part.toList.reverse.isPrefixOf whole.toList.reverse

/-- The text without a given ending, or unchanged if it does not end so. -/
def dropSuffix (whole part : String) : String :=
  if hasSuffix whole part then String.ofList (whole.toList.take (whole.length - part.length))
  else whole

/-- The text without a given beginning, or unchanged if it does not begin so. -/
def dropPrefix (whole part : String) : String :=
  if hasPrefix whole part then String.ofList (whole.toList.drop part.length) else whole

def occursIn (part : List Char) : List Char → Bool
  | [] => part.isEmpty
  | c :: cs => part.isPrefixOf (c :: cs) || occursIn part cs

def contains (whole part : String) : Bool := occursIn part.toList whole.toList

def replaceFirstIn (old new : List Char) : List Char → List Char
  | [] => if old.isEmpty then new else []
  | c :: cs =>
    if old.isPrefixOf (c :: cs) then new ++ (c :: cs).drop old.length
    else c :: replaceFirstIn old new cs

/-- Replaces the first occurrence. The empty text occurs at the very beginning. -/
def replaceFirst (s old new : String) : String :=
  String.ofList (replaceFirstIn old.toList new.toList s.toList)

/-- Pads with blanks on the right, counting characters. -/
def padRight (width : Nat) (s : String) : String :=
  s ++ String.ofList (List.replicate (width - s.length) ' ')

/-- The longest beginning of at most `limit` bytes. A character cut in two leaves one replacement
sign for each of its bytes that were kept. -/
def takeBytes (limit : Nat) : List Char → List Char
  | [] => []
  | c :: cs =>
    if c.utf8Size ≤ limit then c :: takeBytes (limit - c.utf8Size) cs
    else List.replicate limit '\ufffd'

/-- Shortens a text of more than `limit` bytes and marks the cut with three dots. -/
def ellipsis (limit : Nat) (s : String) : String :=
  if s.utf8ByteSize ≤ limit then s else String.ofList (takeBytes limit s.toList) ++ "..."

/-- Text order: by code point, position by position. -/
def compareText (s t : String) : Ordering := compare s t

/-- Sorts names in text order. -/
def sortNames (names : List String) : List String :=
  names.mergeSort fun a b => compareText a b != .gt

def repeatText (count : Nat) (s : String) : String :=
  String.join (List.replicate count s)

end TreeScript.Text
