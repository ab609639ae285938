import TreeScript.Text.Case
import TreeScript.Text.Category
import TreeScript.Text.Script

/-!
Regular expressions as trees, the sets of characters they use, and the reasons why a text is not a
regular expression.
-/

set_option autoImplicit false

namespace TreeScript.Pattern

/-- A set of characters. Character codes are numbers, so that a set may mention codes that no text
contains. -/
inductive CharSet where
  | spans (table : List Text.Span)
  | all
  /-- The characters that differ only in case from a member. -/
  | folded (set : CharSet)
  | union (left right : CharSet)
  | complement (set : CharSet)
deriving Inhabited

namespace CharSet

def single (code : Nat) : CharSet := spans [⟨code, code, 1⟩]

def none : CharSet := spans []

def has : CharSet → Char → Bool
  | spans table, c => Text.Span.covers table c
  | all, _ => true
  | folded set, c => (Text.caseClass c).any (set.has ·)
  | union left right, c => left.has c || right.has c
  | complement set, c => !set.has c

def digit : CharSet := spans [⟨0x30, 0x39, 1⟩]

/-- Blanks as patterns know them: no vertical tab and nothing beyond ASCII. -/
def blank : CharSet := spans [⟨0x09, 0x0A, 1⟩, ⟨0x0C, 0x0D, 1⟩, ⟨0x20, 0x20, 1⟩]

def word : CharSet := spans [⟨0x30, 0x39, 1⟩, ⟨0x41, 0x5A, 1⟩, ⟨0x5F, 0x5F, 1⟩, ⟨0x61, 0x7A, 1⟩]

/-- The classes that are named inside brackets. -/
def named? : String → Option CharSet
  | "alnum" => some (spans [⟨0x30, 0x39, 1⟩, ⟨0x41, 0x5A, 1⟩, ⟨0x61, 0x7A, 1⟩])
  | "alpha" => some (spans [⟨0x41, 0x5A, 1⟩, ⟨0x61, 0x7A, 1⟩])
  | "ascii" => some (spans [⟨0x00, 0x7F, 1⟩])
  | "blank" => some (spans [⟨0x09, 0x09, 1⟩, ⟨0x20, 0x20, 1⟩])
  | "cntrl" => some (spans [⟨0x00, 0x1F, 1⟩, ⟨0x7F, 0x7F, 1⟩])
  | "digit" => some digit
  | "graph" => some (spans [⟨0x21, 0x7E, 1⟩])
  | "lower" => some (spans [⟨0x61, 0x7A, 1⟩])
  | "print" => some (spans [⟨0x20, 0x7E, 1⟩])
  | "punct" => some (spans [⟨0x21, 0x2F, 1⟩, ⟨0x3A, 0x40, 1⟩, ⟨0x5B, 0x60, 1⟩, ⟨0x7B, 0x7E, 1⟩])
  | "space" => some (spans [⟨0x09, 0x0D, 1⟩, ⟨0x20, 0x20, 1⟩])
  | "upper" => some (spans [⟨0x41, 0x5A, 1⟩])
  | "word" => some word
  | "xdigit" => some (spans [⟨0x30, 0x39, 1⟩, ⟨0x41, 0x46, 1⟩, ⟨0x61, 0x66, 1⟩])
  | _ => Option.none

/-- The categories and scripts that can be named with `\p`. -/
def property? (name : String) : Option CharSet :=
  if name = "Any" then some all
  else ((Text.Category.spans? name).orElse fun _ => Text.Script.spans? name).map spans

end CharSet

/-- Conditions on a place between two characters. -/
inductive Anchor where
  | beginText
  | endText
  | beginLine
  | endLine
  | wordBoundary
  | noWordBoundary
deriving DecidableEq, Inhabited

inductive Expr where
  | empty
  | char (set : CharSet)
  | anchor (kind : Anchor)
  /-- A group whose match is remembered under its number. -/
  | capture (number : Nat) (body : Expr)
  | star (body : Expr) (greedy : Bool)
  | plus (body : Expr) (greedy : Bool)
  | optional (body : Expr) (greedy : Bool)
  /-- Between `least` and `most` times; without `most`, any number from `least` on. -/
  | repeat (body : Expr) (least : Nat) (most : Option Nat) (greedy : Bool)
  | concat (left right : Expr)
  | alternate (left right : Expr)
deriving Inhabited

/-- Why a text is not a regular expression; each cause carries the part of the text at fault. -/
inductive SyntaxError where
  | charRange (text : String)
  | escape (text : String)
  | namedCapture (text : String)
  | groupOption (text : String)
  | repeatOperator (text : String)
  | repeatCount (text : String)
  | missingBracket (text : String)
  | missingParen (text : String)
  | missingArgument (text : String)
  | trailingBackslash
  | unexpectedParen (text : String)
deriving DecidableEq

def SyntaxError.parts : SyntaxError → String × String
  | charRange text => ("invalid character class range", text)
  | escape text => ("invalid escape sequence", text)
  | namedCapture text => ("invalid named capture", text)
  | groupOption text => ("invalid or unsupported Perl syntax", text)
  | repeatOperator text => ("invalid nested repetition operator", text)
  | repeatCount text => ("invalid repeat count", text)
  | missingBracket text => ("missing closing ]", text)
  | missingParen text => ("missing closing )", text)
  | missingArgument text => ("missing argument to repetition operator", text)
  | trailingBackslash => ("trailing backslash at end of expression", "")
  | unexpectedParen text => ("unexpected )", text)

def SyntaxError.message (error : SyntaxError) : String :=
  "error parsing regexp: " ++ error.parts.1 ++ ": `" ++ error.parts.2 ++ "`"

end TreeScript.Pattern
