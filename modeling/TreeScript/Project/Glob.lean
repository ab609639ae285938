/-!
Patterns for file names. A star stands for any text without a slash, a question mark for a character
other than a slash, and brackets hold the characters to choose from, or after `^` those to avoid.
-/

set_option autoImplicit false

namespace TreeScript.Project

namespace Glob

/-- A part of a pattern that stands for one character. -/
inductive Item where
  | char (c : Char)
  | any
  | oneOf (negated : Bool) (ranges : List (Char × Char))
deriving DecidableEq, Repr

def Item.accepts (c : Char) : Item → Bool
  | char d => c == d
  | any => c != '/'
  | oneOf negated ranges => ranges.any (fun (lo, hi) => lo ≤ c && c ≤ hi) != negated

/-- Items that stand for consecutive characters; after a star they can begin further to the right. -/
structure Segment where
  starred : Bool
  items : List Item
deriving DecidableEq, Repr

end Glob

/-- A pattern is a list of segments. -/
abbrev Glob := List Glob.Segment

namespace Glob

/-! ### Reading -/

/-- A character inside brackets. Something always follows it. -/
def bracketChar? : List Char → Option (Char × List Char)
  | '\\' :: c :: d :: cs => some (c, d :: cs)
  | ['\\', _] => none
  | c :: d :: cs => if c == '-' || c == ']' then none else some (c, d :: cs)
  | _ => none

/-- The ranges up to the closing bracket, and what follows it. -/
def ranges? : Nat → List Char → List (Char × Char) → Option (List (Char × Char) × List Char)
  | 0, _, _ => none
  | fuel + 1, cs, found =>
    if cs.head? == some ']' && !found.isEmpty then some (found.reverse, cs.tail)
    else do
      let (lo, cs) ← bracketChar? cs
      match cs with
      | '-' :: rest => do
        let (hi, cs) ← bracketChar? rest
        ranges? fuel cs ((lo, hi) :: found)
      | _ => ranges? fuel cs ((lo, lo) :: found)

/-- Puts an item before the first segment. -/
def consItem (item : Item) : Glob → Glob
  | ⟨false, items⟩ :: segments => ⟨false, item :: items⟩ :: segments
  | segments => ⟨false, [item]⟩ :: segments

/-- Puts a star before the first segment. -/
def consStar : Glob → Glob
  | ⟨_, items⟩ :: segments => ⟨true, items⟩ :: segments
  | [] => [⟨true, []⟩]

def parseFrom? : Nat → List Char → Option Glob
  | 0, _ => none
  | _ + 1, [] => some []
  | fuel + 1, c :: cs =>
    match c, cs with
    | '*', _ => (parseFrom? fuel cs).map consStar
    | '?', _ => (parseFrom? fuel cs).map (consItem .any)
    | '[', _ => do
      let negated := cs.head? == some '^'
      let (ranges, rest) ← ranges? cs.length (if negated then cs.tail else cs) []
      (parseFrom? fuel rest).map (consItem (.oneOf negated ranges))
    | '\\', d :: rest => (parseFrom? fuel rest).map (consItem (.char d))
    | '\\', [] => none
    | _, _ => (parseFrom? fuel cs).map (consItem (.char c))

/-- The pattern a text describes, if it is well formed. -/
def parse? (text : String) : Option Glob := parseFrom? (text.toList.length + 1) text.toList

/-! ### Matching -/

/-- What follows the items at the beginning of a name. -/
def matchItems : List Item → List Char → Option (List Char)
  | [], name => some name
  | _ :: _, [] => none
  | item :: items, c :: name => if item.accepts c then matchItems items name else none

/-- The ends of a name that a star before them can leave over. -/
def afterStar : List Char → List (List Char)
  | [] => [[]]
  | c :: name => (c :: name) :: if c == '/' then [] else afterStar name

/-- Every segment is taken at the first place where it fits; the last one has to reach the end. -/
def matchSegments : Glob → List Char → Bool
  | [], name => name.isEmpty
  | segment :: segments, name =>
    if segment.starred && segment.items.isEmpty then !name.contains '/'
    else
      let places := if segment.starred then afterStar name else [name]
      let rests := places.filterMap (matchItems segment.items)
      match rests.find? fun rest => !segments.isEmpty || rest.isEmpty with
      | some rest => matchSegments segments rest
      | none => false

/-- Whether a name fits one of some patterns. Patterns that are not well formed fit none. -/
def fitsAny (patterns : List String) (name : String) : Bool :=
  patterns.any fun pattern => (parse? pattern).any (matchSegments · name.toList)

end Glob

end TreeScript.Project
