import TreeScript.Pattern.Program

/-!
Searching a text for all matches: listing them, cutting the text at them and replacing them. An
empty match directly behind another match is passed over.
-/

set_option autoImplicit false

namespace TreeScript.Pattern.Program

def slice (text : Array Char) (start stop : Nat) : List Char := (text.extract start stop).toList

/-- The matches from `place` on; `previous` is where the match before ended. -/
def matchesFrom (program : Program) (text : Array Char) :
    Nat → Nat → Option Nat → List (Nat × Nat)
  | 0, _, _ => []
  | fuel + 1, place, previous =>
    if text.size < place then []
    else match find program text place with
      | none => []
      | some slots =>
        let (start, stop) := span slots
        if stop = place then
          let rest := matchesFrom program text fuel (place + 1) (some stop)
          if some start = previous then rest else (start, stop) :: rest
        else (start, stop) :: matchesFrom program text fuel stop (some stop)

def allMatches (program : Program) (text : Array Char) : List (Nat × Nat) :=
  matchesFrom program text (text.size + 2) 0 none

def findAll (program : Program) (s : String) : List String :=
  let text := s.toList.toArray
  (allMatches program text).map fun (start, stop) => String.ofList (slice text start stop)

/-- The pieces between matches, given where the current piece starts and the last match began. A
match that ends at the very beginning makes no piece. -/
def pieces (text : Array Char) (start last : Nat) : List (Nat × Nat) → List String
  | [] => if last = text.size then [] else [String.ofList (slice text start text.size)]
  | (matchStart, matchStop) :: rest =>
    let others := pieces text matchStop matchStart rest
    if matchStop = 0 then others
    else String.ofList (slice text start matchStart) :: others

def split (program : Program) (s : String) : List String :=
  if program.source ≠ "" ∧ s = "" then [""]
  else
    let text := s.toList.toArray
    pieces text 0 0 (allMatches program text)

/-- A reference in a replacement, by number or by name. -/
inductive Reference where
  | number (n : Nat)
  | name (text : String)

def isReferenceChar (c : Char) : Bool :=
  c == '_' || Text.Category.isLetter c || Text.Span.covers Text.Category.decimalDigit c

def Reference.ofName (name : List Char) : Reference :=
  let plain := name.all (fun c => '0' ≤ c && c ≤ '9') && name.length ≤ 9 &&
    !(name.head? == some '0' && name.length > 1)
  if plain then .number (name.foldl (fun n c => n * 10 + (c.toNat - '0'.toNat)) 0)
  else .name (String.ofList name)

/-- Reads a reference behind a dollar sign: a name, or a name in braces. -/
def Reference.read? (cs : List Char) : Option (Reference × List Char) :=
  let braced := cs.head? == some '\x7b'
  let inner := if braced then cs.drop 1 else cs
  let name := inner.takeWhile isReferenceChar
  let rest := inner.drop name.length
  if name.isEmpty then none
  else if braced then
    match rest with
    | '\x7d' :: rest => some (.ofName name, rest)
    | _ => none
  else some (.ofName name, rest)

def captured (text : Array Char) (slots : Slots) (n : Nat) : Option (List Char) :=
  match slots[2 * n]?.join, slots[2 * n + 1]?.join with
  | some start, some stop => some (slice text start stop)
  | _, _ => none

/-- The text a reference stands for: nothing if its group took no part in the match. -/
def lookUp (program : Program) (text : Array Char) (slots : Slots) : Reference → List Char
  | .number n => (captured text slots n).getD []
  | .name name =>
    let named := (("" :: program.names).zipIdx.filter fun entry => entry.1 = name).map Prod.snd
    (named.findSome? (captured text slots ·)).getD []

/-- Fills in a replacement. Two dollar signs stand for one, and one that starts no reference for
itself. -/
def fill (program : Program) (text : Array Char) (slots : Slots) : Nat → List Char → List Char
  | 0, cs => cs
  | _, [] => []
  | fuel + 1, '$' :: '$' :: cs => '$' :: fill program text slots fuel cs
  | fuel + 1, '$' :: cs =>
    match Reference.read? cs with
    | some (reference, rest) =>
      lookUp program text slots reference ++ fill program text slots fuel rest
    | none => '$' :: fill program text slots fuel cs
  | fuel + 1, c :: cs => c :: fill program text slots fuel cs

/-- Replaces the matches from `place` on; the text up to `copied` has been dealt with. -/
def replaceFrom (program : Program) (text : Array Char) (replacement : List Char) :
    Nat → Nat → Nat → List Char
  | 0, _, copied => slice text copied text.size
  | fuel + 1, place, copied =>
    if text.size < place then slice text copied text.size
    else match find program text place with
      | none => slice text copied text.size
      | some slots =>
        let (start, stop) := span slots
        let filled :=
          if copied < stop ∨ start = 0 then fill program text slots (replacement.length + 1) replacement
          else []
        slice text copied start ++ filled ++
          replaceFrom program text replacement fuel (max (place + 1) stop) stop

def replaceAll (program : Program) (s replacement : String) : String :=
  let text := s.toList.toArray
  String.ofList (replaceFrom program text replacement.toList (text.size + 2) 0 0)

end TreeScript.Pattern.Program
