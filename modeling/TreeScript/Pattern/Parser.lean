import TreeScript.Pattern.Expr

/-!
Reading regular expressions. The reader keeps the open groups on a stack; each holds the
alternatives it has completed and the items of the one it is in the middle of. A repetition applies
to the last item of the innermost group.
-/

set_option autoImplicit false

namespace TreeScript.Pattern

/-- The options that can be switched inside a pattern. -/
structure Flags where
  ignoreCase : Bool := false
  multiline : Bool := false
  dotAll : Bool := false
  swapGreed : Bool := false

/-- An open group. `capture` is its number, if its match is remembered, and `restore` the options
to go back to when it closes. -/
structure Group where
  capture : Option Nat
  restore : Flags
  /-- Completed alternatives, last one first. -/
  alternatives : List Expr := []
  /-- Items of the current alternative, last one first. -/
  items : List Expr := []

structure ParseState where
  flags : Flags := {}
  /-- The outermost group, then the open ones from the inside out. -/
  outer : Group := ⟨none, {}, [], []⟩
  opened : List Group := []
  captures : Nat := 0
  /-- The names of the captures, in order; unnamed ones have the empty name. -/
  names : List String := []

namespace Group

def concatenation (items : List Expr) : Expr :=
  match items.reverse with
  | [] => .empty
  | first :: rest => rest.foldl .concat first

/-- The expression of a closed group. -/
def close (group : Group) : Expr :=
  match (concatenation group.items :: group.alternatives).reverse with
  | [] => .empty
  | first :: rest =>
    match rest.reverse with
    | [] => first
    | last :: before => .alternate first (before.foldl (fun acc e => .alternate e acc) last)

end Group

namespace ParseState

def modifyTop (state : ParseState) (change : Group → Group) : ParseState :=
  match state.opened with
  | [] => { state with outer := change state.outer }
  | group :: groups => { state with opened := change group :: groups }

def top (state : ParseState) : Group := state.opened.headD state.outer

def push (state : ParseState) (e : Expr) : ParseState :=
  state.modifyTop fun group => { group with items := e :: group.items }

def withCase (state : ParseState) (set : CharSet) : CharSet :=
  if state.flags.ignoreCase then .folded set else set

def literal (state : ParseState) (code : Nat) : ParseState :=
  state.push (.char (state.withCase (.single code)))

def bar (state : ParseState) : ParseState :=
  state.modifyTop fun group =>
    { group with
      alternatives := Group.concatenation group.items :: group.alternatives
      items := [] }

def openCapture (state : ParseState) (name : String) : ParseState :=
  let number := state.captures + 1
  { state with
    captures := number
    names := state.names ++ [name]
    opened := ⟨some number, state.flags, [], []⟩ :: state.opened }

end ParseState

namespace Parser

/-- The beginning of `cs` in front of its ending `rest`. -/
def upTo (cs rest : List Char) : String := String.ofList (cs.take (cs.length - rest.length))

def hexValue (c : Char) : Option Nat :=
  if c.isDigit then some (c.toNat - '0'.toNat)
  else if 'a' ≤ c ∧ c ≤ 'f' then some (c.toNat - 'a'.toNat + 10)
  else if 'A' ≤ c ∧ c ≤ 'F' then some (c.toNat - 'A'.toNat + 10)
  else none

def isOctal (c : Char) : Bool := '0' ≤ c && c ≤ '7'

def octalTail (value : Nat) : Nat → List Char → Nat × List Char
  | count + 1, c :: cs =>
    if isOctal c then octalTail (value * 8 + (c.toNat - '0'.toNat)) count cs else (value, c :: cs)
  | _, cs => (value, cs)

/-- Hexadecimal digits up to a closing brace. The text at fault ends behind the first character
that does not belong. -/
def bracedHex (value count : Nat) : List Char → Except (List Char) (Nat × List Char)
  | [] => .error []
  | '\x7d' :: cs => if count = 0 then .error cs else .ok (value, cs)
  | c :: cs =>
    match hexValue c with
    | none => .error cs
    | some digit =>
      if 0x10FFFF < value * 16 + digit then .error cs else bracedHex (value * 16 + digit) (count + 1) cs

/-- An escaped single character; `cs` starts with the backslash. -/
def escape (cs : List Char) : Except SyntaxError (Nat × List Char) :=
  let bad (rest : List Char) : Except SyntaxError (Nat × List Char) := .error (.escape (upTo cs rest))
  match cs.drop 1 with
  | [] => .error .trailingBackslash
  | c :: rest =>
    match c with
    | 'a' => .ok (7, rest)
    | 'f' => .ok (12, rest)
    | 'n' => .ok (10, rest)
    | 'r' => .ok (13, rest)
    | 't' => .ok (9, rest)
    | 'v' => .ok (11, rest)
    | 'x' =>
      match rest with
      | [] => bad rest
      | '\x7b' :: rest =>
        match bracedHex 0 0 rest with
        | .ok result => .ok result
        | .error rest => bad rest
      | a :: rest =>
        match hexValue a, rest with
        | some high, b :: rest =>
          match hexValue b with
          | some low => .ok (high * 16 + low, rest)
          | none => bad rest
        | _, rest => bad (rest.drop 1)
    | '0' => .ok (octalTail 0 2 rest)
    | _ =>
      if isOctal c then
        if rest.head?.any isOctal then .ok (octalTail (c.toNat - '0'.toNat) 2 rest) else bad rest
      else if c.toNat < 0x80 && !c.isAlphanum then .ok (c.toNat, rest)
      else bad rest

/-- A class such as `\d`; `cs` starts with the backslash. -/
def shorthand? (flags : Flags) : List Char → Option (CharSet × List Char)
  | '\\' :: c :: rest =>
    let fold (set : CharSet) := if flags.ignoreCase then CharSet.folded set else set
    match c with
    | 'd' => some (fold .digit, rest)
    | 's' => some (fold .blank, rest)
    | 'w' => some (fold .word, rest)
    | 'D' => some (.complement (fold .digit), rest)
    | 'S' => some (.complement (fold .blank), rest)
    | 'W' => some (.complement (fold .word), rest)
    | _ => none
  | _ => none

/-- A class such as `\pL` or `\P{Greek}`, nothing if there is none here. -/
def property (flags : Flags) (cs : List Char) :
    Except SyntaxError (Option (CharSet × List Char)) :=
  match cs with
  | '\\' :: p :: rest =>
    if p ≠ 'p' && p ≠ 'P' then .ok none
    else
      let found (name : List Char) (rest : List Char) :
          Except SyntaxError (Option (CharSet × List Char)) :=
        let caret := name.head? == some '^'
        let name := if caret then name.drop 1 else name
        match CharSet.property? (String.ofList name) with
        | none => .error (.charRange (upTo cs rest))
        | some set =>
          let set := if flags.ignoreCase then .folded set else set
          .ok (some (if (p == 'P') == caret then set else .complement set, rest))
      match rest with
      | '\x7b' :: inner =>
        let name := inner.takeWhile (· ≠ '\x7d')
        if name.length = inner.length then .error (.charRange (String.ofList cs))
        else found name (inner.drop (name.length + 1))
      | _ => found (rest.take 1) (rest.drop 1)
  | _ => .ok none

/-- A class such as `[:alpha:]` inside brackets, nothing if there is none here. -/
def namedClass (flags : Flags) (cs : List Char) :
    Except SyntaxError (Option (CharSet × List Char)) :=
  match cs with
  | '[' :: ':' :: inner =>
    let rec ending : List Char → Option (List Char × List Char)
      | ':' :: ']' :: rest => some ([], rest)
      | c :: rest => (ending rest).map fun (name, rest) => (c :: name, rest)
      | [] => none
    match ending inner with
    | none => .ok none
    | some (name, rest) =>
      let caret := name.head? == some '^'
      let plain := if caret then name.drop 1 else name
      match CharSet.named? (String.ofList plain) with
      | none => .error (.charRange (upTo cs rest))
      | some set =>
        let set := if flags.ignoreCase then .folded set else set
        .ok (some (if caret then .complement set else set, rest))
  | _ => .ok none

/-- One character of a bracketed class; `whole` is the class from its bracket on. -/
def classChar (whole : List Char) : List Char → Except SyntaxError (Nat × List Char)
  | [] => .error (.missingBracket (String.ofList whole))
  | '\\' :: rest => escape ('\\' :: rest)
  | c :: rest => .ok (c.toNat, rest)

/-- A single character or a range of them. -/
def classRange (flags : Flags) (whole cs : List Char) : Except SyntaxError (CharSet × List Char) := do
  let (lo, rest) ← classChar whole cs
  let fold (set : CharSet) := if flags.ignoreCase then CharSet.folded set else set
  match rest with
  | '-' :: next :: rest =>
    if next = ']' then return (fold (.single lo), '-' :: next :: rest)
    else
      let (hi, rest) ← classChar whole (next :: rest)
      if hi < lo then throw (.charRange (upTo cs rest))
      return (fold (.spans [⟨lo, hi, 1⟩]), rest)
  | rest => return (fold (.single lo), rest)

/-- The members of a bracketed class up to its end. A closing bracket that stands first is a
member. -/
def classItems (flags : Flags) (whole : List Char) :
    Nat → Bool → CharSet → List Char → Except SyntaxError (CharSet × List Char)
  | 0, _, set, cs => .ok (set, cs)
  | fuel + 1, isFirst, set, cs => do
    match cs, isFirst with
    | ']' :: rest, false => return (set, rest)
    | _, _ =>
      match ← namedClass flags cs with
      | some (members, rest) => classItems flags whole fuel false (.union set members) rest
      | none =>
        match ← property flags cs with
        | some (members, rest) => classItems flags whole fuel false (.union set members) rest
        | none =>
          match shorthand? flags cs with
          | some (members, rest) => classItems flags whole fuel false (.union set members) rest
          | none =>
            let (members, rest) ← classRange flags whole cs
            classItems flags whole fuel false (.union set members) rest

/-- A bracketed class; `cs` starts with its bracket. -/
def bracketed (flags : Flags) (cs : List Char) : Except SyntaxError (CharSet × List Char) := do
  let inner := cs.drop 1
  let negated := inner.head? == some '^'
  let inner := if negated then inner.drop 1 else inner
  let (set, rest) ← classItems flags cs (inner.length + 1) true .none inner
  return (if negated then .complement set else set, rest)

/-- A repeat count without leading zeros; numbers from a hundred million on all count as too big. -/
def count? (cs : List Char) : Option (Nat × List Char) :=
  let digits := cs.takeWhile Char.isDigit
  match digits with
  | [] => none
  | '0' :: _ :: _ => none
  | _ =>
    let value := digits.foldl (fun n c => min (n * 10 + (c.toNat - '0'.toNat)) 1000000000) 0
    some (value, cs.drop digits.length)

/-- Reads `n}`, `n,}` or `n,m}` behind an opening brace. -/
def bounds? (cs : List Char) : Option ((Nat × Option Nat) × List Char) := do
  let (least, rest) ← count? cs
  match rest with
  | '\x7d' :: rest => some ((least, some least), rest)
  | ',' :: '\x7d' :: rest => some ((least, none), rest)
  | ',' :: rest =>
    let (most, rest) ← count? rest
    match rest with
    | '\x7d' :: rest => some ((least, some most), rest)
    | _ => none
  | _ => none

/-- The greatest number of times a pattern may repeat. -/
def maxRepeat : Nat := 1000

/-- Whether nested counted repetitions stay within a limit when multiplied. -/
def repeatsWithin : Expr → Nat → Bool
  | .repeat body least most _, n =>
    match most with
    | some 0 => true
    | _ =>
      let m := most.getD least
      decide (m ≤ n) && repeatsWithin body (if m = 0 then n else n / m)
  | .capture _ body, n | .star body _, n | .plus body _, n | .optional body _, n =>
    repeatsWithin body n
  | .concat left right, n | .alternate left right, n =>
    repeatsWithin left n && repeatsWithin right n
  | _, _ => true

/-- Applies a repetition to the last item. `before` starts at the repetition, `after` behind it;
`last` starts at a repetition that stands directly before it. -/
def repetition (state : ParseState) (build : Expr → Bool → Expr) (counted : Bool)
    (before after : List Char) (last : Option (List Char)) :
    Except SyntaxError (ParseState × List Char) :=
  let lazyMark := after.head? == some '?'
  let after := if lazyMark then after.drop 1 else after
  let greedy := lazyMark == state.flags.swapGreed
  match last with
  | some last => .error (.repeatOperator (upTo last after))
  | none =>
    match state.top.items with
    | [] => .error (.missingArgument (upTo before after))
    | item :: items =>
      let built := build item greedy
      if counted && !repeatsWithin built maxRepeat then .error (.repeatCount (upTo before after))
      else .ok (state.modifyTop fun group => { group with items := built :: items }, after)

def isNameChar (c : Char) : Bool := c == '_' || c.isAlphanum

/-- Reads the option letters of a group up to `:` or `)`. -/
def groupOptions (flags : Flags) (negative sawFlag : Bool) :
    List Char → Except (List Char) (Flags × Bool × List Char)
  | [] => .error []
  | c :: rest =>
    match c with
    | 'i' => groupOptions { flags with ignoreCase := !negative } negative true rest
    | 'm' => groupOptions { flags with multiline := !negative } negative true rest
    | 's' => groupOptions { flags with dotAll := !negative } negative true rest
    | 'U' => groupOptions { flags with swapGreed := !negative } negative true rest
    | '-' => if negative then .error rest else groupOptions flags true false rest
    | ':' => if negative && !sawFlag then .error rest else .ok (flags, true, rest)
    | ')' => if negative && !sawFlag then .error rest else .ok (flags, false, rest)
    | _ => .error rest

/-- A group that starts with `(?`: named, with options, or a mere change of options. -/
def specialGroup (state : ParseState) (cs : List Char) :
    Except SyntaxError (ParseState × List Char) :=
  let name? : Option (List Char) :=
    match cs.drop 2 with
    | 'P' :: '<' :: _ :: _ => some (cs.drop 4)
    | '<' :: _ :: _ => some (cs.drop 3)
    | _ => none
  match name? with
  | some inner =>
    let name := inner.takeWhile (· ≠ '>')
    if name.length = inner.length then .error (.namedCapture (String.ofList cs))
    else if name.isEmpty || !name.all isNameChar then
      .error (.namedCapture (upTo cs (inner.drop (name.length + 1))))
    else .ok (state.openCapture (String.ofList name), inner.drop (name.length + 1))
  | none =>
    match groupOptions state.flags false false (cs.drop 2) with
    | .error rest => .error (.groupOption (upTo cs rest))
    | .ok (flags, true, rest) =>
      .ok ({ state with flags, opened := ⟨none, state.flags, [], []⟩ :: state.opened }, rest)
    | .ok (flags, false, rest) => .ok ({ state with flags }, rest)

def closeGroup (whole : List Char) (state : ParseState) : Except SyntaxError ParseState :=
  match state.opened with
  | [] => .error (.unexpectedParen (String.ofList whole))
  | group :: groups =>
    let body := match group.capture with
      | some number => .capture number group.close
      | none => group.close
    .ok ({ state with flags := group.restore, opened := groups }.push body)

/-- The characters between `\Q` and `\E`, or the end of the text. -/
def quotedRun : List Char → List Char × List Char
  | '\\' :: 'E' :: rest => ([], rest)
  | c :: rest => let (run, rest) := quotedRun rest; (c :: run, rest)
  | [] => ([], [])

/-- What stands behind a backslash outside brackets. -/
def backslash (state : ParseState) (cs : List Char) :
    Except SyntaxError (ParseState × List Char) := do
  match cs with
  | '\\' :: 'A' :: rest => return (state.push (.anchor .beginText), rest)
  | '\\' :: 'b' :: rest => return (state.push (.anchor .wordBoundary), rest)
  | '\\' :: 'B' :: rest => return (state.push (.anchor .noWordBoundary), rest)
  | '\\' :: 'z' :: rest => return (state.push (.anchor .endText), rest)
  | '\\' :: 'Q' :: rest =>
    let (run, rest) := quotedRun rest
    return (run.foldl (fun state c => state.literal c.toNat) state, rest)
  | _ =>
    match ← property state.flags cs with
    | some (set, rest) => return (state.push (.char set), rest)
    | none =>
      match shorthand? state.flags cs with
      | some (set, rest) => return (state.push (.char set), rest)
      | none =>
        let (code, rest) ← escape cs
        return (state.literal code, rest)

/-- One construct from the front of the text. The flag of the answer says whether it was a
repetition. -/
def step (whole : List Char) (state : ParseState) (last : Option (List Char)) (cs : List Char) :
    Except SyntaxError (ParseState × List Char × Bool) := do
  let plain (result : ParseState × List Char) : Except SyntaxError (ParseState × List Char × Bool) :=
    .ok (result.1, result.2, false)
  let repeated (result : ParseState × List Char) :
      Except SyntaxError (ParseState × List Char × Bool) := .ok (result.1, result.2, true)
  match cs with
  | [] => plain (state, [])
  | c :: rest =>
    match c with
    | '(' =>
      if rest.head? == some '?' then plain (← specialGroup state cs)
      else plain (state.openCapture "", rest)
    | '|' => plain (state.bar, rest)
    | ')' => plain (← closeGroup whole state, rest)
    | '^' =>
      plain (state.push (.anchor (if state.flags.multiline then .beginLine else .beginText)), rest)
    | '$' =>
      plain (state.push (.anchor (if state.flags.multiline then .endLine else .endText)), rest)
    | '.' =>
      let set := if state.flags.dotAll then CharSet.all else .complement (.single 10)
      plain (state.push (.char set), rest)
    | '[' =>
      let (set, rest) ← bracketed state.flags cs
      plain (state.push (.char set), rest)
    | '*' => repeated (← repetition state .star false cs rest last)
    | '+' => repeated (← repetition state .plus false cs rest last)
    | '?' => repeated (← repetition state .optional false cs rest last)
    | '\x7b' =>
      match bounds? rest with
      | none => plain (state.literal c.toNat, rest)
      | some ((least, most), after) =>
        if maxRepeat < least || most.any (fun m => decide (maxRepeat < m) || decide (m < least)) then
          throw (.repeatCount (upTo cs after))
        else
          repeated (← repetition state (fun body greedy => .repeat body least most greedy)
            (decide (2 ≤ least) || most.any (2 ≤ ·)) cs after last)
    | '\\' => plain (← backslash state cs)
    | _ => plain (state.literal c.toNat, rest)

def run (whole : List Char) :
    Nat → ParseState → Option (List Char) → List Char → Except SyntaxError ParseState
  | 0, state, _, _ => .ok state
  | _, state, _, [] => .ok state
  | fuel + 1, state, last, cs => do
    let (state, rest, isRepeat) ← step whole state last cs
    run whole fuel state (if isRepeat then some cs else none) rest

end Parser

/-- A parsed pattern: its tree and the names of its captures. -/
structure Parsed where
  expr : Expr
  names : List String

def parse (text : String) : Except SyntaxError Parsed := do
  let cs := text.toList
  let state ← Parser.run cs (cs.length + 1) {} none cs
  match state.opened with
  | [] => return ⟨state.outer.close, state.names⟩
  | _ => throw (.missingParen text)

end TreeScript.Pattern
