import TreeScript.Yaml.Basic

/-!
Reading the tokens of the first document of a text. A scanner goes through the characters and keeps
track of the position, of the indentation of the block collections that are open, and of the places
where a key may have begun whose colon is still to come.
-/

set_option autoImplicit false

namespace TreeScript.Yaml

/-- A place where a key without a question mark may begin. -/
structure KeyStart where
  /-- The number of the token that begins the key. -/
  token : Nat
  index : Nat
  line : Nat
  column : Nat
  /-- Whether nothing but a key can begin there. -/
  required : Bool

structure Scanner where
  rest : List Char
  index : Nat := 0
  line : Nat := 0
  column : Nat := 0
  tokens : Array Token := #[]
  /-- The column of the innermost open block collection. -/
  indent : Int := -1
  outerIndents : List Int := []
  /-- The possible key of the innermost open flow collection, or of the block around them. -/
  keyStart : Option KeyStart := none
  /-- Those of the collections around it; there are as many as flow collections are open. -/
  outerKeys : List (Option KeyStart) := []
  keyAllowed : Bool := true
  /-- The handles of tags with the texts they stand for. -/
  handles : List (String × String) := [("!", "!"), ("!!", "tag:yaml.org,2002:")]
  hasDirective : Bool := false

abbrev Scan := EStateM SyntaxError Scanner

namespace Scanner

def inFlow (s : Scanner) : Bool := !s.outerKeys.isEmpty

def peek (s : Scanner) (i : Nat) : Option Char := s.rest[i]?

/-- Whether a document marker made of three of a character stands here. -/
def isMarker (s : Scanner) (c : Char) : Bool :=
  s.column == 0 && s.rest.take 3 == [c, c, c] && endsWord (s.peek 3)

def atMarker (s : Scanner) : Bool := s.isMarker '-' || s.isMarker '.'

end Scanner

/-! ### Moving on -/

/-- Goes past characters of the current line. -/
def advance (count : Nat) : Scan Unit :=
  modify fun s =>
    { s with rest := s.rest.drop count, index := s.index + count, column := s.column + count }

/-- Goes past a line break and answers the character it counts as. -/
def takeBreak : Scan Char := do
  let s ← get
  let (size, c) := match s.rest with
    | '\r' :: '\n' :: _ => (2, '\n')
    | '\u2028' :: _ => (1, '\u2028')
    | '\u2029' :: _ => (1, '\u2029')
    | _ => (1, '\n')
  set { s with rest := s.rest.drop size, index := s.index + size, line := s.line + 1, column := 0 }
  return c

/-- Goes past the characters that satisfy a test. -/
def takeWhile (test : Char → Bool) : Scan (List Char) := do
  let word := (← get).rest.takeWhile test
  advance word.length
  return word

def push (token : Token) : Scan Unit := modify fun s => { s with tokens := s.tokens.push token }

/-! ### Indentation and keys -/

/-- Opens a block collection if the column lies deeper than the open one. Its first token goes where the
key began that opened it. -/
def openBlock (column : Nat) (at? : Option Nat) (token : Token) : Scan Unit :=
  modify fun s =>
    if s.inFlow || (column : Int) ≤ s.indent then s
    else
      { s with
        outerIndents := s.indent :: s.outerIndents
        indent := column
        tokens := match at? with
          | some i => s.tokens.insertIdxIfInBounds i token
          | none => s.tokens.push token }

/-- Closes the block collections that are deeper than a column. -/
def closeBlocks (column : Int) : Scan Unit :=
  modify fun s =>
    if s.inFlow then s
    else
      let closed := (s.indent :: s.outerIndents).takeWhile (column < ·)
      let open' := (s.indent :: s.outerIndents).drop closed.length
      { s with
        indent := open'.headD (-1)
        outerIndents := open'.drop 1
        tokens := s.tokens ++ closed.map fun _ => Token.blockEnd }

/-- Gives up the possible key. -/
def dropKey : Scan Unit := do
  if (← get).keyStart.any (·.required) then
    throw .keyWithoutColon
  modify fun s => { s with keyStart := none }

/-- Notes that a key may begin here. -/
def noteKey : Scan Unit := do
  if (← get).keyAllowed then
    dropKey
    modify fun s =>
      let required := !s.inFlow && s.indent == (s.column : Int)
      { s with keyStart := some ⟨s.tokens.size, s.index, s.line, s.column, required⟩ }

/-- Whether a key that begins there can have its colon here: on the same line and not too far away. -/
def KeyStart.isLive (k : KeyStart) (s : Scanner) : Bool :=
  k.line == s.line && s.index ≤ k.index + 1024

/-- Gives up all possible keys whose colon cannot come any more. -/
def dropStaleKeys : Scan Unit := do
  let s ← get
  let stale (k : Option KeyStart) : Bool := k.any fun k => !k.isLive s
  if (s.keyStart :: s.outerKeys).any fun k => stale k && k.any (·.required) then
    throw .keyWithoutColon
  let keep (k : Option KeyStart) : Option KeyStart := if stale k then none else k
  set { s with keyStart := keep s.keyStart, outerKeys := s.outerKeys.map keep }

def allowKey (allowed : Bool) : Scan Unit := modify fun s => { s with keyAllowed := allowed }

/-! ### Blanks between tokens -/

/-- Goes past white space and comments. A new line in a block may begin a key. -/
def skipBlanks : Nat → Scan Unit
  | 0 => return
  | fuel + 1 => do
    let s ← get
    match s.rest with
    | '\ufeff' :: _ => if s.column = 0 then do advance 1; skipBlanks fuel
    | '\t' :: _ => if s.inFlow || !s.keyAllowed then do advance 1; skipBlanks fuel
    | ' ' :: _ => do advance 1; skipBlanks fuel
    | '#' :: _ =>
      let _ ← takeWhile (!isBreak ·)
      skipBlanks fuel
    | c :: _ =>
      if isBreak c then
        let _ ← takeBreak
        if !s.inFlow then
          allowKey true
        skipBlanks fuel
    | [] => return

/-! ### Scalars -/

/-- White space inside a scalar: the blanks before the first line break, and the line breaks. -/
structure Gap where
  blanks : List Char := []
  breaks : List Char := []

/-- What white space inside a scalar stands for: a single line break is a blank, and of several the first
one is dropped. -/
def Gap.folded (gap : Gap) : List Char :=
  match gap.breaks with
  | [] => gap.blanks
  | ['\n'] => [' ']
  | '\n' :: breaks => breaks
  | breaks => breaks

/-- Takes white space inside a scalar. A tab may not stand left of the given column. -/
def takeGap (indent : Int) : Nat → Gap → Scan Gap
  | 0, gap => return gap
  | fuel + 1, gap => do
    let s ← get
    match s.rest with
    | c :: _ =>
      if isBlank c then
        if gap.breaks.isEmpty then
          advance 1
          takeGap indent fuel { gap with blanks := gap.blanks ++ [c] }
        else if c == '\t' && (s.column : Int) < indent then throw .tabInIndentation
        else
          advance 1
          takeGap indent fuel gap
      else if isBreak c then
        let c ← takeBreak
        takeGap indent fuel { gap with breaks := gap.breaks ++ [c] }
      else return gap
    | [] => return gap

/-- The beginning of a text up to where a plain scalar is interrupted. -/
def plainWord (inFlow : Bool) : List Char → List Char
  | [] => []
  | c :: cs =>
    if isGap c || (c == ':' && endsWord cs.head?) ||
        (inFlow && [',', '?', '[', ']', '\x7b', '\x7d'].contains c) then []
    else c :: plainWord inFlow cs

/-- The words of a plain scalar, from the current one on; `gap` lies before it. -/
def plainFrom (indent : Int) : Nat → Gap → Array Char → Scan (Array Char)
  | 0, _, text => return text
  | fuel + 1, gap, text => do
    let s ← get
    if s.atMarker || s.peek 0 == some '#' then
      return text
    let word := plainWord s.inFlow s.rest
    advance word.length
    if !word.isEmpty then
      allowKey false
    let text := if word.isEmpty then text else text ++ gap.folded ++ word
    if !(← get).rest.head?.any isGap then
      return text
    let gap ← takeGap indent s.rest.length {}
    allowKey !gap.breaks.isEmpty
    let s ← get
    if !s.inFlow && (s.column : Int) < indent then return text
    else plainFrom indent fuel gap text

def plainScalar : Scan Token := do
  let s ← get
  let text ← plainFrom (s.indent + 1) (s.rest.length + 1) {} #[]
  return .scalar true (String.ofList text.toList)

def hexDigit? (c : Char) : Option Nat :=
  if c.isDigit then some (c.toNat - '0'.toNat)
  else if 'a' ≤ c ∧ c ≤ 'f' then some (c.toNat - 'a'.toNat + 10)
  else if 'A' ≤ c ∧ c ≤ 'F' then some (c.toNat - 'A'.toNat + 10)
  else none

/-- The character that so many hexadecimal digits stand for. -/
def hexChar? (digits : List Char) (count : Nat) : Option Char := do
  let values ← (digits.take count).mapM hexDigit?
  let code := values.foldl (fun n d => 16 * n + d) 0
  if values.length = count ∧ code.isValidChar then some (Char.ofNat code) else none

/-- The escapes of a single character. -/
def shortEscape? : Char → Option Char
  | '0' => some '\x00'
  | 'a' => some '\x07'
  | 'b' => some '\x08'
  | 't' | '\t' => some '\t'
  | 'n' => some '\n'
  | 'v' => some '\x0b'
  | 'f' => some '\x0c'
  | 'r' => some '\r'
  | 'e' => some '\x1b'
  | ' ' => some ' '
  | '"' => some '"'
  | '\'' => some '\''
  | '/' => some '/'
  | '\\' => some '\\'
  | 'N' => some '\x85'
  | '_' => some '\xa0'
  | 'L' => some '\u2028'
  | 'P' => some '\u2029'
  | _ => none

/-- The character a backslash and what follows it stand for. -/
def takeEscape : Scan Char := do
  let after := (← get).rest.drop 2
  let hex (count : Nat) : Scan Char :=
    match hexChar? after count with
    | some c => do advance (2 + count); return c
    | none => throw .badEscape
  match (← get).peek 1 with
  | some 'x' => hex 2
  | some 'u' => hex 4
  | some 'U' => hex 8
  | some c =>
    match shortEscape? c with
    | some c => do advance 2; return c
    | none => throw .badEscape
  | none => throw .badEscape

/-- The rest of a quoted scalar, up to its closing quote. -/
def quotedFrom (quote : Char) : Nat → Array Char → Scan (Array Char)
  | 0, _ => throw .unexpectedEnd
  | fuel + 1, text => do
    let s ← get
    if s.atMarker then
      throw .unexpectedMarker
    match s.rest with
    | [] => throw .unexpectedEnd
    | c :: rest =>
      if c == quote then
        if quote == '\'' && rest.head? == some quote then
          advance 2
          quotedFrom quote fuel (text.push quote)
        else
          advance 1
          return text
      else if quote == '"' && c == '\\' then
        if rest.head?.any isBreak then
          advance 1
          let _ ← takeBreak
          let gap ← takeGap (-1) s.rest.length { breaks := ['\u2028'] }
          quotedFrom quote fuel (text ++ gap.breaks.drop 1)
        else
          let c ← takeEscape
          quotedFrom quote fuel (text.push c)
      else if isGap c then
        let gap ← takeGap (-1) s.rest.length {}
        quotedFrom quote fuel (text ++ gap.folded)
      else
        advance 1
        quotedFrom quote fuel (text.push c)

def quotedScalar (quote : Char) : Scan Token := do
  advance 1
  let text ← quotedFrom quote ((← get).rest.length + 1) #[]
  return .scalar false (String.ofList text.toList)

/-- What becomes of the line breaks at the end of a block scalar. -/
inductive Chomping where
  | strip | clip | keep
deriving DecidableEq

def chomping? : Option Char → Option Chomping
  | some '-' => some .strip
  | some '+' => some .keep
  | _ => none

/-- The signs behind the mark of a block scalar: how it is chomped and how far it is indented. -/
def blockHeader : Scan (Chomping × Nat) := do
  let s ← get
  let digit (c : Option Char) : Nat := ((c.filter Char.isDigit).map fun c => c.toNat - 48).getD 0
  let (chomping, indent, size) :=
    match chomping? (s.peek 0), s.peek 1 with
    | some chomping, c => (chomping, digit c, if c.any Char.isDigit then 2 else 1)
    | none, c =>
      if (s.peek 0).any Char.isDigit then
        ((chomping? c).getD .clip, digit (s.peek 0), if (chomping? c).isSome then 2 else 1)
      else (.clip, 0, 0)
  if (s.rest.take size).contains '0' then
    throw .badBlockHeader
  advance size
  let _ ← takeWhile isBlank
  if (← get).peek 0 == some '#' then
    let _ ← takeWhile (!isBreak ·)
  match (← get).peek 0 with
  | none => return (chomping, indent)
  | some c =>
    if isBreak c then
      let _ ← takeBreak
      return (chomping, indent)
    throw .badBlockHeader

/-- Takes indentation and empty lines of a block scalar: the line breaks, and the greatest column met.
An indentation of zero is one that is not known yet. -/
def blockGap (indent : Nat) : Nat → List Char → Nat → Scan (List Char × Nat)
  | 0, breaks, deepest => return (breaks, deepest)
  | fuel + 1, breaks, deepest => do
    let s ← get
    let spaces := (s.rest.takeWhile (· == ' ')).length
    let spaces := if indent = 0 then spaces else min spaces (indent - s.column)
    advance spaces
    let s ← get
    let deepest := max deepest s.column
    match s.peek 0 with
    | some c =>
      if c == '\t' && (indent = 0 || s.column < indent) then throw .tabInIndentation
      else if isBreak c then
        let c ← takeBreak
        blockGap indent fuel (breaks ++ [c]) deepest
      else return (breaks, deepest)
    | none => return (breaks, deepest)

/-- The lines of a block scalar. `lead` is the line break at the end of the line before, `breaks` are the
empty lines after it, and `wasBlank` says that the line began with a blank. -/
def blockLines (isLiteral : Bool) (chomping : Chomping) (indent : Nat) :
    Nat → List Char → List Char → Bool → Array Char → Scan (Array Char)
  | 0, _, _, _, text => return text
  | fuel + 1, lead, breaks, wasBlank, text => do
    let s ← get
    if s.column ≠ indent ∨ s.rest.isEmpty then
      let text := if chomping = .strip then text else text ++ lead
      return if chomping = .keep then text ++ breaks else text
    let isBlankLine := s.rest.head?.any isBlank
    let joined :=
      if !isLiteral && !wasBlank && !isBlankLine && lead == ['\n'] then
        if breaks.isEmpty then [' '] else []
      else lead
    let line ← takeWhile (!isBreak ·)
    let text := text ++ joined ++ breaks ++ line
    let lead ← if (← get).rest.isEmpty then pure [] else do pure [← takeBreak]
    let (breaks, _) ← blockGap indent s.rest.length [] 0
    blockLines isLiteral chomping indent fuel lead breaks isBlankLine text

def blockScalar (isLiteral : Bool) : Scan Token := do
  advance 1
  let (chomping, increment) ← blockHeader
  let s ← get
  let given := if increment = 0 then 0 else increment + s.indent.toNat
  let (breaks, deepest) ← blockGap given (s.rest.length + 1) [] 0
  let indent := if given = 0 then max deepest (max (s.indent + 1).toNat 1) else given
  let text ← blockLines isLiteral chomping indent (s.rest.length + 1) [] breaks false #[]
  return .scalar false (String.ofList text.toList)

/-! ### Names -/

def takeName : Scan String := do
  advance 1
  let name ← takeWhile isNameChar
  let next := (← get).peek 0
  if name.isEmpty || !(endsWord next ||
      next.any ['?', ':', ',', ']', '\x7d', '%', '@', '\x60'].contains) then
    throw .badAnchor
  return String.ofList name

def isTagChar (c : Char) : Bool :=
  isNameChar c || ";/?:@&=+$.,!~*'()[]%".toList.contains c

/-- The short form of a tag: those of the language itself begin with two exclamation marks. -/
def shortTag (tag : List Char) : String :=
  let long := "tag:yaml.org,2002:".toList
  if long.isPrefixOf tag then "!!" ++ String.ofList (tag.drop long.length) else String.ofList tag

def takeTag : Scan Token := do
  let s ← get
  let tag ← if s.peek 1 == some '<' then do
      advance 2
      let name ← takeWhile isTagChar
      if name.isEmpty || (← get).peek 0 != some '>' then
        throw .badTag
      advance 1
      pure name
    else do
      let word := s.rest.drop 1 |>.takeWhile isNameChar
      let hasHandle := s.peek (word.length + 1) == some '!'
      let handle := if hasHandle then '!' :: word ++ ['!'] else ['!']
      advance handle.length
      let suffix ← takeWhile isTagChar
      if hasHandle && suffix.isEmpty then
        throw .badTag
      match s.handles.lookup (String.ofList handle) with
      | some pre => pure (pre.toList ++ suffix)
      | none => throw .badTag
  if !endsWord ((← get).peek 0) then
    throw .badTag
  return .tag (shortTag tag)

/-- A line that begins with a percent sign. -/
def takeDirective : Scan Unit := do
  advance 1
  let line ← takeWhile fun c => !isBreak c && c != '#'
  let words := ((String.ofList line).splitOn " ").filter (· ≠ "")
  match words with
  | ["YAML", version] => if version ≠ "1.1" then throw .badDirective
  | ["TAG", handle, pre] => modify fun s => { s with handles := (handle, pre) :: s.handles }
  | _ => throw .badDirective
  modify fun s => { s with hasDirective := true }

/-! ### Tokens -/

/-- The sign that begins an entry of a block sequence. -/
def scanBlockEntry : Scan Unit := do
  let s ← get
  if !s.inFlow then
    if !s.keyAllowed then
      throw .misplacedEntry
    openBlock s.column none .blockSequenceStart
  dropKey
  allowKey true
  push .blockEntry
  advance 1

/-- The question mark that begins a key. -/
def scanKey : Scan Unit := do
  let s ← get
  if !s.inFlow then
    if !s.keyAllowed then
      throw .misplacedKey
    openBlock s.column none .blockMappingStart
  dropKey
  allowKey !s.inFlow
  push .key
  advance 1

/-- The colon before a value, which makes a key of what may have been one. -/
def scanValue : Scan Unit := do
  let s ← get
  match s.keyStart with
  | some k =>
    set { s with tokens := s.tokens.insertIdxIfInBounds k.token .key, keyStart := none }
    openBlock k.column (some k.token) .blockMappingStart
    allowKey false
  | none =>
    if !s.inFlow then
      if !s.keyAllowed then
        throw .misplacedValue
      openBlock s.column none .blockMappingStart
    allowKey !s.inFlow
  push .value
  advance 1

def openFlow (token : Token) : Scan Unit := do
  noteKey
  modify fun s => { s with outerKeys := s.keyStart :: s.outerKeys, keyStart := none }
  allowKey true
  push token
  advance 1

def closeFlow (token : Token) : Scan Unit := do
  dropKey
  modify fun s =>
    match s.outerKeys with
    | [] => s
    | key :: keys => { s with keyStart := key, outerKeys := keys }
  allowKey false
  push token
  advance 1

/-- A token that may begin a key. -/
def scanContent (token : Scan Token) : Scan Unit := do
  noteKey
  allowKey false
  push (← token)

/-- Whether a plain scalar can begin with a character, given the one behind it. -/
def startsPlain (inFlow : Bool) (c : Char) (next : Option Char) : Bool :=
  if c == '-' then !next.any isBlank
  else if c == '?' || c == ':' then !inFlow && !endsWord next
  else !isGap c && !(",[]\x7b\x7d#&*!|>'\"%@\x60".toList.contains c)

def scanToken (s : Scanner) (c : Char) : Scan Unit := do
  let next := s.peek 1
  match c with
  | '[' => openFlow .flowSequenceStart
  | '\x7b' => openFlow .flowMappingStart
  | ']' => closeFlow .flowSequenceEnd
  | '\x7d' => closeFlow .flowMappingEnd
  | ',' => do dropKey; allowKey true; push .flowEntry; advance 1
  | '*' => scanContent do return .aliasTo (← takeName)
  | '&' => scanContent do return .anchor (← takeName)
  | '!' => scanContent takeTag
  | '\'' => scanContent (quotedScalar '\'')
  | '"' => scanContent (quotedScalar '"')
  | _ =>
    if c == '-' && endsWord next then scanBlockEntry
    else if c == '?' && (s.inFlow || endsWord next) then scanKey
    else if c == ':' && (s.inFlow || endsWord next) then scanValue
    else if (c == '|' || c == '>') && !s.inFlow then do
      dropKey
      allowKey true
      push (← blockScalar (c == '|'))
    else if startsPlain s.inFlow c next then scanContent plainScalar
    else throw .badStart

/-- Closes what is open at the end of the document. -/
def scanEnd : Scan Unit := do
  closeBlocks (-1)
  dropKey

/-- Takes a marker between documents. -/
def takeMarker : Scan Unit := do
  scanEnd
  allowKey false
  push .documentStart
  advance 3

/-- Goes on behind the first document until there are `count` tokens: a document has ended only when two
more tokens behind its end can be read. -/
def scanBehind (count : Nat) : Nat → Scan Unit
  | 0 => pure ()
  | fuel + 1 => do
    if (← get).tokens.size < count then
      skipBlanks ((← get).rest.length + 1)
      dropStaleKeys
      closeBlocks (← get).column
      let s ← get
      match s.rest with
      | [] => scanEnd
      | c :: _ =>
        if s.atMarker then takeMarker
        else if s.column = 0 && c == '%' then do
          takeDirective
          push .documentStart
        else scanToken s c
        scanBehind count fuel

/-- The end of the first document at a marker. Of the tokens behind it none is kept. -/
def finishAtMarker : Scan Unit := do
  scanEnd
  let s ← get
  takeMarker
  scanBehind (s.tokens.size + 3) s.rest.length
  set s

/-- The tokens up to the end of the first document. -/
def scanFrom : Nat → Scan Unit
  | 0 => scanEnd
  | fuel + 1 => do
    skipBlanks ((← get).rest.length + 1)
    dropStaleKeys
    closeBlocks (← get).column
    let s ← get
    match s.rest with
    | [] =>
      if s.hasDirective && s.tokens.isEmpty then
        throw .expectedDocumentStart
      scanEnd
    | c :: _ =>
      if s.isMarker '-' && s.tokens.isEmpty then
        takeMarker
        scanFrom fuel
      else if s.atMarker then finishAtMarker
      else if s.column = 0 && c == '%' then
        if !s.tokens.isEmpty then
          throw .expectedDocumentStart
        takeDirective
        scanFrom fuel
      else
        if s.hasDirective && s.tokens.isEmpty then
          throw .expectedDocumentStart
        scanToken s c
        scanFrom fuel

/-- Whether a text has a document that is begun by a marker of the end. -/
def startsWithEnd (s : Scanner) : Bool := s.tokens.isEmpty && s.isMarker '.'

/-- The characters of a text without the byte order mark it may begin with. -/
def withoutMark : List Char → List Char
  | '\ufeff' :: cs => cs
  | cs => cs

/-- The tokens of the first document of a text. -/
def tokenize (text : String) : Except SyntaxError (List Token) :=
  let chars := withoutMark text.toList
  if !chars.all isAllowed then .error .controlCharacter
  else
    match (scanFrom (chars.length + 1)).run { rest := chars } with
    | .error e _ => .error e
    | .ok _ s => if startsWithEnd s then .error .expectedContent else .ok s.tokens.toList

end TreeScript.Yaml
