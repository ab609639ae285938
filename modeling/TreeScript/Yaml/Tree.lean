import TreeScript.Yaml.Scanner

/-!
From tokens to the value of a document. Every rule takes the tokens of one node and leaves the rest;
an alias stands for the value that its anchor was put on before.
-/

set_option autoImplicit false

namespace TreeScript.Yaml

/-- The tokens that are still to come, and the values that have an anchor. -/
structure TokenStream where
  rest : List Token
  anchors : List (String × Value) := []

abbrev Compose := EStateM SyntaxError TokenStream

def nextIs (tokens : List Token) : Compose Bool := do
  return (← get).rest.head?.any tokens.contains

def skipToken : Compose Unit := modify fun s => { s with rest := s.rest.tail }

/-- Goes past a token if it is the next one. -/
def takeToken (token : Token) : Compose Bool := do
  if ← nextIs [token] then
    skipToken
    return true
  return false

def nameValue (anchor : Option String) (value : Value) : Compose Value := do
  if let some name := anchor then
    modify fun s => { s with anchors := (name, value) :: s.anchors }
  return value

/-- The anchor and the tag of a node, in either order. -/
def takeProperties : Compose (Option String × Option String) := do
  match (← get).rest with
  | .anchor a :: .tag t :: _ | .tag t :: .anchor a :: _ =>
    skipToken
    skipToken
    return (some a, some t)
  | .anchor a :: _ => skipToken; return (some a, none)
  | .tag t :: _ => skipToken; return (none, some t)
  | _ => return (none, none)

mutual

/-- One node. Block collections stand only where `block` allows them, and a sequence without indentation
only as the key or the value of a block mapping. -/
def composeNode : Nat → (block indentless : Bool) → Compose Value
  | 0, _, _ => throw .expectedContent
  | fuel + 1, block, indentless => do
    if let .aliasTo name :: _ := (← get).rest then
      skipToken
      match (← get).anchors.lookup name with
      | some value => return value
      | none => throw (.unknownAnchor name)
    let (anchor, tag) ← takeProperties
    -- A single exclamation mark names no tag.
    let kind := tag.filter (· ≠ "!")
    match (← get).rest with
    | .scalar isPlain text :: _ =>
      skipToken
      nameValue anchor (.scalar kind isPlain text)
    | .flowSequenceStart :: _ =>
      skipToken
      nameValue anchor (.sequence kind (← flowItems fuel true))
    | .flowMappingStart :: _ =>
      skipToken
      nameValue anchor (.mapping kind (← flowEntries fuel true))
    | token :: _ =>
      if token = .blockEntry && indentless then
        nameValue anchor (.sequence kind (← indentlessItems fuel))
      else if token = .blockSequenceStart && block then
        skipToken
        nameValue anchor (.sequence kind (← blockItems fuel))
      else if token = .blockMappingStart && block then
        skipToken
        nameValue anchor (.mapping kind (← blockEntries fuel))
      else if anchor.isSome || tag.isSome then
        nameValue anchor (.scalar kind true "")
      else throw .expectedContent
    | [] =>
      if anchor.isSome || tag.isSome then nameValue anchor (.scalar kind true "")
      else throw .expectedContent

/-- A node, unless one of the given tokens shows that it was left out. -/
def nodeUnless : Nat → List Token → (block indentless : Bool) → Compose Value
  | 0, _, _, _ => throw .expectedContent
  | fuel + 1, stops, block, indentless => do
    if ← nextIs stops then
      return .missing
    composeNode fuel block indentless

def blockItems : Nat → Compose (List Value)
  | 0 => throw .expectedEntry
  | fuel + 1 => do
    if ← takeToken .blockEntry then
      let item ← nodeUnless fuel [.blockEntry, .blockEnd] true false
      return item :: (← blockItems fuel)
    else if ← takeToken .blockEnd then return []
    else throw .expectedEntry

def indentlessItems : Nat → Compose (List Value)
  | 0 => throw .expectedEntry
  | fuel + 1 => do
    if ← takeToken .blockEntry then
      let item ← nodeUnless fuel [.blockEntry, .key, .value, .blockEnd] true false
      return item :: (← indentlessItems fuel)
    else return []

def blockEntries : Nat → Compose (List (Value × Value))
  | 0 => throw .expectedKey
  | fuel + 1 => do
    if ← takeToken .key then
      let key ← nodeUnless fuel [.key, .value, .blockEnd] true true
      let value ← if ← takeToken .value then nodeUnless fuel [.key, .value, .blockEnd] true true
        else pure .missing
      return (key, value) :: (← blockEntries fuel)
    else if ← takeToken .blockEnd then return []
    else throw .expectedKey

/-- The items of a flow sequence up to its end; a key among them is a mapping with a single entry. -/
def flowItems : Nat → (first : Bool) → Compose (List Value)
  | 0, _ => throw .expectedSeparator
  | fuel + 1, first => do
    if ← takeToken .flowSequenceEnd then
      return []
    if !first then
      if !(← takeToken .flowEntry) then
        throw .expectedSeparator
      if ← takeToken .flowSequenceEnd then
        return []
    let item ← if ← takeToken .key then do
        let stops := [.value, .flowEntry, .flowSequenceEnd]
        let hasKey := !(← nextIs stops)
        let key ← nodeUnless fuel stops false false
        if !hasKey then
          skipToken
        let value ← if ← takeToken .value then
            nodeUnless fuel [.flowEntry, .flowSequenceEnd] false false
          else pure .missing
        pure (.mapping none [(key, value)])
      else composeNode fuel false false
    return item :: (← flowItems fuel false)

def flowEntries : Nat → (first : Bool) → Compose (List (Value × Value))
  | 0, _ => throw .expectedSeparator
  | fuel + 1, first => do
    if ← takeToken .flowMappingEnd then
      return []
    if !first then
      if !(← takeToken .flowEntry) then
        throw .expectedSeparator
      if ← takeToken .flowMappingEnd then
        return []
    let entry ← if ← takeToken .key then do
        let key ← nodeUnless fuel [.value, .flowEntry, .flowMappingEnd] false false
        let value ← if ← takeToken .value then
            nodeUnless fuel [.flowEntry, .flowMappingEnd] false false
          else pure .missing
        pure (key, value)
      else do pure (← composeNode fuel false false, .missing)
    return entry :: (← flowEntries fuel false)

end

/-- The value of a document. A text without tokens has none; a marker alone begins a document that holds
nothing. -/
def Value.ofTokens (tokens : List Token) : Except SyntaxError (Option Value) :=
  let node (tokens : List Token) : Except SyntaxError (Option Value) :=
    match (composeNode (4 * tokens.length + 4) true false).run { rest := tokens } with
    | .ok value _ => .ok (some value)
    | .error e _ => .error e
  match tokens with
  | [] => .ok none
  | [.documentStart] => .ok (some .missing)
  | .documentStart :: rest => node rest
  | tokens => node tokens

/-- The value of the first document of a text, if the text holds one. -/
def Value.parse (text : String) : Except SyntaxError (Option Value) := do
  Value.ofTokens (← tokenize text)

end TreeScript.Yaml
