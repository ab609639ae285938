import TreeScript.Project.Manifest
import TreeScript.Yaml.Scalar
import TreeScript.Yaml.Tree

/-!
From a document to a manifest. Values of the wrong kind, repeated keys and unknown fields are collected
while the rest is read; some mistakes end the reading at once, and these are the ones reported.
-/

set_option autoImplicit false

namespace TreeScript.Project

open Yaml (Value SyntaxError Meaning)

/-- A place where a value does not fit. -/
inductive Mismatch where
  | wrongKind (kind expected : String)
  | unknownField (name : String)
  | repeatedKey (key : String)
deriving DecidableEq, Repr

def Mismatch.message : Mismatch → String
  | wrongKind kind expected => "cannot decode " ++ kind ++ " into " ++ expected
  | unknownField name => "field " ++ name ++ " not found"
  | repeatedKey key => "mapping key " ++ Text.quote key ++ " already defined"

/-- Why a document is not a manifest. -/
inductive DocumentError where
  | malformed (cause : SyntaxError)
  | unreadable (cause : String)
  | mismatches (list : List Mismatch)
  | tagNotMet (tag text : String)
  | badMerge
  | notAList (kind : String)
  | dependenciesNotAMapping
  | unnamedDependency
  | repeatedDependency (name : String)
  | notALocation (kind : String)
  | dependency (name : String) (cause : DocumentError)

def DocumentError.message : DocumentError → String
  | malformed cause => "yaml: " ++ cause.message
  | unreadable cause => "yaml: input error: " ++ cause
  | mismatches list => "yaml: unmarshal errors:" ++ String.join (list.map fun m => "\n  " ++ m.message)
  | tagNotMet tag text => "yaml: cannot decode " ++ Text.quote text ++ " as a " ++ tag
  | badMerge => "yaml: map merge requires map or sequence of maps as the value"
  | notAList kind => "manifest: expected string or sequence for list but found " ++ kind
  | dependenciesNotAMapping => "manifest: dependencies must be a mapping"
  | unnamedDependency => "manifest: dependency names must be non-empty"
  | repeatedDependency name => "manifest: dependency " ++ Text.quote name ++ " is declared twice"
  | notALocation kind => "expected string or mapping, found " ++ kind
  | dependency name cause => "manifest: dependency " ++ Text.quote name ++ ": " ++ cause.message

/-- Reading a document, with the mismatches met so far. -/
abbrev Decode := EStateM DocumentError (List Mismatch)

namespace Decode

def note (mismatch : Mismatch) : Decode Unit := modify (· ++ [mismatch])

/-- Reads a part on its own: mismatches in it are a failure. -/
def alone {α : Type} (act : Decode α) : Except DocumentError α :=
  match act.run [] with
  | .ok a [] => .ok a
  | .ok _ list => .error (.mismatches list)
  | .error e _ => .error e

/-- The rest of the reading sees the mismatches of a part, or ends with its failure. -/
def within {α : Type} (other : α) (part : Except DocumentError α) : Decode α := do
  match part with
  | .ok a => return a
  | .error (.mismatches list) => do
    modify (· ++ list)
    return other
  | .error e => throw e

/-! ### Scalars -/

/-- The meaning of a scalar. Collections are noted as mismatches; they and nothing give no meaning. -/
def scalar (expected : String) (v : Value) : Decode (Option (Meaning × String)) := do
  match v with
  | .scalar tag isPlain text =>
    match Yaml.meaning? tag isPlain text with
    | some .null => return none
    | some meaning => return some (meaning, text)
    | none => throw (.tagNotMet (tag.getD "") text)
  | _ => do
    note (.wrongKind v.kind expected)
    return none

/-- A text; every scalar has one. -/
def text (v : Value) : Decode (Option String) := do
  return (← scalar "string" v).map (·.2)

/-- The whole part of a number that is not above the largest word. What lies below the least word becomes
the least word, and so does the first number above the largest. -/
def word? (x : Float) : Option Int :=
  if x ≤ 9223372036854775808 then
    if x < -9223372036854775808 || x == 9223372036854775808 then some (-(twoTo 63 : Int))
    else
      let (m, q) := Decimal.mantissaExponent x
      let (num, den) := Decimal.binaryRatio m q
      some (if x < 0 then -((num / den : Nat) : Int) else (num / den : Nat))
  else none

def int (v : Value) : Decode (Option Int) := do
  let some (meaning, _) ← scalar "int" v | return none
  let n := match meaning with
    | .int n => if n < twoTo 63 then some n else none
    | .float x => word? x
    | _ => none
  if n.isNone then
    note (.wrongKind meaning.tag "int")
  return n

def bool (v : Value) : Decode (Option Bool) := do
  let some (meaning, text) ← scalar "bool" v | return none
  let b := match meaning with
    | .bool b => some b
    | .text =>
      if ["y", "Y", "yes", "on"].contains text then some true
      else if ["n", "N", "no", "off"].contains text then some false
      else none
    | _ => none
  if b.isNone then
    note (.wrongKind meaning.tag "bool")
  return b

/-! ### Lists -/

/-- Texts without the white space around them, and without those that are empty. -/
def trimmed (texts : List String) : List String := (texts.map Text.trim).filter (· ≠ "")

/-- A list of texts. -/
def texts (v : Value) : Decode (Option (List String)) := do
  match v with
  | .sequence _ items => return some (trimmed (← items.filterMapM text))
  | _ => do
    let found ← scalar "list" v
    if let some (meaning, _) := found then
      note (.wrongKind meaning.tag "list")
    return none

/-- A list of texts that may be written as a single text. -/
def patterns (v : Value) : Decode (Option (List String)) := do
  if v.isNull then
    let _ ← scalar "list" v
    return none
  match v with
  | .scalar _ _ text => return some (trimmed [text])
  | .sequence _ items => do
    let found ← within [] (items.mapM fun item => alone (text item))
    return some (trimmed (found.filterMap id))
  | .mapping _ _ => throw (.notAList v.kind)

/-! ### Records -/

/-- The keys of a mapping that repeat an earlier one. -/
def repeatedKeys : List (Value × Value) → List Mismatch
  | [] => []
  | (key, _) :: entries =>
    (entries.filter fun (other, _) => key.sameKey other).map (fun (other, _) =>
      .repeatedKey (match other with | .scalar _ _ text => text | _ => "")) ++ repeatedKeys entries

/-- How the fields of a record are read: the name and value of a field make a change of the record,
unless there is no such field. -/
abbrev Fields (σ : Type) := String → Value → Option (σ → Decode σ)

/-- Reads entries into the fields of a record. Merged entries leave alone the fields already `taken`,
and entries under keys that are not texts are passed over. -/
def entriesInto {σ : Type} (fields : Fields σ) (strict merged : Bool) :
    List (Value × Value) → List String → σ → Decode (List String × σ)
  | [], taken, record => return (taken, record)
  | (key, value) :: entries, taken, record => do
    if key.isMerge then
      return ← entriesInto fields strict merged entries taken record
    match ← text key with
    | none => entriesInto fields strict merged entries taken record
    | some name =>
      if merged && taken.contains name then
        return ← entriesInto fields strict merged entries taken record
      match fields name value with
      | some read => do
        let record ← read record
        entriesInto fields strict merged entries (name :: taken) record
      | none => do
        if strict then
          note (.unknownField name)
        entriesInto fields strict merged entries (name :: taken) record

/-- The mappings that a merge key asks for. -/
def mergedMappings : Value → Decode (List (List (Value × Value)))
  | .mapping _ entries => return [entries]
  | .sequence _ items => items.mapM fun item => match item with
    | .mapping _ entries => pure entries
    | _ => throw .badMerge
  | _ => throw .badMerge

/-- Reads a mapping into the fields of a record, then the mappings merged into it. The fuel bounds how deep
merged mappings are nested. -/
def mappingInto {σ : Type} (fields : Fields σ) (strict : Bool) :
    Nat → Bool → List (Value × Value) → List String → σ → Decode (List String × σ)
  | 0, _, _, taken, record => return (taken, record)
  | fuel + 1, merged, entries, taken, record => do
    let repeated := repeatedKeys entries
    if !repeated.isEmpty then
      modify (· ++ repeated)
      return (taken, record)
    let (taken, record) ← entriesInto fields strict merged entries taken record
    match entries.find? fun (key, _) => key.isMerge with
    | none => return (taken, record)
    | some (_, value) =>
      (← mergedMappings value).foldlM
        (fun (taken, record) entries => mappingInto fields strict fuel true entries taken record)
        (taken, record)

/-- Reads a record. Nothing leaves it as it is. -/
def record {σ : Type} (fields : Fields σ) (strict : Bool) (v : Value) (init : σ) : Decode σ := do
  match v with
  | .mapping _ entries => return (← mappingInto fields strict v.depth false entries [] init).2
  | _ => do
    if let some (meaning, _) ← scalar "mapping" v then
      note (.wrongKind meaning.tag "mapping")
    return init

/-- A field that keeps what it holds when its value is nothing. -/
def field {σ α : Type} (read : Decode (Option α)) (change : α → σ → σ) : Option (σ → Decode σ) :=
  some fun record => return match ← read with
    | some a => change a record
    | none => record

/-! ### Manifests -/

def locationFields : Fields Location := fun name v =>
  match name with
  | "path" => field (text v) fun s l => { l with path := Text.trim s }
  | "git" => field (text v) fun s l => { l with git := Text.trim s }
  | "rev" => field (text v) fun s l => { l with rev := Text.trim s }
  | "sources" => field (patterns v) fun list l => { l with sources := list }
  | _ => none

/-- The location of a dependency: a mapping, or just its path. Unknown fields are passed over here. -/
def location (v : Value) : Except DocumentError Location :=
  match v with
  | .scalar _ _ text => .ok (if v.isNull then {} else { path := Text.trim text })
  | .mapping _ _ => alone (record locationFields false v {})
  | .sequence _ _ => .error (.notALocation v.kind)

/-- The dependencies, in the order of their entries. -/
def dependenciesFrom : List (Value × Value) → List (String × Location) →
    Except DocumentError (List (String × Location))
  | [], found => return found
  | (key, v) :: entries, found => do
    let name := Text.trim ((← alone (text key)).getD "")
    if name = "" then
      throw .unnamedDependency
    if (found.lookup name).isSome then
      throw (.repeatedDependency name)
    match location v with
    | .ok l => dependenciesFrom entries (found ++ [(name, l)])
    | .error e => throw (.dependency name e)

def dependencies (v : Value) : Decode (Option (List (String × Location))) := do
  if v.isNull then
    let _ ← scalar "mapping" v
    return none
  match v with
  | .mapping _ entries => return some (← within [] (dependenciesFrom entries []))
  | _ => throw .dependenciesNotAMapping

def settingsFields : Fields Settings := fun name v =>
  match name with
  | "division_scale" => field (int v) fun n s => { s with divisionScale := n }
  | "suggestions" => field (int v) fun n s => { s with suggestions := some n }
  | "forbidden_imports" => field (texts v) fun list s => { s with forbiddenImports := list }
  | "auto_imports" => field (texts v) fun list s => { s with autoImports := list }
  | "trace" => field (int v) fun n s => { s with trace := n }
  | "trace_values" => field (texts v) fun list s => { s with traceValues := list }
  | "log_resolve" => field (bool v) fun b s => { s with logResolve := b }
  | "log_assignments" => field (bool v) fun b s => { s with logAssignments := b }
  | "log_calls" => field (bool v) fun b s => { s with logCalls := b }
  | _ => none

def manifestFields : Fields Manifest := fun name v =>
  match name with
  | "name" => field (text v) fun s m => { m with name := Text.trim s }
  | "entry" => field (text v) fun s m => { m with entry := Text.trim s }
  | "sources" => field (patterns v) fun list m => { m with sources := list }
  | "dependencies" => field (dependencies v) fun list m => { m with dependencies := list }
  | "options" => some fun m => return { m with settings := ← record settingsFields true v m.settings }
  | _ => none

end Decode

/-! ### Documents -/

/-- Why there is no manifest. -/
inductive ManifestError where
  | noPath
  | notOpened (path cause : String)
  | empty (path : String)
  | notRead (path : String) (cause : DocumentError)
  | invalid (issues : List Issue)

def ManifestError.message : ManifestError → String
  | noPath => "manifest: empty path"
  | notOpened path cause => "manifest: open " ++ path ++ ": " ++ cause
  | empty path => "manifest: " ++ path ++ " is empty"
  | notRead path cause => "manifest: parse " ++ path ++ ": " ++ cause.message
  | invalid issues =>
    "manifest validation failed:" ++ String.join (issues.map fun issue => "\n- " ++ issue.message)

/-- The manifest that a document describes. -/
def Manifest.ofValue (path : String) (v : Value) : Except DocumentError Manifest :=
  Decode.alone (Decode.record Decode.manifestFields true v { path })

/-- Reads the text of a manifest and checks what it says. -/
def Manifest.parse (path text : String) : Except ManifestError Manifest :=
  match Value.parse text with
  | .error e => .error (.notRead path (.malformed e))
  | .ok none => .error (.empty path)
  | .ok (some v) =>
    match Manifest.ofValue path v with
    | .error e => .error (.notRead path e)
    | .ok manifest =>
      if manifest.issues.isEmpty then .ok manifest else .error (.invalid manifest.issues)

end TreeScript.Project
