import TreeScript.Decimal.Power
import TreeScript.Eval.Native
import TreeScript.Project.Glob
import TreeScript.Text.Quote

/-!
Manifests. A manifest names a project, its entry, the files that belong to it, the projects it depends on,
and the settings of the interpreter that runs it.
-/

set_option autoImplicit false

namespace TreeScript.Project

/-- The name of the manifest of a project. -/
def manifestName : String := "menter.yml"

/-- What the names of tree files end in. -/
def treeExtension : String := ".json"

/-- Where other sources come from: a directory, or a repository at a revision. A location that is not
given is empty. -/
structure Location where
  path : String := ""
  git : String := ""
  rev : String := ""
  sources : List String := []
deriving DecidableEq, Repr

/-- The settings a project can make. -/
structure Settings where
  divisionScale : Int := 0
  suggestions : Option Int := none
  forbiddenImports : List String := []
  autoImports : List String := []
  trace : Int := 0
  traceValues : List String := []
  logResolve : Bool := false
  logAssignments : Bool := false
  logCalls : Bool := false
deriving DecidableEq, Repr

structure Manifest where
  path : String := ""
  name : String := ""
  entry : String := ""
  sources : List String := []
  /-- The dependencies with their names, in the order they are declared. -/
  dependencies : List (String × Location) := []
  settings : Settings := {}
deriving DecidableEq, Repr

/-- The options of an interpreter with these settings. -/
def Settings.options (s : Settings) : Options where
  divisionScale := s.divisionScale
  suggestions := s.suggestions.getD 0
  forbiddenImports := s.forbiddenImports
  autoImports := s.autoImports
  trace := s.trace
  logResolve := s.logResolve
  logAssignments := s.logAssignments
  logCalls := s.logCalls
  traceValues := s.traceValues

/-- The name of the source in a file. -/
def sourceName (path : String) : String := Text.dropSuffix path treeExtension

/-- The patterns in force: all tree files at the top unless others are given. -/
def patternsOr (patterns : List String) : List String :=
  if patterns.isEmpty then ["*" ++ treeExtension] else patterns

/-! ### Validation -/

/-- What is wrong with a manifest that can be read. -/
inductive Issue where
  | noName
  | noEntry
  | badPattern (index : Nat) (pattern : String)
  | divisionScale (value : Int)
  | suggestions (value : Int)
  | trace (value : Int)
  | noLocation
  | twoLocations
  | strayRevision
  | dependency (name : String) (issue : Issue)
deriving DecidableEq, Repr

def Issue.message : Issue → String
  | noName => "name must be provided"
  | noEntry => "entry must be provided"
  | badPattern index pattern => s!"sources[{index}]: invalid pattern " ++ Text.quote pattern
  | divisionScale value =>
    s!"options.division_scale must be between 0 and {maxDivisionScale}, got {value}"
  | suggestions value => s!"options.suggestions must not be negative, got {value}"
  | trace value => s!"options.trace must be between 0 and {Native.maxTraceStyle}, got {value}"
  | noLocation => "must specify path or git"
  | twoLocations => "path dependencies cannot also specify git"
  | strayRevision => "rev applies only to git dependencies"
  | dependency name issue => "dependencies." ++ name ++ ": " ++ issue.message

def patternIssues (patterns : List String) : List Issue :=
  patterns.zipIdx.filterMap fun (pattern, i) =>
    if (Glob.parse? pattern).isNone then some (.badPattern i pattern) else none

def Settings.issues (s : Settings) : List Issue :=
  (if s.divisionScale < 0 ∨ maxDivisionScale < s.divisionScale then
    [.divisionScale s.divisionScale] else []) ++
  (match s.suggestions with
    | some n => if n < 0 then [.suggestions n] else []
    | none => []) ++
  (if s.trace < 0 ∨ Native.maxTraceStyle < s.trace then [.trace s.trace] else [])

def Location.issues (l : Location) : List Issue :=
  (if l.path = "" ∧ l.git = "" then [.noLocation]
    else if l.path ≠ "" ∧ l.git ≠ "" then [.twoLocations] else []) ++
  (if l.rev ≠ "" ∧ l.git = "" then [.strayRevision] else []) ++
  patternIssues l.sources

def Manifest.issues (m : Manifest) : List Issue :=
  (if m.name = "" then [.noName] else []) ++
  (if m.entry = "" then [.noEntry] else []) ++
  patternIssues m.sources ++
  m.settings.issues ++
  m.dependencies.flatMap fun (name, location) => location.issues.map (.dependency name)

end TreeScript.Project
