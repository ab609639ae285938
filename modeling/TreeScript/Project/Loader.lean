import TreeScript.Project.Decode
import TreeScript.Project.Files
import TreeScript.Session.Basic
import TreeScript.Syntax.Decode

/-!
Loading programs. A program is a single tree file, or the sources of a project: those of its dependencies
in the order they are declared, then its own, and the entry last.
-/

set_option autoImplicit false

namespace TreeScript.Project

/-- A source and where it came from. -/
structure Source where
  name : String
  /-- The place inside its origin. -/
  path : String
  statements : List Node
  origin : String

structure Program where
  name : String
  entry : Source
  sources : List Source
  settings : Settings := {}

/-- Why a program is not loaded. -/
inductive LoadError where
  | manifest (cause : ManifestError)
  | noManifest
  /-- An operation on a file failed. -/
  | file (operation path : String) (cause : FileError)
  | notRead (path : String) (cause : LoadError)
  | notDecoded (path : String) (cause : DecodeError)
  | notARepository (location : String)
  | notReached (location : String)
  | dependency (name : String) (cause : LoadError)
  | entry (path : String) (cause : LoadError)
  | repeatedSource (name first second : String)

def LoadError.message : LoadError → String
  | manifest cause => cause.message
  | noManifest => manifestName ++ " not found"
  | file operation path cause => operation ++ " " ++ path ++ ": " ++ cause.message
  | notRead path cause => "loader: read " ++ path ++ ": " ++ cause.message
  | notDecoded path cause => "loader: decode " ++ path ++ ": " ++ cause.message
  | notARepository location => "git " ++ location ++ ": open: repository does not exist"
  | notReached location => "git " ++ location ++ ": clone: repository not found"
  | dependency name cause => "loader: dependency " ++ name ++ ": " ++ cause.message
  | entry path cause => "loader: entry " ++ path ++ ": " ++ cause.message
  | repeatedSource name first second =>
    "loader: source " ++ name ++ " defined by " ++ first ++ " and " ++ second

/-- Loading may fail, and it keeps notes of what it did. -/
abbrev Load (m : Type → Type) := ExceptT LoadError (StateT (Array String) m)

section

variable {m : Type → Type} [Monad m]

namespace Load

def ask {α : Type} (act : m α) : Load m α := liftM act

def note (text : String) : Load m Unit := modify fun notes => notes.push text

/-- Gives a failure more context. -/
def inContext {α : Type} (context : LoadError → LoadError) (act : Load m α) : Load m α :=
  tryCatch act fun e => throw (context e)

end Load

open Load

/-! ### Files and directories -/

/-- The text of a file. A directory can be opened but not read. -/
def readFile (files : Files m) (path : String) : Load m String := do
  match ← ask (files.read path) with
  | .ok text => return text
  | .error .isADirectory => throw (.file "read" path .isADirectory)
  | .error e => throw (.file "open" path e)

/-- The statements of a tree file. -/
def readTree (files : Files m) (path : String) : Load m (List Node) := do
  let text ← inContext (.notRead path) (readFile files path)
  match Node.parse text with
  | .ok node => return node.statements
  | .error e => throw (.notDecoded path e)

/-- Loads a single tree file. -/
def loadFile (files : Files m) (path : String) : Load m Source := do
  let statements ← readTree files path
  let base := Path.base path
  return { name := sourceName base, path := base, statements, origin := path }

/-- The name of a source of a dependency. Sources of the project itself have no owner. -/
def ownedName (owner name : String) : String := if owner = "" then name else owner ++ "/" ++ name

/-- A directory whose files are loaded: the patterns they have to fit, and the dependency they belong
to. -/
structure Search where
  root : String
  patterns : List String
  owner : String

/-- Loads a file if its name inside the directory fits. -/
def loadFitting (files : Files m) (search : Search) (path inner : String) :
    Load m (List Source) := do
  if Glob.fitsAny search.patterns inner then
    let statements ← readTree files path
    return [{ name := ownedName search.owner (sourceName inner), path := inner, statements
              origin := search.root }]
  return []

def isHidden (name : String) : Bool := name.toList.head? == some '.'

/-- The name of an entry as seen from the root of a search, in a directory that is seen as `inner`. -/
def innerName (inner name : String) : String := if inner = "" then name else inner ++ "/" ++ name

/-- The entries of a directory in the order of their names. -/
def byName (entries : List (String × FileKind)) : List (String × FileKind) :=
  entries.mergeSort fun a b => Text.compareText a.1 b.1 != .gt

/-- Loads what fits below a directory, in the order of names; hidden directories are passed over. The fuel
bounds how deep directories are nested, and a path through more of them is too long to be opened. -/
def loadBelow (files : Files m) (search : Search) :
    Nat → (path inner : String) → Load m (List Source)
  | 0, path, _ => throw (.file "open" path (.other "file name too long"))
  | fuel + 1, path, inner => do
    match ← ask (files.list path) with
    | .error e => throw (.file "open" path e)
    | .ok entries =>
      let found ← (byName entries).mapM fun (name, kind) =>
        let place := Path.join path name
        let inside := innerName inner name
        match kind with
        | .file => loadFitting files search place inside
        | .directory => if isHidden name then pure [] else loadBelow files search fuel place inside
      return found.flatten

/-- The greatest length of a path, and so of a chain of directories. -/
def maxPathLength : Nat := 4096

/-- Loads the files of a directory that fit the patterns. A file in place of the directory is its own
only member. -/
def loadDirectory (files : Files m) (root : String) (patterns : List String) (owner : String) :
    Load m (List Source) := do
  let search : Search := { root, patterns := patternsOr patterns, owner }
  let sources ← match ← ask (files.kind root) with
    | .error e => throw (.file "lstat" root e)
    | .ok .file => loadFitting files search root "."
    | .ok .directory => loadBelow files search maxPathLength root ""
  note s!"loader: {sources.length} source(s) from {root}"
  return sources

/-! ### Projects -/

/-- Where a repository is: a place below the project if there is something, else the location itself. -/
def repositoryPath (files : Files m) (root location : String) : Load m String := do
  if Text.contains location "://" || Text.hasPrefix location "git@" then
    return location
  let place := Path.resolve root location
  match ← ask (files.kind place) with
  | .ok _ => return place
  | .error _ => return location

/-- Repositories are not read: a directory is none, and nothing else can be reached. -/
def loadRepository (files : Files m) (location : String) : Load m (List Source) := do
  match ← ask (files.kind location) with
  | .ok .directory => throw (.notARepository location)
  | _ => throw (.notReached location)

def loadDependency (files : Files m) (root name : String) (location : Location) :
    Load m (List Source) :=
  inContext (.dependency name) do
    if location.git ≠ "" then loadRepository files (← repositoryPath files root location.git)
    else loadDirectory files (Path.resolve root location.path) location.sources name

/-- Adds sources to others with which they may not share a name. -/
def addSources : List Source → List Source → Except LoadError (List Source)
  | sources, [] => .ok sources
  | sources, source :: more =>
    match sources.find? (·.name = source.name) with
    | some first => .error (.repeatedSource source.name first.origin source.origin)
    | none => addSources (sources ++ [source]) more

/-- The program of a project. The entry is the last source of its name, or a file that no pattern fits. -/
def loadProject (files : Files m) (manifest : Manifest) : Load m Program := do
  let root := Path.parent manifest.path
  let dependencies ← manifest.dependencies.foldlM
    (fun sources (name, location) => do
      addSources sources (← loadDependency files root name location)) []
  let own ← loadDirectory files root manifest.sources ""
  let entryName := sourceName manifest.entry
  let entry ← match own.reverse.find? (·.name = entryName) with
    | some entry => pure entry
    | none => inContext (.entry manifest.entry) do
      let source ← loadFile files (Path.resolve root manifest.entry)
      pure { source with name := entryName, path := manifest.entry }
  let sources ← addSources dependencies (own.filter (·.name ≠ entryName))
  let sources ← addSources sources [entry]
  return { name := manifest.name, entry, sources, settings := manifest.settings }

def loadManifest (files : Files m) (path : String) : Load m Manifest := do
  if path = "" then
    throw (.manifest .noPath)
  let place := Path.absolute files.directory path
  match ← ask (files.read place) with
  | .ok text =>
    match Manifest.parse place text with
    | .ok manifest => return manifest
    | .error e => throw (.manifest e)
  | .error .isADirectory =>
    let cause := LoadError.file "read" place .isADirectory
    throw (.manifest (.notRead place (.unreadable cause.message)))
  | .error e => throw (.manifest (.notOpened place (LoadError.file "open" place e).message))

/-- The first of some directories that has a manifest. -/
def firstManifest (files : Files m) : List String → Load m String
  | [] => throw .noManifest
  | directory :: directories => do
    let candidate := Path.join directory manifestName
    match ← ask (files.kind candidate) with
    | .ok .file => return candidate
    | .ok .directory | .error .notFound => firstManifest files directories
    | .error e => throw (.file "stat" candidate e)

/-- The nearest manifest in the working directory or above it. -/
def findManifest (files : Files m) : Load m String :=
  firstManifest files (Path.ancestors files.directory)

/-- Loads what a command is pointed at: a tree file, the directory of a project, a manifest, or without
a target the nearest project. -/
def loadTarget (files : Files m) (target : String) : Load m Program := do
  let project (path : String) : Load m Program := do loadProject files (← loadManifest files path)
  if target = "" then project (← findManifest files)
  else if Text.hasSuffix target ".yml" || Text.hasSuffix target ".yaml" then project target
  else
    match ← ask (files.kind target) with
    | .error e => throw (.file "stat" target e)
    | .ok .directory => project (Path.join target manifestName)
    | .ok .file => do
      let source ← loadFile files target
      return { name := source.name, entry := source, sources := [source] }

end

end TreeScript.Project
