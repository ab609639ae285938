import TreeScript.Store.Frame
import TreeScript.Text.Basic

/-!
What a source declares: imports and exports stand at its top level, and the statements that are left are
its body.
-/

set_option autoImplicit false

namespace TreeScript

/-- What keeps a source from being loaded, linked or run. -/
inductive SourceError where
  | forbiddenImport (name : String)
  | duplicateImport (name source : String)
  | duplicateModule (name source : String)
  | invalidImport (text : String)
  | missingModule (name : String) (available : List String)
  | notLoaded (source : String)
  | noEntry
deriving DecidableEq, Repr

namespace SourceError

def message : SourceError → String
  | forbiddenImport name => "Import is forbidden: " ++ name
  | duplicateImport name source => "Duplicate import name: " ++ name ++ " in " ++ source
  | duplicateModule name source => "Duplicate module name: " ++ name ++ " in " ++ source
  | invalidImport text => "Invalid import statement: " ++ text
  | missingModule name available =>
    "Could not find module '" ++ name ++ "'. Modules available: [" ++ ", ".intercalate available ++ "]"
  | notLoaded source => "No source named " ++ source ++ " has been loaded"
  | noEntry => "Program has no entry source"

def failure (error : SourceError) : Failure := .untraced .importError error.message

end SourceError

/-- Lets a fault of a source end a computation. -/
def Run.ofSource {α : Type} : Except SourceError α → Run α
  | .ok a => pure a
  | .error e => throw e.failure

/-- An import statement as text, such as `math as m` or `import system inline`. -/
def Import.parse (text : String) : Except SourceError Import :=
  let fields := Text.words (Text.dropSuffix (Text.trim text) ";")
  let fields := if fields.head? = some "import" then fields.drop 1 else fields
  match fields with
  | [name] => .ok { name, asName := "", inline := false }
  | [name, "inline"] => .ok { name, asName := "", inline := true }
  | [name, "as", asName] => .ok { name, asName, inline := false }
  | _ => .error (.invalidImport text)

structure Declarations where
  imports : Array Import := #[]
  modules : Array Module := #[]
  body : Array Node := #[]

namespace Declarations

def hasImport (imports : Array Import) (key : String) : Bool := imports.any (·.key == key)

def add (source : String) (forbidden : List String) (declared : Declarations) (node : Node) :
    Except SourceError Declarations :=
  match node with
  | .importStatement name asName inline =>
    let i : Import := { name, asName, inline }
    if forbidden.contains name then .error (.forbiddenImport name)
    else if hasImport declared.imports i.key then .error (.duplicateImport i.key source)
    else .ok { declared with imports := declared.imports.push i }
  | .exportStatement symbols name =>
    if declared.modules.any (·.name == name) then .error (.duplicateModule name source)
    else .ok { declared with modules := declared.modules.push { name, symbols } }
  | _ => .ok { declared with body := declared.body.push node }

/-- Takes the declarations of a source out of its statements. -/
def collect (source : String) (forbidden : List String) (statements : List Node) :
    Except SourceError Declarations :=
  statements.foldlM (add source forbidden) {}

end Declarations

end TreeScript
