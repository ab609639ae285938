import TreeScript.Text.Basic

/-!
Paths and access to files. A path has the names of directories and files, divided by slashes. What a
project is loaded from is given as a record of operations, so that the same loading works on the files
of a system and on a tree of files held in memory.
-/

set_option autoImplicit false

namespace TreeScript.Project

/-! ### Paths

All functions here look at the text alone. -/

namespace Path

def isAbsolute (path : String) : Bool := path.toList.head? == some '/'

/-- What stands between the slashes. -/
def pieces (path : String) : List String :=
  (Text.splitBy (· == '/') path.toList).map String.ofList

def parts (path : String) : List String := (pieces path).filter (· ≠ "")

/-- The names that are left when dots are gone and two dots have taken back the name before them. The
names before are given in reverse. At the root nothing can be taken back. -/
def resolveDots (rooted : Bool) : List String → List String → List String
  | before, [] => before.reverse
  | before, "." :: names => resolveDots rooted before names
  | before, ".." :: names =>
    match before with
    | [] => resolveDots rooted (if rooted then [] else [".."]) names
    | ".." :: _ => resolveDots rooted (".." :: before) names
    | _ :: above => resolveDots rooted above names
  | before, name :: names => resolveDots rooted (name :: before) names

/-- The shortest path of the same meaning. -/
def clean (path : String) : String :=
  let rooted := isAbsolute path
  let text := "/".intercalate (resolveDots rooted [] (parts path))
  if rooted then "/" ++ text else if text = "" then "." else text

def join (directory path : String) : String :=
  if directory = "" then (if path = "" then "" else clean path)
  else clean (directory ++ "/" ++ path)

/-- The path itself if it is absolute, else the one below a directory. -/
def resolve (directory path : String) : String :=
  if isAbsolute path then path else join directory path

/-- The absolute path, as seen from a working directory. -/
def absolute (directory path : String) : String := clean (resolve directory path)

/-- The last name of a path. -/
def base (path : String) : String :=
  match (parts path).getLast? with
  | some name => name
  | none => if path = "" then "." else "/"

/-- The path without its last name. -/
def parent (path : String) : String :=
  let upToSlash := (path.toList.reverse.dropWhile (· ≠ '/')).reverse
  clean (String.ofList upToSlash)

/-- The directories above the names given in reverse, from the nearest one on. -/
def ancestorsOf : List String → List String
  | [] => ["/"]
  | name :: above => ("/" ++ "/".intercalate (name :: above).reverse) :: ancestorsOf above

/-- An absolute path and all directories above it. -/
def ancestors (path : String) : List String := ancestorsOf (parts (clean path)).reverse

end Path

/-! ### Files -/

inductive FileKind where
  | file | directory
deriving DecidableEq, Repr

inductive FileError where
  | notFound
  | notADirectory
  | isADirectory
  | other (text : String)
deriving DecidableEq, Repr

def FileError.message : FileError → String
  | notFound => "no such file or directory"
  | notADirectory => "not a directory"
  | isADirectory => "is a directory"
  | other text => text

/-- Operations on files. Paths are absolute, or begin in the working directory. -/
structure Files (m : Type → Type) where
  /-- The absolute path of the working directory. -/
  directory : String
  kind : String → m (Except FileError FileKind)
  read : String → m (Except FileError String)
  /-- The names in a directory, in any order. -/
  list : String → m (Except FileError (List (String × FileKind)))

/-- A file or a directory with what is in it. -/
inductive FileTree where
  | file (text : String)
  | directory (entries : List (String × FileTree))
deriving Inhabited

namespace FileTree

def kind : FileTree → FileKind
  | file _ => .file
  | directory _ => .directory

/-- Puts a file or a directory at a place; directories on the way there are made. A directory that is
there already is kept. -/
def insert (tree : FileTree) : List String → FileTree → FileTree
  | [], new =>
    match tree, new with
    | directory entries, directory [] => directory entries
    | _, _ => new
  | name :: names, new =>
    let entries := match tree with
      | directory entries => entries
      | file _ => []
    let below := insert ((entries.lookup name).getD (directory [])) names new
    directory (entries.filter (·.1 ≠ name) ++ [(name, below)])

/-- Follows names from the innermost of some nested directories. -/
def follow : List FileTree → List String → Except FileError FileTree
  | [], _ => .error .notFound
  | here :: _, [] => .ok here
  | here :: above, name :: names =>
    match here with
    | file _ => .error .notADirectory
    | directory entries =>
      if name = "" ∨ name = "." then follow (here :: above) names
      else if name = ".." then follow (if above.isEmpty then [here] else above) names
      else
        match entries.lookup name with
        | some tree => follow (tree :: here :: above) names
        | none => .error .notFound

/-- What is found under a path, as seen from a working directory. -/
def find (tree : FileTree) (workDirectory path : String) : Except FileError FileTree :=
  if path = "" then .error .notFound
  else if Path.isAbsolute path then follow [tree] (Path.pieces path)
  else follow [tree] (Path.pieces workDirectory ++ Path.pieces path)

/-- The operations on a tree of files. -/
def files (tree : FileTree) (workDirectory : String) : Files Id where
  directory := workDirectory
  kind path := (tree.find workDirectory path).map kind
  read path := do
    match tree.find workDirectory path with
    | .ok (file text) => .ok text
    | .ok (directory _) => .error .isADirectory
    | .error e => .error e
  list path := do
    match tree.find workDirectory path with
    | .ok (directory entries) => .ok (entries.map fun (name, t) => (name, t.kind))
    | .ok (file _) => .error .notADirectory
    | .error e => .error e

end FileTree

end TreeScript.Project
