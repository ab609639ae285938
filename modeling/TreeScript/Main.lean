import TreeScript.Command.Execute

/-!
The command line program.
-/

set_option autoImplicit false

namespace TreeScript.Command

open Project

def fileError : IO.Error → FileError
  | .noFileOrDirectory _ _ _ => .notFound
  | .inappropriateType _ _ _ => .notADirectory
  | e => .other (toString e)

/-- The outcome of an operation on files, or why there is none. -/
def attempt {α : Type} (act : IO α) : IO (Except FileError α) := do
  match ← act.toBaseIO with
  | .ok a => return .ok a
  | .error e => return .error (fileError e)

/-- The text of a file. Bytes that are no text are replaced. -/
def decodeText (bytes : ByteArray) : String :=
  match String.fromUTF8? bytes with
  | some text => text
  | none => String.ofList (bytes.toList.map fun b => if b < 128 then Char.ofNat b.toNat else '\ufffd')

/-- The files of the system, seen from the working directory. -/
def systemFiles : IO (Files IO) := do
  let here ← IO.currentDir
  let kind (path : String) : IO (Except FileError FileKind) := attempt do
    let data ← (here / path).metadata
    return if data.type == .dir then .directory else .file
  return {
    directory := here.toString
    kind
    read := fun path => do
      match ← kind path with
      | .error e => return .error e
      | .ok .directory => return .error .isADirectory
      | .ok .file => attempt do return decodeText (← IO.FS.readBinFile (here / path))
    list := fun path => attempt do
      (← (here / path).readDir).toList.mapM fun entry => do
        let data ← entry.path.symlinkMetadata
        return (entry.fileName, if data.type == .dir then .directory else .file) }

end TreeScript.Command

open TreeScript.Command in
def main (args : List String) : IO UInt32 := do
  let input : IO String := do return decodeText (← (← IO.getStdin).readBinToEnd)
  let outcome ← execute (← systemFiles) input args
  for line in outcome.log do
    IO.eprintln line
  IO.print outcome.stdout
  IO.eprint outcome.stderr
  return outcome.code.toUInt32
