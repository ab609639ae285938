import TreeScript.Decimal.Text
import TreeScript.Store.Machine
import TreeScript.Text.Basic
import TreeScript.Text.Quote

/-!
The arguments of the command line. Flags for the log can stand anywhere; what is left names a command with
flags of its own.
-/

set_option autoImplicit false

namespace TreeScript.Command

def usage : String :=
  "\n".intercalate
    ["Usage:",
      "  menter run [--json] [--debug] [--break <code>] [--trace <0-3>] [target]",
      "  menter <file.json | dir | menter.yml>",
      "  menter ast [--code] <file.json> ...",
      "  menter --version",
      "Global flags: -v (verbose logging), -q (errors only)",
      ""]

def version : String := "menter-cli 0.0.0-dev"

/-- The log level an argument asks for. -/
def logLevel? : String → Option LogLevel
  | "-v" | "--verbose" => some .verbose
  | "-q" | "--quiet" => some .error
  | _ => none

/-! ### Commands -/

inductive Request where
  /-- The usage, and whether it was asked for. -/
  | usage (wanted : Bool)
  | version
  | run (args : List String)
  | trees (args : List String)
deriving DecidableEq, Repr

/-- The command that arguments ask for; they can also begin with its target. -/
def Request.ofArgs : List String → Request
  | [] => .usage false
  | "--help" :: _ | "-h" :: _ | "help" :: _ => .usage true
  | "--version" :: _ | "-V" :: _ | "version" :: _ => .version
  | "run" :: args => .run args
  | "ast" :: args => .trees args
  | args => .run args

/-! ### Flags of a run -/

structure RunFlags where
  json : Bool := false
  debug : Bool := false
  breakpoints : List String := []
  trace : Option Int := none
  target : String := ""
deriving DecidableEq, Repr

/-- Why arguments cannot be understood. -/
inductive UsageError where
  | valueMissing (flag : String)
  | notANumber (text : String)
  | unknownFlag (flag : String)
  | unexpected (args : List String)
deriving DecidableEq, Repr

def UsageError.message : UsageError → String
  | valueMissing flag => flag ++ " requires a value"
  | notANumber text => "--trace expects a number, got " ++ Text.quote text
  | unknownFlag flag => "unknown flag " ++ flag
  | unexpected args => "unexpected arguments: " ++ " ".intercalate args

/-- An integer that fits a word. -/
def wordNumber? (text : String) : Option Int :=
  (Decimal.readInt? text.toList).filter fun n => -(twoTo 63 : Int) ≤ n && n < twoTo 63

namespace RunFlags

def addBreakpoint (flags : RunFlags) (code : String) : RunFlags :=
  { flags with breakpoints := flags.breakpoints ++ [code] }

def setTrace (flags : RunFlags) (text : String) : Except UsageError RunFlags :=
  match wordNumber? text with
  | some n => .ok { flags with trace := some n }
  | none => .error (.notANumber text)

def parseFrom (flags : RunFlags) : List String → Except UsageError RunFlags
  | [] => .ok flags
  | "--json" :: args => parseFrom { flags with json := true } args
  | "--debug" :: args => parseFrom { flags with debug := true } args
  | ["--break"] => .error (.valueMissing "--break")
  | ["--trace"] => .error (.valueMissing "--trace")
  | "--break" :: code :: args => parseFrom (flags.addBreakpoint code) args
  | "--trace" :: text :: args => do parseFrom (← flags.setTrace text) args
  | arg :: args =>
    if Text.hasPrefix arg "--break=" then
      parseFrom (flags.addBreakpoint (Text.dropPrefix arg "--break=")) args
    else if Text.hasPrefix arg "--trace=" then do
      parseFrom (← flags.setTrace (Text.dropPrefix arg "--trace=")) args
    else if Text.hasPrefix arg "-" && arg ≠ "-" then .error (.unknownFlag arg)
    else if flags.target ≠ "" then .error (.unexpected (arg :: args))
    else parseFrom { flags with target := arg } args

def parse (args : List String) : Except UsageError RunFlags := parseFrom {} args

end RunFlags

end TreeScript.Command
