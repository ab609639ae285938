/-!
Failures. A fault is an execution error: it has a kind, a message and the stack trace of the place
where it was first seen. A plain failure is one that has not crossed a call yet and so has neither.
Running out of fuel is a failure of its own that nothing catches.
-/

set_option autoImplicit false

namespace TreeScript

inductive ErrorKind where
  | internal | typeMismatch | arity | unresolvedSymbol | illegalModuleAccess | invalidControl
  | construction | importError | native
deriving DecidableEq, Repr, Inhabited

def ErrorKind.name : ErrorKind → String
  | internal => "internal"
  | typeMismatch => "type_mismatch"
  | arity => "arity"
  | unresolvedSymbol => "unresolved_symbol"
  | illegalModuleAccess => "illegal_module_access"
  | invalidControl => "invalid_control"
  | construction => "construction"
  | importError => "import"
  | native => "native"

structure Fault where
  kind : ErrorKind
  message : String
  /-- The stack trace, empty until one is attached. -/
  trace : String := ""
deriving DecidableEq, Repr

def Fault.text (fault : Fault) : String :=
  if fault.trace = "" then fault.message else fault.message ++ "\n" ++ fault.trace

inductive Failure where
  | plain (message : String)
  | fault (fault : Fault)
  | outOfFuel
deriving DecidableEq, Repr

namespace Failure

/-- A fault without a trace. -/
def untraced (kind : ErrorKind) (message : String) : Failure := .fault { kind, message }

def text : Failure → String
  | plain message => message
  | fault f => f.text
  | outOfFuel => "out of fuel"

/-- Gives a failure a trace, and a kind if it has none yet. A failure that has a trace keeps
everything it has. -/
def attach (kind : ErrorKind) (trace : String) : Failure → Failure
  | plain message => fault { kind, message, trace }
  | fault f => if f.trace = "" then fault { f with trace } else fault f
  | outOfFuel => outOfFuel

end Failure

end TreeScript
