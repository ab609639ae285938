import TreeScript.Decimal.Power
import TreeScript.Syntax.Node
import TreeScript.Pattern.Search

/-!
What a cell can hold. Every binding and every slot of an object refers to a cell, and assignment
overwrites the cell in place, so several names may share one. Objects, iterators and instances of
host types live in the store beside the cells and are referred to by number; functions carry a stamp
that tells two of them apart.
-/

set_option autoImplicit false

namespace TreeScript

structure CellRef where
  index : Nat
deriving DecidableEq, Hashable, Repr, Inhabited

structure TableRef where
  index : Nat
deriving DecidableEq, Hashable, Repr, Inhabited

structure ScopeRef where
  index : Nat
deriving DecidableEq, Hashable, Repr, Inhabited

structure TraceRef where
  index : Nat
deriving DecidableEq, Hashable, Repr, Inhabited

structure IteratorRef where
  index : Nat
deriving DecidableEq, Hashable, Repr, Inhabited

structure InstanceRef where
  index : Nat
deriving DecidableEq, Hashable, Repr, Inhabited

structure ContextRef where
  index : Nat
deriving DecidableEq, Hashable, Repr, Inhabited

/-- Tells apart values that are equal in all but origin. -/
structure Stamp where
  index : Nat
deriving DecidableEq, Hashable, Repr, Inhabited

/-- A stack of scopes, searched from the innermost one outwards, and the stack trace it writes to.
The scopes and the trace are shared with the frames derived from this one. -/
structure Frame where
  top : ScopeRef
  outer : List ScopeRef
  trace : TraceRef
  isRoot : Bool := false
deriving DecidableEq, Inhabited

namespace Frame

/-- The scopes, innermost first. -/
def scopes (frame : Frame) : List ScopeRef := frame.top :: frame.outer

end Frame

/-- A function with the place it was defined at. -/
structure Closure where
  params : List String
  body : Node
  context : ContextRef
  frame : Frame

/-- The methods of objects. -/
inductive ObjectMethod where
  | avg | contains | containsKey | containsValue | cross | distinct | entries | filter
  | filterKeys | foldl | foldr | frequency | head | join | keys | map | mapKeys | max | min | pop
  | push | reduce | removeKey | rename | retainKey | size | sort | sortKey | sum | tail | values
deriving DecidableEq, Repr

/-- The methods of strings. -/
inductive TextMethod where
  | charAt | contains | endsWith | equals | equalsIgnoreCase | fullMatch | replace | replaceAll
  | size | split | startsWith | toLowerCase | toUpperCase | trim
deriving DecidableEq, Repr

/-- The methods of regular expressions. -/
inductive RegexMethod where
  | find | fullMatch | replace | split
deriving DecidableEq, Repr

/-- The methods of iterators. -/
inductive IteratorMethod where
  | hasNext | next
deriving DecidableEq, Repr

/-- The methods of every value. -/
inductive CommonMethod where
  | forEach | functions | isNull | iterator | type
deriving DecidableEq, Repr

inductive Method where
  | object (method : ObjectMethod)
  | text (method : TextMethod)
  | regex (method : RegexMethod)
  | iterator (method : IteratorMethod)
  | common (method : CommonMethod)
deriving DecidableEq, Repr

/-- Functions that a host program adds to the core modules. -/
inductive HostFunction where
  | twice | fail | failTyped | nothing | invoke | bare
deriving DecidableEq, Repr

/-- Functions that are not written in the language. -/
inductive Native where
  | print | getVariable | setVariable | removeVariable | callFunctionByName | getImports
  | inherit | access | typeName
  | range | space | toNumber | round | floor | ceil | abs | sqrt | sin | cos | tan
  | stackTraceValues | trace
  /-- An operator of the table, used as a function. -/
  | operator (symbol : String) (fixity : Fixity)
  | host (function : HostFunction)
deriving DecidableEq, Repr

/-- What a host type can do. -/
inductive HostShape where
  /-- A pair of numbers with methods, an order and a numeric value. -/
  | vector
  /-- A value whose iteration goes wrong in the way its mode says. -/
  | odd
  /-- A value with no capability at all. -/
  | opaqueCount
  /-- A type without a constructor. -/
  | sealed
deriving DecidableEq, Repr

/-- A type that a host program registered under a module. -/
structure HostType where
  stamp : Stamp
  module : String
  name : String
  shape : HostShape
deriving DecidableEq, Repr

/-- The methods of vectors. -/
inductive HostAction where
  | dot | scale | apply | none | fail | staticUnit | staticDot
deriving DecidableEq, Repr

/-- A method of a host type, static or of an instance. -/
structure HostMethod where
  type : HostType
  name : String
  action : HostAction
  isStatic : Bool
deriving DecidableEq, Repr

/-- A compiled regular expression with the pattern and flags it was written with. -/
structure Regex where
  pattern : String
  flags : String
  program : Pattern.Program

/-- The content of a cell. -/
inductive Content where
  | empty
  | number (value : Decimal)
  | string (value : String)
  | boolean (value : Bool)
  | regex (value : Regex)
  | object (table : TableRef)
  | function (stamp : Stamp) (closure : Closure)
  /-- A built-in method with the value it was looked up on. -/
  | method (stamp : Stamp) (method : Method) (receiver : CellRef)
  | native (stamp : Stamp) (function : Native)
  | hostMethod (stamp : Stamp) (method : HostMethod) (receiver : CellRef)
  | iterator (iterator : IteratorRef)
  | custom (ref : InstanceRef)
  | hostType (type : HostType)

instance : Inhabited Content := ⟨.empty⟩

/-- The kinds of content, under the names programs see. -/
inductive Kind where
  | empty | number | string | boolean | regex | object | function | valueFunction
  | nativeFunction | reflectiveFunction | iterator | customType | hostType
deriving DecidableEq, Repr

namespace Kind

def name : Kind → String
  | empty => "empty"
  | number => "number"
  | string => "string"
  | boolean => "boolean"
  | regex => "regex"
  | object => "object"
  | function => "function"
  | valueFunction => "value_function"
  | nativeFunction => "native_function"
  | reflectiveFunction => "reflective_function"
  | iterator => "iterator"
  | customType => "custom_type"
  | hostType => "type"

def isFunction : Kind → Bool
  | function | valueFunction | nativeFunction | reflectiveFunction => true
  | _ => false

end Kind

/-- Whether a type name satisfies an expected one: `any` matches on either side, and `function`
stands for every kind of callable. -/
def isType (actual expected : String) : Bool :=
  expected == actual || expected == "any" || actual == "any" ||
    (expected == "function" &&
      ["value_function", "native_function", "reflective_function"].contains actual)

namespace Content

def kind : Content → Kind
  | empty => .empty
  | number _ => .number
  | string _ => .string
  | boolean _ => .boolean
  | regex _ => .regex
  | object _ => .object
  | function .. => .function
  | method .. => .valueFunction
  | native .. => .nativeFunction
  | hostMethod .. => .reflectiveFunction
  | iterator _ => .iterator
  | custom _ => .customType
  | hostType _ => .hostType

def typeName (content : Content) : String := content.kind.name

def isEmpty : Content → Bool
  | empty => true
  | _ => false

def isFunction (content : Content) : Bool := content.kind.isFunction

/-- The number of parameters of a function of the language. -/
def paramCount? : Content → Option Nat
  | function _ closure => some closure.params.length
  | _ => none

end Content

/-- What makes two keys of an object the same key: value for scalars, the pattern for regular
expressions, and identity for everything else. -/
inductive KeyId where
  | empty
  | number (value : Decimal)
  | string (value : String)
  | boolean (value : Bool)
  | regex (pattern : String)
  | table (ref : TableRef)
  | stamp (stamp : Stamp)
  | iterator (ref : IteratorRef)
  | custom (ref : InstanceRef)
deriving DecidableEq, Hashable

def Content.keyId : Content → KeyId
  | .empty => .empty
  | .number d => .number d
  | .string s => .string s
  | .boolean b => .boolean b
  | .regex r => .regex r.pattern
  | .object table => .table table
  | .function stamp _ | .method stamp _ _ | .native stamp _ | .hostMethod stamp _ _ => .stamp stamp
  | .iterator ref => .iterator ref
  | .custom ref => .custom ref
  | .hostType type => .stamp type.stamp

end TreeScript
