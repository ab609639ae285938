import TreeScript.Store.Content

/-!
The names of the methods that values have by their kind, in alphabetical order.
-/

set_option autoImplicit false

namespace TreeScript

namespace ObjectMethod

def name : ObjectMethod → String
  | avg => "avg"
  | contains => "contains"
  | containsKey => "containsKey"
  | containsValue => "containsValue"
  | cross => "cross"
  | distinct => "distinct"
  | entries => "entries"
  | filter => "filter"
  | filterKeys => "filterKeys"
  | foldl => "foldl"
  | foldr => "foldr"
  | frequency => "frequency"
  | head => "head"
  | join => "join"
  | keys => "keys"
  | map => "map"
  | mapKeys => "mapKeys"
  | max => "max"
  | min => "min"
  | pop => "pop"
  | push => "push"
  | reduce => "reduce"
  | removeKey => "removeKey"
  | rename => "rename"
  | retainKey => "retainKey"
  | size => "size"
  | sort => "sort"
  | sortKey => "sortKey"
  | sum => "sum"
  | tail => "tail"
  | values => "values"

def all : List ObjectMethod :=
  [avg, contains, containsKey, containsValue, cross, distinct, entries, filter, filterKeys, foldl,
    foldr, frequency, head, join, keys, map, mapKeys, max, min, pop, push, reduce, removeKey, rename,
    retainKey, size, sort, sortKey, sum, tail, values]

end ObjectMethod

namespace TextMethod

def name : TextMethod → String
  | charAt => "charAt"
  | contains => "contains"
  | endsWith => "endsWith"
  | equals => "equals"
  | equalsIgnoreCase => "equalsIgnoreCase"
  | fullMatch => "matches"
  | replace => "replace"
  | replaceAll => "replaceAll"
  | size => "size"
  | split => "split"
  | startsWith => "startsWith"
  | toLowerCase => "toLowerCase"
  | toUpperCase => "toUpperCase"
  | trim => "trim"

def all : List TextMethod :=
  [charAt, contains, endsWith, equals, equalsIgnoreCase, fullMatch, replace, replaceAll, size, split,
    startsWith, toLowerCase, toUpperCase, trim]

end TextMethod

namespace RegexMethod

def name : RegexMethod → String
  | find => "find"
  | fullMatch => "matches"
  | replace => "replace"
  | split => "split"

def all : List RegexMethod := [find, fullMatch, replace, split]

end RegexMethod

namespace IteratorMethod

def name : IteratorMethod → String
  | hasNext => "hasNext"
  | next => "next"

def all : List IteratorMethod := [hasNext, next]

end IteratorMethod

namespace CommonMethod

def name : CommonMethod → String
  | forEach => "forEach"
  | functions => "functions"
  | isNull => "isNull"
  | iterator => "iterator"
  | type => "type"

def all : List CommonMethod := [forEach, functions, isNull, iterator, type]

end CommonMethod

namespace Method

def name : Method → String
  | object method => method.name
  | text method => method.name
  | regex method => method.name
  | iterator method => method.name
  | common method => method.name

/-- The methods of a kind of value, without those that every value has. -/
def ofKind : Kind → List Method
  | .object => ObjectMethod.all.map object
  | .string => TextMethod.all.map text
  | .regex => RegexMethod.all.map regex
  | .iterator => IteratorMethod.all.map iterator
  | _ => []

def ofEvery : List Method := CommonMethod.all.map common

/-- The method a name stands for on a kind of value. Its own methods come first. -/
def find? (kind : Kind) (name : String) : Option Method :=
  (ofKind kind).find? (·.name == name) <|> ofEvery.find? (·.name == name)

/-- The names of all methods of a kind of value. -/
def names (kind : Kind) : List String := (ofKind kind ++ ofEvery).map (·.name)

end Method

namespace HostType

/-- The methods of an instance. -/
def methods (type : HostType) : List (String × HostAction) :=
  match type.shape with
  | .vector =>
    [("apply", .apply), ("dot", .dot), ("fail", .fail), ("none", .none), ("scale", .scale)]
  | _ => []

/-- The methods of the type itself. -/
def staticMethods (type : HostType) : List (String × HostAction) :=
  match type.shape with
  | .vector => [("dot", .staticDot), ("unit", .staticUnit)]
  | _ => []

/-- The names of all methods, each once and in order. -/
def methodNames (type : HostType) : List String :=
  match type.shape with
  | .vector => ["apply", "dot", "fail", "none", "scale", "unit"]
  | _ => []

end HostType

end TreeScript
