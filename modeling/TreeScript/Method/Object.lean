import TreeScript.Store.Access

/-!
The methods of objects. Those that call a function for every entry go over the entries as they are
while the calls change them; the others take the entries as they were at the start.

Sorting is stable, by a test that may have effects or fail. Which elements are compared, and when, is
part of what a program can observe, so the order of comparisons is fixed: blocks of twenty are sorted
by insertion, and neighbouring blocks are then merged in place by rotating the part of each that
belongs into the other.
-/

set_option autoImplicit false

namespace TreeScript.Sorting

variable {m : Type → Type} [Monad m] {α : Type}

/-- Whether the element at one place goes before that at another. -/
def lessAt (less : α → α → m Bool) (xs : Array α) (i j : Nat) : m Bool :=
  match xs[i]?, xs[j]? with
  | some a, some b => less a b
  | _, _ => pure false

/-- Moves the element at `j` down at most `count` places, past those it goes before. -/
def sink (less : α → α → m Bool) : Nat → Nat → Array α → m (Array α)
  | 0, _, xs => pure xs
  | count + 1, j, xs => do
    if ← lessAt less xs j (j - 1) then sink less count (j - 1) (xs.swapIfInBounds j (j - 1))
    else return xs

/-- Sorts the places from `start` up to `stop` by insertion. -/
def insertionSort (less : α → α → m Bool) (start stop : Nat) (xs : Array α) : m (Array α) :=
  (List.range (stop - start - 1)).foldlM
    (fun xs k => sink less (k + 1) (start + k + 1) xs) xs

/-- The first place between `i` and `j` where a test that holds up to some place and fails from there
on fails. -/
def search (test : Nat → m Bool) : Nat → Nat → Nat → m Nat
  | 0, i, _ => pure i
  | fuel + 1, i, j => do
    if i < j then
      let h := (i + j) / 2
      if ← test h then search test fuel (h + 1) j else search test fuel i h
    else return i

/-- Exchanges the neighbouring stretches that begin at `start` and `middle`. -/
def rotate (start middle stop : Nat) (xs : Array α) : Array α :=
  xs.extract 0 start ++ xs.extract middle stop ++ xs.extract start middle ++
    xs.extract stop xs.size

/-- Merges two sorted stretches that lie side by side. -/
def merge (less : α → α → m Bool) : Nat → Nat → Nat → Nat → Array α → m (Array α)
  | 0, _, _, _, xs => pure xs
  | fuel + 1, start, middle, stop, xs => do
    if middle - start = 1 then
      let place ← search (fun h => lessAt less xs h start) (stop - middle) middle stop
      return rotate start middle place xs
    if stop - middle = 1 then
      let place ← search (fun h => do return !(← lessAt less xs middle h))
        (middle - start) start middle
      return rotate place middle stop xs
    let half := (start + stop) / 2
    let sum := half + middle
    let (low, high) := if half < middle then (sum - stop, half) else (start, middle)
    let first ← search (fun c => do return !(← lessAt less xs (sum - 1 - c) c)) (high - low) low high
    let last := sum - first
    let xs := if first < middle ∧ middle < last then rotate first middle last xs else xs
    let xs ← if start < first ∧ first < half then merge less fuel start first half xs else pure xs
    if half < last ∧ last < stop then merge less fuel half last stop xs else return xs

/-- Does something for every stretch of a width, the last of which may be shorter. -/
def forStretches (width size : Nat) (act : Nat → Nat → Array α → m (Array α)) (xs : Array α) :
    m (Array α) :=
  (List.range ((size + width - 1) / width)).foldlM
    (fun xs k => act (k * width) (min size ((k + 1) * width)) xs) xs

/-- Merges sorted blocks of a width two by two, until a single one is left. -/
def mergeBlocks (less : α → α → m Bool) : Nat → Nat → Array α → m (Array α)
  | 0, _, xs => pure xs
  | fuel + 1, width, xs => do
    if width < xs.size then
      let step (start stop : Nat) (xs : Array α) : m (Array α) :=
        if start + width < stop then merge less xs.size start (start + width) stop xs else pure xs
      let xs ← forStretches (2 * width) xs.size step xs
      mergeBlocks less fuel (2 * width) xs
    else return xs

/-- The width of the blocks that are sorted by insertion. -/
def blockWidth : Nat := 20

/-- Sorts, leaving elements in order of which neither goes before the other. -/
def sort (less : α → α → m Bool) (xs : Array α) : m (Array α) := do
  let xs ← forStretches blockWidth xs.size (insertionSort less) xs
  mergeBlocks less xs.size blockWidth xs

end TreeScript.Sorting

namespace TreeScript.ObjectMethod

def entriesOf (cell : CellRef) : Run (List Entry) := do
  return (← tableOf (← tableOrNew cell)).entries

def valuesOf (cell : CellRef) : Run (List CellRef) := do
  return (← tableOf (← tableOrNew cell)).values

/-- An object of the given entries. -/
def objectOf (entries : List Entry) : Run CellRef := do
  let ref ← newTable
  for entry in entries do
    setEntry ref entry.key entry.value
  newObject ref

/-- An array of the values for an array, and an object of the entries for any other object. -/
def rebuild (isArray : Bool) (entries : List Entry) : Run CellRef :=
  if isArray then newArray (entries.map (·.value)) else objectOf entries

def isArray (ref : TableRef) : Run Bool := return (← get).isArray ref

def newEntryObject (entry : Entry) : Run CellRef := do
  let ref ← newTable
  setText ref "key" entry.key
  setText ref "value" entry.value
  newObject ref

/-- The entries that a test with effects accepts. -/
def selectEntries (ref : TableRef) (test : Entry → Run Bool) : Run (List Entry) := do
  let kept ← forEntries ref #[] fun kept entry => do
    return if ← test entry then kept.push entry else kept
  return kept.toList

/-- An object of the entries that a test accepts, under the same keys. -/
def retainEntries (ref : TableRef) (test : Entry → Run Bool) : Run CellRef := do
  let out ← newTable
  forEntries ref () fun _ entry => do
    if ← test entry then
      setEntry out entry.key entry.value
  newObject out

def mapEntries (call : Call) (ref : TableRef) (function : CellRef) : Run CellRef := do
  let withKey := (← content function).paramCount? = some 2
  let out ← newTable
  forEntries ref () fun _ entry => do
    let args := if withKey then [entry.key, entry.value] else [entry.value]
    let mapped ← call.invoke "map" function args
    setEntry out entry.key mapped
  newObject out

def mapKeysOf (call : Call) (ref : TableRef) (function : CellRef) : Run CellRef := do
  let out ← newTable
  forEntries ref () fun _ entry => do
    let mapped ← call.invoke "mapKeys" function [entry.key]
    setEntry out mapped entry.value
  newObject out

def filterEntries (call : Call) (ref : TableRef) (function : CellRef) : Run CellRef := do
  let test (entry : Entry) : Run Bool := do
    isTrue (← call.invoke "filter" function [entry.value])
  if ← isArray ref then
    newArray ((← selectEntries ref test).map (·.value))
  else retainEntries ref test

/-- The first of every group of entries with equal values. -/
def distinctEntries (m : Machine) (entries : List Entry) : List Entry :=
  (entries.foldl
    (fun kept entry =>
      if kept.any fun (former : Entry) => m.equal former.value entry.value then kept
      else kept.push entry)
    (#[] : Array Entry)).toList

/-- Every value with the number of times it occurs, in order of first occurrence. -/
def countValues (m : Machine) (values : List CellRef) : List (CellRef × Nat) :=
  (values.foldl
    (fun counts value =>
      match counts.findIdx? fun (former, _) => m.equal former value with
      | some i => counts.modify i fun (former, n) => (former, n + 1)
      | none => counts.push (value, 1))
    (#[] : Array (CellRef × Nat))).toList

/-- An order given by a function, or else the natural one. Functions of the language count only if
they have two parameters. -/
def comparator (call : Call) (args : List CellRef) : Run (CellRef → CellRef → Run Int) := do
  let natural (a b : CellRef) : Run Int := do
    match ← compareValues a b with
    | .lt => return -1
    | .eq => return 0
    | .gt => return 1
  match args with
  | [] => return natural
  | function :: _ =>
    let content ← content function
    if content.isFunction && (content.paramCount?.getD 2) == 2 then
      return fun a b => do
        let result ← call.invoke "compareTo" function [a, b]
        return (((← get).number? result).map Decimal.word).getD 0
    else return natural

def sortEntries (call : Call) (ref : TableRef) (args : List CellRef) (byKey : Bool) :
    Run CellRef := do
  let order ← comparator call args
  let less (a b : Entry) : Run Bool := do
    let keyed ← if byKey then do pure !(← isArray ref) else pure false
    let c ← if keyed then order a.key b.key else order a.value b.value
    return c < 0
  let sorted ← Sorting.sort less (← tableOf ref).entries.toArray
  rebuild (← isArray ref) sorted.toList

/-- Combines values from the left, starting with the first argument if there are two, and else with
the first value. -/
def foldValues (call : Call) (name : String) (values args : List CellRef) : Run CellRef := do
  requireArgs name args 1
  match values, args with
  | [], _ | _, [] => newEmpty
  | first :: rest, [function] => rest.foldlM (fun acc v => call.invoke name function [acc, v]) first
  | values, seed :: arg :: args =>
    let function := (arg :: args).getLast (by simp)
    values.foldlM (fun acc v => call.invoke name function [acc, v]) seed

def sumValues (values : List CellRef) : Run Decimal := do
  let m ← get
  values.foldlM
    (fun total value =>
      match m.number? value with
      | some d => pure (total + d)
      | none => Run.fail s!"cannot sum value of type {m.typeName value}")
    (Decimal.ofInt 0)

/-- The first value that no other one exceeds in the direction of the sign. -/
def extreme (call : Call) (values args : List CellRef) (sign : Int) : Run CellRef := do
  let order ← comparator call args
  match values with
  | [] => newEmpty
  | first :: rest =>
    rest.foldlM
      (fun best value => do
        let c ← order value best
        return if 0 < (c * sign).bmod (twoTo 64) then value else best)
      first

/-- Two values as one: objects are merged, a plain value is added to an object, two of them make a
pair. -/
def combine (a b : CellRef) : Run CellRef := do
  let out ← newTable
  match (← get).tableOf? a, (← get).tableOf? b with
  | none, none =>
    pushEntry out a
    pushEntry out b
  | none, some t =>
    mergeInto out t
    pushEntry out a
  | some s, none =>
    mergeInto out s
    pushEntry out b
  | some s, some t =>
    mergeInto out s
    mergeInto out t
  newObject out

/-- Every value of one object combined with every value of another, where a filter accepts the pair. -/
def crossProduct (call : Call) (values : List CellRef) (other : TableRef)
    (filter : Option CellRef) : Run CellRef := do
  let keep (a b : CellRef) : Run Bool := do
    match filter with
    | some function => isTrue (← call.invoke "filter" function [a, b])
    | none => return true
  let pairs ← values.foldlM
    (fun pairs a => do
      (← tableOf other).values.foldlM
        (fun pairs b => do
          if ← keep a b then
            return pairs.push (← combine a b)
          return pairs)
        pairs)
    (#[] : Array CellRef)
  newArray pairs.toList

/-- Deletes the keys that a selector picks, or those it does not pick. -/
def removeKeys (call : Call) (self selector : CellRef) (picked : Bool) : Run CellRef := do
  let ref ← tableOrNew self
  let doomed ← selectEntries ref fun entry => do
    let found ←
      if (← content selector).isFunction then isTrue (← call.invoke "filter" selector [entry.key])
      else equal entry.key selector
    return found == picked
  for entry in doomed do
    let _ ← eraseEntry ref entry.key
  return self

def popEntry (self : CellRef) (args : List CellRef) : Run CellRef := do
  let ref ← tableOrNew self
  let m ← get
  if (m.table ref).size = 0 then
    return ← newEmpty
  let key ← if m.isArray ref then newNumber (m.highestKey ref) else argument args 0
  match ← eraseEntry ref key with
  | some removed => return removed
  | none => newEmpty

/-- The texts of the values with a separator between and texts around them. -/
def joinTexts (self : CellRef) (args : List CellRef) : Run CellRef := do
  let m ← get
  let text (i : Nat) : String := (args[i]?.map m.display).getD ""
  let parts := (← valuesOf self).map m.display
  newString (text 1 ++ (text 0).intercalate parts ++ text 2)

def run (call : Call) (method : ObjectMethod) (self : CellRef) (args : List CellRef) :
    Run CellRef := do
  let first : Run CellRef := argument args 0
  match method with
  | size => newNumber (Decimal.ofInt (← sizeOf self))
  | keys => newArray ((← entriesOf self).map (·.key))
  | values => newArray (← valuesOf self)
  | entries => newArray (← (← entriesOf self).mapM newEntryObject)
  | contains | containsValue => do
    requireArgs "contains" args 1
    let sought ← first
    let m ← get
    newBoolean ((← valuesOf self).any fun value => m.equal value sought)
  | containsKey => do
    requireArgs method.name args 1
    let ref ← tableOrNew self
    newBoolean ((← get).lookUp ref (← first)).isSome
  | push => do
    requireArgs method.name args 1
    let ref ← tableOrNew self
    match args with
    | key :: value :: _ => setEntry ref key value
    | _ => pushEntry ref (← first)
    return self
  | pop => popEntry self args
  | map => do
    requireArgs method.name args 1
    mapEntries call (← tableOrNew self) (← first)
  | mapKeys => do
    requireArgs method.name args 1
    mapKeysOf call (← tableOrNew self) (← first)
  | filter => do
    requireArgs method.name args 1
    filterEntries call (← tableOrNew self) (← first)
  | filterKeys => do
    requireArgs method.name args 1
    let function ← first
    retainEntries (← tableOrNew self) fun entry => do
      isTrue (← call.invoke "filterKeys" function [entry.key])
  | distinct => do
    let ref ← tableOrNew self
    let m ← get
    rebuild (m.isArray ref) (distinctEntries m (m.table ref).entries)
  | sort => do sortEntries call (← tableOrNew self) args false
  | sortKey => do sortEntries call (← tableOrNew self) args true
  | join => joinTexts self args
  | reduce | foldl => do foldValues call method.name (← valuesOf self) args
  | foldr => do foldValues call method.name (← valuesOf self).reverse args
  | sum => do newNumber (← sumValues (← valuesOf self))
  | avg => do
    let values ← valuesOf self
    if values.isEmpty then
      return ← newEmpty
    let total ← sumValues values
    newNumber (← Run.ofNumber (total.divide (Decimal.ofInt values.length) call.scale))
  | max => do extreme call (← valuesOf self) args 1
  | min => do extreme call (← valuesOf self) args (-1)
  | head => do
    match ← valuesOf self with
    | [] => newEmpty
    | value :: _ => return value
  | tail => do
    let ref ← tableOrNew self
    let m ← get
    rebuild (m.isArray ref) ((m.table ref).entries.drop 1)
  | cross => do
    requireArgs method.name args 1
    let other ← first
    let type := (← get).typeName other
    match (← get).tableOf? other with
    | some ref => crossProduct call (← valuesOf self) ref args[1]?
    | none => Run.fail s!"cross requires an object argument, got {type}"
  | frequency => do
    let values ← valuesOf self
    let m ← get
    let counted ← (countValues m values).mapM fun (value, count) => do
      return ⟨value, ← newNumber (Decimal.ofInt count)⟩
    objectOf counted
  | rename => do
    requireArgs method.name args 2
    let ref ← tableOrNew self
    if let some value ← eraseEntry ref (← first) then
      setEntry ref (← argument args 1) value
    return self
  | removeKey => do
    requireArgs method.name args 1
    removeKeys call self (← first) true
  | retainKey => do
    requireArgs method.name args 1
    removeKeys call self (← first) false

end TreeScript.ObjectMethod
