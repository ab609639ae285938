import TreeScript.Proofs.Comparison.Laws

/-!
# Methods and operators under comparison

Built-in methods and operators call back into the language through what they get from their caller.
If the calls of two callers compare, so do the methods called through them (`method`, `hostMethod`)
and the operators applied for them (`evaluateOperator`). Sorting compares whenever the test that it
sorts by does (`sort`); the lemmas for it follow the parts of the algorithm: insertion within blocks,
the search for a place in a sorted stretch, and the merges of neighbouring stretches.
-/

set_option autoImplicit false

namespace TreeScript

/-- The order of values as a number: negative, zero or positive. -/
def ObjectMethod.naturalOrder (a b : CellRef) : Run Int := do
  match ← compareValues a b with
  | .lt => return -1
  | .eq => return 0
  | .gt => return 1

namespace Comparison

open Relations

variable {K : Comparison} {m : Machine} {σ : Type} {call call' : Call}

section Sorting

variable {α : Type} {less less' : α → α → Run Bool}
  (hless : ∀ a b, K.Same m (less a b) (less' a b))

include hless in
theorem lessAt (xs : Array α) (i j : Nat) :
    K.Same m (Sorting.lessAt less xs i j) (Sorting.lessAt less' xs i j) := by
  unfold Sorting.lessAt
  split
  · exact hless _ _
  · exact Same.refl_pure false

include hless in
theorem sink (count : Nat) : ∀ (j : Nat) (xs : Array α),
    K.Same m (Sorting.sink less count j xs) (Sorting.sink less' count j xs) := by
  induction count with
  | zero => exact fun j xs ↦ Same.refl_pure xs
  | succ count ih =>
    intro j xs
    refine (lessAt hless xs j (j - 1)).bind fun goesBefore ↦ ?_
    split
    · exact ih _ _
    · exact Same.refl_pure xs

include hless in
theorem insertionSort (start stop : Nat) (xs : Array α) :
    K.Same m (Sorting.insertionSort less start stop xs)
      (Sorting.insertionSort less' start stop xs) :=
  Same.foldlM _ (fun xs k ↦ sink hless (k + 1) (start + k + 1) xs) xs

theorem search {test test' : Nat → Run Bool} (htest : ∀ i, K.Same m (test i) (test' i))
    (fuel : Nat) : ∀ i j : Nat,
    K.Same m (Sorting.search test fuel i j) (Sorting.search test' fuel i j) := by
  induction fuel with
  | zero => exact fun i j ↦ Same.refl_pure i
  | succ fuel ih =>
    intro i j
    unfold Sorting.search
    split
    · refine (htest _).bind fun holds ↦ ?_
      split
      · exact ih _ _
      · exact ih _ _
    · exact Same.refl_pure i

include hless in
/-- Merging compares: each of the two searches and the merges of the halves do. -/
theorem merge (fuel : Nat) : ∀ (start middle stop : Nat) (xs : Array α),
    K.Same m (Sorting.merge less fuel start middle stop xs)
      (Sorting.merge less' fuel start middle stop xs) := by
  have hnot (xs : Array α) (i j : Nat) : K.Same m
      (do return !(← Sorting.lessAt less xs i j)) (do return !(← Sorting.lessAt less' xs i j)) :=
    (lessAt hless xs i j).bind fun b ↦ Same.refl_pure (!b)
  induction fuel with
  | zero => exact fun start middle stop xs ↦ Same.refl_pure xs
  | succ fuel ih =>
    intro start middle stop xs
    unfold Sorting.merge
    split
    · exact (search (fun h ↦ lessAt hless xs h start) _ _ _).bind fun _ ↦ Same.refl_pure _
    · split
      · exact (search (fun h ↦ hnot xs middle h) _ _ _).bind fun _ ↦ Same.refl_pure _
      · dsimp only
        generalize (if (start + stop) / 2 < middle then
          ((start + stop) / 2 + middle - stop, (start + stop) / 2) else (start, middle)) = range
        refine (search (fun c ↦ hnot xs _ c) _ _ _).bind fun first ↦ ?_
        have hlast (last : Nat) (ys : Array α) : K.Same m
            (if (start + stop) / 2 < last ∧ last < stop then
              Sorting.merge less fuel ((start + stop) / 2) last stop ys else pure ys)
            (if (start + stop) / 2 < last ∧ last < stop then
              Sorting.merge less' fuel ((start + stop) / 2) last stop ys else pure ys) := by
          split
          · exact ih _ _ _ _
          · exact Same.refl_pure ys
        split
        · exact (ih _ _ _ _).bind fun ys ↦ hlast _ ys
        · exact (Same.refl_pure _).bind fun ys ↦ hlast _ ys

theorem forStretches {act act' : Nat → Nat → Array α → Run (Array α)}
    (hact : ∀ i j xs, K.Same m (act i j xs) (act' i j xs)) (width size : Nat) (xs : Array α) :
    K.Same m (Sorting.forStretches width size act xs)
      (Sorting.forStretches width size act' xs) :=
  Same.foldlM _ (fun xs _ ↦ hact _ _ xs) xs

include hless in
theorem mergeBlocks (fuel : Nat) : ∀ (width : Nat) (xs : Array α),
    K.Same m (Sorting.mergeBlocks less fuel width xs)
      (Sorting.mergeBlocks less' fuel width xs) := by
  induction fuel with
  | zero => exact fun width xs ↦ Same.refl_pure xs
  | succ fuel ih =>
    intro width xs
    unfold Sorting.mergeBlocks
    split
    · refine (forStretches (fun start stop ys ↦ ?_) _ _ xs).bind fun ys ↦ ih _ ys
      split
      · exact merge hless _ _ _ _ ys
      · exact Same.refl_pure ys
    · exact Same.refl_pure xs

include hless in
/-- Sorting by tests that compare compares. -/
theorem sort (xs : Array α) : K.Same m (Sorting.sort less xs) (Sorting.sort less' xs) :=
  (forStretches (fun i j ys ↦ insertionSort hless i j ys) _ _ xs).bind fun ys ↦
    mergeBlocks hless _ _ ys

end Sorting

/-- Comparing goes through an entry by entry walk. -/
theorem forEntries {act act' : σ → Entry → Run σ} (ref : TableRef)
    (hact : ∀ s entry, K.Same m (act s entry) (act' s entry)) (init : σ) :
    K.Same m (forEntries ref init act) (forEntries ref init act') := by
  refine (steady (.tableOf ref)).bind fun _ ↦ Same.foldlM _ (fun s i ↦ ?_) init
  refine (steady (.tableOf ref)).bind fun _ ↦ ?_
  split
  · exact hact s _
  · exact Same.refl_pure s

section Selection

variable {test test' : Entry → Run Bool} (htest : ∀ entry, K.Same m (test entry) (test' entry))
include htest

theorem selectEntries (ref : TableRef) :
    K.Same m (ObjectMethod.selectEntries ref test) (ObjectMethod.selectEntries ref test') := by
  refine Same.bind (forEntries ref (fun kept entry ↦ ?_) #[]) fun _ ↦ Same.refl_pure _
  exact (htest entry).bind fun _ ↦ Same.refl_pure _

theorem retainEntries (ref : TableRef) :
    K.Same m (ObjectMethod.retainEntries ref test) (ObjectMethod.retainEntries ref test') := by
  refine (steady .newTable).bind fun out ↦
    Same.bind (forEntries ref (fun _ entry ↦ ?_) ()) fun _ ↦ steady (.newObject out)
  refine (htest entry).bind fun accepted ↦ ?_
  split
  · exact steady (.setEntry out _ _)
  · exact Same.refl_pure ()

end Selection

variable (hcall : K.Calls m call call')
include hcall

/-- The truth of what a function answers. -/
theorem answer (name : String) (function : CellRef) (args : List CellRef) :
    K.Same m (do isTrue (← call.invoke name function args))
      (do isTrue (← call'.invoke name function args)) :=
  (hcall.invoke name function args).bind fun result ↦ steady (.isTrue result)

/-! ### Methods of objects -/

theorem mapEntries (ref : TableRef) (function : CellRef) :
    K.Same m (ObjectMethod.mapEntries call ref function)
      (ObjectMethod.mapEntries call' ref function) := by
  refine Runs.content_bind fun c c' halike ↦ ?_
  rw [halike.paramCount?]
  refine (steady .newTable).bind fun out ↦
    Same.bind (forEntries ref (fun _ entry ↦ ?_) ()) fun _ ↦ steady (.newObject out)
  exact (hcall.invoke _ _ _).bind fun mapped ↦ steady (.setEntry out _ mapped)

theorem mapKeysOf (ref : TableRef) (function : CellRef) :
    K.Same m (ObjectMethod.mapKeysOf call ref function)
      (ObjectMethod.mapKeysOf call' ref function) := by
  refine (steady .newTable).bind fun out ↦
    Same.bind (forEntries ref (fun _ entry ↦ ?_) ()) fun _ ↦ steady (.newObject out)
  exact (hcall.invoke _ _ _).bind fun mapped ↦ steady (.setEntry out mapped _)

theorem filterEntries (ref : TableRef) (function : CellRef) :
    K.Same m (ObjectMethod.filterEntries call ref function)
      (ObjectMethod.filterEntries call' ref function) := by
  refine (steady (.isArray ref)).bind fun isArray ↦ ?_
  split
  · exact (selectEntries (fun entry ↦ answer hcall _ _ _) ref).bind fun kept ↦
      steady (.newArray _)
  · exact retainEntries (fun entry ↦ answer hcall _ _ _) ref

/-- The orders that two calls give. -/
theorem comparator (args : List CellRef) :
    K.Runs m (fun n order order' ↦ ∀ a b, K.Same n (order a b) (order' a b))
      (ObjectMethod.comparator call args) (ObjectMethod.comparator call' args) := by
  have hnatural (n : Machine) (a b : CellRef) : K.Same n (ObjectMethod.naturalOrder a b)
      (ObjectMethod.naturalOrder a b) :=
    (steady (.compareValues a b)).bind fun order ↦ by cases order <;> exact Same.refl_pure _
  cases args with
  | nil => exact Runs.pure fun n _ ↦ hnatural n
  | cons function rest =>
    refine Runs.content_bind fun c c' halike ↦ ?_
    rw [halike.isFunction, halike.paramCount?]
    split
    · refine Runs.pure fun n hlater a b ↦ ?_
      refine Same.bind ((hcall.invoke "compareTo" function [a, b]).mono hlater) fun result ↦ ?_
      exact Runs.get_bind fun k k' halike ↦ by rw [halike.number?]; exact Same.refl_pure _
    · exact Runs.pure fun n _ ↦ hnatural n

theorem sortEntries (ref : TableRef) (args : List CellRef) (byKey : Bool) :
    K.Same m (ObjectMethod.sortEntries call ref args byKey)
      (ObjectMethod.sortEntries call' ref args byKey) := by
  refine Runs.bind (comparator hcall args) fun n order order' _ horder ↦ ?_
  have hless (keyed : Bool) (a b : Entry) : K.Same n
      (do
        let c ← if keyed then order a.key b.key else order a.value b.value
        return decide (c < 0))
      (do
        let c ← if keyed then order' a.key b.key else order' a.value b.value
        return decide (c < 0)) := by
    cases keyed
    · exact (horder a.value b.value).bind fun c ↦ Same.refl_pure (decide (c < 0))
    · exact (horder a.key b.key).bind fun c ↦ Same.refl_pure (decide (c < 0))
  refine (steady (.tableOf ref)).bind fun table ↦
    (sort (fun a b ↦ ?_) table.entries.toArray).bind fun sorted ↦
      (steady (.isArray ref)).bind fun isArray ↦ steady (.rebuild isArray sorted.toList)
  cases byKey
  · exact (Same.refl_pure false).bind fun keyed ↦ hless keyed a b
  · exact (steady (.isArray ref)).bind fun isArray ↦ (Same.refl_pure (!isArray)).bind fun keyed ↦
      hless keyed a b

theorem foldValues (name : String) (values args : List CellRef) :
    K.Same m (ObjectMethod.foldValues call name values args)
      (ObjectMethod.foldValues call' name values args) := by
  refine (steady (.requireArgs name args 1)).bind fun _ ↦ ?_
  split
  · exact steady .newEmpty
  · exact steady .newEmpty
  · exact Same.foldlM _ (fun acc value ↦ hcall.invoke name _ [acc, value]) _
  · exact Same.foldlM _ (fun acc value ↦ hcall.invoke name _ [acc, value]) _

theorem extreme (values args : List CellRef) (sign : Int) :
    K.Same m (ObjectMethod.extreme call values args sign)
      (ObjectMethod.extreme call' values args sign) := by
  refine Runs.bind (comparator hcall args) fun n order order' _ horder ↦ ?_
  split
  · exact steady .newEmpty
  · refine Same.foldlM _ (fun best value ↦ ?_) _
    exact (horder value best).bind fun c ↦ Same.refl_pure _

theorem crossProduct (values : List CellRef) (other : TableRef) (filter : Option CellRef) :
    K.Same m (ObjectMethod.crossProduct call values other filter)
      (ObjectMethod.crossProduct call' values other filter) := by
  refine Same.bind ?_ fun pairs ↦ steady (.newArray pairs.toList)
  refine Same.foldlM _ (fun pairs a ↦ ?_) _
  refine (steady (.tableOf other)).bind fun table ↦ Same.foldlM _ (fun pairs b ↦ ?_) pairs
  have hadd : K.Same m (do return pairs.push (← ObjectMethod.combine a b))
      (do return pairs.push (← ObjectMethod.combine a b)) :=
    (steady (.combine a b)).bind fun pair ↦ Same.refl_pure (pairs.push pair)
  refine Same.bind ?_ fun kept ↦ ?_
  · split
    · exact answer hcall _ _ _
    · exact Same.refl_pure true
  · split
    · exact hadd
    · exact Same.refl_pure pairs

theorem removeKeys (self selector : CellRef) (picked : Bool) :
    K.Same m (ObjectMethod.removeKeys call self selector picked)
      (ObjectMethod.removeKeys call' self selector picked) := by
  refine (steady (.tableOrNew self)).bind fun ref ↦
    Same.bind (selectEntries (fun entry ↦ ?_) ref) fun doomed ↦ ?_
  · refine Runs.content_bind fun c c' halike ↦ ?_
    rw [halike.isFunction]
    dsimp only
    split
    · exact (hcall.invoke _ _ _).bind fun result ↦ (steady (.isTrue result)).bind fun _ ↦
        Same.refl_pure _
    · exact (steady (.equal _ _)).bind fun _ ↦ Same.refl_pure _
  · refine Same.bind (Same.forIn doomed (fun entry _ ↦ ?_) _) fun _ ↦ Same.refl_pure self
    exact (steady (.eraseEntry ref _)).bind fun _ ↦ Same.refl_pure _

theorem objectMethod (method : ObjectMethod) (self : CellRef) (args : List CellRef) :
    K.Same m (method.run call self args) (method.run call' self args) := by
  have hrequire (name : String) (count : Nat) :
      K.Same m (requireArgs name args count) (requireArgs name args count) :=
    steady (.requireArgs name args count)
  unfold ObjectMethod.run
  cases method with
  | map =>
    exact (hrequire _ 1).bind fun _ ↦ (steady (.tableOrNew self)).bind fun ref ↦
      (steady (.argument args 0)).bind fun function ↦ mapEntries hcall ref function
  | mapKeys =>
    exact (hrequire _ 1).bind fun _ ↦ (steady (.tableOrNew self)).bind fun ref ↦
      (steady (.argument args 0)).bind fun function ↦ mapKeysOf hcall ref function
  | filter =>
    exact (hrequire _ 1).bind fun _ ↦ (steady (.tableOrNew self)).bind fun ref ↦
      (steady (.argument args 0)).bind fun function ↦ filterEntries hcall ref function
  | filterKeys =>
    exact (hrequire _ 1).bind fun _ ↦ (steady (.argument args 0)).bind fun function ↦
      (steady (.tableOrNew self)).bind fun ref ↦
        retainEntries (fun entry ↦ answer hcall _ function _) ref
  | sort =>
    exact (steady (.tableOrNew self)).bind fun ref ↦ sortEntries hcall ref args false
  | sortKey =>
    exact (steady (.tableOrNew self)).bind fun ref ↦ sortEntries hcall ref args true
  | reduce | foldl =>
    exact (steady (.valuesOf self)).bind fun values ↦ foldValues hcall _ values args
  | foldr =>
    exact (steady (.valuesOf self)).bind fun values ↦ foldValues hcall _ values.reverse args
  | max => exact (steady (.valuesOf self)).bind fun values ↦ extreme hcall values args 1
  | min => exact (steady (.valuesOf self)).bind fun values ↦ extreme hcall values args (-1)
  | removeKey =>
    exact (hrequire _ 1).bind fun _ ↦ (steady (.argument args 0)).bind fun selector ↦
      removeKeys hcall self selector true
  | retainKey =>
    exact (hrequire _ 1).bind fun _ ↦ (steady (.argument args 0)).bind fun selector ↦
      removeKeys hcall self selector false
  | cross =>
    refine (hrequire _ 1).bind fun _ ↦ (steady (.argument args 0)).bind fun other ↦ ?_
    refine Runs.get_bind fun n n' halike ↦ ?_
    rw [halike.typeName]
    refine Runs.get_bind fun n n' halike ↦ ?_
    rw [halike.tableOf?]
    split
    · exact (steady (.valuesOf self)).bind fun values ↦ crossProduct hcall values _ _
    · exact steady (.fail _)
  | avg =>
    refine (steady (.valuesOf self)).bind fun values ↦ ?_
    rw [hcall.scale]
    refine steady (.ite (fun _ ↦ .newEmpty) fun _ ↦ ?_)
    exact (Steady.sumValues values).bind fun _ ↦ (Steady.ofNumber _).bind .newNumber
  | size => exact steady ((Steady.sizeOf self).bind fun _ ↦ .newNumber _)
  | keys => exact steady ((Steady.entriesOf self).bind fun _ ↦ .newArray _)
  | values => exact steady ((Steady.valuesOf self).bind .newArray)
  | entries =>
    exact steady ((Steady.entriesOf self).bind fun entries ↦
      (Steady.mapM entries .newEntryObject).bind .newArray)
  | contains | containsValue =>
    refine (hrequire _ 1).bind fun _ ↦ steady ((Steady.argument args 0).bind fun sought ↦ ?_)
    exact .get_bind (fun n n' h ↦ by rw [h.equal]) fun _ ↦ (Steady.valuesOf self).bind fun _ ↦
      .newBoolean _
  | containsKey =>
    refine (hrequire _ 1).bind fun _ ↦ steady ((Steady.tableOrNew self).bind fun ref ↦ ?_)
    exact .get_bind (fun n n' h ↦ by rw [h.lookUp]) fun _ ↦ (Steady.argument args 0).bind fun _ ↦
      .newBoolean _
  | push =>
    refine (hrequire _ 1).bind fun _ ↦ steady ((Steady.tableOrNew self).bind fun ref ↦ ?_)
    dsimp only
    split
    · exact (Steady.setEntry ref _ _).bind fun _ ↦ .pure self
    · exact (Steady.argument args 0).bind fun value ↦ (Steady.pushEntry ref value).bind fun _ ↦
        .pure self
  | pop => exact steady (.popEntry self args)
  | distinct =>
    refine steady ((Steady.tableOrNew self).bind fun ref ↦ ?_)
    exact .get_bind (fun n n' h ↦ by rw [h.isArray, h.distinctEntries, h.table]) fun _ ↦
      .rebuild _ _
  | join => exact steady (.joinTexts self args)
  | sum =>
    exact steady ((Steady.valuesOf self).bind fun values ↦
      (Steady.sumValues values).bind .newNumber)
  | head =>
    refine steady ((Steady.valuesOf self).bind fun values ↦ ?_)
    cases values with
    | nil => exact .newEmpty
    | cons value _ => exact .pure value
  | tail =>
    refine steady ((Steady.tableOrNew self).bind fun ref ↦ ?_)
    exact .get_bind (fun n n' h ↦ by rw [h.isArray, h.table]) fun _ ↦ .rebuild _ _
  | frequency =>
    refine steady ((Steady.valuesOf self).bind fun values ↦ ?_)
    refine .get_bind (fun n n' h ↦ by rw [h.countValues]) fun n ↦ Steady.bind (.mapM _ ?_)
      .objectOf
    exact fun (value, count) ↦ (Steady.newNumber _).bind fun _ ↦ .pure _
  | rename =>
    refine (hrequire _ 2).bind fun _ ↦ steady ((Steady.tableOrNew self).bind fun ref ↦ ?_)
    refine (Steady.argument args 0).bind fun key ↦ (Steady.eraseEntry ref key).bind fun found ↦ ?_
    cases found with
    | none => exact .pure self
    | some value =>
      exact (Steady.argument args 1).bind fun name ↦ (Steady.setEntry ref name value).bind fun _ ↦
        .pure self

/-! ### Other methods -/

theorem forElements (self function : CellRef) (params : Option Nat) (ref : IteratorRef)
    (count : Nat) : ∀ result : CellRef,
    K.Same m (CommonMethod.forElements call self function params ref count result)
      (CommonMethod.forElements call' self function params ref count result) := by
  induction count with
  | zero => exact fun result ↦ Same.refl_pure result
  | succ count ih =>
    intro result
    refine (steady (.next? ref)).bind fun found ↦ ?_
    cases found with
    | none => exact Same.refl_pure result
    | some element =>
      refine Runs.get_bind fun n n' halike ↦ ?_
      rw [halike.elementArgs]
      exact (hcall.invoke _ _ _).bind fun result ↦ ih result

theorem commonMethod (method : CommonMethod) (self : CellRef) (args : List CellRef) :
    K.Same m (method.run call self args) (method.run call' self args) := by
  refine Runs.get_bind fun n n' halike ↦ ?_
  cases method with
  | type =>
    rw [halike.instanceOf]
    dsimp only
    rcases halike.content_cases self with hc | ⟨_, _, _, hc, hc'⟩
    · rw [hc]
      split
      · exact steady (.newString _)
      · exact steady (.newString _)
    · rw [hc, hc']
      exact steady (.newString _)
  | iterator => exact steady (.makeIterator self)
  | isNull =>
    dsimp only
    rw [(halike.content self).isEmpty]
    exact steady (.newBoolean _)
  | functions =>
    rw [halike.instanceOf, halike.kind]
    dsimp only
    rcases halike.content_cases self with hc | ⟨_, _, _, hc, hc'⟩
    · rw [hc]
      exact steady (.newTextArray _)
    · rw [hc, hc']
      exact steady (.newTextArray _)
  | forEach =>
    refine (steady (.requireArgs _ args 1)).bind fun _ ↦
      (steady (.argument args 0)).bind fun function ↦ ?_
    dsimp only
    rw [(halike.content function).paramCount?]
    refine (steady (.makeIterator self)).bind fun iterator ↦ Runs.content_bind fun c c' hc ↦ ?_
    cases hc with
    | same =>
      split
      · refine Runs.get_bind fun k k' halike ↦ ?_
        rw [halike.remaining]
        exact (steady .newEmpty).bind fun result ↦ forElements hcall self function _ _ _ result
      · exact steady .newEmpty
    | closure => exact steady .newEmpty

/-- Methods called for two callers whose calls compare do so. -/
theorem method (method : Method) (self : CellRef) (args : List CellRef) :
    K.Same m (method.run call self args) (method.run call' self args) := by
  cases method with
  | object method => exact objectMethod hcall method self args
  | text method => exact steady (.textMethod method self args)
  | regex method => exact steady (.regexMethod method self args)
  | iterator method => exact steady (.iteratorMethod method self)
  | common method => exact commonMethod hcall method self args

/-- Methods of vectors called for two callers whose calls compare do so. -/
theorem onVector (action : HostAction) (type : HostType) (x y : CellRef) (args : List CellRef) :
    K.Same m (action.onVector call type x y args) (action.onVector call' type x y args) := by
  refine Runs.get_bind fun n n' halike ↦ ?_
  rw [halike.number?]
  dsimp only
  split
  · exact steady (.newNumber _)
  · exact steady (.newVector type _ _)
  · exact steady (.fail _)
  · exact hcall.invoke "apply" _ [x, y]
  · exact steady (.fail _)
  · exact steady (.fail _)
  · exact steady .newEmpty

theorem hostMethod (method : HostMethod) (receiver : CellRef) (args : List CellRef) :
    K.Same m (method.run call receiver args) (method.run call' receiver args) := by
  unfold HostMethod.run
  split
  · unfold HostAction.onType
    split
    · exact steady (.newVector _ _ _)
    · exact steady (.newString _)
    · exact steady .newEmpty
  · refine Runs.content_bind fun c c' hc ↦ ?_
    cases hc with
    | same =>
      split
      · refine Runs.get_bind fun n n' halike ↦ ?_
        rw [halike.instanceOf]
        split
        · exact onVector hcall _ _ _ _ args
        · exact steady .newEmpty
      · exact steady (.fail _)
    | closure => exact steady (.fail _)

/-! ### Operators -/

omit hcall in
theorem mapValues {act act' : CellRef → CellRef → Run CellRef} (ref : TableRef)
    (hact : ∀ key value, K.Same m (act key value) (act' key value)) :
    K.Same m (Operator.mapValues ref act) (Operator.mapValues ref act') := by
  refine (steady .newTable).bind fun out ↦
    Same.bind (forEntries ref (fun _ entry ↦ ?_) ()) fun _ ↦ steady (.newObject out)
  exact (hact _ _).bind fun value ↦ steady (.setEntry out _ value)

theorem binaryRule (symbol : String) (rule : BinaryRule) (left right : CellRef) :
    K.Same m (rule.apply call symbol left right) (rule.apply call' symbol left right) := by
  refine Runs.get_bind fun n n' halike ↦ ?_
  dsimp only
  rw [halike.numberKey?, halike.isTrue, halike.display, halike.equal,
    (halike.content left).isEmpty, hcall.scale]
  split
  · exact steady ((Steady.ofNumber _).bind .newNumber)
  · split
    · exact steady (.newBoolean _)
    · exact steady (.newBoolean _)
    · exact steady (.newBoolean _)
    · exact steady (.repeatString _ _)
    · exact steady (.repeatString _ _)
    · exact steady (.newString _)
    · exact steady (.appendValues left right)
    · exact steady ((Steady.compareValues left right).bind fun _ ↦ .newBoolean _)
    · exact steady (.newBoolean _)
    · exact steady (.newBoolean _)
    · exact Same.refl_pure _
    · exact hcall.invoke symbol right [left]
    · exact steady .newEmpty

theorem dispatch2 (op : Operator) (fuel : Nat) : ∀ left right : CellRef,
    K.Same m (op.dispatch2 call fuel left right) (op.dispatch2 call' fuel left right) := by
  induction fuel with
  | zero => exact fun left right ↦ Runs.throw .outOfFuel
  | succ fuel ih =>
    intro left right
    refine Runs.get_bind fun n n' halike ↦ ?_
    rw [halike.typeName, halike.tableOf?, halike.noCombination]
    split
    · exact binaryRule hcall op.symbol _ left right
    · split
      · refine (steady (.requireSameKeys op _ _)).bind fun _ ↦ mapValues _ fun key value ↦ ?_
        refine Runs.get_bind fun k k' halike ↦ ?_
        rw [halike.lookUp]
        split
        · exact ih value _
        · exact (steady .newEmpty).bind fun other ↦ ih value other
      · exact mapValues _ fun _ value ↦ ih value right
      · exact mapValues _ fun _ value ↦ ih left value
      · exact steady (.fail _)

/-- Operators applied for two callers whose calls compare do so. -/
theorem evaluateOperator (table : OperatorTable) (symbol : String) (fixity : Fixity)
    (args : List CellRef) :
    K.Same m (table.evaluate call symbol fixity args)
      (table.evaluate call' symbol fixity args) := by
  unfold OperatorTable.evaluate
  split
  · rename_i op _
    unfold Operator.evaluate
    rw [hcall.fuel]
    refine (steady (.fail _)).check ?_
    refine (steady (.fail _)).check ?_
    dsimp only
    split
    · exact steady (.dispatch1 op _ _)
    · exact dispatch2 hcall op _ _ _
    · exact steady .newEmpty
  · exact steady (.fail _)

end Comparison

end TreeScript
