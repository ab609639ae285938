import TreeScript.Proofs.Tandem.Basic

/-!
# Methods and operators in tandem

Methods and operators ask their interpreter for nothing but calls, through what they get from their
caller (`Tandem.Calls`). Two callers that call in tandem make methods and operators run in tandem
(`method`, `hostMethod`, `evaluateOperator`). The sections follow the modules in which these are
defined; sorting asks for a call wherever it compares two elements.
-/

set_option autoImplicit false

namespace TreeScript.Tandem

variable {enters : Node → Prop} {I J : Interp} {realm : Realm} {α σ : Type}

/-! ### Sorting -/

section Sorting

variable {less less' : α → α → Run Bool}
  (hless : ∀ a b, Tandem enters I J realm (less a b) (less' a b))

include hless in
theorem lessAt (xs : Array α) (i j : Nat) :
    Tandem enters I J realm (Sorting.lessAt less xs i j) (Sorting.lessAt less' xs i j) := by
  unfold Sorting.lessAt
  split
  · exact hless _ _
  · exact pure false

include hless in
theorem sink (count : Nat) : ∀ (j : Nat) (xs : Array α),
    Tandem enters I J realm (Sorting.sink less count j xs) (Sorting.sink less' count j xs) := by
  induction count with
  | zero => exact fun j xs ↦ pure xs
  | succ count ih =>
    intro j xs
    exact (lessAt hless xs j (j - 1)).bind fun goesBefore ↦ ite (ih _ _) (pure xs)

include hless in
theorem insertionSort (start stop : Nat) (xs : Array α) :
    Tandem enters I J realm (Sorting.insertionSort less start stop xs)
      (Sorting.insertionSort less' start stop xs) :=
  foldlM _ (fun xs k ↦ sink hless (k + 1) (start + k + 1) xs) xs

theorem search {test test' : Nat → Run Bool}
    (htest : ∀ i, Tandem enters I J realm (test i) (test' i)) (fuel : Nat) : ∀ i j : Nat,
    Tandem enters I J realm (Sorting.search test fuel i j) (Sorting.search test' fuel i j) := by
  induction fuel with
  | zero => exact fun i j ↦ pure i
  | succ fuel ih =>
    intro i j
    unfold Sorting.search
    exact ite ((htest _).bind fun holds ↦ ite (ih _ _) (ih _ _)) (pure i)

include hless in
theorem merge (fuel : Nat) : ∀ (start middle stop : Nat) (xs : Array α),
    Tandem enters I J realm (Sorting.merge less fuel start middle stop xs)
      (Sorting.merge less' fuel start middle stop xs) := by
  have hnot (xs : Array α) (i j : Nat) : Tandem enters I J realm
      (do return !(← Sorting.lessAt less xs i j)) (do return !(← Sorting.lessAt less' xs i j)) :=
    (lessAt hless xs i j).bind fun b ↦ pure (!b)
  induction fuel with
  | zero => exact fun start middle stop xs ↦ pure xs
  | succ fuel ih =>
    intro start middle stop xs
    unfold Sorting.merge
    refine ite ?_ (ite ?_ ?_)
    · exact (search (fun h ↦ lessAt hless xs h start) _ _ _).bind fun _ ↦ pure _
    · exact (search (fun h ↦ hnot xs middle h) _ _ _).bind fun _ ↦ pure _
    · dsimp only
      generalize (if (start + stop) / 2 < middle then
        ((start + stop) / 2 + middle - stop, (start + stop) / 2) else (start, middle)) = range
      refine (search (fun c ↦ hnot xs _ c) _ _ _).bind fun first ↦ ?_
      have hlast (last : Nat) (ys : Array α) : Tandem enters I J realm
          (if (start + stop) / 2 < last ∧ last < stop then
            Sorting.merge less fuel ((start + stop) / 2) last stop ys else Pure.pure ys)
          (if (start + stop) / 2 < last ∧ last < stop then
            Sorting.merge less' fuel ((start + stop) / 2) last stop ys else Pure.pure ys) :=
        ite (ih _ _ _ _) (pure ys)
      split
      · exact (ih _ _ _ _).bind fun ys ↦ hlast _ ys
      · exact (pure _).bind fun ys ↦ hlast _ ys

theorem forStretches {act act' : Nat → Nat → Array α → Run (Array α)}
    (hact : ∀ i j xs, Tandem enters I J realm (act i j xs) (act' i j xs)) (width size : Nat)
    (xs : Array α) :
    Tandem enters I J realm (Sorting.forStretches width size act xs)
      (Sorting.forStretches width size act' xs) :=
  foldlM _ (fun xs _ ↦ hact _ _ xs) xs

include hless in
theorem mergeBlocks (fuel : Nat) : ∀ (width : Nat) (xs : Array α),
    Tandem enters I J realm (Sorting.mergeBlocks less fuel width xs)
      (Sorting.mergeBlocks less' fuel width xs) := by
  induction fuel with
  | zero => exact fun width xs ↦ pure xs
  | succ fuel ih =>
    intro width xs
    unfold Sorting.mergeBlocks
    refine ite ((forStretches (fun start stop ys ↦ ?_) _ _ xs).bind fun ys ↦ ih _ ys) (pure xs)
    exact ite (merge hless _ _ _ _ ys) (pure ys)

include hless in
/-- Sorting by tests in tandem runs in tandem. -/
theorem sort (xs : Array α) :
    Tandem enters I J realm (Sorting.sort less xs) (Sorting.sort less' xs) :=
  (forStretches (fun i j ys ↦ insertionSort hless i j ys) _ _ xs).bind fun ys ↦
    mergeBlocks hless _ _ ys

end Sorting

/-! ### Methods of objects -/

/-- A walk runs in tandem if what it does with the entries does. -/
theorem forEntries {act act' : σ → Entry → Run σ} (ref : TableRef)
    (hact : ∀ s entry, Tandem enters I J .native (act s entry) (act' s entry)) (init : σ) :
    Tandem enters I J .native (forEntries ref init act) (forEntries ref init act') := by
  refine (steady (.tableOf ref)).bind fun _ ↦ foldlM _ (fun s i ↦ ?_) init
  refine (steady (.tableOf ref)).bind fun _ ↦ ?_
  split
  · exact hact s _
  · exact pure s

section Selection

variable {test test' : Entry → Run Bool}
  (htest : ∀ entry, Tandem enters I J .native (test entry) (test' entry))
include htest

theorem selectEntries (ref : TableRef) :
    Tandem enters I J .native (ObjectMethod.selectEntries ref test)
      (ObjectMethod.selectEntries ref test') := by
  refine bind (forEntries ref (fun kept entry ↦ ?_) #[]) fun _ ↦ pure _
  exact (htest entry).bind fun _ ↦ pure _

theorem retainEntries (ref : TableRef) :
    Tandem enters I J .native (ObjectMethod.retainEntries ref test)
      (ObjectMethod.retainEntries ref test') := by
  refine (steady .newTable).bind fun out ↦
    bind (forEntries ref (fun _ entry ↦ ?_) ()) fun _ ↦ steady (.newObject out)
  exact (htest entry).bind fun accepted ↦ ite (steady (.setEntry out _ _)) (pure ())

end Selection

variable {call call' : Call} (hcall : Calls enters I J call call')
include hcall

/-- The truth of what a function answers. -/
theorem answer (name : String) (function : CellRef) (args : List CellRef) :
    Tandem enters I J .native (do isTrue (← call.invoke name function args))
      (do isTrue (← call'.invoke name function args)) :=
  (hcall.invoke name function args).bind fun result ↦ steady (.isTrue result)

theorem mapEntries (ref : TableRef) (function : CellRef) :
    Tandem enters I J .native (ObjectMethod.mapEntries call ref function)
      (ObjectMethod.mapEntries call' ref function) := by
  refine (plain (.content function)).bind fun c ↦ (steady .newTable).bind fun out ↦
    bind (forEntries ref (fun _ entry ↦ ?_) ()) fun _ ↦ steady (.newObject out)
  exact (hcall.invoke _ _ _).bind fun mapped ↦ steady (.setEntry out _ mapped)

theorem mapKeysOf (ref : TableRef) (function : CellRef) :
    Tandem enters I J .native (ObjectMethod.mapKeysOf call ref function)
      (ObjectMethod.mapKeysOf call' ref function) := by
  refine (steady .newTable).bind fun out ↦
    bind (forEntries ref (fun _ entry ↦ ?_) ()) fun _ ↦ steady (.newObject out)
  exact (hcall.invoke _ _ _).bind fun mapped ↦ steady (.setEntry out mapped _)

theorem filterEntries (ref : TableRef) (function : CellRef) :
    Tandem enters I J .native (ObjectMethod.filterEntries call ref function)
      (ObjectMethod.filterEntries call' ref function) := by
  refine (steady (.isArray ref)).bind fun isArray ↦ ite ?_ ?_
  · exact (selectEntries (fun entry ↦ answer hcall _ _ _) ref).bind fun kept ↦
      steady (.newArray _)
  · exact retainEntries (fun entry ↦ answer hcall _ _ _) ref

/-- What sorts by the order that a caller gives runs in tandem if it does for orders in tandem. -/
theorem comparator (args : List CellRef) {f g : (CellRef → CellRef → Run Int) → Run α}
    (h : ∀ order order', (∀ a b, Tandem enters I J .native (order a b) (order' a b)) →
      Tandem enters I J .native (f order) (g order')) :
    Tandem enters I J .native (ObjectMethod.comparator call args >>= f)
      (ObjectMethod.comparator call' args >>= g) := by
  have hnatural : Tandem enters I J .native (f ObjectMethod.naturalOrder)
      (g ObjectMethod.naturalOrder) := by
    refine h _ _ fun a b ↦ (steady (.compareValues a b)).bind fun order ↦ ?_
    cases order <;> exact pure _
  cases args with
  | nil => exact hnatural
  | cons function rest =>
    unfold ObjectMethod.comparator
    dsimp only
    rw [bind_assoc, bind_assoc]
    refine (plain (.content function)).bind fun c ↦ ?_
    split
    · refine h _ _ fun a b ↦ (hcall.invoke "compareTo" function [a, b]).bind fun result ↦ ?_
      exact get_bind fun k ↦ pure _
    · exact hnatural

theorem sortEntries (ref : TableRef) (args : List CellRef) (byKey : Bool) :
    Tandem enters I J .native (ObjectMethod.sortEntries call ref args byKey)
      (ObjectMethod.sortEntries call' ref args byKey) := by
  refine comparator hcall args fun order order' horder ↦ ?_
  have hless (keyed : Bool) (a b : Entry) : Tandem enters I J .native
      (do
        let c ← if keyed then order a.key b.key else order a.value b.value
        return decide (c < 0))
      (do
        let c ← if keyed then order' a.key b.key else order' a.value b.value
        return decide (c < 0)) := by
    cases keyed
    · exact (horder a.value b.value).bind fun c ↦ pure (decide (c < 0))
    · exact (horder a.key b.key).bind fun c ↦ pure (decide (c < 0))
  refine (steady (.tableOf ref)).bind fun table ↦
    (sort (fun a b ↦ ?_) table.entries.toArray).bind fun sorted ↦
      (steady (.isArray ref)).bind fun isArray ↦ steady (.rebuild isArray sorted.toList)
  cases byKey
  · exact (pure false).bind fun keyed ↦ hless keyed a b
  · exact (steady (.isArray ref)).bind fun isArray ↦ (pure (!isArray)).bind fun keyed ↦
      hless keyed a b

theorem foldValues (name : String) (values args : List CellRef) :
    Tandem enters I J .native (ObjectMethod.foldValues call name values args)
      (ObjectMethod.foldValues call' name values args) := by
  refine (steady (.requireArgs name args 1)).bind fun _ ↦ ?_
  split
  · exact steady .newEmpty
  · exact steady .newEmpty
  · exact foldlM _ (fun acc value ↦ hcall.invoke name _ [acc, value]) _
  · exact foldlM _ (fun acc value ↦ hcall.invoke name _ [acc, value]) _

theorem extreme (values args : List CellRef) (sign : Int) :
    Tandem enters I J .native (ObjectMethod.extreme call values args sign)
      (ObjectMethod.extreme call' values args sign) := by
  refine comparator hcall args fun order order' horder ↦ ?_
  split
  · exact steady .newEmpty
  · exact foldlM _ (fun best value ↦ (horder value best).bind fun c ↦ pure _) _

theorem crossProduct (values : List CellRef) (other : TableRef) (filter : Option CellRef) :
    Tandem enters I J .native (ObjectMethod.crossProduct call values other filter)
      (ObjectMethod.crossProduct call' values other filter) := by
  refine bind ?_ fun pairs ↦ steady (.newArray pairs.toList)
  refine foldlM _ (fun pairs a ↦ ?_) _
  refine (steady (.tableOf other)).bind fun table ↦ foldlM _ (fun pairs b ↦ ?_) pairs
  have hadd : Tandem enters I J .native (do return pairs.push (← ObjectMethod.combine a b))
      (do return pairs.push (← ObjectMethod.combine a b)) :=
    (steady (.combine a b)).bind fun pair ↦ pure (pairs.push pair)
  refine bind ?_ fun kept ↦ ite hadd (pure pairs)
  split
  · exact answer hcall _ _ _
  · exact pure true

theorem removeKeys (self selector : CellRef) (picked : Bool) :
    Tandem enters I J .native (ObjectMethod.removeKeys call self selector picked)
      (ObjectMethod.removeKeys call' self selector picked) := by
  refine (steady (.tableOrNew self)).bind fun ref ↦
    bind (selectEntries (fun entry ↦ ?_) ref) fun doomed ↦ ?_
  · refine (plain (.content selector)).bind fun c ↦ ite ?_ ?_
    · exact (hcall.invoke _ _ _).bind fun result ↦ (steady (.isTrue result)).bind fun _ ↦ pure _
    · exact (steady (.equal _ _)).bind fun _ ↦ pure _
  · refine bind (forIn doomed (fun entry _ ↦ ?_) _) fun _ ↦ pure self
    exact (steady (.eraseEntry ref _)).bind fun _ ↦ pure _

theorem objectMethod (method : ObjectMethod) (self : CellRef) (args : List CellRef) :
    Tandem enters I J .native (method.run call self args) (method.run call' self args) := by
  have hrequire (name : String) (count : Nat) : Tandem enters I J .native
      (requireArgs name args count) (requireArgs name args count) :=
    steady (.requireArgs name args count)
  unfold ObjectMethod.run
  cases method with
  | map =>
    exact (hrequire _ 1).bind fun _ ↦ (steady (.tableOrNew self)).bind fun ref ↦
      (steady (.argument args 0)).bind fun function ↦ mapEntries hcall ref function
  | mapKeys =>
    exact (hrequire _ 1).bind fun _ ↦ (steady (.tableOrNew self)).bind fun ref ↦
      (steady (.argument args 0)).bind fun function ↦ mapKeysOf hcall ref function
  | filter =>
    exact (hrequire _ 1).bind fun _ ↦ (steady (.tableOrNew self)).bind fun ref ↦
      (steady (.argument args 0)).bind fun function ↦ filterEntries hcall ref function
  | filterKeys =>
    exact (hrequire _ 1).bind fun _ ↦ (steady (.argument args 0)).bind fun function ↦
      (steady (.tableOrNew self)).bind fun ref ↦
        retainEntries (fun entry ↦ answer hcall _ function _) ref
  | sort =>
    exact (steady (.tableOrNew self)).bind fun ref ↦ sortEntries hcall ref args false
  | sortKey =>
    exact (steady (.tableOrNew self)).bind fun ref ↦ sortEntries hcall ref args true
  | reduce | foldl =>
    exact (steady (.valuesOf self)).bind fun values ↦ foldValues hcall _ values args
  | foldr =>
    exact (steady (.valuesOf self)).bind fun values ↦ foldValues hcall _ values.reverse args
  | max => exact (steady (.valuesOf self)).bind fun values ↦ extreme hcall values args 1
  | min => exact (steady (.valuesOf self)).bind fun values ↦ extreme hcall values args (-1)
  | removeKey =>
    exact (hrequire _ 1).bind fun _ ↦ (steady (.argument args 0)).bind fun selector ↦
      removeKeys hcall self selector true
  | retainKey =>
    exact (hrequire _ 1).bind fun _ ↦ (steady (.argument args 0)).bind fun selector ↦
      removeKeys hcall self selector false
  | cross =>
    refine (hrequire _ 1).bind fun _ ↦ (steady (.argument args 0)).bind fun other ↦
      get_bind fun n ↦ get_bind fun n' ↦ ?_
    split
    · exact (steady (.valuesOf self)).bind fun values ↦ crossProduct hcall values _ _
    · exact fail _
  | avg =>
    refine (steady (.valuesOf self)).bind fun values ↦ ?_
    rw [hcall.scale]
    refine ite (steady .newEmpty) ?_
    exact steady ((Steady.sumValues values).bind fun _ ↦ (Steady.ofNumber _).bind .newNumber)
  | size => exact steady ((Steady.sizeOf self).bind fun _ ↦ .newNumber _)
  | keys => exact steady ((Steady.entriesOf self).bind fun _ ↦ .newArray _)
  | values => exact steady ((Steady.valuesOf self).bind .newArray)
  | entries =>
    exact steady ((Steady.entriesOf self).bind fun entries ↦
      (Steady.mapM entries .newEntryObject).bind .newArray)
  | contains | containsValue =>
    exact (hrequire _ 1).bind fun _ ↦ (steady (.argument args 0)).bind fun sought ↦
      get_bind fun _ ↦ (steady (.valuesOf self)).bind fun _ ↦ steady (.newBoolean _)
  | containsKey =>
    exact (hrequire _ 1).bind fun _ ↦ (steady (.tableOrNew self)).bind fun ref ↦
      get_bind fun _ ↦ (steady (.argument args 0)).bind fun _ ↦ steady (.newBoolean _)
  | push =>
    refine (hrequire _ 1).bind fun _ ↦ (steady (.tableOrNew self)).bind fun ref ↦ ?_
    dsimp only
    split
    · exact (steady (.setEntry ref _ _)).bind fun _ ↦ pure self
    · exact (steady (.argument args 0)).bind fun value ↦
        (steady (.pushEntry ref value)).bind fun _ ↦ pure self
  | pop => exact steady (.popEntry self args)
  | distinct =>
    exact (steady (.tableOrNew self)).bind fun ref ↦ get_bind fun _ ↦ steady (.rebuild _ _)
  | join => exact steady (.joinTexts self args)
  | sum =>
    exact steady ((Steady.valuesOf self).bind fun values ↦
      (Steady.sumValues values).bind .newNumber)
  | head =>
    refine (steady (.valuesOf self)).bind fun values ↦ ?_
    cases values with
    | nil => exact steady .newEmpty
    | cons value _ => exact pure value
  | tail =>
    exact (steady (.tableOrNew self)).bind fun ref ↦ get_bind fun _ ↦ steady (.rebuild _ _)
  | frequency =>
    refine (steady (.valuesOf self)).bind fun values ↦ get_bind fun n ↦ bind (mapM _ ?_)
      fun counted ↦ steady (.objectOf counted)
    exact fun (value, count) ↦ (steady (.newNumber _)).bind fun _ ↦ pure _
  | rename =>
    refine (hrequire _ 2).bind fun _ ↦ (steady (.tableOrNew self)).bind fun ref ↦ ?_
    refine (steady (.argument args 0)).bind fun key ↦
      (steady (.eraseEntry ref key)).bind fun found ↦ ?_
    cases found with
    | none => exact pure self
    | some value =>
      exact (steady (.argument args 1)).bind fun name ↦
        (steady (.setEntry ref name value)).bind fun _ ↦ pure self

/-! ### Other methods -/

theorem forElements (self function : CellRef) (params : Option Nat) (ref : IteratorRef)
    (count : Nat) : ∀ result : CellRef,
    Tandem enters I J .native
      (CommonMethod.forElements call self function params ref count result)
      (CommonMethod.forElements call' self function params ref count result) := by
  induction count with
  | zero => exact fun result ↦ pure result
  | succ count ih =>
    intro result
    refine (steady (.next? ref)).bind fun found ↦ ?_
    cases found with
    | none => exact pure result
    | some element =>
      exact get_bind fun n ↦ (hcall.invoke _ _ _).bind fun result ↦ ih result

theorem commonMethod (method : CommonMethod) (self : CellRef) (args : List CellRef) :
    Tandem enters I J .native (method.run call self args) (method.run call' self args) := by
  refine get_bind fun n ↦ ?_
  cases method with
  | type =>
    dsimp only
    split
    · exact steady (.newString _)
    · exact steady (.newString _)
  | iterator => exact steady (.makeIterator self)
  | isNull => exact steady (.newBoolean _)
  | functions => exact steady (.newTextArray _)
  | forEach =>
    refine (steady (.requireArgs _ args 1)).bind fun _ ↦
      (steady (.argument args 0)).bind fun function ↦
        (steady (.makeIterator self)).bind fun iterator ↦
          (plain (.content iterator)).bind fun c ↦ ?_
    split
    · exact get_bind fun k ↦ (steady .newEmpty).bind fun result ↦
        forElements hcall self function _ _ _ result
    · exact steady .newEmpty

theorem method (method : Method) (self : CellRef) (args : List CellRef) :
    Tandem enters I J .native (method.run call self args) (method.run call' self args) := by
  cases method with
  | object method => exact objectMethod hcall method self args
  | text method => exact steady (.textMethod method self args)
  | regex method => exact steady (.regexMethod method self args)
  | iterator method => exact steady (.iteratorMethod method self)
  | common method => exact commonMethod hcall method self args

theorem onVector (action : HostAction) (type : HostType) (x y : CellRef) (args : List CellRef) :
    Tandem enters I J .native (action.onVector call type x y args)
      (action.onVector call' type x y args) := by
  refine get_bind fun n ↦ ?_
  dsimp only
  split
  · exact steady (.newNumber _)
  · exact steady (.newVector type _ _)
  · exact fail _
  · exact hcall.invoke "apply" _ [x, y]
  · exact fail _
  · exact fail _
  · exact steady .newEmpty

theorem hostMethod (method : HostMethod) (receiver : CellRef) (args : List CellRef) :
    Tandem enters I J .native (method.run call receiver args) (method.run call' receiver args) := by
  unfold HostMethod.run
  refine ite ?_ ?_
  · unfold HostAction.onType
    split
    · exact steady (.newVector _ _ _)
    · exact steady (.newString _)
    · exact steady .newEmpty
  · refine (plain (.content receiver)).bind fun c ↦ ?_
    split
    · refine get_bind fun n ↦ ?_
      split
      · exact onVector hcall _ _ _ _ args
      · exact steady .newEmpty
    · exact fail _

/-! ### Operators -/

omit hcall in
theorem mapValues {act act' : CellRef → CellRef → Run CellRef} (ref : TableRef)
    (hact : ∀ key value, Tandem enters I J .native (act key value) (act' key value)) :
    Tandem enters I J .native (Operator.mapValues ref act) (Operator.mapValues ref act') := by
  refine (steady .newTable).bind fun out ↦
    bind (forEntries ref (fun _ entry ↦ ?_) ()) fun _ ↦ steady (.newObject out)
  exact (hact _ _).bind fun value ↦ steady (.setEntry out _ value)

theorem binaryRule (symbol : String) (rule : BinaryRule) (left right : CellRef) :
    Tandem enters I J .native (rule.apply call symbol left right)
      (rule.apply call' symbol left right) := by
  refine get_bind fun n ↦ ?_
  dsimp only
  rw [hcall.scale]
  split
  · exact steady ((Steady.ofNumber _).bind .newNumber)
  · split
    · exact steady (.newBoolean _)
    · exact steady (.newBoolean _)
    · exact steady (.newBoolean _)
    · exact steady (.repeatString _ _)
    · exact steady (.repeatString _ _)
    · exact steady (.newString _)
    · exact steady (.appendValues left right)
    · exact steady ((Steady.compareValues left right).bind fun _ ↦ .newBoolean _)
    · exact steady (.newBoolean _)
    · exact steady (.newBoolean _)
    · exact pure _
    · exact hcall.invoke symbol right [left]
    · exact steady .newEmpty

theorem dispatch2 (op : Operator) (fuel : Nat) : ∀ left right : CellRef,
    Tandem enters I J .native (op.dispatch2 call fuel left right)
      (op.dispatch2 call' fuel left right) := by
  induction fuel with
  | zero => exact fun left right ↦ throw trivial
  | succ fuel ih =>
    intro left right
    refine get_bind fun n ↦ ?_
    split
    · exact binaryRule hcall op.symbol _ left right
    · split
      · refine (steady (.requireSameKeys op _ _)).bind fun _ ↦ mapValues _ fun key value ↦
          get_bind fun k ↦ ?_
        split
        · exact ih value _
        · exact (steady .newEmpty).bind fun other ↦ ih value other
      · exact mapValues _ fun _ value ↦ ih value right
      · exact mapValues _ fun _ value ↦ ih left value
      · exact fail _

theorem evaluateOperator (table : OperatorTable) (symbol : String) (fixity : Fixity)
    (args : List CellRef) :
    Tandem enters I J .native (table.evaluate call symbol fixity args)
      (table.evaluate call' symbol fixity args) := by
  unfold OperatorTable.evaluate
  split
  · rename_i op _
    unfold Operator.evaluate
    rw [hcall.fuel]
    refine check (fail _) (check (fail _) ?_)
    dsimp only
    split
    · exact steady (.dispatch1 op _ _)
    · exact dispatch2 hcall op _ _ _
    · exact steady .newEmpty
  · exact fail _

end TreeScript.Tandem
