import TreeScript.Proofs.Enclosure.Values
import TreeScript.Proofs.Comparison.Methods

/-!
# Methods and operators under an enclosure

Built-in methods and operators call back into the language through what they get from their caller.
If those calls keep an enclosure and give open cells for open ones (`OpenCall`), so do the methods
called through them (`method`, `hostMethod`) and the operators applied for them
(`evaluateOperator`). Sorting only moves elements, so what holds of all of them holds of all of them
afterwards (`sort`).
-/

set_option autoImplicit false

namespace TreeScript

namespace Enclosure

/-! ### Sorting -/

section Sorting

variable {I : Machine → Prop} {α : Type} {P : α → Prop} {less : α → α → Run Bool}

/-- All elements of an array have a property. -/
def Every (P : α → Prop) (xs : Array α) : Prop := ∀ a ∈ xs, P a

theorem Every.get? {xs : Array α} (h : Every P xs) {i : Nat} {a : α} (ha : xs[i]? = some a) :
    P a :=
  h a (Array.mem_of_getElem? ha)

theorem Every.append {xs ys : Array α} (hx : Every P xs) (hy : Every P ys) :
    Every P (xs ++ ys) := by
  intro a ha
  rcases Array.mem_append.mp ha with ha | ha
  · exact hx a ha
  · exact hy a ha

theorem Every.extract {xs : Array α} (h : Every P xs) (start stop : Nat) :
    Every P (xs.extract start stop) := by
  intro a ha
  obtain ⟨i, hi⟩ := Array.mem_iff_getElem?.mp ha
  rw [Array.getElem?_extract] at hi
  split at hi
  · exact h.get? hi
  · cases hi

theorem Every.swap {xs : Array α} (h : Every P xs) (i j : Nat) :
    Every P (xs.swapIfInBounds i j) := by
  intro a ha
  unfold Array.swapIfInBounds at ha
  split at ha
  · split at ha
    · exact h a ((Array.swap_perm ..).mem_iff.mp ha)
    · exact h a ha
  · exact h a ha

theorem Every.rotate {xs : Array α} (h : Every P xs) (start middle stop : Nat) :
    Every P (Sorting.rotate start middle stop xs) :=
  (((h.extract _ _).append (h.extract _ _)).append (h.extract _ _)).append (h.extract _ _)

variable (hless : ∀ a b, P a → P b → Spares I (less a b))
include hless

theorem lessAt {xs : Array α} (hxs : Every P xs) (i j : Nat) :
    Spares I (Sorting.lessAt less xs i j) := by
  unfold Sorting.lessAt
  split
  · rename_i a b ha hb
    exact hless a b (hxs.get? ha) (hxs.get? hb)
  · exact .pure _

theorem sink (count : Nat) : ∀ (j : Nat) (xs : Array α), Every P xs →
    Maintains I (Every P) (Sorting.sink less count j xs) := by
  induction count with
  | zero => exact fun j xs hxs ↦ .pure hxs
  | succ count ih =>
    intro j xs hxs
    refine (lessAt hless hxs j (j - 1)).bind fun goesBefore ↦ ?_
    split
    · exact ih _ _ (hxs.swap _ _)
    · exact .pure hxs

theorem insertionSort (start stop : Nat) {xs : Array α} (hxs : Every P xs) :
    Maintains I (Every P) (Sorting.insertionSort less start stop xs) :=
  .foldlM (fun ys hys k _ ↦ sink hless (k + 1) (start + k + 1) ys hys) xs hxs

omit hless in
theorem search {test : Nat → Run Bool} (htest : ∀ i, Spares I (test i)) (fuel : Nat) :
    ∀ i j : Nat, Spares I (Sorting.search test fuel i j) := by
  induction fuel with
  | zero => exact fun i j ↦ .pure i
  | succ fuel ih =>
    intro i j
    unfold Sorting.search
    split
    · refine (htest _).bind fun holds ↦ ?_
      split
      · exact ih _ _
      · exact ih _ _
    · exact .pure i

/-- A merge looks for places and rotates, and merges the halves. -/
theorem merge (fuel : Nat) : ∀ (start middle stop : Nat) (xs : Array α), Every P xs →
    Maintains I (Every P) (Sorting.merge less fuel start middle stop xs) := by
  have hnot {xs : Array α} (hxs : Every P xs) (i j : Nat) :
      Spares I (do return !(← Sorting.lessAt less xs i j)) :=
    (lessAt hless hxs i j).bind fun _ ↦ .pure trivial
  induction fuel with
  | zero => exact fun start middle stop xs hxs ↦ .pure hxs
  | succ fuel ih =>
    intro start middle stop xs hxs
    unfold Sorting.merge
    split
    · exact (search (fun h ↦ lessAt hless hxs h start) _ _ _).bind fun _ ↦ .pure (hxs.rotate _ _ _)
    · split
      · exact (search (fun h ↦ hnot hxs middle h) _ _ _).bind fun _ ↦ .pure (hxs.rotate _ _ _)
      · dsimp only
        generalize (if (start + stop) / 2 < middle then
          ((start + stop) / 2 + middle - stop, (start + stop) / 2) else (start, middle)) = range
        refine (search (fun c ↦ hnot hxs _ c) _ _ _).bind fun first ↦ ?_
        generalize hrotated : (if first < middle ∧ middle < (start + stop) / 2 + middle - first then
          Sorting.rotate first middle ((start + stop) / 2 + middle - first) xs else xs) = ys
        have hys : Every P ys := by
          rw [← hrotated]
          split
          · exact hxs.rotate _ _ _
          · exact hxs
        have hlast (last : Nat) (zs : Array α) (hzs : Every P zs) : Maintains I (Every P)
            (if (start + stop) / 2 < last ∧ last < stop then
              Sorting.merge less fuel ((start + stop) / 2) last stop zs else pure zs) := by
          split
          · exact ih _ _ _ _ hzs
          · exact .pure hzs
        split
        · exact (ih _ _ _ _ hys).bind fun zs hzs ↦ hlast _ zs hzs
        · exact Maintains.bind (.pure hys) fun zs hzs ↦ hlast _ zs hzs

omit hless in
theorem forStretches {act : Nat → Nat → Array α → Run (Array α)}
    (hact : ∀ i j xs, Every P xs → Maintains I (Every P) (act i j xs)) (width size : Nat)
    {xs : Array α} (hxs : Every P xs) :
    Maintains I (Every P) (Sorting.forStretches width size act xs) :=
  .foldlM (fun ys hys _ _ ↦ hact _ _ ys hys) xs hxs

theorem mergeBlocks (fuel : Nat) : ∀ (width : Nat) (xs : Array α), Every P xs →
    Maintains I (Every P) (Sorting.mergeBlocks less fuel width xs) := by
  induction fuel with
  | zero => exact fun width xs hxs ↦ .pure hxs
  | succ fuel ih =>
    intro width xs hxs
    unfold Sorting.mergeBlocks
    split
    · refine (forStretches (fun start stop ys hys ↦ ?_) _ _ hxs).bind fun ys hys ↦ ih _ ys hys
      split
      · exact merge hless _ _ _ _ ys hys
      · exact .pure hys
    · exact .pure hxs

/-- What holds of all elements holds of them after sorting. -/
theorem sort {xs : Array α} (hxs : Every P xs) : Maintains I (Every P) (Sorting.sort less xs) :=
  (forStretches (fun i j _ hys ↦ insertionSort hless i j hys) _ _ hxs).bind fun ys hys ↦
    mergeBlocks hless _ _ ys hys

end Sorting

/-! ### Calls -/

/-- A caller through which functions can be called without breaking the enclosure. -/
def OpenCall (K : Enclosure) (call : Call) : Prop :=
  ∀ (name : String) (function : CellRef) (args : List CellRef), K.OpenCell function →
    K.OpenCells args → K.Gives (call.invoke name function args)

variable {K : Enclosure} {m : Machine} {call : Call}

theorem openCells_one {a : CellRef} (ha : K.OpenCell a) : K.OpenCells [a] := openCells_nil.cons ha

theorem openCells_two {a b : CellRef} (ha : K.OpenCell a) (hb : K.OpenCell b) :
    K.OpenCells [a, b] :=
  (openCells_one hb).cons ha

section Selection

variable {test : Entry → Run Bool} (htest : ∀ entry, K.OpenEntry entry → Spares K.Holds (test entry))
  {ref : TableRef} (href : K.OpenObject ref)
include htest href

theorem selectEntries :
    Maintains K.Holds (fun entries ↦ ∀ entry ∈ entries, K.OpenEntry entry)
      (ObjectMethod.selectEntries ref test) := by
  have hnone : Every K.OpenEntry #[] := fun _ h ↦ absurd h (Array.not_mem_empty _)
  refine (forEntries href hnone fun kept hkept entry hentry ↦ ?_).bind fun kept hkept ↦
    .pure fun entry h ↦ hkept entry (Array.mem_def.mpr h)
  refine (htest entry hentry).bind fun accepted ↦ .pure ?_
  split
  · intro found hfound
    rcases Array.mem_push.mp hfound with hfound | rfl
    · exact hkept found hfound
    · exact hentry
  · exact hkept

theorem retainEntries : K.Gives (ObjectMethod.retainEntries ref test) := by
  refine newTable.bind fun out hout ↦
    Spares.bind (forEntries href trivial fun _ _ entry hentry ↦ ?_) fun _ ↦ newObject hout
  refine (htest entry hentry).bind fun accepted ↦ ?_
  split
  · exact setEntry hout hentry.key hentry.value
  · exact .pure trivial

end Selection

variable (hcall : K.OpenCall call)
include hcall

/-- The truth of what a function answers. -/
theorem answer (name : String) {function : CellRef} (hfunction : K.OpenCell function)
    {args : List CellRef} (hargs : K.OpenCells args) :
    Spares K.Holds (do TreeScript.isTrue (← call.invoke name function args)) :=
  (hcall name function args hfunction hargs).bind fun result _ ↦ isTrue result

/-! ### Methods of objects -/

theorem mapEntries {ref : TableRef} (href : K.OpenObject ref) {function : CellRef}
    (hfunction : K.OpenCell function) : K.Gives (ObjectMethod.mapEntries call ref function) := by
  refine Spares.bind (kindOf function) fun c ↦ newTable.bind fun _ hout ↦
    Spares.bind (forEntries href trivial fun _ _ entry hentry ↦ ?_) fun _ ↦ newObject hout
  refine (hcall _ _ _ hfunction ?_).bind fun _ hmapped ↦ setEntry hout hentry.key hmapped
  split
  · exact openCells_two hentry.key hentry.value
  · exact openCells_one hentry.value

theorem mapKeysOf {ref : TableRef} (href : K.OpenObject ref) {function : CellRef}
    (hfunction : K.OpenCell function) : K.Gives (ObjectMethod.mapKeysOf call ref function) := by
  refine newTable.bind fun _ hout ↦
    Spares.bind (forEntries href trivial fun _ _ entry hentry ↦ ?_) fun _ ↦ newObject hout
  exact (hcall _ _ _ hfunction (openCells_one hentry.key)).bind fun _ hmapped ↦
    setEntry hout hmapped hentry.value

theorem filterEntries {ref : TableRef} (href : K.OpenObject ref) {function : CellRef}
    (hfunction : K.OpenCell function) : K.Gives (ObjectMethod.filterEntries call ref function) := by
  have htest (entry : Entry) (hentry : K.OpenEntry entry) : Spares K.Holds (do
      TreeScript.isTrue (← call.invoke "filter" function [entry.value])) :=
    answer hcall _ hfunction (openCells_one hentry.value)
  refine (isArray ref).bind fun isArray ↦ ?_
  split
  · exact (selectEntries htest href).bind fun _ hkept ↦ newArray (openCells_values hkept)
  · exact retainEntries htest href

/-- The order that a call gives can be asked about open cells. -/
theorem comparator {args : List CellRef} (hargs : K.OpenCells args) :
    Maintains K.Holds
      (fun order ↦ ∀ a b, K.OpenCell a → K.OpenCell b → Spares K.Holds (order a b))
      (ObjectMethod.comparator call args) := by
  have hnatural (a b : CellRef) (ha : K.OpenCell a) (hb : K.OpenCell b) :
      Spares K.Holds (ObjectMethod.naturalOrder a b) :=
    (compareValues ha hb).bind fun order ↦ by cases order <;> exact .pure trivial
  cases args with
  | nil => exact .pure hnatural
  | cons function rest =>
    refine Spares.bind (kindOf function) fun c ↦ .ite (fun _ ↦ ?_) fun _ ↦ ?_
    · refine .pure fun a b ha hb ↦ ?_
      have hfunction := hargs function (List.mem_cons_self ..)
      exact (hcall _ _ _ hfunction (openCells_two ha hb)).bind fun _ _ ↦ .get_bind fun _ _ ↦
        .pure trivial
    · exact .pure hnatural

theorem sortEntries {ref : TableRef} (href : K.OpenObject ref) {args : List CellRef}
    (hargs : K.OpenCells args) (byKey : Bool) :
    K.Gives (ObjectMethod.sortEntries call ref args byKey) := by
  refine (comparator hcall hargs).bind fun order horder ↦ (tableOf href).bind fun table htable ↦ ?_
  have hless (keyed : Bool) {a b : Entry} (ha : K.OpenEntry a) (hb : K.OpenEntry b) :
      Spares K.Holds (do
        let c ← if keyed then order a.key b.key else order a.value b.value
        return decide (c < 0)) := by
    cases keyed
    · exact (horder _ _ ha.value hb.value).bind fun _ ↦ .pure trivial
    · exact (horder _ _ ha.key hb.key).bind fun _ ↦ .pure trivial
  have hentries : Every K.OpenEntry table.entries.toArray :=
    fun entry h ↦ htable.entries entry (List.mem_toArray.mp h)
  refine (sort (fun a b ha hb ↦ ?_) hentries).bind fun sorted hsorted ↦
    (isArray ref).bind fun isArray ↦
      rebuild (fun entry h ↦ hsorted entry (Array.mem_def.mpr h)) isArray
  cases byKey
  · exact Spares.bind (.pure false) fun keyed ↦ hless keyed ha hb
  · exact (isArray ref).bind fun isArray ↦ Spares.bind (.pure !isArray) fun keyed ↦
      hless keyed ha hb

theorem foldCells (name : String) {function : CellRef} (hfunction : K.OpenCell function)
    {values : List CellRef} (hvalues : K.OpenCells values) {seed : CellRef}
    (hseed : K.OpenCell seed) :
    K.Gives (values.foldlM (fun acc value ↦ call.invoke name function [acc, value]) seed) :=
  .foldlM (fun _ hacc value hmem ↦
    hcall name function _ hfunction (openCells_two hacc (hvalues value hmem))) seed hseed

theorem foldValues (name : String) {values args : List CellRef} (hvalues : K.OpenCells values)
    (hargs : K.OpenCells args) : K.Gives (ObjectMethod.foldValues call name values args) := by
  refine (requireArgs name args 1).bind fun _ ↦ ?_
  split
  · exact newEmpty
  · exact newEmpty
  · obtain ⟨hfirst, hrest⟩ := List.forall_mem_cons.mp hvalues
    exact foldCells hcall name (hargs _ (List.mem_cons_self ..)) hrest hfirst
  · refine foldCells hcall name (hargs _ ?_) hvalues (hargs _ (List.mem_cons_self ..))
    exact List.mem_cons_of_mem _ (List.getLast_mem _)

theorem extreme {values args : List CellRef} (hvalues : K.OpenCells values)
    (hargs : K.OpenCells args) (sign : Int) :
    K.Gives (ObjectMethod.extreme call values args sign) := by
  refine (comparator hcall hargs).bind fun order horder ↦ ?_
  split
  · exact newEmpty
  · rename_i first rest
    obtain ⟨hfirst, hrest⟩ := List.forall_mem_cons.mp hvalues
    refine .foldlM (fun best hbest value hmem ↦ ?_) first hfirst
    refine (horder value best (hrest value hmem) hbest).bind fun c ↦ .pure ?_
    split
    · exact hrest value hmem
    · exact hbest

theorem crossProduct {values : List CellRef} (hvalues : K.OpenCells values) {other : TableRef}
    (hother : K.OpenObject other) {filter : Option CellRef} (hfilter : K.OpenFound filter) :
    K.Gives (ObjectMethod.crossProduct call values other filter) := by
  have hnone : Every K.OpenCell #[] := fun _ h ↦ absurd h (Array.not_mem_empty _)
  refine Maintains.bind (.foldlM (fun pairs hpairs a ha ↦ ?_) #[] hnone) fun pairs hpairs ↦
    newArray fun cell h ↦ hpairs cell (Array.mem_def.mpr h)
  refine (tableOf hother).bind fun table htable ↦ .foldlM (fun pairs hpairs b hb ↦ ?_) pairs hpairs
  have ha := hvalues a ha
  have hb := htable.values b hb
  refine Spares.bind ?_ fun kept ↦ ?_
  · split
    · exact answer hcall _ (hfilter _ rfl) (openCells_two ha hb)
    · exact .pure true
  · split
    · refine (combine ha hb).bind fun pair hpair ↦ .pure fun cell hcell ↦ ?_
      rcases Array.mem_push.mp hcell with hcell | rfl
      · exact hpairs cell hcell
      · exact hpair
    · exact .pure hpairs

theorem removeKeys {self selector : CellRef} (hself : K.OpenCell self)
    (hselector : K.OpenCell selector) (picked : Bool) :
    K.Gives (ObjectMethod.removeKeys call self selector picked) := by
  refine (tableOrNew hself).bind fun ref href ↦ (selectEntries (fun entry hentry ↦ ?_) href).bind
    fun doomed _ ↦ ?_
  · refine Spares.bind (kindOf selector) fun c ↦ ?_
    dsimp only
    split
    · exact (hcall _ _ _ hselector (openCells_one hentry.key)).bind fun result _ ↦
        (isTrue result).bind fun _ ↦ .pure trivial
    · exact (equal _ _).bind fun _ ↦ .pure trivial
  · refine Spares.bind (Spares.forIn (fun entry _ _ ↦ ?_) _) fun _ ↦ .pure hself
    exact (eraseEntry href _).spares.bind fun _ ↦ .pure trivial

theorem objectMethod (method : ObjectMethod) {self : CellRef} (hself : K.OpenCell self)
    {args : List CellRef} (hargs : K.OpenCells args) : K.Gives (method.run call self args) := by
  have hrequire (name : String) (count : Nat) : Spares K.Holds (TreeScript.requireArgs name args count) :=
    requireArgs name args count
  have hfirst : K.Gives (TreeScript.argument args 0) := argument hargs 0
  unfold ObjectMethod.run
  cases method with
  | map =>
    exact (hrequire _ 1).bind fun _ ↦ (tableOrNew hself).bind fun ref href ↦
      hfirst.bind fun _ hfunction ↦ mapEntries hcall href hfunction
  | mapKeys =>
    exact (hrequire _ 1).bind fun _ ↦ (tableOrNew hself).bind fun ref href ↦
      hfirst.bind fun _ hfunction ↦ mapKeysOf hcall href hfunction
  | filter =>
    exact (hrequire _ 1).bind fun _ ↦ (tableOrNew hself).bind fun ref href ↦
      hfirst.bind fun _ hfunction ↦ filterEntries hcall href hfunction
  | filterKeys =>
    exact (hrequire _ 1).bind fun _ ↦ hfirst.bind fun _ hfunction ↦ (tableOrNew hself).bind fun ref href ↦
      retainEntries (fun _ hentry ↦ answer hcall _ hfunction (openCells_one hentry.key)) href
  | sort => exact (tableOrNew hself).bind fun ref href ↦ sortEntries hcall href hargs false
  | sortKey => exact (tableOrNew hself).bind fun ref href ↦ sortEntries hcall href hargs true
  | reduce | foldl =>
    exact (valuesOf hself).bind fun _ hvalues ↦ foldValues hcall _ hvalues hargs
  | foldr =>
    exact (valuesOf hself).bind fun _ hvalues ↦
      foldValues hcall _ (fun cell h ↦ hvalues cell (List.mem_reverse.mp h)) hargs
  | max => exact (valuesOf hself).bind fun _ hvalues ↦ extreme hcall hvalues hargs 1
  | min => exact (valuesOf hself).bind fun _ hvalues ↦ extreme hcall hvalues hargs (-1)
  | removeKey =>
    exact (hrequire _ 1).bind fun _ ↦ hfirst.bind fun _ hselector ↦
      removeKeys hcall hself hselector true
  | retainKey =>
    exact (hrequire _ 1).bind fun _ ↦ hfirst.bind fun _ hselector ↦
      removeKeys hcall hself hselector false
  | cross =>
    refine (hrequire _ 1).bind fun _ ↦ hfirst.bind fun _ hother ↦ .get_bind fun _ _ ↦
      .get_bind fun _ hn ↦ ?_
    split
    · rename_i heq
      exact (valuesOf hself).bind fun _ hvalues ↦
        crossProduct hcall hvalues (hn.openTable? hother heq) (hargs.get? 1)
    · exact .fail _
  | avg =>
    refine (valuesOf hself).bind fun values _ ↦ .ite (fun _ ↦ newEmpty) fun _ ↦ ?_
    exact (sumValues values).bind fun _ ↦ Spares.bind (.ofNumber _) newNumber
  | size => exact (sizeOf hself).bind fun _ ↦ newNumber _
  | keys => exact (entriesOf hself).bind fun _ hentries ↦ newArray (openCells_keys hentries)
  | values => exact (valuesOf hself).bind fun _ hvalues ↦ newArray hvalues
  | entries =>
    exact (entriesOf hself).bind fun _ hentries ↦
      (Maintains.mapM fun entry h ↦ newEntryObject (hentries entry h)).bind fun _ h ↦ newArray h
  | contains | containsValue =>
    exact (hrequire _ 1).bind fun _ ↦ hfirst.spares.bind fun _ ↦ .get_bind fun _ _ ↦
      (valuesOf hself).spares.bind fun _ ↦ newBoolean _
  | containsKey =>
    exact (hrequire _ 1).bind fun _ ↦ (tableOrNew hself).bind fun _ _ ↦ .get_bind fun _ _ ↦
      hfirst.spares.bind fun _ ↦ newBoolean _
  | push =>
    refine (hrequire _ 1).bind fun _ ↦ (tableOrNew hself).bind fun ref href ↦ ?_
    dsimp only
    split
    · rename_i key value rest
      have hkey : K.OpenCell key := hargs key (List.mem_cons_self ..)
      have hvalue : K.OpenCell value := hargs value (List.mem_cons_of_mem _ (List.mem_cons_self ..))
      exact (setEntry href hkey hvalue).bind fun _ ↦ .pure hself
    · exact hfirst.bind fun _ hvalue ↦ (pushEntry href hvalue).bind fun _ ↦ .pure hself
  | pop => exact popEntry hself hargs
  | distinct =>
    refine (tableOrNew hself).bind fun ref href ↦ .get_bind fun m hm ↦ rebuild (fun entry h ↦ ?_) _
    exact (hm.table ref href).entries entry (mem_distinctEntries m _ entry h)
  | join => exact joinTexts hself args
  | sum => exact (valuesOf hself).bind fun values _ ↦ (sumValues values).bind newNumber
  | head =>
    refine (valuesOf hself).bind fun values hvalues ↦ ?_
    cases values with
    | nil => exact newEmpty
    | cons value rest => exact .pure (hvalues value (List.mem_cons_self ..))
  | tail =>
    refine (tableOrNew hself).bind fun ref href ↦ .get_bind fun m hm ↦ rebuild (fun entry h ↦ ?_) _
    exact (hm.table ref href).entries entry (List.mem_of_mem_drop h)
  | frequency =>
    refine (valuesOf hself).bind fun values hvalues ↦ .get_bind fun m _ ↦ ?_
    refine Maintains.bind (.mapM fun count hcount ↦ ?_) fun _ hcounted ↦ objectOf hcounted
    have hvalue := hvalues _ (mem_countValues m values count hcount)
    exact (newNumber _).bind fun _ hnumber ↦ .pure ⟨hvalue, hnumber⟩
  | rename =>
    refine (hrequire _ 2).bind fun _ ↦ (tableOrNew hself).bind fun ref href ↦ hfirst.bind fun key _ ↦
      (eraseEntry href key).bind fun found hfound ↦ ?_
    cases found with
    | none => exact .pure hself
    | some value =>
      exact (argument hargs 1).bind fun _ hname ↦ (setEntry href hname (hfound value rfl)).bind
        fun _ ↦ .pure hself

/-! ### Other methods -/

omit hcall in
/-- What a function is called with for an open element is open. -/
theorem elementArgs (hm : K.Holds m) (self : CellRef) {element : CellRef}
    (helement : K.OpenCell element) (params : Option Nat) :
    K.OpenCells (CommonMethod.elementArgs m self element params) := by
  have hself := openCells_one helement
  unfold CommonMethod.elementArgs
  split
  · rename_i pair heq
    have hvalues := (hm.table pair (hm.openTable? helement heq)).values
    split
    · dsimp only
      split
      · exact hvalues
      · split
        · exact fun cell h ↦ hvalues cell (List.mem_of_mem_drop h)
        · exact hself
    · exact hself
  · exact hself

theorem forElements (self : CellRef) {function : CellRef} (hfunction : K.OpenCell function)
    (params : Option Nat) {ref : IteratorRef} (href : K.OpenIterator ref) (count : Nat) :
    ∀ result, K.OpenCell result →
      K.Gives (CommonMethod.forElements call self function params ref count result) := by
  induction count with
  | zero => exact fun result hresult ↦ .pure hresult
  | succ count ih =>
    intro result hresult
    refine (next? href).bind fun found hfound ↦ ?_
    cases found with
    | none => exact .pure hresult
    | some element =>
      refine .get_bind fun m hm ↦ ?_
      have hargs := elementArgs hm self (hfound element rfl) params
      exact (hcall _ _ _ hfunction hargs).bind fun result hresult ↦ ih result hresult

theorem commonMethod (method : CommonMethod) {self : CellRef} (hself : K.OpenCell self)
    {args : List CellRef} (hargs : K.OpenCells args) : K.Gives (method.run call self args) := by
  refine .get_bind fun m _ ↦ ?_
  cases method with
  | type =>
    dsimp only
    split
    · exact newString _
    · exact newString _
  | iterator => exact makeIterator hself
  | isNull => exact newBoolean _
  | functions => exact newTextArray _
  | forEach =>
    refine (requireArgs _ args 1).bind fun _ ↦ (argument hargs 0).bind fun function hfunction ↦
      (makeIterator hself).bind fun iterator hiterator ↦ (content hiterator).bind fun c hc ↦ ?_
    split
    · exact .get_bind fun _ _ ↦ newEmpty.bind fun result hresult ↦
        forElements hcall self hfunction _ hc _ result hresult
    · exact newEmpty

/-- Methods that are called on open values give open ones. -/
theorem method (method : Method) {self : CellRef} (hself : K.OpenCell self) {args : List CellRef}
    (hargs : K.OpenCells args) : K.Gives (method.run call self args) := by
  cases method with
  | object method => exact objectMethod hcall method hself hargs
  | text method => exact textMethod method hself hargs
  | regex method => exact regexMethod method self hargs
  | iterator method => exact iteratorMethod method hself
  | common method => exact commonMethod hcall method hself hargs

theorem onVector (action : HostAction) (type : HostType) {x y : CellRef} (hx : K.OpenCell x)
    (hy : K.OpenCell y) {args : List CellRef} (hargs : K.OpenCells args) :
    K.Gives (action.onVector call type x y args) := by
  refine .get_bind fun m _ ↦ ?_
  dsimp only
  split
  · exact newNumber _
  · exact newVector type _ _
  · exact .fail _
  · exact hcall _ _ _ (hargs _ (List.mem_cons_self ..)) (openCells_two hx hy)
  · exact .fail _
  · exact .fail _
  · exact newEmpty

theorem hostMethod (method : HostMethod) (receiver : CellRef) {args : List CellRef}
    (hargs : K.OpenCells args) : K.Gives (method.run call receiver args) := by
  unfold HostMethod.run
  split
  · unfold HostAction.onType
    split
    · exact newVector _ _ _
    · exact newString _
    · exact newEmpty
  · refine Spares.bind (kindOf receiver) fun c ↦ ?_
    split
    · rename_i ref
      refine .get_bind fun m hm ↦ ?_
      have hfound := hm.instanceOf ref
      split
      · rename_i type x y z heq
        rw [heq] at hfound
        exact onVector hcall _ _ hfound.1 hfound.2.1 hargs
      · exact newEmpty
    · exact .fail _

/-! ### Operators -/

theorem binaryRule (symbol : String) (rule : BinaryRule) {left right : CellRef}
    (hleft : K.OpenCell left) (hright : K.OpenCell right) :
    K.Gives (rule.apply call symbol left right) := by
  refine .get_bind fun m _ ↦ ?_
  dsimp only
  split
  · exact Spares.bind (.ofNumber _) newNumber
  · split
    · exact newBoolean _
    · exact newBoolean _
    · exact newBoolean _
    · exact repeatString _ _
    · exact repeatString _ _
    · exact newString _
    · exact appendValues hleft hright
    · exact (compareValues hleft hright).bind fun _ ↦ newBoolean _
    · exact newBoolean _
    · exact newBoolean _
    · refine .pure ?_
      split
      · exact hright
      · exact hleft
    · exact hcall symbol right [left] hright (openCells_one hleft)
    · exact newEmpty

theorem dispatch2 (op : Operator) (fuel : Nat) :
    ∀ left right, K.OpenCell left → K.OpenCell right →
      K.Gives (op.dispatch2 call fuel left right) := by
  induction fuel with
  | zero => exact fun left right _ _ ↦ .throw .outOfFuel
  | succ fuel ih =>
    intro left right hleft hright
    refine .get_bind fun m hm ↦ ?_
    split
    · exact binaryRule hcall op.symbol _ hleft hright
    · split
      · rename_i heq heq'
        refine (requireSameKeys op _ _).bind fun _ ↦
          mapValues (hm.openTable? hleft heq) fun key value _ hvalue ↦ .get_bind fun n hn ↦ ?_
        split
        · rename_i other hfound
          exact ih value other hvalue (hn.lookUp (hm.openTable? hright heq') _ other hfound)
        · exact newEmpty.bind fun other hempty ↦ ih value other hvalue hempty
      · rename_i heq _
        exact mapValues (hm.openTable? hleft heq) fun _ value _ hvalue ↦
          ih value right hvalue hright
      · rename_i heq
        exact mapValues (hm.openTable? hright heq) fun _ value _ hvalue ↦
          ih left value hleft hvalue
      · exact .fail _

/-- Operators that are applied to open values give open ones. -/
theorem evaluateOperator (table : OperatorTable) (symbol : String) (fixity : Fixity)
    {args : List CellRef} (hargs : K.OpenCells args) :
    K.Gives (table.evaluate call symbol fixity args) := by
  unfold OperatorTable.evaluate
  split
  · rename_i op _
    unfold Operator.evaluate
    refine Spares.check (.fail _) (Spares.check (.fail _) ?_)
    dsimp only
    split
    · exact dispatch1 op _ _ (hargs _ (List.mem_cons_self ..))
    · obtain ⟨hleft, hright⟩ := List.forall_mem_cons.mp hargs
      exact dispatch2 hcall op _ _ _ hleft (hright _ (List.mem_cons_self ..))
    · exact newEmpty
  · exact .fail _

end Enclosure

end TreeScript
