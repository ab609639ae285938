import TreeScript.Proofs.Iteration.Loops
import TreeScript.Proofs.Iteration.Sorting

/-!
# What goes over an object meets what was there

Whatever goes over the entries of an object while functions are called for them is of one of three
kinds. Loops draw the entries from an iterator made for them, and folds and sorts take them as they
are at the start; so it does not matter what the functions do to the object. But `map`, `mapKeys`,
`filter`, `filterKeys`, `removeKey` and `retainKey` walk through the object itself (`Walks`), and
meet what was there as long as no turn removes one of its keys. `iteration_meets_what_was_there`
puts this together.

Each method is first brought into the form of a walk, with its turn as a definition: `mapTurn`,
`mapKeysTurn`, `retainTurn` for those that make a new object, and `selectTurn` for those that note
entries. That an object has a slot for each of its entries is true of all machines that programs lead
to (`evaluation_filled`).
-/

set_option autoImplicit false

namespace TreeScript

section

variable {σ β : Type} {act : σ → Entry → Run σ} {ref : TableRef} {m m' : Machine} {start : σ}
  {finish : σ → Run β} {result : β}

/-- A walk that meets some entries of an object, and what comes of it. -/
def Walks (ref : TableRef) (entries : List Entry) (act : σ → Entry → Run σ) (start : σ) (m : Machine)
    (finish : σ → Run β) (result : β) (m' : Machine) : Prop :=
  ∃ turns reached k, Steps act start m turns reached k ∧ MeetsEntries ref entries turns ∧
    finish reached k = .ok result m'

theorem walks_of_forEntries (hfilled : (m.table ref).size ≤ (m.table ref).slots.size)
    (h : (forEntries ref start act >>= finish) m = .ok result m') :
    Walks ref (m.table ref).entries act start m finish result m' := by
  obtain ⟨reached, k, hwalk, hfinish⟩ := Run.bind_eq_ok_iff.mp h
  obtain ⟨turns, hsteps, hmeets⟩ := forEntries_visits hfilled hwalk
  exact ⟨turns, reached, k, hsteps, hmeets, hfinish⟩

/-- A walk that begins by making a new table. -/
theorem walks_of_withTable (hfilled : (m.table ref).size ≤ (m.table ref).slots.size)
    (h : (forEntries ref start act >>= finish) m.withTable = .ok result m') :
    Walks ref (m.table ref).entries act start m.withTable finish result m' := by
  rw [← Machine.table_withTable m] at hfilled ⊢
  exact walks_of_forEntries hfilled h

end

namespace ObjectMethod

/-! ### Turns -/

/-- Enters what a function makes of an entry. -/
def mapTurn (call : Call) (function : CellRef) (params : Option Nat) (out : TableRef) (_ : Unit)
    (entry : Entry) : Run Unit := do
  let mapped ← call.invoke "map" function
    (if params = some 2 then [entry.key, entry.value] else [entry.value])
  setEntry out entry.key mapped

/-- Enters a value under what a function makes of its key. -/
def mapKeysTurn (call : Call) (function : CellRef) (out : TableRef) (_ : Unit) (entry : Entry) :
    Run Unit := do
  let mapped ← call.invoke "mapKeys" function [entry.key]
  setEntry out mapped entry.value

/-- Whether a function is true of a part of an entry. -/
def accepts (call : Call) (name : String) (function : CellRef) (part : Entry → CellRef)
    (entry : Entry) : Run Bool := do
  isTrue (← call.invoke name function [part entry])

/-- Whether a selector picks a key, or does not. -/
def picks (call : Call) (selector : CellRef) (picked : Bool) (entry : Entry) : Run Bool := do
  let found ←
    if (← content selector).isFunction then isTrue (← call.invoke "filter" selector [entry.key])
    else equal entry.key selector
  return found == picked

/-- Enters an entry again if it passes a test. -/
def retainTurn (test : Entry → Run Bool) (out : TableRef) (_ : Unit) (entry : Entry) : Run Unit := do
  if ← test entry then
    setEntry out entry.key entry.value

/-- Notes an entry if it passes a test. -/
def selectTurn (test : Entry → Run Bool) (kept : Array Entry) (entry : Entry) :
    Run (Array Entry) := do
  return if ← test entry then kept.push entry else kept

/-- Deletes the keys of some entries. -/
def eraseEntries (self : CellRef) (ref : TableRef) (doomed : Array Entry) : Run CellRef := do
  for entry in doomed.toList do
    let _ ← eraseEntry ref entry.key
  return self

/-- Combines a value with what the former ones gave. -/
def foldTurn (call : Call) (name : String) (function : CellRef) (acc value : CellRef) :
    Run CellRef :=
  call.invoke name function [acc, value]

variable {call : Call} {self function : CellRef} {rest : List CellRef} {ref : TableRef}
  {m m' : Machine} {result : CellRef}

theorem run_map (hself : m.content self = .object ref) :
    run call .map self (function :: rest) m =
      (forEntries ref () (mapTurn call function (m.content function).paramCount? ⟨m.tables.size⟩)
        >>= fun _ ↦ newObject ⟨m.tables.size⟩) m.withTable := by
  change (tableOrNew self >>= fun ref ↦ _) m = _
  rw [Run.bind_ok (tableOrNew_apply hself)]
  rfl

theorem run_mapKeys (hself : m.content self = .object ref) :
    run call .mapKeys self (function :: rest) m =
      (forEntries ref () (mapKeysTurn call function ⟨m.tables.size⟩)
        >>= fun _ ↦ newObject ⟨m.tables.size⟩) m.withTable := by
  change (tableOrNew self >>= fun ref ↦ _) m = _
  rw [Run.bind_ok (tableOrNew_apply hself)]
  rfl

theorem run_filterKeys (hself : m.content self = .object ref) :
    run call .filterKeys self (function :: rest) m =
      (forEntries ref () (retainTurn (accepts call "filterKeys" function Entry.key)
          ⟨m.tables.size⟩) >>= fun _ ↦ newObject ⟨m.tables.size⟩) m.withTable := by
  change (tableOrNew self >>= fun ref ↦ _) m = _
  rw [Run.bind_ok (tableOrNew_apply hself)]
  rfl

theorem selectEntries_bind {β : Type} (ref : TableRef) (test : Entry → Run Bool)
    (finish : List Entry → Run β) (m : Machine) :
    (selectEntries ref test >>= finish) m =
      (forEntries ref #[] (selectTurn test) >>= fun kept ↦ finish kept.toList) m := by
  change ((forEntries ref #[] (selectTurn test) >>= fun kept ↦ pure kept.toList) >>= finish) m = _
  rw [bind_assoc]
  rfl

theorem run_filter (hself : m.content self = .object ref) :
    run call .filter self (function :: rest) m =
      if m.isArray ref then
        (forEntries ref #[] (selectTurn (accepts call "filter" function Entry.value)) >>=
          fun kept ↦ newArray (kept.toList.map Entry.value)) m
      else
        (forEntries ref () (retainTurn (accepts call "filter" function Entry.value)
            ⟨m.tables.size⟩) >>= fun _ ↦ newObject ⟨m.tables.size⟩) m.withTable := by
  change (tableOrNew self >>= fun ref ↦ _) m = _
  rw [Run.bind_ok (tableOrNew_apply hself)]
  change filterEntries call ref function m = _
  have harray : isArray ref m = .ok (m.isArray ref) m := rfl
  unfold filterEntries
  rw [Run.bind_ok harray]
  split
  · exact selectEntries_bind _ _ _ m
  · rfl

theorem removeKeys_eq (hself : m.content self = .object ref) (picked : Bool) :
    removeKeys call self function picked m =
      (forEntries ref #[] (selectTurn (picks call function picked)) >>= eraseEntries self ref) m := by
  unfold removeKeys
  rw [Run.bind_ok (tableOrNew_apply hself)]
  exact selectEntries_bind _ _ _ m

theorem valuesOf_of_object (hself : m.content self = .object ref) :
    valuesOf self m = .ok (m.table ref).values m := by
  unfold valuesOf
  rw [Run.bind_ok (tableOrNew_apply hself)]
  rfl

/-- Values combined from the left, one in each turn. The first one is where this starts, unless
there is an argument to start with. -/
def FoldsOver (call : Call) (name : String) (m : Machine) (result : CellRef) (m' : Machine) :
    (former args : List CellRef) → Prop
  | [], _ | _, [] => newEmpty m = .ok result m'
  | first :: others, [function] => ∃ turns,
      Steps (foldTurn call name function) first m turns result m' ∧
        turns.map Turn.element = others
  | former, seed :: arg :: args => ∃ turns,
      Steps (foldTurn call name ((arg :: args).getLast (List.cons_ne_nil _ _))) seed m turns result m' ∧
        turns.map Turn.element = former

theorem foldsOver_of_foldValues {name : String} {former args : List CellRef}
    (h : foldValues call name former args m = .ok result m') :
    FoldsOver call name m result m' former args := by
  unfold foldValues at h
  obtain ⟨_, n, hchecked, hfolded⟩ := Run.bind_eq_ok_iff.mp h
  obtain rfl : n = m := by
    unfold requireArgs at hchecked
    split at hchecked
    · cases hchecked
    · cases hchecked
      rfl
  clear h
  match former, args with
  | [], _ => exact hfolded
  | _ :: _, [] => exact hfolded
  | first :: others, [function] => exact Steps.of_foldlM hfolded
  | first :: others, seed :: arg :: args => exact Steps.of_foldlM hfolded

/-- Finding an order changes nothing. -/
theorem comparator_ok (call : Call) (args : List CellRef) (m : Machine) :
    ∃ order, comparator call args m = .ok order m := by
  unfold comparator
  match args with
  | [] => exact ⟨_, rfl⟩
  | function :: _ =>
    have hread : TreeScript.content function m = .ok (m.content function) m := rfl
    dsimp only
    rw [Run.bind_ok hread]
    split <;> exact ⟨_, rfl⟩

/-- Sorting takes all entries there are, whatever the order does when it is asked. -/
theorem sortEntries_takes {args : List CellRef} {byKey : Bool}
    (h : sortEntries call ref args byKey m = .ok result m') :
    ∃ sorted k, sorted.Perm (m.table ref).entries ∧
      rebuild (k.isArray ref) sorted k = .ok result m' := by
  obtain ⟨order, horder⟩ := comparator_ok call args m
  unfold sortEntries at h
  have hread : tableOf ref m = .ok (m.table ref) m := rfl
  rw [Run.bind_ok horder] at h
  dsimp only at h
  rw [Run.bind_ok hread] at h
  obtain ⟨sorted, k, hsorted, hrebuilt⟩ := Run.bind_eq_ok_iff.mp h
  exact ⟨sorted.toList, k, (Sorting.perm_of_sort hsorted).toList, hrebuilt⟩

end ObjectMethod

/-! ### Everything that goes over an object -/

/-- Programs keep a slot for each entry of an object. -/
theorem evaluation_filled (n : Nat) (site : Site) (mode : Mode) (node : Node) {m : Machine}
    (hfilled : m.Filled) : (Outcome.final ((interp n).eval site mode node m)).Filled := by
  obtain ⟨history, hevolves⟩ := evaluation_evolves n site mode node m
  exact hevolves.filled hfilled

open ObjectMethod

/-- What goes over an object and how, on the machine where it begins: what each operation meets if
it does not fail. -/
structure Machine.GoesOver (m : Machine) (cell : CellRef) (ref : TableRef) (call : Call) : Prop where
  map : ∀ function rest result m', run call .map cell (function :: rest) m = .ok result m' →
    Walks ref (m.table ref).entries
      (mapTurn call function (m.content function).paramCount? ⟨m.tables.size⟩) () m.withTable
      (fun _ ↦ newObject ⟨m.tables.size⟩) result m'
  mapKeys : ∀ function rest result m', run call .mapKeys cell (function :: rest) m = .ok result m' →
    Walks ref (m.table ref).entries (mapKeysTurn call function ⟨m.tables.size⟩) () m.withTable
      (fun _ ↦ newObject ⟨m.tables.size⟩) result m'
  filter : ∀ function rest result m', run call .filter cell (function :: rest) m = .ok result m' →
    if m.isArray ref then
      Walks ref (m.table ref).entries (selectTurn (accepts call "filter" function Entry.value)) #[] m
        (fun kept ↦ newArray (kept.toList.map Entry.value)) result m'
    else
      Walks ref (m.table ref).entries
        (retainTurn (accepts call "filter" function Entry.value) ⟨m.tables.size⟩) () m.withTable
        (fun _ ↦ newObject ⟨m.tables.size⟩) result m'
  filterKeys : ∀ function rest result m',
    run call .filterKeys cell (function :: rest) m = .ok result m' →
      Walks ref (m.table ref).entries
        (retainTurn (accepts call "filterKeys" function Entry.key) ⟨m.tables.size⟩) () m.withTable
        (fun _ ↦ newObject ⟨m.tables.size⟩) result m'
  removeKey : ∀ selector rest result m',
    run call .removeKey cell (selector :: rest) m = .ok result m' →
      Walks ref (m.table ref).entries (selectTurn (picks call selector true)) #[] m
        (eraseEntries cell ref) result m'
  retainKey : ∀ selector rest result m',
    run call .retainKey cell (selector :: rest) m = .ok result m' →
      Walks ref (m.table ref).entries (selectTurn (picks call selector false)) #[] m
        (eraseEntries cell ref) result m'
  reduce : ∀ args result m', run call .reduce cell args m = .ok result m' →
    FoldsOver call "reduce" m result m' (m.table ref).values args
  foldl : ∀ args result m', run call .foldl cell args m = .ok result m' →
    FoldsOver call "foldl" m result m' (m.table ref).values args
  foldr : ∀ args result m', run call .foldr cell args m = .ok result m' →
    FoldsOver call "foldr" m result m' (m.table ref).values.reverse args
  sort : ∀ method ∈ [ObjectMethod.sort, .sortKey], ∀ args result m',
    run call method cell args m = .ok result m' → ∃ sorted k,
      sorted.Perm (m.table ref).entries ∧ rebuild (k.isArray ref) sorted k = .ok result m'
  forEach : m.Whole → ∀ fuel (site : Site) before function rest result m',
    site.context.index < m.contexts.size →
      (interp fuel).callFrom site before = .ok call before → function.index < m.cells.size →
        CommonMethod.run call .forEach cell (function :: rest) m = .ok result m' →
          LoopsOver m ref (forEachTurn call cell function (m.content function).paramCount?) false
            result m'
  forLoop : m.Whole → ∀ fuel (site : Site) names iterable body result before m',
    site.context.index < m.contexts.size →
      (interp fuel).value site iterable .required before = .ok cell m →
        (interp fuel).forLoop site names iterable body before = .ok result m' →
          ∃ ended, LoopsOver m ref (forTurn (interp fuel) site names body) ended result m'

/-- Assumes: an object. Every operation that goes over its entries meets those that are there when
it begins, in their order, each of them once, and nothing else: folds and sorts whatever their turns
do to the object, loops as well on a whole machine, and the others as long as no turn removes one of
its keys. -/
theorem iteration_meets_what_was_there {m : Machine} {self : CellRef} {ref : TableRef} (call : Call)
    (hfilled : m.Filled) (hself : m.content self = .object ref) : m.GoesOver self ref call where
  map function rest result m' h := by
    rw [run_map hself] at h
    exact walks_of_withTable (hfilled ref) h
  mapKeys function rest result m' h := by
    rw [run_mapKeys hself] at h
    exact walks_of_withTable (hfilled ref) h
  filter function rest result m' h := by
    rw [run_filter hself] at h
    split at h
    · rw [if_pos ‹_›]
      exact walks_of_forEntries (hfilled ref) h
    · rw [if_neg ‹_›]
      exact walks_of_withTable (hfilled ref) h
  filterKeys function rest result m' h := by
    rw [run_filterKeys hself] at h
    exact walks_of_withTable (hfilled ref) h
  removeKey selector rest result m' h := by
    change removeKeys call self selector true m = _ at h
    rw [removeKeys_eq hself] at h
    exact walks_of_forEntries (hfilled ref) h
  retainKey selector rest result m' h := by
    change removeKeys call self selector false m = _ at h
    rw [removeKeys_eq hself] at h
    exact walks_of_forEntries (hfilled ref) h
  reduce args result m' h := by
    change (valuesOf self >>= fun former ↦ foldValues call "reduce" former args) m = _ at h
    rw [Run.bind_ok (valuesOf_of_object hself)] at h
    exact foldsOver_of_foldValues h
  foldl args result m' h := by
    change (valuesOf self >>= fun former ↦ foldValues call "foldl" former args) m = _ at h
    rw [Run.bind_ok (valuesOf_of_object hself)] at h
    exact foldsOver_of_foldValues h
  foldr args result m' h := by
    change (valuesOf self >>= fun former ↦ foldValues call "foldr" former.reverse args) m = _ at h
    rw [Run.bind_ok (valuesOf_of_object hself)] at h
    exact foldsOver_of_foldValues h
  sort method hmethod args result m' h := by
    have hsorts : ∃ byKey, run call method self args m =
        (tableOrNew self >>= fun ref ↦ sortEntries call ref args byKey) m := by
      rcases List.mem_pair.mp hmethod with rfl | rfl
      · exact ⟨false, rfl⟩
      · exact ⟨true, rfl⟩
    obtain ⟨byKey, hrun⟩ := hsorts
    rw [hrun, Run.bind_ok (tableOrNew_apply hself)] at h
    exact sortEntries_takes h
  forEach hwhole fuel site before function rest result m' hsite hcall hfunction h :=
    forEach_loops hwhole hsite hcall hfunction hself h
  forLoop hwhole fuel site names iterable body result before m' hsite hvalue h :=
    forLoop_loops hwhole hsite hvalue hself h

/-- An array of one value, and a text. -/
def oneValue : Machine where
  cells := #[.object ⟨0⟩, .number (Decimal.ofInt 0), .boolean true, .string "more"]
  tables := #[{
    slots := #[⟨⟨1⟩, ⟨2⟩⟩]
    size := 1
    capacity := 1
    index := .ofList [(.number (Decimal.ofInt 0), 0)] }]

/-- Functions that enter a value under the text in the array, and give their argument. -/
def enterMore : Call where
  scale := 0
  invoke _ _ args := do
    setEntry ⟨0⟩ ⟨3⟩ ⟨2⟩
    return args.headD ⟨2⟩
  fuel := 0

/-- To map an array with a function that enters more values in it is to go over those it had. -/
theorem growing_array_is_mapped_once :
    oneValue.Filled ∧ oneValue.content ⟨0⟩ = .object ⟨0⟩ ∧ ∃ result m' turns reached k,
      ObjectMethod.run enterMore .map ⟨0⟩ [⟨3⟩] oneValue = .ok result m' ∧
        Steps (mapTurn enterMore ⟨3⟩ none ⟨1⟩) () oneValue.withTable turns reached k ∧
          turns.map (·.element.key) = [⟨1⟩] := by
  have hfilled : oneValue.Filled := by
    rintro ⟨i⟩
    match i with
    | 0 => decide
    | i + 1 => exact Nat.le_refl _
  have hself : oneValue.content ⟨0⟩ = .object ⟨0⟩ := rfl
  obtain ⟨result, m', hrun⟩ : ∃ result m',
      ObjectMethod.run enterMore .map ⟨0⟩ [⟨3⟩] oneValue = .ok result m' := ⟨_, _, rfl⟩
  obtain ⟨turns, reached, k, hsteps, hmeets, -⟩ :=
    (iteration_meets_what_was_there enterMore hfilled hself).map _ _ _ _ hrun
  refine ⟨hfilled, hself, result, m', turns, reached, k, hrun, hsteps, hmeets.keys ?_⟩
  refine hsteps.forall_turns fun {s s' entry n n'} hact ↦ ?_
  let more : Machine := n.after (.enter ⟨0⟩ ⟨3⟩ ⟨2⟩)
  have hturn : mapTurn enterMore ⟨3⟩ none ⟨1⟩ s entry n =
      .ok () (more.after (.enter ⟨1⟩ entry.key entry.value)) := rfl
  cases hturn.symm.trans hact
  have hevolves := (Machine.Evolves.change n (.enter ⟨0⟩ ⟨3⟩ ⟨2⟩)).trans
    (.change more (.enter ⟨1⟩ entry.key entry.value))
  refine ⟨_, hevolves, fun p hp ↦ ?_⟩
  rcases List.mem_pair.mp hp with rfl | rfl <;> exact trivial

end TreeScript
