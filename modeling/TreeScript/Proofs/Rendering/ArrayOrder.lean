import TreeScript.Proofs.Broadcasting.Leaves
import TreeScript.Proofs.Iteration.Methods
import TreeScript.Proofs.Rendering.Export

/-!
# In which order an array is read

An object counts as an array by its keys, but everything that reads it goes by the order in which
they were inserted: its display, its export to JSON, a loop, a filter, and the operator that joins it
to another array (`arrays_read_in_insertion_order`). What stands at a place is the value under the
number of the place if the keys were inserted in their order. Nothing makes sure of that: an array
whose keys were inserted backwards is shown backwards (`backwards_array_shown_backwards`).
-/

set_option autoImplicit false

namespace TreeScript

/-! ### The operator that joins -/

namespace Operator

/-- The operator `::` of the language: it joins any two values. -/
def joins : Operator := between "::" 105 [any2 .append]

theorem joins_mem : joins ∈ standardOperators := by
  simp [standardOperators, joins]

theorem evaluate_joins {call : Call} (hfuel : call.fuel ≠ 0) (left right : CellRef) (m : Machine) :
    standard.evaluate call "::" .infixOp [left, right] m = appendValues left right m := by
  obtain ⟨fuel, hfuel⟩ := Nat.exists_eq_succ_of_ne_zero hfuel
  have hfound : standard.find? "::" .infixOp = some joins := find?_standard joins_mem
  unfold OperatorTable.evaluate
  rw [hfound]
  have hrule : joins.binaryRule? (m.typeName left) (m.typeName right) = some .append := by
    simp [joins, between, binaryRule?, any2, isType]
  change joins.dispatch2 call call.fuel left right m = _
  rw [hfuel, dispatch2, Run.get_bind, hrule]
  rfl

end Operator

namespace Machine

variable {m m' : Machine} {cell left : CellRef} {ref table : TableRef} {items : List CellRef}

/-! ### Each way of reading -/

theorem display_of_isArray (hobject : m.content cell = .object ref) (harray : m.isArray ref = true) :
    m.display cell = "[" ++ Node.commas ((m.table ref).values.map
      (m.displayIn ((m.tables.size + 1) * (m.instances.size + 1)) [ref])) ++ "]" := by
  unfold display displayDepth
  rw [displayIn_object _ hobject List.not_mem_nil, objectText, if_pos harray]

theorem exportIn_of_toJson {json : Json} (h : m.toJson cell = .ok json) :
    m.exportIn (m.tables.size + 1) [] cell = .ok json := by
  unfold toJson at h
  cases hexport : m.exportIn (m.tables.size + 1) [] cell with
  | error failure =>
    rw [hexport] at h
    cases h
  | ok exported =>
    rw [hexport] at h
    simp only [bind, Except.bind] at h
    split at h
    · cases h
    · exact h

theorem toJson_of_isArray (hobject : m.content cell = .object ref) (harray : m.isArray ref = true)
    {json : Json} (h : m.toJson cell = .ok json) :
    ∃ parts, json = .array parts ∧ List.Forall₂
      (fun item part ↦ m.exportIn m.tables.size [ref] item = .ok part) (m.table ref).values parts := by
  have hexport : m.exportIn (m.tables.size + 1) [] cell = (do
      return .array (← (m.table ref).values.mapM (m.exportIn m.tables.size [ref])) :
        Except ExportError Json) := by
    rw [exportIn, hobject]
    dsimp only
    rw [if_neg (by simp), if_pos harray]
  have hjson := exportIn_of_toJson h
  rw [hexport] at hjson
  cases hparts : (m.table ref).values.mapM (m.exportIn m.tables.size [ref]) with
  | error failure =>
    rw [hparts] at hjson
    cases hjson
  | ok parts =>
    rw [hparts] at hjson
    cases hjson
    exact ⟨parts, rfl, forall₂_of_mapM_eq_ok hparts⟩

/-- A loop with one variable binds it to a copy of an item when it comes to some element, then and
as long as cells and tables stay. -/
def BindsItem (m : Machine) (element item : CellRef) : Prop :=
  ∀ (name : String) (frame : Frame) (n : Machine), KeepsFrom 0 m n →
    Interp.bindElement [name] element frame n =
      (do frame.putOnTop name (← copy item) : Run Unit) n

theorem IsPair.bindsItem {entry : Entry} (h : m.IsPair cell entry) : m.BindsItem cell entry.value :=
  fun name frame _ hkept ↦ (bindElement_pair (h.kept hkept) frame).1 name

/-- Assumes: an array of some items, no more than a word counts. What is joined to it is an array of
these items and the values of the other array. -/
theorem appendValues_array (hleft : m.content left = .object table) (hitems : m.HasItems table items)
    (hfew : items.length ≤ twoTo 63) (hobject : m.content cell = .object ref)
    (hexists : ref.index < m.tables.size) (harray : m.isArray ref = true) :
    ∃ out n, appendValues left cell m = .ok out n ∧
      n.IsArrayOf out (items ++ (m.table ref).values) := by
  obtain ⟨n, hcloned, horderly, hentries, hcells, hcount, hothers⟩ :=
    cloneTable_entries hitems.orderly
  have hnew : ref ≠ ⟨m.tables.size⟩ := by
    rintro rfl
    exact Nat.lt_irrefl _ hexists
  have hclone : n.HasItems ⟨m.tables.size⟩ items := by
    refine ⟨horderly, ?_, (congrArg (List.map Entry.value) hentries).trans hitems.values⟩
    rw [Table.keys, hentries, ← hitems.keys]
    exact List.map_congr_left fun key _ ↦ content_congr hcells key
  obtain ⟨k, hpushed, hk⟩ := hclone.pushAll (m.table ref).values
  refine ⟨_, _, ?_, hk.newObject⟩
  have hread : tableOf ref n = .ok (m.table ref) n := by
    rw [← hothers ref hnew]
    rfl
  unfold appendValues
  rw [Run.get_bind, tableOf?_eq_some_iff.mpr hleft, tableOf?_eq_some_iff.mpr hobject]
  dsimp only
  rw [hitems.isArray hfew, harray]
  unfold appendObjects
  rw [Run.bind_ok hcloned, Bool.true_and, if_pos rfl, Run.bind_ok hread, Run.bind_ok hpushed]
  rfl

end Machine

/-- Assumes: a test that accepts the entries of all turns. They are noted in their order. -/
theorem Steps.noted {test : Entry → Run Bool} {noted noted' : Array Entry} {m m' : Machine}
    {turns : List (Turn Entry)}
    (h : Steps (ObjectMethod.selectTurn test) noted m turns noted' m')
    (haccepted : ∀ turn ∈ turns, test turn.element turn.before = .ok true turn.after) :
    noted'.toList = noted.toList ++ turns.map Turn.element := by
  induction h with
  | done => exact (List.append_nil _).symm
  | @turn s s' s'' m n m' entry turns hact _ ih =>
    obtain ⟨hfirst, hlater⟩ := List.forall_mem_cons.mp haccepted
    rw [ih hlater]
    unfold ObjectMethod.selectTurn at hact
    rw [Run.bind_ok hfirst] at hact
    cases hact
    rw [if_pos rfl, Array.toList_push, List.append_assoc]
    rfl

/-! ### All of them -/

open ObjectMethod

/-- An array gives some items, one after the other, in whichever way it is read. -/
structure Machine.ReadsAs (m : Machine) (cell : CellRef) (ref : TableRef) (items : List CellRef) :
    Prop where
  display : m.display cell = "[" ++ Node.commas
    (items.map (m.displayIn ((m.tables.size + 1) * (m.instances.size + 1)) [ref])) ++ "]"
  json : ∀ json, m.toJson cell = .ok json → ∃ parts, json = .array parts ∧
    List.Forall₂ (fun item part ↦ m.exportIn m.tables.size [ref] item = .ok part) items parts
  iterator : ∃ iterator drawn n, makeIterator cell m = .ok iterator n ∧
    n.content iterator = .iterator drawn ∧
      List.Forall₂ n.BindsItem (n.remaining drawn) items
  forLoop : ∀ fuel (site : Site) name iterable body result before m',
    site.context.index < m.contexts.size →
      (interp fuel).value site iterable .required before = .ok cell m →
        (interp fuel).forLoop site [name] iterable body before = .ok result m' →
          ∃ drawn start k turns ended,
            Draws drawn (forTurn (interp fuel) site [name] body) start k turns ended result m' ∧
              (ended = false → turns.length = items.length) ∧
                ∀ (i : Nat) turn, turns[i]? = some turn →
                  ∃ item, items[i]? = some item ∧ turn.before.BindsItem turn.element item
  filter : ∀ call function rest result m', run call .filter cell (function :: rest) m = .ok result m' →
    ∃ turns noted k,
      Steps (selectTurn (accepts call "filter" function Entry.value)) #[] m turns noted k ∧
        ((∀ turn ∈ turns,
          accepts call "filter" function Entry.value turn.element turn.before =
              .ok true turn.after ∧
            turn.Changes fun n c ↦ c.OnlyAdds ref n) → m'.IsArrayOf result items)
  joined : ∀ (call : Call) left table, call.fuel ≠ 0 → m.content left = .object table →
    m.HasItems table [] → ∃ out n,
      Operator.standard.evaluate call "::" .infixOp [left, cell] m = .ok out n ∧
        n.IsArrayOf out items

/-- Assumes: an object that counts as an array, on a whole machine. In whichever way it is read, it
gives its values in the order in which their keys were inserted. These are the values under the
numbers 0, 1 and so on, if the object is in order and has its keys in this order. -/
theorem arrays_read_in_insertion_order {m : Machine} {cell : CellRef} {ref : TableRef}
    (hwhole : m.Whole) (hobject : m.content cell = .object ref) (harray : m.isArray ref = true) :
    m.ReadsAs cell ref (m.table ref).values ∧
      (m.Orderly ref → m.InIndexOrder ref → ∀ (i : Nat) item, (m.table ref).values[i]? = some item →
        (m.table ref).get? (.number (Decimal.ofInt i)) = some item) := by
  have hfilled := (hwhole.table ref).size
  refine ⟨⟨m.display_of_isArray hobject harray, fun json ↦ m.toJson_of_isArray hobject harray,
    ?_, ?_, ?_, ?_⟩, fun horderly hindex i item ↦ hindex.get? horderly⟩
  · obtain ⟨iterator, drawn, last, n, hmade, hiterator, hpairs, hlast, -⟩ :=
      Machine.makeIterator_object hwhole hobject
    refine ⟨iterator, drawn, n, hmade, hiterator, List.forall₂_map_right_iff.mpr ?_⟩
    exact hpairs.isPair.imp fun _ _ hpair ↦ (hpair.kept (hlast.keepsFrom 0)).bindsItem
  · intro fuel site name iterable body result before m' hsite hvalue h
    obtain ⟨ended, drawn, start, k, turns, -, hdraws, hmeets⟩ :=
      forLoop_loops hwhole hsite hvalue hobject h
    refine ⟨drawn, start, k, turns, ended, hdraws, fun hended ↦ ?_, fun i turn hturn ↦ ?_⟩
    · rw [hmeets.all hended, Table.values, List.length_map]
    · obtain ⟨entry, hentry, hpair⟩ := hmeets.pair i turn hturn
      refine ⟨entry.value, ?_, hpair.bindsItem⟩
      rw [Table.values, List.getElem?_map, hentry]
      rfl
  · intro call function rest result m' h
    rw [run_filter hobject, if_pos harray] at h
    obtain ⟨turns, noted, k, hsteps, hmeets, hfinish⟩ := walks_of_forEntries hfilled h
    refine ⟨turns, noted, k, hsteps, fun htrue ↦ ?_⟩
    have hnoted := hsteps.noted fun turn hturn ↦ (htrue turn hturn).1
    rw [hmeets.entries fun turn hturn ↦ (htrue turn hturn).2, List.nil_append] at hnoted
    obtain ⟨out, n, hmade, -, hitems⟩ := Machine.newArray_items (noted.toList.map Entry.value) k
    cases hmade.symm.trans hfinish
    rwa [hnoted] at hitems
  · intro call left table hfuel hleft hempty
    rw [Operator.evaluate_joins hfuel]
    exact m.appendValues_array hleft hempty (Nat.zero_le _) hobject (hwhole.object hobject) harray

/-- Cells for the keys 0 and 1, and for their values. -/
def keysAndTexts : Machine where
  cells := #[.number (Decimal.ofInt 0), .number (Decimal.ofInt 1), .string "a", .string "b"]

theorem keysAndTexts_whole : keysAndTexts.Whole := by
  refine ⟨?_, fun _ ↦ Enclosure.openTable_empty, fun _ ↦ Enclosure.openBindings_empty,
    fun _ ↦ Enclosure.openCells_nil, fun _ ↦ trivial, fun _ href ↦ (nomatch href),
    fun _ href ↦ (nomatch href)⟩
  rintro ⟨i⟩
  match i with
  | 0 | 1 | 2 | 3 | i + 4 => trivial

/-- A new array of two texts is read in the order in which they stand in it, and has them under their
places. -/
theorem array_of_texts_is_read_in_order :
    ∃ cell n ref, newArray [⟨2⟩, ⟨3⟩] keysAndTexts = .ok cell n ∧ n.Whole ∧
      n.content cell = .object ref ∧ n.isArray ref = true ∧ n.ReadsAs cell ref [⟨2⟩, ⟨3⟩] ∧
        (n.table ref).get? (.number (Decimal.ofInt 0)) = some ⟨2⟩ ∧
          (n.table ref).get? (.number (Decimal.ofInt 1)) = some ⟨3⟩ := by
  obtain ⟨cell, n, hmade, -, ref, hcell, hitems⟩ :=
    Machine.newArray_items [⟨2⟩, ⟨3⟩] keysAndTexts
  have hwhole : n.Whole := keysAndTexts_whole.newPair (by decide) (by decide) hmade
  have harray : n.isArray ref = true := hitems.isArray (by decide)
  obtain ⟨hreads, hplaces⟩ := arrays_read_in_insertion_order hwhole hcell harray
  have hunder := hplaces hitems.orderly hitems.inIndexOrder
  rw [hitems.values] at hreads hunder
  exact ⟨cell, n, ref, hmade, hwhole, hcell, harray, hreads, hunder 0 _ rfl, hunder 1 _ rfl⟩

/-- An object of two entries, the second of which is entered first. -/
def enteredBackwards : Run CellRef := do
  let ref ← newTable
  setEntry ref ⟨1⟩ ⟨3⟩
  setEntry ref ⟨0⟩ ⟨2⟩
  newObject ref

/-- An array whose keys were not inserted in their order is not shown in their order. -/
theorem backwards_array_shown_backwards :
    ∃ cell n ref, enteredBackwards keysAndTexts = .ok cell n ∧ n.content cell = .object ref ∧
      n.isArray ref = true ∧ n.display cell = "[b, a]" ∧
        ((n.table ref).get? (.number (Decimal.ofInt 0))).map n.display = some "a" ∧
        ((n.table ref).get? (.number (Decimal.ofInt 1))).map n.display = some "b" := by
  let first := keysAndTexts.withTable.after (.enter ⟨0⟩ ⟨1⟩ ⟨3⟩)
  let second := first.after (.enter ⟨0⟩ ⟨0⟩ ⟨2⟩)
  let n := second.withCell (.object ⟨0⟩)
  have hempty : keysAndTexts.withTable.Orderly ⟨0⟩ := keysAndTexts.orderly_newTable
  have hfirst : first.Orderly ⟨0⟩ := hempty.after fun _ ↦ by decide
  have hnone (id : KeyId) : (keysAndTexts.withTable.table ⟨0⟩).get? id = none :=
    Table.get?_empty id
  have hfound (id : KeyId) : (second.table ⟨0⟩).get? id =
      if id = .number (Decimal.ofInt 0) then some ⟨2⟩
      else if id = .number (Decimal.ofInt 1) then some ⟨3⟩ else none := by
    rw [hfirst.get?_enter, hempty.get?_enter, hnone]
    rfl
  have hentries : (second.table ⟨0⟩).entries = [⟨⟨1⟩, ⟨3⟩⟩, ⟨⟨0⟩, ⟨2⟩⟩] := by
    rw [hfirst.entries_enter, hempty.entries_enter (hnone _)]
    · rfl
    · rw [hempty.get?_enter, hnone]
      decide
  have harray : n.isArray ⟨0⟩ = true := by
    have hsize : (n.table ⟨0⟩).size = 2 := by
      have horderly : second.Orderly ⟨0⟩ := hfirst.after fun _ ↦ by decide
      change (second.table ⟨0⟩).size = 2
      rw [← horderly.inOrder.length_entries, hentries]
      rfl
    have hids : n.keyIds ⟨0⟩ = [.number (Decimal.ofInt 1), .number (Decimal.ofInt 0)] := by
      change ((second.table ⟨0⟩).entries.map Entry.key).map n.keyId = _
      rw [hentries]
      rfl
    refine Machine.HasIndexKeys.isArray (fun id ↦ ?_) (by rw [hsize]; decide)
    rw [hids, hsize, List.mem_pair]
    constructor
    · rintro (rfl | rfl)
      · exact ⟨1, by decide, rfl⟩
      · exact ⟨0, by decide, rfl⟩
    · rintro ⟨i, hi, rfl⟩
      interval_cases i
      · exact .inr rfl
      · exact .inl rfl
  have hshown : n.display ⟨4⟩ = "[" ++ Node.commas ((second.table ⟨0⟩).values.map
      (n.displayIn 2 [⟨0⟩])) ++ "]" := Machine.display_of_isArray rfl harray
  refine ⟨⟨4⟩, n, ⟨0⟩, rfl, rfl, harray, ?_, ?_, ?_⟩
  · rw [hshown, Table.values, hentries]
    rfl
  · change ((second.table ⟨0⟩).get? _).map _ = _
    rw [hfound]
    rfl
  · change ((second.table ⟨0⟩).get? _).map _ = _
    rw [hfound]
    rfl

end TreeScript
