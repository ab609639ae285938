import TreeScript.Proofs.Enclosure.Store
import TreeScript.Proofs.Comparison.Values

/-!
# Building values under an enclosure

The functions that read and build values without calling anything keep an enclosure, and they give
open cells for open ones: what they build is new, and what they hand out they found on an open
value. The lemmas follow the modules in which these functions are defined.
-/

set_option autoImplicit false

namespace TreeScript.Enclosure

variable {K : Enclosure} {m : Machine}

/-! ### Size and order -/

theorem sizeOf {cell : CellRef} (hcell : K.OpenCell cell) : Spares K.Holds (sizeOf cell) := by
  refine .get_bind fun m hm ↦ ?_
  have hcontent := hm.content cell hcell
  split
  · exact .pure trivial
  · exact .pure trivial
  · rename_i ref heq
    rw [heq] at hcontent
    refine (setIterator hcontent ?_).bind fun _ ↦ .pure trivial
    rw [Iterator.remaining_usedUp]
    exact openCells_nil
  · split <;> exact .pure trivial
  · exact .pure trivial

theorem compareValues {a b : CellRef} (ha : K.OpenCell a) (hb : K.OpenCell b) :
    Spares K.Holds (compareValues a b) := by
  refine .get_bind fun m _ ↦ ?_
  split
  · split
    · exact .pure trivial
    · exact .fail _
  · exact .pure trivial
  · exact .pure trivial
  · exact (sizeOf ha).bind fun _ ↦ (sizeOf hb).bind fun _ ↦ .pure trivial
  · split
    · split <;> exact .pure trivial
    · exact .fail _
  · exact .pure trivial
  · split <;> exact .pure trivial

/-! ### Keys, methods and iterators -/

theorem openFound_none : K.OpenFound none := fun _ h ↦ nomatch h

theorem openFound_some {cell : CellRef} (hcell : K.OpenCell cell) : K.OpenFound (some cell) := by
  intro found hfound
  cases hfound
  exact hcell

/-- A new cell for a stamped value. -/
theorem foundAlloc {c : Stamp → Content} (hc : ∀ stamp, K.OpenContent (c stamp)) :
    Maintains K.Holds K.OpenFound
      (do return some (← TreeScript.alloc (c (← TreeScript.newStamp)))) :=
  newStamp.bind fun stamp ↦ (alloc (hc stamp)).bind fun _ hcell ↦ .pure (openFound_some hcell)

/-- The parts of an open instance are open. -/
theorem accessInstance {receiver : CellRef} (hreceiver : K.OpenCell receiver) (ref : InstanceRef)
    (name : String) : Maintains K.Holds K.OpenFound (accessInstance receiver ref name) := by
  refine .get_bind fun m hm ↦ ?_
  have hfound := hm.instanceOf ref
  dsimp only
  generalize m.instanceOf ref = found at hfound
  refine .ite (fun _ ↦ .pure ?_) fun _ ↦ ?_
  · cases found with
    | vector type x y z =>
      obtain ⟨hx, hy, hz⟩ := hfound
      dsimp only
      split
      · exact openFound_some hx
      · split
        · exact openFound_some hy
        · split
          · exact hz
          · exact openFound_none
    | odd | counted => exact openFound_none
  · split
    · exact foundAlloc (c := fun stamp ↦ .hostMethod stamp _ receiver) fun _ ↦ hreceiver
    · exact .pure openFound_none

theorem access {cell : CellRef} (hcell : K.OpenCell cell) (key : CellRef) :
    Maintains K.Holds K.OpenFound (access cell key) := by
  refine .get_bind fun m hm ↦ ?_
  dsimp only
  refine .ite (fun _ ↦ newEmpty.bind fun _ h ↦ .pure (openFound_some h)) fun _ ↦ ?_
  split
  · exact foundAlloc (c := fun stamp ↦ .method stamp _ cell) fun _ ↦ hcell
  · split
    · rename_i ref heq
      exact .pure (hm.lookUp (hm.openObject hcell heq) key)
    · exact accessInstance hcell _ _
    · split
      · exact foundAlloc (c := fun stamp ↦ .hostMethod stamp _ cell) fun _ ↦ hcell
      · exact .pure openFound_none
    · exact .pure openFound_none

theorem createEntry {cell key value : CellRef} (hcell : K.OpenCell cell) (hkey : K.OpenCell key)
    (hvalue : K.OpenCell value) (isFinal : Bool) :
    Spares K.Holds (createEntry cell key value isFinal) := by
  refine (content hcell).bind fun c hc ↦ ?_
  split
  · rename_i ref
    have hset : Spares K.Holds (do
        TreeScript.setEntry ref key value
        return true) := (setEntry hc hkey hvalue).bind fun _ ↦ .pure trivial
    refine .ite (fun _ ↦ newTable.bind fun _ hnew ↦ (write hvalue ?_).bind fun _ ↦ hset) fun _ ↦ hset
    exact hnew
  · rename_i ref
    refine .get_bind fun m hm ↦ ?_
    have hfound := hm.instanceOf ref
    split
    · rename_i type x y z heq
      rw [heq] at hfound
      have hvector : K.OpenInstance (.vector type x y (some value)) :=
        ⟨hfound.1, hfound.2.1, openFound_some hvalue⟩
      refine (display key).bind fun shown ↦ .ite (fun _ ↦ ?_) fun _ ↦ .pure trivial
      exact (setInstance ref hvector).bind fun _ ↦ .pure trivial
    · exact .pure trivial
  · exact .pure trivial

theorem iterateInstance {value : Instance} (hvalue : K.OpenInstance value) :
    Maintains K.Holds K.OpenFound (iterateInstance value) := by
  unfold TreeScript.iterateInstance
  split
  · obtain ⟨hx, hy, -⟩ := hvalue
    exact (newIterator (openCells_nil.cons hy |>.cons hx)).bind fun _ h ↦ .pure (openFound_some h)
  · exact .fail _
  · exact (newNumber _).bind fun _ h ↦ .pure (openFound_some h)
  · have hnumbers (ns : List Int) : K.Gives (do
        TreeScript.newArray (← ns.mapM fun n ↦ TreeScript.newNumber (Decimal.ofInt n))) :=
      (Maintains.mapM fun _ _ ↦ newNumber _).bind fun _ h ↦ newArray h
    exact (hnumbers _).bind fun _ h ↦ (hnumbers _).bind fun _ h' ↦
      (newIterator (openCells_nil.cons h' |>.cons h)).bind fun _ h'' ↦ .pure (openFound_some h'')
  · exact .pure openFound_none

theorem iterate {cell : CellRef} (hcell : K.OpenCell cell) :
    Maintains K.Holds K.OpenFound (iterate cell) := by
  refine (content hcell).bind fun c hc ↦ ?_
  split
  · exact .pure (openFound_some hcell)
  · refine (tableOf hc).bind fun table htable ↦ ?_
    refine (Maintains.mapM fun entry hentry ↦ newArray ?_).bind fun _ hpairs ↦
      (newIterator hpairs).bind fun _ h ↦ .pure (openFound_some h)
    have hopen := htable.entries entry hentry
    exact openCells_nil.cons hopen.value |>.cons hopen.key
  · exact (Maintains.mapM fun _ _ ↦ newString _).bind fun _ hchars ↦
      (newIterator hchars).bind fun _ h ↦ .pure (openFound_some h)
  · exact .get_bind fun m hm ↦ iterateInstance (hm.instanceOf _)
  · exact .pure openFound_none

theorem makeIterator {cell : CellRef} (hcell : K.OpenCell cell) : K.Gives (makeIterator cell) := by
  refine (iterate hcell).bind fun found hfound ↦ ?_
  split
  · exact .pure (hfound _ rfl)
  · exact .get_bind fun _ _ ↦ .fail _

/-! ### Arguments -/

theorem requireArgs (name : String) (args : List CellRef) (count : Nat) :
    Spares K.Holds (requireArgs name args count) :=
  .ite (fun _ ↦ .fail _) fun _ ↦ .pure trivial

theorem argument {args : List CellRef} (hargs : K.OpenCells args) (i : Nat) :
    K.Gives (argument args i) := by
  unfold TreeScript.argument
  have hfound := hargs.get? i
  split
  · rename_i cell heq
    rw [heq] at hfound
    exact .pure (hfound cell rfl)
  · exact newEmpty

theorem instantiate (type : HostType) (args : List CellRef) : K.Gives (type.instantiate args) := by
  refine .get_bind fun m _ ↦ ?_
  split
  · split
    · exact newVector type _ _
    · exact .fail _
  · exact .fail _
  · exact newInstance trivial
  · exact .fail _
  · exact newInstance trivial
  · exact .fail _

/-! ### Methods of texts, expressions and iterators -/

theorem compilePattern (pattern : String) : Spares K.Holds (Regex.compilePattern pattern) := by
  unfold Regex.compilePattern
  split
  · exact .pure _
  · exact .fail _

theorem compile (pattern flags : String) : Spares K.Holds (Regex.compile pattern flags) := by
  unfold Regex.compile
  split
  · exact .fail _
  · exact (compilePattern _).bind fun _ ↦ .pure trivial

theorem ofValue (cell : CellRef) : Spares K.Holds (Regex.ofValue cell) := by
  refine Spares.bind (kindOf cell) fun c ↦ ?_
  split
  · exact .pure trivial
  · exact (display cell).bind compilePattern

theorem wholeOfValue (cell : CellRef) : Spares K.Holds (Regex.wholeOfValue cell) := by
  refine Spares.bind (kindOf cell) fun c ↦ ?_
  split
  · exact compilePattern _
  · exact (display cell).bind fun _ ↦ compilePattern _

theorem charAtIndex (s : String) (cell : CellRef) : K.Gives (TextMethod.charAtIndex s cell) := by
  refine .get_bind fun m _ ↦ ?_
  split
  · exact .fail _
  · refine .ite (fun _ ↦ newEmpty) fun _ ↦ ?_
    split
    · exact newString _
    · exact newEmpty

theorem trimmed (s : String) (args : List CellRef) : K.Gives (TextMethod.trimmed s args) := by
  unfold TextMethod.trimmed
  split
  · refine Spares.bind (kindOf _) fun c ↦ .ite (fun _ ↦ newString _) fun _ ↦ ?_
    exact (display _).bind fun _ ↦ newString _
  · exact newString _

theorem textMethod (method : TextMethod) {self : CellRef} (hself : K.OpenCell self)
    {args : List CellRef} (hargs : K.OpenCells args) : K.Gives (method.run self args) := by
  have hfirst : Spares K.Holds (TreeScript.argument args 0) := (argument hargs 0).spares
  have hsecond : Spares K.Holds (do TreeScript.display (← TreeScript.argument args 1)) :=
    (argument hargs 1).bind fun cell _ ↦ display cell
  refine (requireArgs _ _ _).bind fun _ ↦ (display self).bind fun s ↦ ?_
  dsimp only
  split
  · exact hfirst.bind fun _ ↦ (display _).bind fun _ ↦ newBoolean _
  · split
    · exact (sizeOf hself).bind fun _ ↦ newNumber _
    · exact hfirst.bind fun _ ↦ charAtIndex s _
    · exact hfirst.bind fun _ ↦ (wholeOfValue _).bind fun _ ↦ newBoolean _
    · exact hfirst.bind fun _ ↦ (display _).bind fun _ ↦ hsecond.bind fun _ ↦ newString _
    · exact hfirst.bind fun _ ↦ (ofValue _).bind fun _ ↦ hsecond.bind fun _ ↦ newString _
    · exact hfirst.bind fun _ ↦ (ofValue _).bind fun _ ↦ newTextArray _
    · exact newString _
    · exact newString _
    · exact trimmed s args

theorem regexMethod (method : RegexMethod) (self : CellRef) {args : List CellRef}
    (hargs : K.OpenCells args) : K.Gives (method.run self args) := by
  refine (requireArgs _ _ _).bind fun _ ↦ (argument hargs 0).spares.bind fun _ ↦
    (display _).bind fun subject ↦ ?_
  refine .ite (fun _ ↦ (wholeOfValue self).bind fun _ ↦ newBoolean _) fun _ ↦ ?_
  refine Spares.bind (kindOf self) fun c ↦ ?_
  split
  · exact newTextArray _
  · exact newTextArray _
  · exact (argument hargs 1).spares.bind fun _ ↦ (display _).bind fun _ ↦ newString _
  · exact newEmpty

theorem iteratorMethod (method : IteratorMethod) {self : CellRef} (hself : K.OpenCell self) :
    K.Gives (method.run self) := by
  refine (content hself).bind fun c hc ↦ ?_
  split
  · split
    · exact (hasNext hc).bind newBoolean
    · refine (next? hc).bind fun found hfound ↦ ?_
      split
      · exact .pure (hfound _ rfl)
      · exact .fail _
  · exact newEmpty

/-! ### Methods of objects -/

theorem entriesOf {cell : CellRef} (hcell : K.OpenCell cell) :
    Maintains K.Holds (fun entries ↦ ∀ entry ∈ entries, K.OpenEntry entry)
      (ObjectMethod.entriesOf cell) :=
  (tableOrNew hcell).bind fun _ href ↦ (tableOf href).bind fun _ htable ↦ .pure htable.entries

theorem valuesOf {cell : CellRef} (hcell : K.OpenCell cell) :
    Maintains K.Holds K.OpenCells (ObjectMethod.valuesOf cell) :=
  (tableOrNew hcell).bind fun _ href ↦ (tableOf href).bind fun _ htable ↦ .pure htable.values

theorem isArray (ref : TableRef) : Spares K.Holds (ObjectMethod.isArray ref) := read _

section Entries

variable {entries : List Entry} (hentries : ∀ entry ∈ entries, K.OpenEntry entry)
include hentries

theorem openCells_keys : K.OpenCells (entries.map (·.key)) := by
  intro cell hcell
  obtain ⟨entry, hentry, rfl⟩ := List.mem_map.mp hcell
  exact (hentries entry hentry).key

theorem openCells_values : K.OpenCells (entries.map (·.value)) := by
  intro cell hcell
  obtain ⟨entry, hentry, rfl⟩ := List.mem_map.mp hcell
  exact (hentries entry hentry).value

theorem objectOf : K.Gives (ObjectMethod.objectOf entries) :=
  newTable.bind fun _ href ↦
    Spares.each (fun entry h ↦ setEntry href (hentries entry h).key (hentries entry h).value)
      (newObject href)

theorem rebuild (isArray : Bool) : K.Gives (ObjectMethod.rebuild isArray entries) :=
  .ite (fun _ ↦ newArray (openCells_values hentries)) fun _ ↦ objectOf hentries

end Entries

theorem newEntryObject {entry : Entry} (hentry : K.OpenEntry entry) :
    K.Gives (ObjectMethod.newEntryObject entry) :=
  newTable.bind fun _ href ↦ (setText href "key" hentry.key).bind fun _ ↦
    (setText href "value" hentry.value).bind fun _ ↦ newObject href

/-- The entries that are left where later equal ones are dropped are among those there were. -/
theorem mem_distinctEntries (m : Machine) (entries : List Entry) :
    ∀ entry ∈ ObjectMethod.distinctEntries m entries, entry ∈ entries := by
  have hkept : ∀ (rest : List Entry) (kept : Array Entry),
      ∀ entry ∈ (rest.foldl
        (fun kept entry ↦
          if kept.any fun (former : Entry) ↦ m.equal former.value entry.value then kept
          else kept.push entry) kept).toList, entry ∈ kept.toList ∨ entry ∈ rest := by
    intro rest
    induction rest with
    | nil => exact fun kept entry h ↦ .inl h
    | cons first rest ih =>
      intro kept entry h
      rcases ih _ entry h with h | h
      · dsimp only at h
        split at h
        · exact .inl h
        · rw [Array.toList_push] at h
          rcases List.mem_append.mp h with h | h
          · exact .inl h
          · exact .inr (List.mem_cons.mpr (.inl (List.mem_singleton.mp h)))
      · exact .inr (List.mem_cons_of_mem _ h)
  intro entry h
  rcases hkept entries #[] entry h with h | h
  · cases h
  · exact h

/-- Assumes: a step that counts a value where it has been met before, or else begins to count it. The
values that are counted in the end are those counted at the start and some of those there were. -/
theorem mem_foldl_counts {f : Array (CellRef × Nat) → CellRef → Array (CellRef × Nat)}
    (hstep : ∀ counts value, ∀ count ∈ (f counts value).toList,
      (∃ former ∈ counts.toList, former.1 = count.1) ∨ count.1 = value) :
    ∀ (rest : List CellRef) (counts : Array (CellRef × Nat)), ∀ count ∈ (rest.foldl f counts).toList,
      (∃ former ∈ counts.toList, former.1 = count.1) ∨ count.1 ∈ rest := by
  intro rest
  induction rest with
  | nil => exact fun counts count h ↦ .inl ⟨count, h, rfl⟩
  | cons first rest ih =>
    intro counts count h
    rcases ih _ count h with ⟨former, hformer, hsame⟩ | h
    · rcases hstep counts first former hformer with ⟨older, holder, hvalue⟩ | hvalue
      · exact .inl ⟨older, holder, hvalue.trans hsame⟩
      · exact .inr (List.mem_cons.mpr (.inl (hsame.symm.trans hvalue)))
    · exact .inr (List.mem_cons_of_mem _ h)

/-- The values that are counted are among those there were. -/
theorem mem_countValues (m : Machine) (values : List CellRef) :
    ∀ count ∈ ObjectMethod.countValues m values, count.1 ∈ values := by
  intro count h
  unfold ObjectMethod.countValues at h
  refine (mem_foldl_counts ?_ values #[] count h).elim ?_ id
  · intro counts value count h
    split at h
    · obtain ⟨j, hj⟩ := List.mem_iff_getElem?.mp h
      rw [Array.getElem?_toList, Array.getElem?_modify] at hj
      split at hj
      · obtain ⟨older, holder, rfl⟩ := Option.map_eq_some_iff.mp hj
        exact .inl ⟨older, Array.mem_def.mp (Array.mem_of_getElem? holder), rfl⟩
      · exact .inl ⟨count, Array.mem_def.mp (Array.mem_of_getElem? hj), rfl⟩
    · rw [Array.toList_push] at h
      rcases List.mem_append.mp h with h | h
      · exact .inl ⟨count, h, rfl⟩
      · rw [List.mem_singleton.mp h]
        exact .inr rfl
  · rintro ⟨former, hformer, -⟩
    cases hformer

theorem sumValues (values : List CellRef) : Spares K.Holds (ObjectMethod.sumValues values) := by
  refine .get_bind fun m _ ↦ Maintains.foldlM (fun total _ value _ ↦ ?_) _ trivial
  split
  · exact .pure trivial
  · exact .fail _

theorem combine {a b : CellRef} (ha : K.OpenCell a) (hb : K.OpenCell b) :
    K.Gives (ObjectMethod.combine a b) := by
  refine newTable.bind fun out hout ↦ .get_bind fun _ hm ↦ .get_bind fun _ hn ↦ ?_
  split
  · exact (pushEntry hout ha).bind fun _ ↦ (pushEntry hout hb).bind fun _ ↦ newObject hout
  · rename_i heq
    exact (mergeInto hout (hn.openTable? hb heq)).bind fun _ ↦ (pushEntry hout ha).bind fun _ ↦
      newObject hout
  · rename_i heq _
    exact (mergeInto hout (hm.openTable? ha heq)).bind fun _ ↦ (pushEntry hout hb).bind fun _ ↦
      newObject hout
  · rename_i heq heq'
    exact (mergeInto hout (hm.openTable? ha heq)).bind fun _ ↦ (mergeInto hout (hn.openTable? hb heq')).bind fun _ ↦
      newObject hout

theorem popEntry {self : CellRef} (hself : K.OpenCell self) {args : List CellRef}
    (hargs : K.OpenCells args) : K.Gives (ObjectMethod.popEntry self args) := by
  refine (tableOrNew hself).bind fun ref href ↦ .get_bind fun m _ ↦ ?_
  have herased (key : CellRef) : K.Gives (ObjectMethod.eraseOrEmpty ref key) := by
    refine (eraseEntry href key).bind fun removed hremoved ↦ ?_
    split
    · exact .pure (hremoved _ rfl)
    · exact newEmpty
  refine .ite (fun _ ↦ newEmpty) fun _ ↦ .ite (fun _ ↦ ?_) fun _ ↦ ?_
  · exact (newNumber _).bind fun key _ ↦ herased key
  · exact (argument hargs 0).bind fun key _ ↦ herased key

theorem joinTexts {self : CellRef} (hself : K.OpenCell self) (args : List CellRef) :
    K.Gives (ObjectMethod.joinTexts self args) :=
  .get_bind fun _ _ ↦ (valuesOf hself).bind fun _ _ ↦ newString _

/-! ### Operators -/

theorem repeatString (s : String) (count : Decimal) : K.Gives (repeatString s count) := by
  unfold TreeScript.repeatString
  refine Spares.check (.fail _) ?_
  refine .ite (fun _ ↦ newString "") fun _ ↦ ?_
  exact Spares.check (.fail _) (newString _)

theorem parseNumber (s : String) : K.Gives (parseNumber s) :=
  Spares.bind (.ofNumber _) newNumber

theorem appendObjects {s t : TableRef} (hs : K.OpenObject s) (ht : K.OpenObject t)
    (areArrays : Bool) : K.Gives (appendObjects s t areArrays) := by
  refine (cloneTable hs).bind fun out hout ↦ .ite (fun _ ↦ ?_) fun _ ↦ ?_
  · exact (tableOf ht).bind fun table htable ↦
      Spares.each (fun value hvalue ↦ pushEntry hout (htable.values value hvalue)) (newObject hout)
  · exact (mergeInto hout ht).bind fun _ ↦ newObject hout

theorem appendValues {left right : CellRef} (hleft : K.OpenCell left) (hright : K.OpenCell right) :
    K.Gives (appendValues left right) := by
  refine .get_bind fun m hm ↦ ?_
  split
  · rename_i heq heq'
    exact appendObjects (hm.openTable? hleft heq) (hm.openTable? hright heq') _
  · rename_i heq _
    exact (cloneTable (hm.openTable? hleft heq)).bind fun _ hout ↦ (pushEntry hout hright).bind fun _ ↦
      newObject hout
  · rename_i heq
    have hsource := hm.openTable? hright heq
    refine .ite (fun _ ↦ newArray (.cons hleft (hm.table _ hsource).values)) fun _ ↦ ?_
    exact newTable.bind fun _ hout ↦ (pushEntry hout hleft).bind fun _ ↦
      (mergeInto hout hsource).bind fun _ ↦ newObject hout
  · exact newArray (openCells_nil.cons hright |>.cons hleft)

theorem unaryRule (rule : UnaryRule) {cell : CellRef} (hcell : K.OpenCell cell) :
    K.Gives (rule.apply cell) := by
  refine Spares.bind (kindOf cell) fun c ↦ ?_
  dsimp only
  split
  · refine (copy hcell).bind fun former hformer ↦ (write hcell ?_).bind fun _ ↦ .pure ?_
    · exact trivial
    split
    · exact hformer
    · exact hcell
  · exact Spares.bind (.ofNumber _) newNumber
  · exact newNumber _
  · exact (display cell).bind fun _ ↦ parseNumber _
  · exact newNumber _
  · exact (isTrue cell).bind fun _ ↦ newBoolean _
  · exact Spares.bind (.ofNumber _) fun _ ↦ newNumber _

theorem mapValues {act : CellRef → CellRef → Run CellRef} {ref : TableRef}
    (href : K.OpenObject ref)
    (h : ∀ key value, K.OpenCell key → K.OpenCell value → K.Gives (act key value)) :
    K.Gives (Operator.mapValues ref act) := by
  refine newTable.bind fun _ hout ↦
    Spares.bind (forEntries href trivial fun _ _ entry hentry ↦ ?_) fun _ ↦ newObject hout
  exact (h _ _ hentry.key hentry.value).bind fun _ hvalue ↦ setEntry hout hentry.key hvalue

theorem dispatch1 (op : Operator) (fuel : Nat) :
    ∀ cell, K.OpenCell cell → K.Gives (op.dispatch1 fuel cell) := by
  induction fuel with
  | zero => exact fun cell _ ↦ .throw .outOfFuel
  | succ fuel ih =>
    intro cell hcell
    refine .get_bind fun m hm ↦ ?_
    split
    · exact unaryRule _ hcell
    · rename_i heq
      exact mapValues (hm.openTable? hcell heq) fun _ value _ hvalue ↦ ih value hvalue
    · exact .fail _

theorem requireSameKeys (op : Operator) (s t : TableRef) :
    Spares K.Holds (op.requireSameKeys s t) := by
  refine .get_bind fun m _ ↦ Spares.check (.fail _) ?_
  exact .ite (fun _ ↦ .fail _) fun _ ↦ .pure trivial

end TreeScript.Enclosure
