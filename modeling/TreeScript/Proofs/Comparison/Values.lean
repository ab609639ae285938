import TreeScript.Proofs.Comparison.Store
import TreeScript.Method.Text
import TreeScript.Operator.Apply

/-!
# Steady computations

The functions that read and build values without calling anything are steady: they work on the store
alone, and in the same way on machines that are alike. The lemmas follow the modules in which these
functions are defined.
-/

set_option autoImplicit false

namespace TreeScript

/-- Removes a key and gives what was under it, or an empty value. -/
def ObjectMethod.eraseOrEmpty (ref : TableRef) (key : CellRef) : Run CellRef := do
  match ← eraseEntry ref key with
  | some removed => return removed
  | none => newEmpty

namespace Steady

variable {α σ : Type}

/-! ### Reading -/

theorem display (cell : CellRef) : Steady (display cell) :=
  get_bind (fun n n' h ↦ by rw [h.display]) fun n ↦ pure (n.display cell)

theorem isTrue (cell : CellRef) : Steady (isTrue cell) :=
  get_bind (fun n n' h ↦ by rw [h.isTrue]) fun n ↦ pure (n.isTrue cell)

theorem equal (a b : CellRef) : Steady (equal a b) :=
  get_bind (fun n n' h ↦ by rw [h.equal]) fun n ↦ pure (n.equal a b)

theorem tableOf (ref : TableRef) : Steady (tableOf ref) :=
  get_bind (fun n n' h ↦ by rw [h.table]) fun n ↦ pure (n.table ref)

theorem hasNext (ref : IteratorRef) : Steady (hasNext ref) :=
  get_bind (fun n n' h ↦ by rw [h.iterator]) fun n ↦ (setIterator ref _).bind fun _ ↦ pure _

theorem next? (ref : IteratorRef) : Steady (next? ref) :=
  get_bind (fun n n' h ↦ by rw [h.iterator]) fun n ↦ (setIterator ref _).bind fun _ ↦ pure _

theorem sizeOf (cell : CellRef) : Steady (sizeOf cell) := by
  refine get_bind (fun n n' h ↦ ?_) fun n ↦ ?_
  · rcases h.content_cases cell with hc | ⟨_, _, _, hc, hc'⟩
    · rw [hc, h.table, h.iterator, h.remaining, h.instanceOf]
    · rw [hc, hc']
  · split
    · exact pure _
    · exact pure _
    · exact (setIterator _ _).bind fun _ ↦ pure _
    · split <;> exact pure _
    · exact pure 1

theorem compareValues (a b : CellRef) : Steady (compareValues a b) := by
  refine get_bind (fun n n' h ↦ ?_) fun n ↦ ?_
  · rcases h.content_cases a with ha | ⟨_, _, _, ha, ha'⟩
    · rcases h.content_cases b with hb | ⟨_, _, _, hb, hb'⟩
      · rw [ha, hb, h.number?, h.typeName, h.isTrue, h.display, h.instanceOf, h.vectorOrder]
      · rw [ha, hb, hb', h.number?, h.typeName, h.isTrue, h.display, h.instanceOf]
        cases n.content a with
        | custom ref =>
          dsimp only
          cases n.instanceOf ref <;> rfl
        | _ => rfl
    · rcases h.content_cases b with hb | ⟨_, _, _, hb, hb'⟩
      · rw [ha, ha', hb]
        cases n.content b <;> rfl
      · rw [ha, ha', hb, hb']
        rfl
  · split
    · split
      · exact pure _
      · exact fail _
    · exact pure _
    · exact pure _
    · exact (sizeOf a).bind fun _ ↦ (sizeOf b).bind fun _ ↦ pure _
    · split
      · split
        · exact pure _
        · exact pure _
      · exact fail _
    · exact pure _
    · split <;> exact pure _

/-! ### Objects -/

theorem setText (ref : TableRef) (key : String) (value : CellRef) :
    Steady (setText ref key value) :=
  (newString key).bind fun name ↦ setEntry ref name value

theorem newArrayTable (items : List CellRef) : Steady (newArrayTable items) :=
  newTable.bind fun ref ↦
    (forIn items.zipIdx _ fun _ _ ↦ (newNumber _).bind fun _ ↦ (setEntry ref _ _).bind fun _ ↦
      pure _).bind fun _ ↦ pure ref

theorem newArray (items : List CellRef) : Steady (newArray items) :=
  (newArrayTable items).bind newObject

theorem newTextArray (items : List String) : Steady (newTextArray items) :=
  (mapM items newString).bind newArray

theorem tableOrNew (cell : CellRef) : Steady (tableOrNew cell) := by
  refine content_bind (fun _ _ _ ↦ rfl) fun c ↦ ?_
  split
  · exact pure _
  · exact newTable

theorem pushEntry (ref : TableRef) (value : CellRef) : Steady (pushEntry ref value) :=
  get_bind (fun n n' h ↦ by rw [h.highestKey]) fun _ ↦
    (newNumber _).bind fun key ↦ setEntry ref key value

theorem mergeInto (target source : TableRef) : Steady (mergeInto target source) := by
  unfold TreeScript.mergeInto
  refine (tableOf source).bind fun table ↦
    bind (forIn table.entries _ fun entry _ ↦ ?_) fun _ ↦ pure ()
  exact (setEntry target entry.key entry.value).bind fun _ ↦ pure _

theorem cloneTable (ref : TableRef) : Steady (cloneTable ref) :=
  newTable.bind fun clone ↦ (mergeInto clone ref).bind fun _ ↦ pure clone

theorem forEntries {act : σ → Entry → Run σ} (ref : TableRef) (init : σ)
    (h : ∀ s entry, Steady (act s entry)) : Steady (forEntries ref init act) := by
  refine (tableOf ref).bind fun _ ↦ foldlM _ init fun s i ↦ (tableOf ref).bind fun _ ↦ ?_
  split
  · exact h s _
  · exact pure s

/-! ### Instances and iterators -/

theorem newIterator (items : List CellRef) : Steady (newIterator items) :=
  (pushIterator items).bind fun ref ↦ alloc (.iterator ref)

theorem newInstance (value : Instance) : Steady (newInstance value) :=
  (pushInstance value).bind fun ref ↦ alloc (.custom ref)

theorem newVector (type : HostType) (x y : Decimal) : Steady (newVector type x y) :=
  (newNumber x).bind fun _ ↦ (newNumber y).bind fun _ ↦ newInstance _

theorem iterateInstance (value : Instance) : Steady (iterateInstance value) := by
  unfold TreeScript.iterateInstance
  split
  · exact (newIterator _).bind fun _ ↦ pure _
  · exact fail _
  · exact (newNumber _).bind fun _ ↦ pure _
  · have hnumbers (ns : List Int) : Steady (do
        TreeScript.newArray (← ns.mapM fun n ↦ TreeScript.newNumber (Decimal.ofInt n))) :=
      (mapM ns fun _ ↦ newNumber _).bind newArray
    exact (hnumbers _).bind fun _ ↦ (hnumbers _).bind fun _ ↦ (newIterator _).bind fun _ ↦ pure _
  · exact pure none

theorem iterate (cell : CellRef) : Steady (iterate cell) := by
  refine content_bind (fun _ _ _ ↦ rfl) fun c ↦ ?_
  split
  · exact pure _
  · exact (tableOf _).bind fun _ ↦ (mapM _ fun _ ↦ newArray _).bind fun _ ↦
      (newIterator _).bind fun _ ↦ pure _
  · exact (mapM _ fun _ ↦ newString _).bind fun _ ↦ (newIterator _).bind fun _ ↦ pure _
  · exact get_bind (fun n n' h ↦ by rw [h.instanceOf]) fun _ ↦ iterateInstance _
  · exact pure none

theorem makeIterator (cell : CellRef) : Steady (makeIterator cell) := by
  refine (iterate cell).bind fun found ↦ ?_
  split
  · exact pure _
  · exact get_bind (fun n n' h ↦ by rw [h.typeName]) fun _ ↦ fail _

/-! ### Keys and arguments -/

theorem accessInstance (receiver : CellRef) (ref : InstanceRef) (name : String) :
    Steady (accessInstance receiver ref name) := by
  refine get_bind (fun n n' h ↦ by rw [h.instanceOf]) fun n ↦ ?_
  dsimp only
  generalize n.instanceOf ref = found
  refine ite (fun _ ↦ pure _) fun _ ↦ ?_
  split
  · exact newStamp.bind fun _ ↦ (alloc _).bind fun _ ↦ pure _
  · exact pure none

theorem access (cell key : CellRef) : Steady (access cell key) := by
  refine get_bind (fun n n' h ↦ ?_) fun n ↦ ?_
  · dsimp only
    rw [(h.content key).isEmpty, (h.content cell).kind, h.display, h.lookUp]
    rcases h.content_cases cell with hc | ⟨_, _, _, hc, hc'⟩
    · rw [hc]
    · rw [hc, hc']
  · dsimp only
    refine ite (fun _ ↦ newEmpty.bind fun _ ↦ pure _) fun _ ↦ ?_
    split
    · exact newStamp.bind fun _ ↦ (alloc _).bind fun _ ↦ pure _
    · split
      · exact pure _
      · exact accessInstance cell _ _
      · split
        · exact newStamp.bind fun _ ↦ (alloc _).bind fun _ ↦ pure _
        · exact pure none
      · exact pure none

theorem createEntry (cell key value : CellRef) (isFinal : Bool) :
    Steady (createEntry cell key value isFinal) := by
  refine content_bind (fun _ _ _ ↦ rfl) fun c ↦ ?_
  split
  · dsimp only
    have hset (ref : TableRef) : Steady (do
        TreeScript.setEntry ref key value
        return true) := (setEntry ref key value).bind fun _ ↦ pure true
    exact ite (fun _ ↦ newTable.bind fun _ ↦ (write value _).bind fun _ ↦ hset _) fun _ ↦ hset _
  · refine get_bind (fun n n' h ↦ by rw [h.instanceOf]) fun n ↦ ?_
    split
    · refine (display key).bind fun shown ↦ ite (fun _ ↦ ?_) fun _ ↦ pure false
      exact (setInstance _ _).bind fun _ ↦ pure true
    · exact pure false
  · exact pure false

theorem requireArgs (name : String) (args : List CellRef) (count : Nat) :
    Steady (requireArgs name args count) :=
  ite (fun _ ↦ fail _) fun _ ↦ pure ()

theorem argument (args : List CellRef) (i : Nat) : Steady (argument args i) := by
  unfold TreeScript.argument
  split
  · exact pure _
  · exact newEmpty

theorem instantiate (type : HostType) (args : List CellRef) : Steady (type.instantiate args) := by
  refine get_bind (fun n n' h ↦ by rw [h.number?, h.display]) fun n ↦ ?_
  split
  · split
    · exact newVector type _ _
    · exact fail _
  · exact fail _
  · exact newInstance _
  · exact fail _
  · exact newInstance _
  · exact fail _

/-! ### Methods of texts, expressions and iterators -/

theorem compilePattern (pattern : String) : Steady (Regex.compilePattern pattern) := by
  unfold Regex.compilePattern
  split
  · exact pure _
  · exact fail _

theorem compile (pattern flags : String) : Steady (Regex.compile pattern flags) := by
  unfold Regex.compile
  split
  · exact fail _
  · exact (compilePattern _).bind fun _ ↦ pure _

theorem ofValue (cell : CellRef) : Steady (Regex.ofValue cell) := by
  refine content_bind (fun _ _ _ ↦ rfl) fun c ↦ ?_
  split
  · exact pure _
  · exact (display cell).bind compilePattern

theorem wholeOfValue (cell : CellRef) : Steady (Regex.wholeOfValue cell) := by
  refine content_bind (fun _ _ _ ↦ rfl) fun c ↦ ?_
  split
  · exact compilePattern _
  · exact (display cell).bind fun _ ↦ compilePattern _

theorem splitText (program : Pattern.Program) (s : String) : Steady (Regex.splitText program s) :=
  newTextArray _

theorem charAtIndex (s : String) (cell : CellRef) : Steady (TextMethod.charAtIndex s cell) := by
  refine get_bind (fun n n' h ↦ by rw [h.number?, h.typeName]) fun n ↦ ?_
  split
  · exact fail _
  · refine ite (fun _ ↦ newEmpty) fun _ ↦ ?_
    split
    · exact newString _
    · exact newEmpty

theorem trimmed (s : String) (args : List CellRef) : Steady (TextMethod.trimmed s args) := by
  unfold TextMethod.trimmed
  split
  · refine content_bind (fun _ _ _ ↦ rfl) fun c ↦ ite (fun _ ↦ newString _) fun _ ↦ ?_
    exact (display _).bind fun _ ↦ newString _
  · exact newString _

theorem textMethod (method : TextMethod) (self : CellRef) (args : List CellRef) :
    Steady (method.run self args) := by
  have hshown (i : Nat) : Steady (do TreeScript.display (← TreeScript.argument args i)) :=
    (argument args i).bind display
  refine (requireArgs _ _ _).bind fun _ ↦ (display self).bind fun s ↦ ?_
  dsimp only
  split
  · exact (argument args 0).bind fun _ ↦ (display _).bind fun _ ↦ newBoolean _
  · split
    · exact (sizeOf self).bind fun _ ↦ newNumber _
    · exact (argument args 0).bind fun _ ↦ charAtIndex s _
    · exact (argument args 0).bind fun _ ↦ (wholeOfValue _).bind fun _ ↦ newBoolean _
    · exact (argument args 0).bind fun _ ↦ (display _).bind fun _ ↦ (hshown 1).bind fun _ ↦
        newString _
    · exact (argument args 0).bind fun _ ↦ (ofValue _).bind fun _ ↦ (hshown 1).bind fun _ ↦
        newString _
    · exact (argument args 0).bind fun _ ↦ (ofValue _).bind fun _ ↦ splitText _ s
    · exact newString _
    · exact newString _
    · exact trimmed s args

theorem regexMethod (method : RegexMethod) (self : CellRef) (args : List CellRef) :
    Steady (method.run self args) := by
  refine (requireArgs _ _ _).bind fun _ ↦ (argument args 0).bind fun _ ↦
    (display _).bind fun subject ↦ ite (fun _ ↦ (wholeOfValue self).bind fun _ ↦ newBoolean _)
      fun _ ↦ content_bind (fun _ _ _ ↦ rfl) fun c ↦ ?_
  split
  · exact newTextArray _
  · exact splitText _ subject
  · exact (argument args 1).bind fun _ ↦ (display _).bind fun _ ↦ newString _
  · exact newEmpty

theorem iteratorMethod (method : IteratorMethod) (self : CellRef) : Steady (method.run self) := by
  refine content_bind (fun _ _ _ ↦ rfl) fun c ↦ ?_
  split
  · split
    · exact (hasNext _).bind newBoolean
    · refine (next? _).bind fun found ↦ ?_
      split
      · exact pure _
      · exact fail _
  · exact newEmpty

/-! ### Methods of objects -/

theorem entriesOf (cell : CellRef) : Steady (ObjectMethod.entriesOf cell) :=
  (tableOrNew cell).bind fun _ ↦ (tableOf _).bind fun _ ↦ pure _

theorem valuesOf (cell : CellRef) : Steady (ObjectMethod.valuesOf cell) :=
  (tableOrNew cell).bind fun _ ↦ (tableOf _).bind fun _ ↦ pure _

theorem isArray (ref : TableRef) : Steady (ObjectMethod.isArray ref) :=
  get_bind (fun n n' h ↦ by rw [h.isArray]) fun n ↦ pure (n.isArray ref)

theorem objectOf (entries : List Entry) : Steady (ObjectMethod.objectOf entries) := by
  refine newTable.bind fun ref ↦ bind (forIn entries _ fun entry _ ↦ ?_) fun _ ↦ newObject ref
  exact (setEntry ref _ _).bind fun _ ↦ pure _

theorem rebuild (isArray : Bool) (entries : List Entry) :
    Steady (ObjectMethod.rebuild isArray entries) :=
  ite (fun _ ↦ newArray _) fun _ ↦ objectOf entries

theorem newEntryObject (entry : Entry) : Steady (ObjectMethod.newEntryObject entry) :=
  newTable.bind fun ref ↦ (setText ref _ _).bind fun _ ↦ (setText ref _ _).bind fun _ ↦
    newObject ref

theorem sumValues (values : List CellRef) : Steady (ObjectMethod.sumValues values) := by
  refine get_bind (fun n n' h ↦ by rw [h.number?, h.typeName]) fun n ↦
    foldlM values _ fun total value ↦ ?_
  split
  · exact pure _
  · exact fail _

theorem combine (a b : CellRef) : Steady (ObjectMethod.combine a b) := by
  refine newTable.bind fun out ↦ ?_
  refine get_bind (fun n n' h ↦ by rw [h.tableOf?]) fun n ↦ ?_
  refine get_bind (fun n n' h ↦ by rw [h.tableOf?]) fun n' ↦ ?_
  dsimp only
  split
  · exact (pushEntry out a).bind fun _ ↦ (pushEntry out b).bind fun _ ↦ newObject out
  · exact (mergeInto out _).bind fun _ ↦ (pushEntry out a).bind fun _ ↦ newObject out
  · exact (mergeInto out _).bind fun _ ↦ (pushEntry out b).bind fun _ ↦ newObject out
  · exact (mergeInto out _).bind fun _ ↦ (mergeInto out _).bind fun _ ↦ newObject out

theorem popEntry (self : CellRef) (args : List CellRef) :
    Steady (ObjectMethod.popEntry self args) := by
  refine (tableOrNew self).bind fun ref ↦
    get_bind (fun n n' h ↦ by rw [h.table, h.isArray, h.highestKey]) fun n ↦ ?_
  have herase (key : CellRef) : Steady (ObjectMethod.eraseOrEmpty ref key) := by
    refine (eraseEntry ref key).bind fun removed ↦ ?_
    split
    · exact pure _
    · exact newEmpty
  refine ite (fun _ ↦ newEmpty) fun _ ↦ ite (fun _ ↦ ?_) fun _ ↦ ?_
  · exact (newNumber _).bind herase
  · exact (argument args 0).bind herase

theorem joinTexts (self : CellRef) (args : List CellRef) :
    Steady (ObjectMethod.joinTexts self args) :=
  get_bind (fun n n' h ↦ by rw [h.display]) fun _ ↦ (valuesOf self).bind fun _ ↦ newString _

/-! ### Operators -/

theorem repeatString (s : String) (count : Decimal) : Steady (repeatString s count) := by
  unfold TreeScript.repeatString
  refine check (fail _) ?_
  refine ite (fun _ ↦ newString "") fun _ ↦ ?_
  exact check (fail _) (newString _)

theorem parseNumber (s : String) : Steady (parseNumber s) :=
  (ofNumber _).bind newNumber

theorem appendObjects (s t : TableRef) (areArrays : Bool) :
    Steady (appendObjects s t areArrays) := by
  refine (cloneTable s).bind fun out ↦ ite (fun _ ↦ ?_) fun _ ↦ ?_
  · refine (tableOf t).bind fun table ↦ bind (forIn table.values _ fun value _ ↦ ?_) fun _ ↦
      newObject out
    exact (pushEntry out value).bind fun _ ↦ pure _
  · exact (mergeInto out t).bind fun _ ↦ newObject out

theorem appendValues (left right : CellRef) : Steady (appendValues left right) := by
  refine get_bind (fun n n' h ↦ by rw [h.tableOf?, h.isArray, h.table]) fun n ↦ ?_
  split
  · exact appendObjects _ _ _
  · exact (cloneTable _).bind fun out ↦ (pushEntry out right).bind fun _ ↦ newObject out
  · refine ite (fun _ ↦ newArray _) fun _ ↦ ?_
    exact newTable.bind fun out ↦ (pushEntry out left).bind fun _ ↦ (mergeInto out _).bind fun _ ↦
      newObject out
  · exact newArray _

theorem unaryRule (rule : UnaryRule) (cell : CellRef) : Steady (rule.apply cell) := by
  refine content_bind (fun _ _ _ ↦ rfl) fun c ↦ ?_
  dsimp only
  split
  · exact (copy cell).bind fun _ ↦ (write cell _).bind fun _ ↦ pure _
  · exact (ofNumber _).bind newNumber
  · exact newNumber _
  · exact (display cell).bind fun _ ↦ parseNumber _
  · exact newNumber _
  · exact (isTrue cell).bind fun _ ↦ newBoolean _
  · exact (ofNumber _).bind fun _ ↦ newNumber _

theorem mapValues {act : CellRef → CellRef → Run CellRef} (ref : TableRef)
    (h : ∀ key value, Steady (act key value)) : Steady (Operator.mapValues ref act) := by
  refine newTable.bind fun out ↦ bind (forEntries ref () fun _ entry ↦ ?_) fun _ ↦ newObject out
  exact (h _ _).bind fun _ ↦ setEntry out _ _

theorem dispatch1 (op : Operator) (fuel : Nat) : ∀ cell, Steady (op.dispatch1 fuel cell) := by
  induction fuel with
  | zero => exact fun cell ↦ throw .outOfFuel
  | succ fuel ih =>
    intro cell
    refine get_bind (fun n n' h ↦ by rw [h.typeName, h.tableOf?, h.describe]) fun n ↦ ?_
    split
    · exact unaryRule _ cell
    · exact mapValues _ fun _ value ↦ ih value
    · exact fail _

theorem requireSameKeys (op : Operator) (s t : TableRef) : Steady (op.requireSameKeys s t) := by
  refine get_bind (fun n n' h ↦ by rw [h.table, h.lookUp, h.keyList]) fun n ↦ ?_
  refine check (fail _) ?_
  exact ite (fun _ ↦ fail _) fun _ ↦ pure ()

end Steady

end TreeScript
