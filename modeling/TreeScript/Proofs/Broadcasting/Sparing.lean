import TreeScript.Proofs.Broadcasting.Leaves
import TreeScript.Proofs.Invariant

/-!
# Operators spare their operands

All operators of the language, apart from those that step a number and those that call a function,
only add to the machine, whether they succeed or fail: cells, tables and iterators that were there
are as they were. An object that comes out is one of the operands, or within one of them, or it is
new and has a table that no other cell holds (`operators_spare_operands`).

A machine that was only added to since another one is described by `Machine.Added`. While an object
is being built no cell holds its table yet, and such tables are kept track of (`Makes`,
`Completes`). Most operators make a new value of any operands, directly or value by value
(`Operator.MakesNew.evaluate`). The one that joins values puts those of its operands into a new
object (`holds_appendValues`), and the one that answers the first operand that is not empty makes
nothing.
-/

set_option autoImplicit false

namespace TreeScript

namespace Machine

/-- No cell leads to a table that is not there, and no table to a cell. -/
structure Closed (m : Machine) : Prop where
  object : ∀ cell ref, m.content cell = .object ref → ref.index < m.tables.size
  values : ∀ ref, ∀ value ∈ (m.table ref).values, value.index < m.cells.size

/-- A value is one of some others, or within one of them. -/
def Within (m : Machine) (args : List CellRef) (part : CellRef) : Prop :=
  ∃ arg ∈ args, Relation.ReflTransGen m.Part arg part

/-- A machine that was only added to since another one. New cells hold new tables, each of them
another one. New tables have values that are new, or satisfy a condition. Some new tables are not
held by any cell yet. -/
structure Added (m₀ : Machine) (Old : CellRef → Prop) (unheld : List TableRef) (m : Machine) :
    Prop where
  grown : m₀.Grown m
  object : ∀ cell ref, m₀.cells.size ≤ cell.index → m.content cell = .object ref →
    m₀.tables.size ≤ ref.index ∧ ref.index < m.tables.size
  own : ∀ cell other ref, m₀.cells.size ≤ cell.index → m₀.cells.size ≤ other.index →
    m.content cell = .object ref → m.content other = .object ref → cell = other
  values : ∀ ref, m₀.tables.size ≤ ref.index → ∀ value ∈ (m.table ref).values,
    m₀.cells.size ≤ value.index ∨ Old value
  free : ∀ ref ∈ unheld, m₀.tables.size ≤ ref.index ∧ ref.index < m.tables.size ∧
    ∀ cell, m₀.cells.size ≤ cell.index → m.content cell ≠ .object ref
  distinct : unheld.Nodup

namespace Added

variable {m₀ m n : Machine} {Old : CellRef → Prop} {unheld : List TableRef} {out : TableRef}

theorem start (m₀ : Machine) (Old : CellRef → Prop) : m₀.Added Old [] m₀ where
  grown := .refl m₀
  object cell ref hnew hcontent := by
    rw [content_of_missing hnew] at hcontent
    cases hcontent
  own cell other ref hnew _ hcontent := by
    rw [content_of_missing hnew] at hcontent
    cases hcontent
  values ref hnew value hvalue := by
    rw [table_of_missing hnew] at hvalue
    cases hvalue
  free := nofun
  distinct := .nil

/-- What is not an object may go into a new cell. -/
theorem withCell (h : m₀.Added Old unheld m) {content : Content}
    (hplain : ∀ ref, content ≠ .object ref) : m₀.Added Old unheld (m.withCell content) where
  grown := h.grown.trans (m.grown_withCell content)
  object cell ref hnew hcontent := by
    rw [Machine.content_withCell] at hcontent
    split at hcontent
    · exact absurd hcontent (hplain ref)
    · exact h.object cell ref hnew hcontent
  own cell other ref hnew hnew' hcontent hcontent' := by
    rw [Machine.content_withCell] at hcontent hcontent'
    split at hcontent
    · exact absurd hcontent (hplain ref)
    · split at hcontent'
      · exact absurd hcontent' (hplain ref)
      · exact h.own cell other ref hnew hnew' hcontent hcontent'
  values := h.values
  free ref hmem := by
    refine ⟨(h.free ref hmem).1, (h.free ref hmem).2.1, fun cell hnew hcontent ↦ ?_⟩
    rw [Machine.content_withCell] at hcontent
    split at hcontent
    · exact hplain ref hcontent
    · exact (h.free ref hmem).2.2 cell hnew hcontent
  distinct := h.distinct

/-- A table that no cell holds may go into a new cell, which holds it from then on. -/
theorem withObject (h : m₀.Added Old (out :: unheld) m) :
    m₀.Added Old unheld (m.withCell (.object out)) := by
  obtain ⟨hnew, hbound, hfree⟩ := h.free out (List.mem_cons_self ..)
  have hcell : ∀ cell : CellRef, m₀.cells.size ≤ cell.index →
      (m.withCell (.object out)).content cell = .object out → cell.index = m.cells.size := by
    intro cell hcell hcontent
    rw [Machine.content_withCell] at hcontent
    split at hcontent
    · assumption
    · exact absurd hcontent (hfree cell hcell)
  have hothers : ∀ {cell : CellRef} {ref : TableRef}, ref ≠ out →
      (m.withCell (.object out)).content cell = .object ref → m.content cell = .object ref := by
    intro cell ref hdifferent hcontent
    rw [Machine.content_withCell] at hcontent
    split at hcontent
    · cases hcontent
      exact absurd rfl hdifferent
    · exact hcontent
  refine ⟨h.grown.trans (m.grown_withCell _), fun cell ref hnew' hcontent ↦ ?_,
    fun cell other ref hnew' hother hcontent hcontent' ↦ ?_, h.values, fun ref hmem ↦ ?_,
    (List.nodup_cons.mp h.distinct).2⟩
  · by_cases hsame : ref = out
    · rw [hsame]
      exact ⟨hnew, hbound⟩
    · exact h.object cell ref hnew' (hothers hsame hcontent)
  · by_cases hsame : ref = out
    · subst hsame
      have hindex := (hcell cell hnew' hcontent).trans (hcell other hother hcontent').symm
      cases cell
      cases other
      exact congrArg CellRef.mk hindex
    · exact h.own cell other ref hnew' hother (hothers hsame hcontent) (hothers hsame hcontent')
  · have hdifferent : ref ≠ out := fun hsame ↦ (List.nodup_cons.mp h.distinct).1 (hsame ▸ hmem)
    obtain ⟨hnew', hbound', hfree'⟩ := h.free ref (List.mem_cons_of_mem _ hmem)
    exact ⟨hnew', hbound',
      fun cell hcell hcontent ↦ hfree' cell hcell (hothers hdifferent hcontent)⟩

/-- A new table is not held by any cell. -/
theorem withTable (h : m₀.Added Old unheld m) :
    m₀.Added Old (⟨m.tables.size⟩ :: unheld) m.withTable where
  grown := h.grown.trans m.grown_withTable
  object cell ref hnew hcontent :=
    ⟨(h.object cell ref hnew hcontent).1,
      Nat.lt_of_lt_of_le (h.object cell ref hnew hcontent).2 m.grown_withTable.size⟩
  own := h.own
  values ref hnew value hvalue := by
    rw [table_withTable] at hvalue
    exact h.values ref hnew value hvalue
  free ref hmem := by
    rcases List.mem_cons.mp hmem with rfl | hmem
    · refine ⟨h.grown.size, size_lt_push _ _, fun cell hnew hcontent ↦ ?_⟩
      exact Nat.lt_irrefl _ (h.object cell _ hnew hcontent).2
    · obtain ⟨hnew, hbound, hfree⟩ := h.free ref hmem
      exact ⟨hnew, Nat.lt_of_lt_of_le hbound m.grown_withTable.size, hfree⟩
  distinct := by
    refine List.nodup_cons.mpr ⟨fun hmem ↦ ?_, h.distinct⟩
    exact Nat.lt_irrefl _ (h.free _ hmem).2.1

/-- A value that is new, or satisfies the condition, may go into a new table. -/
theorem enter (h : m₀.Added Old unheld m) (hout : m₀.tables.size ≤ out.index) {value : CellRef}
    (hvalue : m₀.cells.size ≤ value.index ∨ Old value) (key : CellRef) :
    m₀.Added Old unheld (m.after (.enter out key value)) where
  grown := h.grown.enter hout key value
  object cell ref hnew hcontent := by
    rw [(size_after m _).2]
    exact h.object cell ref hnew hcontent
  own := h.own
  values ref hnew other hother := by
    rcases mem_values_enter hother with ⟨rfl, -⟩ | hother
    · exact hvalue
    · exact h.values ref hnew other hother
  free ref hmem := by
    rw [(size_after m _).2]
    exact h.free ref hmem
  distinct := h.distinct

/-- A table that is given up is not held by any cell, which need not be kept in mind. -/
theorem giveUp (h : m₀.Added Old (out :: unheld) m) : m₀.Added Old unheld m where
  grown := h.grown
  object := h.object
  own := h.own
  values := h.values
  free ref hmem := h.free ref (List.mem_cons_of_mem _ hmem)
  distinct := (List.nodup_cons.mp h.distinct).2

end Added

/-! ### Making values -/

/-- A computation that makes a new value, whatever tables have no holder yet. -/
def Makes (m₀ : Machine) (Old : CellRef → Prop) (x : Run CellRef) : Prop :=
  ∀ unheld, Maintains (m₀.Added Old unheld) (fun cell ↦ m₀.cells.size ≤ cell.index) x

/-- A computation that only adds, whatever tables have no holder yet. -/
def Adds {α : Type} (m₀ : Machine) (Old : CellRef → Prop) (x : Run α) : Prop :=
  ∀ unheld, Spares (m₀.Added Old unheld) x

/-- A computation that makes a new value and gives it a table that has no holder before. -/
def Completes (m₀ : Machine) (Old : CellRef → Prop) (out : TableRef) (x : Run CellRef) : Prop :=
  ∀ unheld m, m₀.Added Old (out :: unheld) m →
    Outcome.Holds (m₀.Added Old unheld) (fun cell ↦ m₀.cells.size ≤ cell.index) (x m)

/-- A table whose values may go into new tables. -/
def Offers (m₀ : Machine) (Old : CellRef → Prop) (source : TableRef) : Prop :=
  ∀ unheld m, m₀.Added Old unheld m → ∀ value ∈ (m.table source).values,
    m₀.cells.size ≤ value.index ∨ Old value

section

variable {m₀ : Machine} {Old : CellRef → Prop} {out : TableRef} {α : Type}

theorem Makes.adds {x : Run CellRef} (h : Makes m₀ Old x) : Adds m₀ Old x :=
  fun unheld ↦ (h unheld).spares

theorem Makes.bind {x : Run α} {f : α → Run CellRef} (hfirst : Adds m₀ Old x)
    (hrest : ∀ a, Makes m₀ Old (f a)) : Makes m₀ Old (x >>= f) :=
  fun unheld ↦ Spares.bind (hfirst unheld) fun a ↦ hrest a unheld

theorem makes_alloc {content : Content} (hplain : ∀ ref, content ≠ .object ref) :
    Makes m₀ Old (alloc content) :=
  fun _ ↦ .of_modifyGet (fun _ hm ↦ hm.withCell hplain) fun _ hm ↦ hm.grown.cells.size

theorem makes_number (d : Decimal) : Makes m₀ Old (newNumber d) := makes_alloc nofun

theorem makes_string (s : String) : Makes m₀ Old (newString s) := makes_alloc nofun

theorem makes_boolean (b : Bool) : Makes m₀ Old (newBoolean b) := makes_alloc nofun

theorem makes_empty : Makes m₀ Old newEmpty := makes_alloc nofun

theorem adds_setEntry (hout : m₀.tables.size ≤ out.index) {value : CellRef}
    (hvalue : m₀.cells.size ≤ value.index ∨ Old value) (key : CellRef) :
    Adds m₀ Old (setEntry out key value) :=
  fun _ _ hm ↦ .ok (hm.enter hout hvalue key) trivial

theorem adds_pushEntry (hout : m₀.tables.size ≤ out.index) {value : CellRef}
    (hvalue : m₀.cells.size ≤ value.index ∨ Old value) : Adds m₀ Old (pushEntry out value) := by
  intro unheld
  refine .get_bind fun m _ ↦ ?_
  exact ((makes_number _).adds unheld).bind fun key ↦ adds_setEntry hout hvalue key unheld

theorem adds_mergeInto (hout : m₀.tables.size ≤ out.index) {source : TableRef}
    (hsource : m₀.Offers Old source) : Adds m₀ Old (mergeInto out source) := by
  intro unheld
  refine .get_bind fun m hm ↦ Spares.each (fun entry hentry ↦ ?_) (.pure trivial)
  have hvalue := hsource unheld m hm entry.value (List.mem_map_of_mem hentry)
  exact adds_setEntry hout hvalue entry.key unheld

/-- To begin an object and complete it is to make a value. -/
theorem Makes.newTable {f : TableRef → Run CellRef}
    (h : ∀ out : TableRef, m₀.tables.size ≤ out.index → Completes m₀ Old out (f out)) :
    Makes m₀ Old (newTable >>= f) :=
  fun unheld m hm ↦ h ⟨m.tables.size⟩ hm.grown.size unheld m.withTable hm.withTable

theorem Completes.newObject : Completes m₀ Old out (newObject out) :=
  fun _ _ hm ↦ .ok hm.withObject hm.grown.cells.size

theorem Completes.bind {x : Run α} {f : α → Run CellRef} (hfirst : Adds m₀ Old x)
    (hrest : ∀ a, Completes m₀ Old out (f a)) : Completes m₀ Old out (x >>= f) := by
  intro unheld m hm
  have hends := hfirst (out :: unheld) m hm
  cases hx : x m with
  | ok a n =>
    rw [Run.bind_ok hx]
    rw [hx] at hends
    cases hends with
    | ok hn => exact hrest a unheld n hn
  | error e n =>
    rw [Run.bind_error hx]
    rw [hx] at hends
    cases hends with
    | error hn => exact .error hn.giveUp

/-- Assumes: an action that makes a new value of every entry. Mapping the values of an object makes
a new object. -/
theorem makes_mapValues (ref : TableRef) {act : CellRef → CellRef → Run CellRef}
    (hact : ∀ key value, Makes m₀ Old (act key value)) :
    Makes m₀ Old (Operator.mapValues ref act) := by
  refine .newTable fun out hout ↦ .bind (fun unheld ↦ ?_) fun _ ↦ .newObject
  refine .get_bind fun m _ ↦ Maintains.foldlM (fun _ _ i _ ↦ .get_bind fun n _ ↦ ?_) () trivial
  split
  · refine (hact _ _ unheld).bind fun value hvalue ↦ ?_
    exact adds_setEntry hout (.inl hvalue) _ unheld
  · exact .pure trivial

/-- An object is completed with the values of a table that offers them. -/
theorem completes_pushAll (hout : m₀.tables.size ≤ out.index) {source : TableRef}
    (hsource : m₀.Offers Old source) :
    Completes m₀ Old out (do
      for value in (← tableOf source).values do
        pushEntry out value
      newObject out) := by
  intro unheld m hm
  refine Completes.bind (fun unheld' ↦ Spares.forIn (fun value hvalue _ ↦ ?_) _)
    (fun _ ↦ .newObject) unheld m hm
  have hpush := adds_pushEntry hout (hsource _ m hm value hvalue) unheld'
  exact hpush.bind fun _ ↦ .pure trivial

/-- Values that may go into a new table make a new array. -/
theorem makes_newArray {items : List CellRef}
    (hitems : ∀ item ∈ items, m₀.cells.size ≤ item.index ∨ Old item) :
    Makes m₀ Old (newArray items) := by
  unfold newArray newArrayTable
  rw [bind_assoc]
  refine .newTable fun out hout ↦ ?_
  rw [bind_assoc]
  refine .bind (fun unheld ↦ .forIn (fun numbered hnumbered _ ↦ ?_) _) fun _ ↦ ?_
  · have hitem := hitems numbered.1 (List.fst_mem_of_mem_zipIdx hnumbered)
    refine ((makes_number _).adds unheld).bind fun key ↦ ?_
    exact (adds_setEntry hout hitem key unheld).bind fun _ ↦ .pure trivial
  · rw [pure_bind]
    exact .newObject

/-- To begin an object with the entries of a table that offers its values, and complete it, is to
make a value. -/
theorem Makes.cloneTable {source : TableRef} {f : TableRef → Run CellRef}
    (hsource : m₀.Offers Old source)
    (h : ∀ out : TableRef, m₀.tables.size ≤ out.index → Completes m₀ Old out (f out)) :
    Makes m₀ Old (cloneTable source >>= f) := by
  unfold TreeScript.cloneTable
  rw [bind_assoc]
  refine .newTable fun out hout ↦ ?_
  rw [bind_assoc]
  exact .bind (adds_mergeInto hout hsource) fun _ ↦ h out hout

/-- Assumes: two values that may go into new tables, as may their own values. Joined they make a new
object. -/
theorem holds_appendValues {m : Machine} {unheld : List TableRef} {left right : CellRef}
    (hm : m₀.Added Old unheld m) (hleft : Old left) (hright : Old right)
    (hinside : ∀ ref, m.tableOf? left = some ref ∨ m.tableOf? right = some ref →
      m₀.Offers Old ref) :
    Outcome.Holds (m₀.Added Old unheld) (fun cell ↦ m₀.cells.size ≤ cell.index)
      (appendValues left right m) := by
  unfold appendValues
  rw [Run.get_bind]
  cases hs : m.tableOf? left with
  | some s =>
    have hs' := hinside s (.inl hs)
    cases ht : m.tableOf? right with
    | some t =>
      have ht' := hinside t (.inr ht)
      refine (?_ : Makes m₀ Old (appendObjects s t (m.isArray s && m.isArray t))) unheld m hm
      refine .cloneTable hs' fun out hout ↦ ?_
      split
      · exact completes_pushAll hout ht'
      · exact .bind (adds_mergeInto hout ht') fun _ ↦ .newObject
    | none =>
      refine (?_ : Makes m₀ Old (cloneTable s >>= fun out ↦
        pushEntry out right >>= fun _ ↦ newObject out)) unheld m hm
      refine .cloneTable hs' fun out hout ↦ ?_
      exact .bind (adds_pushEntry hout (.inr hright)) fun _ ↦ .newObject
  | none =>
    cases ht : m.tableOf? right with
    | some t =>
      have ht' := hinside t (.inr ht)
      dsimp only
      split
      · refine makes_newArray (fun item hitem ↦ ?_) unheld m hm
        rcases List.mem_cons.mp hitem with rfl | hitem
        · exact .inr hleft
        · exact ht' unheld m hm item hitem
      · refine (?_ : Makes m₀ Old (newTable >>= fun out ↦ pushEntry out left >>= fun _ ↦
          mergeInto out t >>= fun _ ↦ newObject out)) unheld m hm
        refine .newTable fun out hout ↦ .bind (adds_pushEntry hout (.inr hleft)) fun _ ↦ ?_
        exact .bind (adds_mergeInto hout ht') fun _ ↦ .newObject
    | none =>
      refine makes_newArray (fun item hitem ↦ ?_) unheld m hm
      rcases List.mem_pair.mp hitem with rfl | rfl
      · exact .inr hleft
      · exact .inr hright

end

end Machine

/-! ### Actions -/

/-- Actions that make a new value of all operands of their types. -/
def Action.makesNew : Action → Bool
  | .unary _ rule =>
    match rule with
    | .step .. => false
    | _ => true
  | .binary left _ rule =>
    match rule with
    | .append | .orElse | .pipe => false
    | .compare _ => plainTypes.contains left
    | _ => true

section

variable {m₀ m : Machine} {Old : CellRef → Prop} {unheld : List TableRef}
  {cell left right : CellRef}

open Machine

/-- What reads the machine adds nothing. -/
theorem Machine.adds_read {α : Type} (read : Machine → α) :
    Adds m₀ Old (do return read (← get)) :=
  fun _ _ hm ↦ .ok hm trivial

theorem Machine.adds_ofNumber {α : Type} (result : Except NumberError α) :
    Adds m₀ Old (Run.ofNumber result) :=
  fun _ ↦ .ofNumber result

theorem Machine.makes_ofNumber (result : Except NumberError Decimal) :
    Makes m₀ Old (do newNumber (← Run.ofNumber result)) :=
  .bind (adds_ofNumber result) makes_number

theorem UnaryRule.makes {operand : String} {rule : UnaryRule}
    (h : (Action.unary operand rule).makesNew = true) (cell : CellRef) :
    Makes m₀ Old (rule.apply cell) := by
  unfold UnaryRule.apply
  refine .bind (adds_read fun m ↦ m.content cell) fun content ↦ ?_
  cases rule with
  | step => cases h
  | factorial => exact makes_ofNumber _
  | same => exact makes_number _
  | parse => exact .bind (adds_read fun m ↦ m.display cell) fun text ↦ makes_ofNumber _
  | negate => exact makes_number _
  | not => exact .bind (adds_read fun m ↦ m.isTrue cell) fun b ↦ makes_boolean _
  | complement => exact .bind (adds_ofNumber _) fun x ↦ makes_number _

theorem makes_repeatString (s : String) (count : Decimal) :
    Makes m₀ Old (repeatString s count) := by
  intro unheld
  unfold repeatString
  refine .ite (fun _ ↦ .bind (.fail _) fun _ h ↦ h) fun _ ↦ ?_
  refine .ite (fun _ ↦ ?_) fun _ ↦ ?_
  · exact (makes_string "" unheld).bind fun cell hcell ↦ .pure hcell
  · refine .ite (fun _ ↦ .bind (.fail _) fun _ h ↦ h) fun _ ↦ ?_
    exact makes_string _ unheld

/-- A value that is not an object is compared without a change of the machine. -/
theorem spares_compareValues {I : Machine → Prop}
    (hplain : ∀ m, I m → ∀ ref, m.content left ≠ .object ref) (right : CellRef) :
    Spares I (compareValues left right) := by
  refine .get_bind fun m hm ↦ ?_
  split
  · split
    · exact .pure trivial
    · exact .fail _
  · exact .pure trivial
  · exact .pure trivial
  · exact absurd ‹_› (hplain m hm _)
  · split
    · split <;> exact .pure trivial
    · exact .fail _
  · exact .pure trivial
  · split <;> exact .pure trivial

/-- An action that makes new values of the types of its operands makes one of the operands. -/
theorem BinaryRule.holds {rule : BinaryRule} {second : String} (call : Call) (symbol : String)
    (h : (Action.binary (m.typeName left) second rule).makesNew = true)
    (hm : m₀.Added Old unheld m) :
    Outcome.Holds (m₀.Added Old unheld) (fun cell ↦ m₀.cells.size ≤ cell.index)
      (rule.apply call symbol left right m) := by
  unfold BinaryRule.apply
  rw [Run.get_bind]
  cases rule with
  | append | orElse | pipe => cases h
  | compare relation =>
    have htype : m.typeName left ∈ plainTypes := List.contains_iff_mem.mp h
    have hplain : ∀ ref, m.content left ≠ .object ref := by
      intro ref hobject
      unfold typeName at htype
      rw [hobject] at htype
      have hnone : "object" ∉ plainTypes := by decide
      exact hnone htype
    have hsame : Spares (fun k ↦ k = m) (compareValues left right) :=
      spares_compareValues (fun k hk ↦ hk ▸ hplain) right
    have hends := hsame m rfl
    dsimp only [arithmetic?]
    cases hresult : compareValues left right m with
    | ok order k =>
      rw [hresult] at hends
      cases hends with
      | ok hk =>
        rw [Run.bind_ok hresult, hk]
        exact makes_boolean _ unheld m hm
    | error e k =>
      rw [hresult] at hends
      cases hends with
      | error hk =>
        rw [Run.bind_error hresult, hk]
        exact .error hm
  | and | or | xor | equal | notEqual => exact makes_boolean _ unheld m hm
  | repeatLeft | repeatRight => exact makes_repeatString _ _ unheld m hm
  | concatText => exact makes_string _ unheld m hm
  | add | subtract | multiply | divide | remainder | modulo | power | shiftLeft | shiftRight
  | bitAnd | bitOr => exact makes_ofNumber _ unheld m hm

/-! ### Operators -/

namespace Operator

variable {op : Operator}

/-- All actions of an operator make new values. -/
def MakesNew (op : Operator) : Prop := ∀ action ∈ op.actions, action.makesNew = true

theorem MakesNew.of_unaryRule? (h : op.MakesNew) {type : String} {rule : UnaryRule}
    (hrule : op.unaryRule? type = some rule) :
    ∃ operand, (Action.unary operand rule).makesNew = true := by
  obtain ⟨action, hmem, haction⟩ := List.exists_of_findSome?_eq_some hrule
  cases action with
  | binary => cases haction
  | unary operand found =>
    dsimp only at haction
    split at haction
    · cases haction
      exact ⟨operand, h _ hmem⟩
    · cases haction

theorem MakesNew.of_binaryRule? (h : op.MakesNew) {right : String} {rule : BinaryRule}
    {content : Content} (hrule : op.binaryRule? content.typeName right = some rule) :
    ∃ second, (Action.binary content.typeName second rule).makesNew = true := by
  obtain ⟨action, hmem, haction⟩ := List.exists_of_findSome?_eq_some hrule
  cases action with
  | unary => cases haction
  | binary first second found =>
    have hmakes := h _ hmem
    dsimp only at haction
    split at haction
    · rename_i htypes
      cases haction
      rw [Bool.and_eq_true] at htypes
      refine ⟨second, ?_⟩
      cases rule with
      | compare relation =>
        have hplain : first ∈ plainTypes := List.contains_iff_mem.mp hmakes
        change plainTypes.contains content.kind.name = true
        rw [name_of_isType hplain htypes.1]
        exact hmakes
      | _ => exact hmakes
    · cases haction

/-- An operator whose actions make new values makes one of any operand, or fails. -/
theorem MakesNew.dispatch1 (h : op.MakesNew) (fuel : Nat) (cell : CellRef) :
    Makes m₀ Old (op.dispatch1 fuel cell) := by
  induction fuel generalizing cell with
  | zero => exact fun _ ↦ .throw _
  | succ fuel ih =>
    intro unheld
    refine .get_bind fun m _ ↦ ?_
    split
    · rename_i rule _ hrule
      obtain ⟨operand, hmakes⟩ := h.of_unaryRule? hrule
      exact UnaryRule.makes hmakes cell unheld
    · exact makes_mapValues _ (fun _ value ↦ ih value) unheld
    · exact .fail _

theorem adds_requireSameKeys (op : Operator) (s t : TableRef) :
    Adds m₀ Old (op.requireSameKeys s t) := by
  intro unheld
  refine .get_bind fun m _ ↦ ?_
  exact Spares.check (.fail _) (.ite (fun _ ↦ .fail _) fun _ ↦ .pure trivial)

/-- An operator whose actions make new values makes one of any two operands, or fails. -/
theorem MakesNew.dispatch2 (h : op.MakesNew) (call : Call) (fuel : Nat) (left right : CellRef) :
    Makes m₀ Old (op.dispatch2 call fuel left right) := by
  induction fuel generalizing left right with
  | zero => exact fun _ ↦ .throw _
  | succ fuel ih =>
    intro unheld m hm
    rw [Operator.dispatch2, Run.get_bind]
    cases hrule : op.binaryRule? (m.typeName left) (m.typeName right) with
    | some rule =>
      obtain ⟨second, hmakes⟩ := h.of_binaryRule? hrule
      exact BinaryRule.holds call op.symbol hmakes hm
    | none =>
      cases m.tableOf? left with
      | some s =>
        cases m.tableOf? right with
        | some t =>
          refine Makes.bind (op.adds_requireSameKeys s t) (fun _ ↦ ?_) unheld m hm
          refine makes_mapValues s fun key value unheld ↦ .get_bind fun n _ ↦ ?_
          split
          · exact ih _ _ unheld
          · exact (makes_empty unheld).bind fun other _ ↦ ih value other unheld
        | none => exact makes_mapValues s (fun _ value ↦ ih value right) unheld m hm
      | none =>
        cases m.tableOf? right with
        | some t => exact makes_mapValues t (fun _ value ↦ ih left value) unheld m hm
        | none => exact .error hm

theorem MakesNew.evaluate (h : op.MakesNew) (call : Call) (args : List CellRef) :
    Makes m₀ Old (op.evaluate call args) := by
  intro unheld
  refine .ite (fun _ ↦ .bind (.fail _) fun _ h ↦ h) fun _ ↦ ?_
  refine .ite (fun _ ↦ .bind (.fail _) fun _ h ↦ h) fun _ ↦ ?_
  match args with
  | [cell] => exact h.dispatch1 call.fuel cell unheld
  | [left, right] => exact h.dispatch2 call call.fuel left right unheld
  | [] | _ :: _ :: _ :: _ => exact makes_empty unheld

/-- An operator whose only action takes any two values applies its rule to them, if it does
anything. -/
theorem holds_any2 {I : Machine → Prop} {Q : CellRef → Prop} {rule : BinaryRule} {call : Call}
    {args : List CellRef} (hactions : op.actions = [any2 rule]) (hfixity : op.fixity = .infixOp)
    (hm : I m) (hrule : ∀ left right, args = [left, right] →
      Outcome.Holds I Q (rule.apply call op.symbol left right m)) :
    Outcome.Holds I Q (op.evaluate call args m) := by
  have harity : op.arity = 2 := by rw [arity, hfixity, Fixity.arity]
  have hacts : op.actions.isEmpty = false := by
    rw [hactions]
    rfl
  unfold Operator.evaluate
  by_cases hcount : args.length = op.arity
  · obtain ⟨left, right, rfl⟩ := List.length_eq_two.mp (hcount.trans harity)
    rw [if_neg (not_not_intro hcount), if_neg (by rw [hacts]; exact Bool.false_ne_true)]
    change Outcome.Holds I Q (op.dispatch2 call call.fuel left right m)
    cases call.fuel with
    | zero => exact .error hm
    | succ fuel =>
      have hfound : op.binaryRule? (m.typeName left) (m.typeName right) = some rule := by
        unfold binaryRule?
        rw [hactions]
        simp [any2, isType]
      rw [Operator.dispatch2, Run.get_bind, hfound]
      exact hrule left right rfl
  · rw [if_pos hcount]
    exact .error hm

/-- The operators that step numbers, and those that call functions. -/
def disturbing : List String := ["++", "--", "|>", ">|"]

/-- What the operators of the language do of which the others are a case. -/
theorem standardOperators_cases : ∀ op ∈ standardOperators, op.symbol ∈ disturbing ∨
    op.actions.all Action.makesNew = true ∨
      op.fixity = .infixOp ∧ (op.actions = [any2 .append] ∨ op.actions = [any2 .orElse]) := by
  decide

/-- Assumes: operands that satisfy a condition, and offer such values if they are objects. An
operator that disturbs nothing only adds to the machine, and gives a new value, or one that
satisfies the condition. -/
theorem holds_evaluate {symbol : String} {args : List CellRef} (hsymbol : symbol ∉ disturbing)
    (call : Call) (fixity : Fixity) (hargs : ∀ arg ∈ args, Old arg)
    (hinside : ∀ arg ∈ args, ∀ ref, m.tableOf? arg = some ref → m.Offers Old ref) :
    Outcome.Holds (m.Added Old []) (fun out ↦ m.cells.size ≤ out.index ∨ Old out)
      (standard.evaluate call symbol fixity args m) := by
  have hstart := Added.start m Old
  have hnew {o : Outcome CellRef}
      (h : Outcome.Holds (m.Added Old []) (fun out ↦ m.cells.size ≤ out.index) o) :
      Outcome.Holds (m.Added Old []) (fun out ↦ m.cells.size ≤ out.index ∨ Old out) o := by
    cases h with
    | ok hn hout => exact .ok hn (.inl hout)
    | error hn => exact .error hn
  unfold OperatorTable.evaluate
  cases hfound : standard.find? symbol fixity with
  | none => exact .error hstart
  | some op =>
    have hsame := List.find?_some hfound
    rw [Bool.and_eq_true, beq_iff_eq, beq_iff_eq] at hsame
    have hmem : op ∈ standardOperators :=
      standard_perm.mem_iff.mp (List.mem_of_find?_eq_some hfound)
    rcases standardOperators_cases op hmem with hdisturbs | hmakes | ⟨hbetween, hactions⟩
    · exact absurd (hsame.1 ▸ hdisturbs) hsymbol
    · have hop : op.MakesNew := List.all_eq_true.mp hmakes
      exact hnew (hop.evaluate call args [] m hstart)
    · rcases hactions with happend | horElse
      · refine hnew (holds_any2 happend hbetween hstart fun left right hpair ↦ ?_)
        subst hpair
        refine holds_appendValues hstart (hargs left (by simp)) (hargs right (by simp)) ?_
        rintro ref (hobject | hobject)
        · exact hinside left (by simp) ref hobject
        · exact hinside right (by simp) ref hobject
      · refine holds_any2 horElse hbetween hstart fun left right hpair ↦ .ok hstart (.inr ?_)
        subst hpair
        split
        · exact hargs right (by simp)
        · exact hargs left (by simp)

end Operator

end

/-! ### Results -/

namespace Machine

variable {m n : Machine} {args : List CellRef} {arg out part : CellRef} {ref : TableRef}

/-- On a closed machine what is within values is there. -/
theorem Closed.within_bound (h : m.Closed) (hargs : ∀ arg ∈ args, arg.index < m.cells.size)
    (hwithin : m.Within args part) : part.index < m.cells.size := by
  obtain ⟨arg, harg, hpart⟩ := hwithin
  rcases hpart.cases_tail with rfl | ⟨whole, -, ⟨ref, -, hvalue⟩⟩
  · exact hargs _ harg
  · exact h.values ref _ hvalue

/-- On a closed machine the tables of values within others offer values within them. -/
theorem Closed.offers (h : m.Closed) (harg : m.Within args arg)
    (hobject : m.tableOf? arg = some ref) : m.Offers (m.Within args) ref := by
  have hcontent := tableOf?_eq_some_iff.mp hobject
  intro unheld k hk value hvalue
  rw [hk.grown.table ref (h.object arg ref hcontent)] at hvalue
  obtain ⟨first, hfirst, hpart⟩ := harg
  exact .inr ⟨first, hfirst, hpart.tail ⟨ref, hcontent, hvalue⟩⟩

/-- Assumes: a closed machine, and one that was added to. What is within a value that is new, or
within the operands, is new or within the operands. -/
theorem Closed.within_added (h : m.Closed) (hargs : ∀ arg ∈ args, arg.index < m.cells.size)
    (hn : m.Added (m.Within args) [] n) (hout : m.cells.size ≤ out.index ∨ m.Within args out)
    (hpart : Relation.ReflTransGen n.Part out part) :
    m.cells.size ≤ part.index ∨ m.Within args part := by
  induction hpart with
  | refl => exact hout
  | @tail whole value _ hstep ih =>
    obtain ⟨ref, hobject, hvalue⟩ := hstep
    rcases ih with hnew | hold
    · exact hn.values ref (hn.object whole ref hnew hobject).1 value hvalue
    · rw [hn.grown.cells.content whole (h.within_bound hargs hold)] at hobject
      exact h.offers hold (tableOf?_eq_some_iff.mpr hobject) [] n hn value hvalue

/-- Assumes: a closed machine, and one that was added to. The table of a new object is new, and no
other cell holds it. -/
theorem Closed.own_table (h : m.Closed) {Old : CellRef → Prop} (hn : m.Added Old [] n)
    (hnew : m.cells.size ≤ part.index) (hobject : n.content part = .object ref) :
    m.tables.size ≤ ref.index ∧ ∀ other, n.content other = .object ref → other = part := by
  have htable := (hn.object part ref hnew hobject).1
  refine ⟨htable, fun other hother ↦ ?_⟩
  by_cases hold : other.index < m.cells.size
  · rw [hn.grown.cells.content other hold] at hother
    exact absurd (h.object other ref hother) (Nat.not_lt_of_le htable)
  · exact hn.own other part ref (Nat.le_of_not_lt hold) hnew hother hobject

end Machine

namespace Operator

variable {m : Machine} {symbol : String}

/-- Assumes: an operator of the language that neither steps a number nor calls a function. Whatever
it is given, and whether it succeeds or fails, it only adds to the machine. Assumes further: a
closed machine, and operands that are there. Then an object that comes out, at any depth, is within
the operands, or it is new and has a new table that no other cell holds. -/
theorem operators_spare_operands (hsymbol : symbol ∉ disturbing) (call : Call) (fixity : Fixity)
    (args : List CellRef) :
    m.Grown (Outcome.final (standard.evaluate call symbol fixity args m)) ∧
      (m.Closed → (∀ arg ∈ args, arg.index < m.cells.size) → ∀ out n,
        standard.evaluate call symbol fixity args m = .ok out n →
          ∀ part ref, Relation.ReflTransGen n.Part out part → n.content part = .object ref →
            m.Within args part ∨ m.cells.size ≤ part.index ∧ m.tables.size ≤ ref.index ∧
              ∀ other, n.content other = .object ref → other = part) := by
  refine ⟨?_, fun hclosed hargs out n hresult part ref hpart hobject ↦ ?_⟩
  · have hends : Outcome.Holds (m.Added (fun _ ↦ True) []) _
        (standard.evaluate call symbol fixity args m) :=
      holds_evaluate hsymbol call fixity (fun _ _ ↦ trivial) fun _ _ _ _ _ _ _ _ _ ↦ .inr trivial
    generalize standard.evaluate call symbol fixity args m = o at hends
    cases hends with
    | ok hn => exact hn.grown
    | error hn => exact hn.grown
  · have hends : Outcome.Holds (m.Added (m.Within args) []) _
        (standard.evaluate call symbol fixity args m) :=
      holds_evaluate hsymbol call fixity (fun arg harg ↦ ⟨arg, harg, .refl⟩)
        fun arg harg ref ↦ hclosed.offers ⟨arg, harg, .refl⟩
    rw [hresult] at hends
    cases hends with
    | ok hn hout =>
      rcases hclosed.within_added hargs hn hout hpart with hnew | hwithin
      · exact .inr ⟨hnew, hclosed.own_table hn hnew hobject⟩
      · exact .inl hwithin

/-- A number and an object without entries. -/
def numberAndObject : Machine where
  cells := #[.number (Decimal.ofInt 1), .object ⟨0⟩]
  tables := #[{}]

theorem numberAndObject_closed : numberAndObject.Closed := by
  refine ⟨fun cell ref hobject ↦ ?_, fun ref value hvalue ↦ ?_⟩
  · obtain ⟨_ | _ | i⟩ := cell
    · cases hobject
    · cases hobject
      exact Nat.zero_lt_one
    · cases hobject
  · obtain ⟨_ | i⟩ := ref
    · cases hvalue
    · cases hvalue

/-- The number is put behind the entries of the object. That makes a new object with a table of its
own. -/
theorem appended_object_is_new :
    "::" ∉ disturbing ∧ numberAndObject.Closed ∧
      ∃ out n, standard.evaluate (Call.detached 20 3) "::" .infixOp [⟨1⟩, ⟨0⟩] numberAndObject =
          .ok out n ∧
        numberAndObject.Grown n ∧ n.content out = .object ⟨1⟩ ∧
          ∀ other, n.content other = .object ⟨1⟩ → other = out := by
  have hsymbol : "::" ∉ disturbing := by decide
  have hop : between "::" 105 [any2 .append] ∈ standardOperators := by simp [standardOperators]
  have hfound : standard.find? "::" .infixOp = some (between "::" 105 [any2 .append]) :=
    find?_standard hop
  have hargs : ∀ arg ∈ ([⟨1⟩, ⟨0⟩] : List CellRef), arg.index < numberAndObject.cells.size := by
    decide
  obtain ⟨out, n, hresult, hcontent⟩ : ∃ out n, standard.evaluate (Call.detached 20 3) "::" .infixOp
      [⟨1⟩, ⟨0⟩] numberAndObject = .ok out n ∧ n.content out = .object ⟨1⟩ := by
    unfold OperatorTable.evaluate
    rw [hfound]
    exact ⟨_, _, rfl, rfl⟩
  obtain ⟨hgrown, hobjects⟩ :=
    operators_spare_operands (m := numberAndObject) hsymbol (Call.detached 20 3) .infixOp
      [⟨1⟩, ⟨0⟩]
  rw [hresult] at hgrown
  have hadded : numberAndObject.Grown n := hgrown
  refine ⟨hsymbol, numberAndObject_closed, out, n, hresult, hadded, hcontent, ?_⟩
  rcases hobjects numberAndObject_closed hargs out n hresult out ⟨1⟩ .refl hcontent with
    hwithin | ⟨-, -, hown⟩
  · have hold := numberAndObject_closed.within_bound hargs hwithin
    rw [hadded.cells.content out hold] at hcontent
    exact absurd (numberAndObject_closed.object out ⟨1⟩ hcontent) (Nat.lt_irrefl 1)
  · exact hown

end Operator

end TreeScript
