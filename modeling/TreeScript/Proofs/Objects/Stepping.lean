import TreeScript.Proofs.Broadcasting.Sparing
import TreeScript.Proofs.Iteration.Walks
import TreeScript.Proofs.Tandem.Basic

/-!
# Stepping numbers in place

`++` and `--` change a number where it is. Of an object they change the values one by one, however
deep they lie, and make a new object of the results. What they change are therefore numbers that can
be reached from the operand by way of the objects, and nothing else of what was there
(`Interp.operation_stepped`). If they are numbers in different cells, then they are all changed
(`Interp.operation_raises`).

A machine on which such an evaluation is under way is described by `Machine.Stepped`: the tables are
as they were, and what may be stepped is either new or can be reached from the operand.
-/

set_option autoImplicit false

namespace TreeScript

/-! ### The values of a table -/

/-- Whatever lies in a block of a table, its value has a property. -/
structure Table.Every (P : CellRef → Prop) (table : Table) : Prop where
  slots : ∀ entry ∈ table.slots, P entry.value
  retired : ∀ block ∈ table.retired, ∀ entry ∈ block, P entry.value

namespace Table

variable {P : CellRef → Prop} {table : Table}

theorem every_empty (P : CellRef → Prop) : Every P {} :=
  ⟨fun entry h ↦ absurd h (Array.not_mem_empty entry),
    fun block h ↦ absurd h (Array.not_mem_empty block)⟩

theorem Every.append (h : Every P table) {added : Entry} (hadded : P added.value) :
    Every P (table.append added) := by
  unfold Table.append
  split
  · split
    · refine ⟨fun entry hentry ↦ ?_, h.retired⟩
      rcases Array.mem_or_eq_of_mem_setIfInBounds hentry with hold | rfl
      · exact h.slots entry hold
      · exact hadded
    · refine ⟨fun entry hentry ↦ ?_, h.retired⟩
      rcases Array.mem_push.mp hentry with hold | rfl
      · exact h.slots entry hold
      · exact hadded
  · refine ⟨fun entry hentry ↦ ?_, fun block hblock ↦ ?_⟩
    · rcases Array.mem_push.mp hentry with hold | rfl
      · rw [Array.take_eq_extract] at hold
        obtain ⟨i, hi, rfl⟩ := Array.mem_extract_iff_getElem.mp hold
        exact h.slots _ (Array.getElem_mem _)
      · exact hadded
    · rcases Array.mem_push.mp hblock with hold | rfl
      · exact h.retired block hold
      · exact h.slots

theorem Every.set (h : Every P table) (id : KeyId) (key : CellRef) {value : CellRef}
    (hvalue : P value) : Every P (table.set id key value) := by
  unfold Table.set
  split
  · refine ⟨fun entry hentry ↦ ?_, h.retired⟩
    obtain ⟨i, hi, rfl⟩ := Array.mem_iff_getElem.mp hentry
    rw [Array.getElem_modify]
    split
    · exact hvalue
    · exact h.slots _ (Array.getElem_mem _)
  · have hindexed : Every P { table with index := table.index.insert id table.size } :=
      ⟨h.slots, h.retired⟩
    exact hindexed.append hvalue

/-- What a walk finds lies in a block. -/
theorem Every.entryAt (h : Every P table) {walk : Walk} {i : Nat} {entry : Entry}
    (hentry : table.entryAt walk i = some entry) : P entry.value := by
  unfold Table.entryAt at hentry
  split at hentry
  · exact h.slots entry (Array.mem_of_getElem? hentry)
  · obtain ⟨block, hblock, hslot⟩ := Option.bind_eq_some_iff.mp hentry
    exact h.retired block (Array.mem_of_getElem? hblock) entry (Array.mem_of_getElem? hslot)

end Table

/-! ### A machine on which a value is stepped -/

namespace Machine

/-- One value is another, or lies somewhere within it. -/
abbrev GetsTo (m : Machine) (target cell : CellRef) : Prop :=
  Relation.ReflTransGen m.Part target cell

/-- What may be stepped: what is new, and what can be reached from the operand. -/
def Steppable (m₀ : Machine) (target cell : CellRef) : Prop :=
  m₀.cells.size ≤ cell.index ∨ m₀.GetsTo target cell

/-- A machine on which an operand is stepped, since another one. The tables are as they were, and
the cells hold what they held, apart from numbers that can be reached from the operand. New objects
have new tables, and these have values that may be stepped themselves. -/
structure Stepped (m₀ : Machine) (target : CellRef) (m : Machine) : Prop where
  cells : m₀.cells.size ≤ m.cells.size
  tables : m₀.tables.size ≤ m.tables.size
  table : ∀ ref : TableRef, ref.index < m₀.tables.size → m.table ref = m₀.table ref
  content : ∀ cell : CellRef, cell.index < m₀.cells.size → m.content cell = m₀.content cell ∨
    m₀.GetsTo target cell ∧ (∃ d, m₀.content cell = .number d) ∧ ∃ d, m.content cell = .number d
  object : ∀ (cell : CellRef) (ref : TableRef), m₀.cells.size ≤ cell.index →
    m.content cell = .object ref → m₀.tables.size ≤ ref.index
  values : ∀ ref : TableRef, m₀.tables.size ≤ ref.index →
    (m.table ref).Every (m₀.Steppable target)

namespace Stepped

variable {m₀ m : Machine} {target cell out : CellRef} {ref : TableRef}

theorem start (m₀ : Machine) (target : CellRef) : m₀.Stepped target m₀ where
  cells := Nat.le_refl _
  tables := Nat.le_refl _
  table _ _ := rfl
  content _ _ := .inl rfl
  object cell ref hnew hcontent := by
    rw [content_of_missing hnew] at hcontent
    cases hcontent
  values ref hnew := by
    rw [table_of_missing hnew]
    exact Table.every_empty _

/-- An object that may be stepped has a new table, or it is there from the beginning and has the
table it had. -/
theorem tableOf? (h : m₀.Stepped target m) (hcell : m₀.Steppable target cell)
    (hobject : m.content cell = .object ref) :
    m₀.tables.size ≤ ref.index ∨
      m.table ref = m₀.table ref ∧ m₀.content cell = .object ref ∧ m₀.GetsTo target cell := by
  rcases hcell with hnew | hreached
  · exact .inl (h.object cell ref hnew hobject)
  · by_cases hnew : m₀.tables.size ≤ ref.index
    · exact .inl hnew
    · by_cases hbound : cell.index < m₀.cells.size
      · rcases h.content cell hbound with hsame | ⟨-, -, d, hnumber⟩
        · exact .inr ⟨h.table ref (Nat.lt_of_not_le hnew), hsame ▸ hobject, hreached⟩
        · rw [hnumber] at hobject
          cases hobject
      · exact absurd (h.object cell ref (Nat.le_of_not_lt hbound) hobject) hnew

/-- Anything may go into a new cell, but for objects with old tables. -/
theorem withCell (h : m₀.Stepped target m) {content : Content}
    (hobject : ∀ ref, content = .object ref → m₀.tables.size ≤ ref.index) :
    m₀.Stepped target (m.withCell content) where
  cells := Nat.le_trans h.cells (keepsCells_withCell m content).size
  tables := h.tables
  table := h.table
  content cell hcell := by
    rw [Machine.content_old (Nat.lt_of_lt_of_le hcell h.cells)]
    exact h.content cell hcell
  object cell ref hnew hcontent := by
    rw [Machine.content_withCell] at hcontent
    split at hcontent
    · exact hobject ref hcontent
    · exact h.object cell ref hnew hcontent
  values := h.values

theorem withTable (h : m₀.Stepped target m) : m₀.Stepped target m.withTable where
  cells := h.cells
  tables := Nat.le_trans h.tables m.grown_withTable.size
  table ref href := (table_withTable m ref).trans (h.table ref href)
  content := h.content
  object := h.object
  values ref href := by
    rw [table_withTable]
    exact h.values ref href

/-- What may be stepped may go into a new table. -/
theorem enter (h : m₀.Stepped target m) (hnew : m₀.tables.size ≤ ref.index) {value : CellRef}
    (hvalue : m₀.Steppable target value) (key : CellRef) :
    m₀.Stepped target (m.after (.enter ref key value)) where
  cells := h.cells
  tables := Nat.le_trans h.tables (Nat.le_of_eq (size_after m _).2.symm)
  table other hother := by
    rw [table_enter_of_ne, h.table other hother]
    rintro rfl
    exact Nat.not_le_of_lt hother hnew
  content := h.content
  object := h.object
  values other hother := by
    by_cases hexists : other.index < m.tables.size
    · rw [table_after _ _ hexists]
      unfold Change.onTable
      dsimp only
      split
      · exact (h.values other hother).set _ key hvalue
      · exact h.values other hother
    · rw [table_after_of_none m _ (Nat.le_of_not_lt hexists)]
      exact h.values other hother

/-- A number that may be stepped may be overwritten with a number. -/
theorem overwrite (h : m₀.Stepped target m) (hcell : m₀.Steppable target cell) {d : Decimal}
    (hnumber : m.content cell = .number d) (d' : Decimal) :
    m₀.Stepped target (m.after (.overwrite cell (.number d'))) where
  cells := Nat.le_trans h.cells (Nat.le_of_eq (size_after m _).1.symm)
  tables := h.tables
  table := h.table
  content other hother := by
    rw [Machine.content_overwrite]
    split
    · rename_i hsame
      have heq : cell = other := by
        cases cell
        cases other
        exact congrArg CellRef.mk hsame.1
      subst heq
      have hreached : m₀.GetsTo target cell :=
        hcell.resolve_left (Nat.not_le_of_lt hother)
      refine .inr ⟨hreached, ?_, d', rfl⟩
      rcases h.content cell hother with hkept | ⟨-, hformer, -⟩
      · exact ⟨d, hkept.symm.trans hnumber⟩
      · exact hformer
    · exact h.content other hother
  object other ref hnew hcontent := by
    rw [Machine.content_overwrite] at hcontent
    split at hcontent
    · cases hcontent
    · exact h.object other ref hnew hcontent
  values := h.values

/-- To map the values of an object that may be stepped, by an action that may be done with each of
them, makes a new value. -/
theorem mapValues {act : CellRef → CellRef → Run CellRef}
    (hact : ∀ key value, m₀.Steppable target value →
      Maintains (m₀.Stepped target) (m₀.Steppable target) (act key value))
    (hm : m₀.Stepped target m) (hcell : m₀.Steppable target cell)
    (hobject : m.content cell = .object ref) :
    Outcome.Holds (m₀.Stepped target) (m₀.Steppable target) (Operator.mapValues ref act m) := by
  let out : TableRef := ⟨m.tables.size⟩
  have hcreated : newTable m = .ok out m.withTable := rfl
  have hwalk : tableOf ref m.withTable = .ok (m.table ref) m.withTable := by
    rw [← table_withTable m ref]
    rfl
  -- What the walk finds was there when it began, or lies in a table that is new.
  have hfound (n : Machine) (hn : m₀.Stepped target n) (i : Nat)
      (hi : i ∈ List.range (m.table ref).walk.length) (entry : Entry)
      (hentry : (n.table ref).entryAt (m.table ref).walk i = some entry) :
      m₀.Steppable target entry.value := by
    rcases hm.tableOf? hcell hobject with hnew | ⟨hsame, hformer, hreached⟩
    · exact (hn.values ref hnew).entryAt hentry
    · by_cases hold : ref.index < m₀.tables.size
      · rw [hn.table ref hold, hsame] at hentry
        unfold Table.entryAt Table.walk at hentry
        rw [if_pos rfl] at hentry
        have hbound : i < (m₀.table ref).size := by
          rw [← hsame]
          exact List.mem_range.mp hi
        have hslot : (m₀.table ref).entries[i]? = some entry :=
          Table.getElem?_entries_eq_some_iff.mpr ⟨hbound, hentry⟩
        exact .inr (hreached.tail
          ⟨ref, hformer, List.mem_map_of_mem (List.mem_of_getElem? hslot)⟩)
      · exact (hn.values ref (Nat.le_of_not_lt hold)).entryAt hentry
  unfold Operator.mapValues forEntries
  rw [Run.bind_ok hcreated, bind_assoc, Run.bind_ok hwalk]
  refine Maintains.bind (Maintains.foldlM (S := fun _ ↦ True)
    (fun _ _ i hi ↦ .get_bind fun n hn ↦ ?_) () trivial) (fun _ _ ↦ ?_) m.withTable hm.withTable
  · split
    · rename_i entry hentry
      refine (hact _ _ (hfound n hn i hi entry hentry)).bind fun value hvalue k hk ↦ ?_
      exact .ok (hk.enter hm.tables hvalue entry.key) trivial
    · exact .pure trivial
  · intro k hk
    exact .ok (hk.withCell fun _ hsame ↦ by cases hsame; exact hm.tables) (.inl hk.cells)

end Stepped

end Machine

/-! ### Operators that step -/

/-- To step a number is to overwrite it. What it was is in a new cell. -/
theorem UnaryRule.step_apply (delta : Int) (answersFormer : Bool) {m : Machine} {cell : CellRef}
    {d : Decimal} (hnumber : m.content cell = .number d) :
    (UnaryRule.step delta answersFormer).apply cell m =
      .ok (if answersFormer then ⟨m.cells.size⟩ else cell)
        ((m.withCell (.number d)).after (.overwrite cell (.number (d + Decimal.ofInt delta)))) := by
  have hread : content cell m = .ok (.number d) m := by
    rw [← hnumber]
    rfl
  have hcopied : copy cell m = .ok ⟨m.cells.size⟩ (m.withCell (.number d)) := by
    rw [← hnumber]
    rfl
  unfold UnaryRule.apply
  rw [Run.bind_ok hread]
  dsimp only
  rw [Run.bind_ok hcopied]
  rfl

namespace Operator

variable {op : Operator} {m₀ : Machine} {target : CellRef}

/-- The only action of an operator steps a number by one that is given. -/
def Steps (op : Operator) (delta : Int) : Prop :=
  ∃ answersFormer, op.actions = [numeric (.step delta answersFormer)]

/-- An operator that steps numbers has no rule for other values. -/
theorem unaryRule?_of_actions {delta : Int} {answersFormer : Bool}
    (hactions : op.actions = [numeric (.step delta answersFormer)]) (name : String) :
    op.unaryRule? name =
      if isType name "number" then some (.step delta answersFormer) else none := by
  unfold unaryRule?
  rw [hactions, List.findSome?_cons]
  dsimp only [numeric]
  cases isType name "number" <;> rfl

/-- An operator that steps numbers overwrites the one it is given. -/
theorem dispatch1_number_of_actions {delta : Int} {answersFormer : Bool}
    (hactions : op.actions = [numeric (.step delta answersFormer)]) (fuel : Nat) {m : Machine}
    {cell : CellRef} {d : Decimal} (hnumber : m.content cell = .number d) :
    op.dispatch1 (fuel + 1) cell m = .ok (if answersFormer then ⟨m.cells.size⟩ else cell)
      ((m.withCell (.number d)).after (.overwrite cell (.number (d + Decimal.ofInt delta)))) := by
  have htype : isType (m.typeName cell) "number" = true := by
    unfold Machine.typeName
    rw [hnumber]
    exact (by decide : isType "number" "number" = true)
  rw [Operator.dispatch1, Run.get_bind, unaryRule?_of_actions hactions, if_pos htype]
  exact UnaryRule.step_apply delta answersFormer hnumber

/-- The result is the number that was overwritten, or what it was. -/
theorem Steps.dispatch1_number {delta : Int} (h : op.Steps delta) (fuel : Nat) {m : Machine}
    {cell : CellRef} {d : Decimal} (hnumber : m.content cell = .number d) :
    ∃ result, op.dispatch1 (fuel + 1) cell m = .ok result
        ((m.withCell (.number d)).after (.overwrite cell (.number (d + Decimal.ofInt delta)))) ∧
      (result = cell ∨ result = ⟨m.cells.size⟩) := by
  obtain ⟨answersFormer, hactions⟩ := h
  refine ⟨_, dispatch1_number_of_actions hactions fuel hnumber, ?_⟩
  cases answersFormer with
  | false => exact .inl rfl
  | true => exact .inr rfl

/-- An operator that steps a number steps what it may step, or fails. -/
theorem Steps.dispatch1 {delta : Int} (h : op.Steps delta) (fuel : Nat) {cell : CellRef}
    (hcell : m₀.Steppable target cell) :
    Maintains (m₀.Stepped target) (m₀.Steppable target) (op.dispatch1 fuel cell) := by
  induction fuel generalizing cell with
  | zero => exact .throw _
  | succ fuel ih =>
    intro m hm
    by_cases hnumber : isType (m.typeName cell) "number" = true
    · obtain ⟨d, hd⟩ := content_number (name_of_isType (by decide) hnumber)
      obtain ⟨result, hstepped, hresult⟩ := h.dispatch1_number fuel hd
      rw [hstepped]
      have hcopied : (m.withCell (.number d)).content cell = .number d := by
        rw [Machine.content_withCell, hd]
        exact ite_self _
      refine .ok ((hm.withCell fun _ h ↦ by cases h).overwrite hcell hcopied _) ?_
      rcases hresult with rfl | rfl
      · exact hcell
      · exact .inl hm.cells
    · obtain ⟨answersFormer, hactions⟩ := h
      rw [Operator.dispatch1, Run.get_bind, unaryRule?_of_actions hactions, if_neg hnumber]
      cases hobject : m.tableOf? cell with
      | none => exact .error hm
      | some ref =>
        exact hm.mapValues (fun _ value hvalue ↦ ih hvalue) hcell
          (Machine.tableOf?_eq_some_iff.mp hobject)

/-- The operators of the language that step numbers. -/
def stepping : List String := ["++", "--"]

/-- What they add to a number. -/
def delta (symbol : String) : Int := if symbol = "++" then 1 else -1

/-- Behind a number they answer what it was. -/
theorem actions_of_stepping : ∀ op ∈ standardOperators, op.symbol ∈ stepping →
    op.actions = [numeric (.step (delta op.symbol) (op.fixity == .postfixOp))] := by
  decide

theorem steps_of_stepping (op : Operator) (hop : op ∈ standardOperators)
    (hsymbol : op.symbol ∈ stepping) : op.Steps (delta op.symbol) :=
  ⟨_, actions_of_stepping op hop hsymbol⟩

/-- What an operator that steps numbers changes may be stepped, whether it succeeds or fails. -/
theorem evaluate_stepping {symbol : String} (hsymbol : symbol ∈ stepping) (call : Call)
    (fixity : Fixity) (m₀ : Machine) (target : CellRef) :
    Maintains (m₀.Stepped target) (m₀.Steppable target)
      (standard.evaluate call symbol fixity [target]) := by
  unfold OperatorTable.evaluate
  cases hfound : standard.find? symbol fixity with
  | none => exact .fail _
  | some op =>
    have hsame := List.find?_some hfound
    rw [Bool.and_eq_true, beq_iff_eq, beq_iff_eq] at hsame
    have hmem : op ∈ standardOperators :=
      standard_perm.mem_iff.mp (List.mem_of_find?_eq_some hfound)
    have hsteps := steps_of_stepping op hmem (hsame.1 ▸ hsymbol)
    refine .ite (fun _ ↦ .bind (.fail _) fun _ h ↦ h) fun _ ↦ ?_
    refine .ite (fun _ ↦ .bind (.fail _) fun _ h ↦ h) fun _ ↦ ?_
    exact hsteps.dispatch1 call.fuel (.inr .refl)

end Operator

/-! ### Objects of numbers -/

/-- Cells that are different from each other hold numbers. -/
structure Machine.HoldNumbers (m : Machine) (cells : List CellRef) : Prop where
  number : ∀ cell ∈ cells, ∃ d, m.content cell = .number d
  distinct : cells.Nodup

/-- A cell that holds a number exists. -/
theorem Machine.bound_of_number {m : Machine} {cell : CellRef} {d : Decimal}
    (h : m.content cell = .number d) : cell.index < m.cells.size :=
  Machine.bound_of_content (by rw [h]; exact nofun)

/-- A delta has been added to the numbers in some cells, and the other cells hold what they held. -/
structure Machine.Raises (m : Machine) (cells : List CellRef) (delta : Int) (n : Machine) :
    Prop where
  size : m.cells.size ≤ n.cells.size
  number : ∀ cell ∈ cells, ∀ d, m.content cell = .number d →
    n.content cell = .number (d + Decimal.ofInt delta)
  kept : ∀ cell : CellRef, cell.index < m.cells.size → cell ∉ cells →
    n.content cell = m.content cell

namespace Operator.Steps

variable {op : Operator} {delta : Int} {m : Machine} {target : CellRef} {ref : TableRef}

/-- To step a number is to add to it, and to nothing else. -/
theorem dispatch1_raises (h : op.Steps delta) (fuel : Nat) {cell : CellRef} {d : Decimal}
    (hnumber : m.content cell = .number d) :
    ∃ result n, op.dispatch1 (fuel + 1) cell m = .ok result n ∧ m.Raises [cell] delta n := by
  obtain ⟨result, hstepped, -⟩ := h.dispatch1_number fuel hnumber
  have hbound : cell.index < m.cells.size := Machine.bound_of_number hnumber
  have hsize := (Machine.keepsCells_withCell m (.number d)).size
  refine ⟨result, _, hstepped, ?_, ?_, ?_⟩
  · exact Nat.le_trans hsize (Nat.le_of_eq (Machine.size_after _ _).1.symm)
  · refine List.forall_mem_singleton.mpr fun d' hd' ↦ ?_
    cases hnumber.symm.trans hd'
    rw [Machine.content_overwrite_self (Nat.lt_of_lt_of_le hbound hsize)]
  · intro other hother hne
    have hkept : ((m.withCell (.number d)).after
        (.overwrite cell (.number (d + Decimal.ofInt delta)))).content other =
          (m.withCell (.number d)).content other :=
      Machine.content_after fun hsame ↦ hne (hsame ▸ List.mem_singleton_self _)
    exact hkept.trans ((Machine.keepsCells_withCell m (.number d)).content other hother)

/-- Assumes: entries the values of which are numbers in different cells. Stepping them one after the
other adds to each. -/
theorem foldlM_raises (h : op.Steps delta) (fuel : Nat) (out : TableRef) (entries : List Entry)
    (hnumbers : m.HoldNumbers (entries.map Entry.value)) :
    ∃ n, entries.foldlM (fun _ entry ↦ (do
        let value ← op.dispatch1 (fuel + 1) entry.value
        setEntry out entry.key value : Run Unit)) () m = .ok () n ∧
      m.Raises (entries.map Entry.value) delta n := by
  induction entries generalizing m with
  | nil => exact ⟨m, rfl, Nat.le_refl _, nofun, fun _ _ _ ↦ rfl⟩
  | cons entry entries ih =>
    obtain ⟨hnotin, hdistinct⟩ := List.nodup_cons.mp hnumbers.distinct
    obtain ⟨d, hd⟩ := hnumbers.number entry.value (List.mem_cons_self ..)
    obtain ⟨result, n, hstepped, hraises⟩ := h.dispatch1_raises fuel hd
    let entered := n.after (.enter out entry.key result)
    -- What is to be stepped yet has stayed.
    have hrest : ∀ cell ∈ entries.map Entry.value, entered.content cell = m.content cell := by
      intro cell hcell
      obtain ⟨d', hd'⟩ := hnumbers.number cell (List.mem_cons_of_mem _ hcell)
      refine hraises.kept cell (Machine.bound_of_number hd') fun hsame ↦ ?_
      exact hnotin (List.mem_singleton.mp hsame ▸ hcell)
    obtain ⟨k, hwalk, hothers⟩ := ih (m := entered)
      ⟨fun cell hcell ↦ (hrest cell hcell) ▸ hnumbers.number cell (List.mem_cons_of_mem _ hcell),
        hdistinct⟩
    have hfirst : entry.value.index < m.cells.size := Machine.bound_of_number hd
    refine ⟨k, ?_, Nat.le_trans hraises.size hothers.size, ?_, ?_⟩
    · have hentered : setEntry out entry.key result n = .ok () entered := rfl
      rw [List.foldlM_cons, bind_assoc, Run.bind_ok hstepped, Run.bind_ok hentered]
      exact hwalk
    · refine List.forall_mem_cons.mpr ⟨fun d' hd' ↦ ?_, fun cell hcell d' hd' ↦ ?_⟩
      · rw [hothers.kept _ (Nat.lt_of_lt_of_le hfirst hraises.size) hnotin]
        exact hraises.number _ (List.mem_singleton_self _) d' hd'
      · exact hothers.number cell hcell d' ((hrest cell hcell).trans hd')
    · intro cell hcell hother
      rw [hothers.kept cell (Nat.lt_of_lt_of_le hcell hraises.size)
        fun hmem ↦ hother (List.mem_cons_of_mem _ hmem)]
      exact hraises.kept cell hcell fun hmem ↦
        hother (List.mem_singleton.mp hmem ▸ List.mem_cons_self ..)

/-- Assumes: an object of numbers in different cells. Stepping it adds to each of them. -/
theorem dispatch1_object (h : op.Steps delta) (fuel : Nat)
    (hobject : m.content target = .object ref) (horderly : m.Orderly ref)
    (hnumbers : m.HoldNumbers (m.table ref).values) :
    ∃ result n, op.dispatch1 (fuel + 2) target m = .ok result n ∧
      m.Raises (m.table ref).values delta n := by
  let out : TableRef := ⟨m.tables.size⟩
  have hcreated : newTable m = .ok out m.withTable := rfl
  obtain ⟨n, hwalk, hraises⟩ := h.foldlM_raises (m := m.withTable) fuel out (m.table ref).entries
    ⟨hnumbers.number, hnumbers.distinct⟩
  have hfor : forEntries ref () (fun _ entry ↦ do
      let value ← op.dispatch1 (fuel + 1) entry.value
      setEntry out entry.key value) m.withTable = .ok () n := by
    rw [forEntries_eq (I := m.Stepped target) (fun k hk ↦ hk.table ref horderly.table)
      horderly.inOrder.length_entries ?_ (Machine.Stepped.start m target).withTable, hwalk]
    intro entry hentry _ k _ k' hk hstep
    obtain ⟨value, stepped, hvalue, hset⟩ := Run.bind_eq_ok_iff.mp hstep
    cases hset
    have hreached : m.Steppable target entry.value :=
      .inr (.single ⟨ref, hobject, List.mem_map_of_mem hentry⟩)
    have hends := h.dispatch1 (fuel + 1) hreached k hk
    rw [hvalue] at hends
    cases hends with
    | ok hstepped hsteppable => exact hstepped.enter (Nat.le_refl _) hsteppable entry.key
  have hnumber : op.unaryRule? (m.typeName target) = none := by
    obtain ⟨answersFormer, hactions⟩ := h
    rw [unaryRule?_of_actions hactions]
    unfold Machine.typeName
    rw [hobject]
    exact if_neg (by decide : ¬isType "object" "number" = true)
  have hmade : newObject out n = .ok ⟨n.cells.size⟩ (n.withCell (.object out)) := rfl
  refine ⟨⟨n.cells.size⟩, n.withCell (.object out), ?_, ?_⟩
  · rw [Operator.dispatch1, Run.get_bind, hnumber, Machine.tableOf?_eq_some_iff.mpr hobject]
    dsimp only
    unfold mapValues
    rw [Run.bind_ok hcreated, Run.bind_ok hfor, hmade]
  · have hkept := Machine.keepsCells_withCell n (.object out)
    have hstays (cell : CellRef) (hcell : cell.index < m.cells.size) :
        (n.withCell (.object out)).content cell = n.content cell :=
      hkept.content cell (Nat.lt_of_lt_of_le hcell hraises.size)
    refine ⟨Nat.le_trans hraises.size hkept.size, fun cell hcell d hd ↦ ?_,
      fun cell hcell hother ↦ (hstays cell hcell).trans (hraises.kept cell hcell hother)⟩
    rw [hstays cell (Machine.bound_of_number hd)]
    exact hraises.number cell hcell d hd

end Operator.Steps

/-! ### Expressions that step -/

namespace Operator

/-- Where an operator that steps numbers stands. -/
def beside : List Fixity := [.prefixOp, .postfixOp]

theorem exists_stepping : ∀ symbol ∈ stepping, ∀ fixity ∈ beside,
    ∃ op ∈ standardOperators, op.symbol = symbol ∧ op.fixity = fixity := by
  decide

theorem arity_of_beside {op : Operator} (h : op.fixity ∈ beside) : op.arity = 1 := by
  unfold Operator.arity
  rcases List.mem_pair.mp h with h | h <;> exact h ▸ rfl

/-- To apply an operator of the table that steps numbers is to take its only action. -/
theorem evaluate_eq_dispatch1 {op : Operator} (hop : op ∈ standardOperators)
    (hsymbol : op.symbol ∈ stepping) (hfixity : op.fixity ∈ beside) (call : Call)
    (target : CellRef) :
    standard.evaluate call op.symbol op.fixity [target] = op.dispatch1 call.fuel target := by
  have harity : ¬[target].length ≠ op.arity := not_not_intro (arity_of_beside hfixity).symm
  have hactions : op.actions.isEmpty = false := by
    obtain ⟨answersFormer, hactions⟩ := steps_of_stepping op hop hsymbol
    rw [hactions]
    rfl
  unfold OperatorTable.evaluate
  rw [find?_standard hop]
  dsimp only
  unfold Operator.evaluate
  rw [if_neg harity, hactions, if_neg Bool.false_ne_true]

/-- How the operand is evaluated: in front of a variable the operator makes it a new cell. -/
def operandMode (fixity : Fixity) : Mode :=
  if fixity == .prefixOp then .createNew else .required

end Operator

namespace Interp

variable {interp : Interp} {site : Site} {symbol : String} {fixity : Fixity} {operand : Node}
  {m found : Machine} {target : CellRef}

/-- `++` and `--` are applied to the operand once it has been evaluated. -/
theorem operation_stepping (hsymbol : symbol ∈ Operator.stepping)
    (hfixity : fixity ∈ Operator.beside) :
    interp.operation site symbol fixity [operand] = (do
      let target ← interp.value site operand (Operator.operandMode fixity)
      interp.applyOperator site symbol fixity [target]) := by
  obtain ⟨op, hop, rfl, rfl⟩ := Operator.exists_stepping symbol hsymbol fixity hfixity
  have hfound := Operator.find?_standard hop
  have harity : ¬[operand].length ≠ op.arity :=
    not_not_intro (Operator.arity_of_beside hfixity).symm
  have hmode : (if (op.fixity == .prefixOp && (op.symbol == "++" || op.symbol == "--")) = true
      then Mode.createNew else .required) = Operator.operandMode op.fixity := by
    unfold Operator.operandMode
    rcases List.mem_pair.mp hsymbol with h | h <;> rw [h] <;> cases op.fixity == .prefixOp <;> rfl
  unfold operation
  rw [hfound]
  dsimp only
  rw [if_neg harity]
  rcases List.mem_pair.mp hfixity with h | h <;>
  · rw [h] at hmode ⊢
    dsimp only
    rw [hmode, List.mapM_cons, List.mapM_nil]
    simp only [bind_assoc, pure_bind]

/-- Assumes: an expression with `++` or `--` the operand of which has been evaluated. However the
evaluation of the expression ends, the cells that were there then hold what they held, apart from
numbers that could be reached from the operand. -/
theorem operation_stepped (hsymbol : symbol ∈ Operator.stepping)
    (hfixity : fixity ∈ Operator.beside)
    (hoperand : interp.value site operand (Operator.operandMode fixity) m = .ok target found) :
    found.Stepped target (Outcome.final (interp.operation site symbol fixity [operand] m)) := by
  have hkeeps : Maintains (found.Stepped target) (found.Steppable target)
      (interp.applyOperator site symbol fixity [target]) :=
    .get_bind fun n _ ↦
      Indifferent.traced site _ (Operator.evaluate_stepping hsymbol _ fixity found target)
  rw [operation_stepping hsymbol hfixity, Run.bind_ok hoperand]
  exact hkeeps.final (.start found target)

/-- Assumes: an operator of the table that steps what it is applied to, with the fuel there is. The
interpreter applies it so. -/
theorem applyOperator_stepping {op : Operator} {result : CellRef} {last : Machine}
    (hop : op ∈ Operator.standardOperators) (hsymbol : op.symbol ∈ Operator.stepping)
    (hfixity : op.fixity ∈ Operator.beside)
    (hstepped : op.dispatch1 interp.fuel target found = .ok result last) :
    interp.applyOperator site op.symbol op.fixity [target] found = .ok result last := by
  unfold applyOperator callFrom
  rw [bind_assoc, Run.get_bind]
  refine Run.traced_ok site .typeMismatch ?_
  rw [Operator.evaluate_eq_dispatch1 hop hsymbol hfixity]
  exact hstepped

/-- Assumes: an expression with `++` or `--` the operand of which has given a number. It adds to the
number, in place, and in front of the operand it gives the cell of the number. -/
theorem operation_raises_number {d : Decimal} (hsymbol : symbol ∈ Operator.stepping)
    (hfixity : fixity ∈ Operator.beside) (hfuel : 1 ≤ interp.fuel)
    (hoperand : interp.value site operand (Operator.operandMode fixity) m = .ok target found)
    (hnumber : found.content target = .number d) :
    interp.operation site symbol fixity [operand] m =
      .ok (if fixity == .postfixOp then ⟨found.cells.size⟩ else target)
        ((found.withCell (.number d)).after
          (.overwrite target (.number (d + Decimal.ofInt (Operator.delta symbol))))) := by
  obtain ⟨op, hop, rfl, rfl⟩ := Operator.exists_stepping symbol hsymbol fixity hfixity
  obtain ⟨fuel, hfuel⟩ := Nat.exists_eq_add_of_le' hfuel
  have hstepped := Operator.dispatch1_number_of_actions
    (Operator.actions_of_stepping op hop hsymbol) fuel hnumber
  rw [← hfuel] at hstepped
  rw [operation_stepping hsymbol hfixity, Run.bind_ok hoperand]
  exact applyOperator_stepping hop hsymbol hfixity hstepped

/-- Assumes: an expression with `++` or `--` the operand of which has given an object of numbers in
different cells. It adds to each of them, in place. -/
theorem operation_raises {ref : TableRef} (hsymbol : symbol ∈ Operator.stepping)
    (hfixity : fixity ∈ Operator.beside) (hfuel : 2 ≤ interp.fuel)
    (hoperand : interp.value site operand (Operator.operandMode fixity) m = .ok target found)
    (hobject : found.content target = .object ref) (horderly : found.Orderly ref)
    (hnumbers : found.HoldNumbers (found.table ref).values) :
    ∃ result last, interp.operation site symbol fixity [operand] m = .ok result last ∧
      found.Raises (found.table ref).values (Operator.delta symbol) last := by
  obtain ⟨op, hop, rfl, rfl⟩ := Operator.exists_stepping symbol hsymbol fixity hfixity
  obtain ⟨fuel, hfuel⟩ := Nat.exists_eq_add_of_le' hfuel
  obtain ⟨result, last, hstepped, hraises⟩ :=
    (Operator.steps_of_stepping op hop hsymbol).dispatch1_object fuel hobject horderly hnumbers
  rw [← hfuel] at hstepped
  refine ⟨result, last, ?_, hraises⟩
  rw [operation_stepping hsymbol hfixity, Run.bind_ok hoperand]
  exact applyOperator_stepping hop hsymbol hfixity hstepped

end Interp

end TreeScript
