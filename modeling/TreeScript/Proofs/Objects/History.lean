import TreeScript.Proofs.Comparison.Twins
import TreeScript.Proofs.Objects.Table

/-!
# The history of an object

Every evaluation and every call evolves its machine: whatever it does to cells and objects it does
one change at a time (`evaluation_evolves`, `call_evolves`). So what a single change keeps is kept
by all programs whose history has only such changes. A cell holds what it holds until it is
overwritten (`Machine.Evolves.content`). What a key of an object leads to stays while other keys are
entered and removed, provided that the object is in order when this happens
(`Machine.Evolves.get?`). And an object that is in order stays so as long as no cell that serves as
one of its keys is overwritten with another key (`Machine.Evolves.orderly`).
-/

set_option autoImplicit false

namespace TreeScript

/-! ### Evaluation -/

/-- Runs of which the changes of cells and tables are followed. -/
def Tracking.evolving : Tracking where
  Inv _ := True
  Later := Machine.Evolved
  Sites _ s s' := s.Alike s'
  avoided _ := false
  later_refl := .refl
  later_trans := .trans
  inv_later _ _ := trivial
  sites_later _ h := h
  sites_alike h := h
  untouched _ _ h := h
  withScope _ _ := .elsewhere rfl rfl
  sites_fork := Tracking.nothing.sites_fork
  sites_open _ trace' _ _ _ := .retraced trace'
  bound _ _ _ _ hnew := .trans hnew.evolved (.elsewhere rfl rfl)
  boundReceiver _ _ _ := .elsewhere rfl rfl
  rebound _ _ _ _ hnew := .trans hnew.evolved (.elsewhere rfl rfl)
  unbound _ _ _ _ := .elsewhere rfl rfl
  lastSite := Tracking.nothing.lastSite

theorem evaluates_evolving (n : Nat) : Tracking.evolving.comparison.Evaluates (interp n) := by
  rw [← interpAvoiding_nothing n]
  exact Tracking.evolving.comparison.evaluates_interpAvoiding n

/-- However an evaluation ends, it has changed cells and tables one change at a time. -/
theorem evaluation_evolves (n : Nat) (site : Site) (mode : Mode) (node : Node) (m : Machine) :
    m.Evolved (Outcome.final ((interp n).eval site mode node m)) := by
  have hsites : Tracking.evolving.comparison.Sites m site site := .retraced site.frame.trace
  have hsame := (evaluates_evolving n).eval mode node hsites
  exact (hsame.now ⟨.refl m, trivial⟩).later

/-- However a call ends, it has changed cells and tables one change at a time. -/
theorem call_evolves (n : Nat) (site : Site) (name : String) (preparation : Preparation)
    (function : CellRef) (args : List CellRef) (m : Machine) :
    m.Evolved (Outcome.final ((interp n).call site name preparation function args m)) := by
  have hsites : Tracking.evolving.comparison.Sites m site site := .retraced site.frame.trace
  have hsame := (evaluates_evolving n).call name preparation function args hsites
  exact (hsame.now ⟨.refl m, trivial⟩).later

/-! ### What a cell holds -/

/-- A change that overwrites a cell. -/
def Change.Overwrites (cell : CellRef) : Change → Prop
  | .overwrite target _ => target = cell
  | _ => False

namespace Machine

variable {m n : Machine} {history : List (Machine × Change)}

/-- A change adds no cells and no tables. -/
theorem size_after (m : Machine) (c : Change) :
    (m.after c).cells.size = m.cells.size ∧ (m.after c).tables.size = m.tables.size := by
  cases c with
  | overwrite cell content => exact ⟨Array.size_setIfInBounds, rfl⟩
  | enter target key value => exact ⟨rfl, Array.size_modify⟩
  | remove target key => exact ⟨rfl, Array.size_modify⟩

/-- No cell gets lost. -/
theorem Evolves.size (h : m.Evolves history n) : m.cells.size ≤ n.cells.size := by
  induction h with
  | elsewhere hcells htables => exact Nat.le_of_eq (congrArg Array.size hcells.symm)
  | cell m content =>
    exact Nat.le_of_lt (size_lt_push _ _)
  | table m => exact Nat.le_refl _
  | change m c => exact Nat.le_of_eq (size_after m c).1.symm
  | trans hfirst hsecond ihfirst ihsecond => exact Nat.le_trans ihfirst ihsecond

/-- A change other than overwriting a cell leaves the cell what it holds. -/
theorem content_after {cell : CellRef} {c : Change} (hkept : ¬c.Overwrites cell) :
    (m.after c).content cell = m.content cell := by
  cases c with
  | overwrite target content =>
    have hother : ¬(target.index = cell.index ∧ cell.index < m.cells.size) := by
      rintro ⟨hsame, -⟩
      refine hkept ?_
      cases target
      cases cell
      exact congrArg CellRef.mk hsame
    rw [Machine.content_overwrite, if_neg hother]
  | enter target key value => rfl
  | remove target key => rfl

/-- A cell holds what it holds until it is overwritten. -/
theorem Evolves.content {cell : CellRef} (h : m.Evolves history n)
    (hkept : ∀ p ∈ history, ¬p.2.Overwrites cell) (hcell : cell.index < m.cells.size) :
    n.content cell = m.content cell := by
  induction h with
  | elsewhere hcells htables => exact content_congr hcells cell
  | cell m content => rw [Machine.content_old hcell]
  | table m => rfl
  | change m c => exact content_after (hkept _ (List.mem_singleton_self _))
  | trans hfirst hsecond ihfirst ihsecond =>
    rw [ihsecond (fun p hp ↦ hkept p (List.mem_append_right _ hp))
      (Nat.lt_of_lt_of_le hcell hfirst.size)]
    exact ihfirst (fun p hp ↦ hkept p (List.mem_append_left _ hp)) hcell

end Machine

/-! ### What a key leads to -/

/-- A change leaves alone what a key of an object leads to: cells may be overwritten, and other keys
entered or removed while the object is in order. -/
def Change.Spares (ref : TableRef) (id : KeyId) (m : Machine) : Change → Prop
  | .overwrite .. => True
  | .enter target key _ | .remove target key =>
    target = ref → (m.table ref).InOrder m.keyId ∧ m.keyId key ≠ id

namespace Machine

variable {m n : Machine} {ref : TableRef} {id : KeyId} {cell : CellRef}
  {history : List (Machine × Change)}

/-- An object in which something is found exists. -/
theorem table_exists (hfound : (m.table ref).get? id = some cell) :
    ref.index < m.tables.size := by
  refine Nat.lt_of_not_le fun hnone ↦ ?_
  rw [table_of_missing hnone, Table.get?_empty] at hfound
  cases hfound

/-- A change that spares a key keeps what it leads to. -/
theorem get?_after {c : Change} (hfound : (m.table ref).get? id = some cell)
    (hspares : c.Spares ref id m) : ((m.after c).table ref).get? id = some cell := by
  rw [table_after m c (table_exists hfound)]
  cases c with
  | overwrite target content => exact hfound
  | enter target key value =>
    unfold Change.onTable
    dsimp only
    split
    · rename_i hsame
      obtain ⟨horder, hother⟩ := hspares hsame
      rwa [horder.get?_set key value hother.symm]
    · exact hfound
  | remove target key =>
    unfold Change.onTable
    dsimp only
    split
    · rename_i hsame
      obtain ⟨horder, hother⟩ := hspares hsame
      rwa [horder.get?_erase hother.symm]
    · exact hfound

/-- What a key leads to stays as long as all changes spare the key. -/
theorem Evolves.get? (h : m.Evolves history n) (hspares : ∀ p ∈ history, p.2.Spares ref id p.1)
    (hfound : (m.table ref).get? id = some cell) : (n.table ref).get? id = some cell := by
  induction h with
  | elsewhere hcells htables =>
    rw [table_congr htables]
    exact hfound
  | cell m content => exact hfound
  | table m => rwa [table_withTable]
  | change m c => exact get?_after hfound (hspares _ (List.mem_singleton_self _))
  | trans hfirst hsecond ihfirst ihsecond =>
    refine ihsecond (fun p hp ↦ hspares p (List.mem_append_right _ hp)) (ihfirst ?_ hfound)
    exact fun p hp ↦ hspares p (List.mem_append_left _ hp)

end Machine

/-! ### Order -/

/-- A change leaves the keys of an object what they are: no cell that serves as a key is overwritten
with another key. Only cells that exist are entered as keys. -/
def Change.KeepsKeys (ref : TableRef) (m : Machine) : Change → Prop
  | .overwrite cell content => cell ∈ (m.table ref).keys → content.keyId = m.keyId cell
  | .enter target key _ => target = ref → key.index < m.cells.size
  | .remove .. => True

namespace Machine

/-- An object that exists, with cells for all of its keys, the table of which is in order. -/
structure Orderly (m : Machine) (ref : TableRef) : Prop where
  table : ref.index < m.tables.size
  keys : ∀ entry ∈ (m.table ref).entries, entry.key.index < m.cells.size
  inOrder : (m.table ref).InOrder m.keyId

variable {m n : Machine} {ref : TableRef} {history : List (Machine × Change)}

/-- An object without entries is in order. -/
theorem orderly_of_empty (hexists : ref.index < m.tables.size) (htable : m.table ref = {}) :
    m.Orderly ref := by
  refine ⟨hexists, fun entry hentry ↦ ?_, ?_⟩
  · rw [htable] at hentry
    cases hentry
  · rw [htable]
    exact Table.inOrder_empty _

/-- An object stays in order if its keys remain what they are. -/
theorem Orderly.congr (h : m.Orderly ref) (htables : n.tables = m.tables)
    (hcells : m.cells.size ≤ n.cells.size)
    (hkeys : ∀ entry ∈ (m.table ref).entries, n.keyId entry.key = m.keyId entry.key) :
    n.Orderly ref := by
  have htable : n.table ref = m.table ref := table_congr htables ref
  refine ⟨htables ▸ h.table, fun entry hentry ↦ ?_, ?_⟩
  · rw [htable] at hentry
    exact Nat.lt_of_lt_of_le (h.keys entry hentry) hcells
  · rw [htable]
    exact h.inOrder.congr hkeys

/-- Whether an object is in order depends neither on the stack traces nor on the log. -/
theorem Orderly.unwound (h : m.Orderly ref) (hn : m.Unwound n) : n.Orderly ref := by
  rw [← hn]
  exact ⟨h.table, h.keys, h.inOrder⟩

/-- No change of a table breaks its order by itself. -/
theorem Orderly.onTable (h : m.Orderly ref) (c : Change) :
    (c.onTable m ref (m.table ref)).InOrder m.keyId := by
  cases c with
  | overwrite cell content => exact h.inOrder
  | enter target key value =>
    unfold Change.onTable
    dsimp only
    split
    · exact h.inOrder.set key value
    · exact h.inOrder
  | remove target key =>
    unfold Change.onTable
    dsimp only
    split
    · exact h.inOrder.erase _
    · exact h.inOrder

/-- Only cells that exist become keys. -/
theorem Orderly.keys_onTable (h : m.Orderly ref) {c : Change} (hkeeps : c.KeepsKeys ref m) :
    ∀ entry ∈ (c.onTable m ref (m.table ref)).entries, entry.key.index < m.cells.size := by
  intro entry hentry
  cases c with
  | overwrite cell content => exact h.keys entry hentry
  | enter target key value =>
    unfold Change.onTable at hentry
    dsimp only at hentry
    split at hentry
    · rename_i hsame
      rcases h.inOrder.key_of_set hentry with hkey | ⟨former, hformer, hkey⟩
      · rw [hkey]
        exact hkeeps hsame
      · rw [← hkey]
        exact h.keys former hformer
    · exact h.keys entry hentry
  | remove target key =>
    unfold Change.onTable at hentry
    dsimp only at hentry
    split at hentry
    · exact h.keys entry (h.inOrder.mem_of_mem_erase hentry)
    · exact h.keys entry hentry

/-- A change that leaves the keys of an object what they are does not change what they are told
apart by. -/
theorem keyId_after {c : Change} (hkeeps : c.KeepsKeys ref m) :
    ∀ entry ∈ (c.onTable m ref (m.table ref)).entries,
      (m.after c).keyId entry.key = m.keyId entry.key := by
  intro entry hentry
  cases c with
  | overwrite cell content =>
    change (Machine.content _ _).keyId = _
    rw [Machine.content_overwrite]
    split
    · rename_i hsame
      have hkey : cell = entry.key := by
        cases hcell : cell
        cases hother : entry.key
        rw [hcell, hother] at hsame
        exact congrArg CellRef.mk hsame.1
      rw [← hkey]
      exact hkeeps (hkey ▸ List.mem_map_of_mem hentry)
    · rfl
  | enter target key value => rfl
  | remove target key => rfl

/-- A change that leaves the keys of an object what they are keeps the object in order. -/
theorem Orderly.after (h : m.Orderly ref) {c : Change} (hkeeps : c.KeepsKeys ref m) :
    (m.after c).Orderly ref := by
  obtain ⟨hcells, htables⟩ := size_after m c
  have htable := table_after m c h.table
  refine ⟨?_, ?_, ?_⟩
  · rw [htables]
    exact h.table
  · rw [htable, hcells]
    exact h.keys_onTable hkeeps
  · rw [htable]
    exact (h.onTable c).congr (keyId_after hkeeps)

theorem Orderly.table_enter (h : m.Orderly ref) (key value : CellRef) :
    (m.after (.enter ref key value)).table ref = (m.table ref).set (m.keyId key) key value := by
  rw [table_after _ _ h.table]
  exact if_pos rfl

/-- What is entered under a key of an object in order is what the key leads to, and the other keys
lead where they led. -/
theorem Orderly.get?_enter (h : m.Orderly ref) (key value : CellRef) (id : KeyId) :
    ((m.after (.enter ref key value)).table ref).get? id =
      if id = m.keyId key then some value else (m.table ref).get? id := by
  rw [h.table_enter]
  split
  · rename_i hsame
    rw [hsame]
    exact h.inOrder.get?_set_self _ key value
  · rename_i hother
    exact h.inOrder.get?_set key value hother

/-- Assumes: an object that is in order, and a key it does not have. Once the key is entered, the
object is still in order, and the cell of the key is one of its keys. -/
theorem Orderly.enter (h : m.Orderly ref) {key : CellRef} (hnew : m.lookUp ref key = none)
    (hbound : key.index < m.cells.size) (value : CellRef) :
    (m.after (.enter ref key value)).Orderly ref ∧
      key ∈ ((m.after (.enter ref key value)).table ref).keys := by
  refine ⟨h.after fun _ ↦ hbound, ?_⟩
  rw [h.table_enter]
  exact h.inOrder.mem_keys_set hnew key value

/-- A cell more leaves an object in order. -/
theorem Orderly.withCell (h : m.Orderly ref) (content : Content) :
    (m.withCell content).Orderly ref := by
  refine h.congr rfl (Nat.le_of_lt ?_) fun entry hentry ↦ ?_
  · exact size_lt_push _ _
  · unfold Machine.keyId
    rw [Machine.content_old (h.keys entry hentry)]

/-- A table more leaves an object in order. -/
theorem Orderly.withTable (h : m.Orderly ref) : m.withTable.Orderly ref := by
  refine ⟨?_, fun entry hentry ↦ ?_, ?_⟩
  · exact Nat.lt_of_lt_of_eq (Nat.lt_succ_of_lt h.table) (Array.size_push _).symm
  · rw [table_withTable] at hentry
    exact h.keys entry hentry
  · rw [table_withTable]
    exact h.inOrder

/-- A new object is in order. -/
theorem orderly_newTable (m : Machine) : m.withTable.Orderly ⟨m.tables.size⟩ := by
  refine orderly_of_empty (size_lt_push _ _) ?_
  rw [table_new]

/-- An object stays in order as long as its keys are left what they are. -/
theorem Evolves.orderly (h : m.Evolves history n) (hkeeps : ∀ p ∈ history, p.2.KeepsKeys ref p.1)
    (horderly : m.Orderly ref) : n.Orderly ref := by
  induction h with
  | elsewhere hcells htables =>
    refine horderly.congr htables (Nat.le_of_eq (by rw [hcells])) fun entry _ ↦ ?_
    rw [Machine.keyId, content_congr hcells]
    rfl
  | cell m content => exact horderly.withCell content
  | table m => exact horderly.withTable
  | change m c => exact horderly.after (hkeeps _ (List.mem_singleton_self _))
  | trans hfirst hsecond ihfirst ihsecond =>
    refine ihsecond (fun p hp ↦ hkeeps p (List.mem_append_right _ hp)) (ihfirst ?_ horderly)
    exact fun p hp ↦ hkeeps p (List.mem_append_left _ hp)

end Machine

end TreeScript
