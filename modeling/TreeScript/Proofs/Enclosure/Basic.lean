import TreeScript.Proofs.Invariant
import TreeScript.Proofs.Call
import TreeScript.Proofs.Comparison.Store
import TreeScript.Proofs.Objects.Entries
import TreeScript.Session.Source

/-!
# Enclosures

An enclosure sets a part of an interpreter apart: some of its cells, objects, iterators, scopes and
sources, and the natives that only they may hold. Everything else is open. On a machine that respects
an enclosure (`Enclosure.Holds`) nothing open mentions anything enclosed: an open cell holds no
enclosed native, object or iterator and no closure from inside, and what the open objects, scopes and
iterators and the instances mention are open cells. What was enclosed exists already, so what is new
is open; and since nobody outside can get at it, it stays as it was. The open sources import nothing
from inside, and they neither declare a module of an enclosed name nor are named so themselves, which
keeps them from naming the enclosed natives in a declaration.

`Holds` speaks of no stack trace and nothing that has been written (`indifferent`). The lemmas on
`Holds` follow the ways in which the store changes: a cell, table, scope, iterator or instance is
added or overwritten.
-/

set_option autoImplicit false

namespace TreeScript

/-- What is enclosed of an interpreter, and how many sources the interpreter has. -/
structure Enclosure where
  /-- The names of the modules that are enclosed. -/
  module : String → Prop
  cell : CellRef → Prop
  table : TableRef → Prop
  iterator : IteratorRef → Prop
  scope : ScopeRef → Prop
  context : ContextRef → Prop
  native : Native → Prop
  sources : Nat
  /-- The machine on which it was enclosed. -/
  base : Machine
  /-- Operators can be had everywhere. -/
  operator : ∀ symbol fixity, ¬native (.operator symbol fixity)
  /-- Where there are sources inside, a host function that calls back into the source loaded last
  cannot be had outside. -/
  bare : native (.host .bare) ∨ ∀ ref, ¬context ref

namespace Enclosure

variable (K : Enclosure)

/-! ### What is open -/

def OpenCell (cell : CellRef) : Prop := ¬K.cell cell

def OpenCells (cells : List CellRef) : Prop := ∀ cell ∈ cells, K.OpenCell cell

/-- A cell, where there is one. -/
def OpenFound (found : Option CellRef) : Prop := ∀ cell ∈ found, K.OpenCell cell

def OpenObject (ref : TableRef) : Prop := ¬K.table ref

def OpenIterator (ref : IteratorRef) : Prop := ¬K.iterator ref

def OpenBindings (scope : Scope) : Prop :=
  ∀ (name : String) (cell : CellRef), scope[name]? = some cell → K.OpenCell cell

def OpenContext (ref : ContextRef) : Prop := ¬K.context ref ∧ ref.index < K.sources

def OpenFrame (frame : Frame) : Prop := ∀ ref ∈ frame.scopes, ¬K.scope ref

structure OpenSite (site : Site) : Prop where
  context : K.OpenContext site.context
  frame : K.OpenFrame site.frame

/-- A content that mentions nothing enclosed. -/
def OpenContent : Content → Prop
  | .function _ closure => K.OpenContext closure.context ∧ K.OpenFrame closure.frame
  | .method _ _ receiver | .hostMethod _ _ receiver => K.OpenCell receiver
  | .native _ function => ¬K.native function
  | .object ref => K.OpenObject ref
  | .iterator ref => K.OpenIterator ref
  | _ => True

structure OpenEntry (entry : Entry) : Prop where
  key : K.OpenCell entry.key
  value : K.OpenCell entry.value

def OpenSlots (slots : Array Entry) : Prop :=
  ∀ (i : Nat) (entry : Entry), slots[i]? = some entry → K.OpenEntry entry

/-- A table none of whose blocks mentions an enclosed cell. -/
structure OpenTable (table : Table) : Prop where
  slots : K.OpenSlots table.slots
  retired : ∀ block ∈ table.retired, K.OpenSlots block
  size : table.size ≤ table.slots.size

def OpenInstance : Instance → Prop
  | .vector _ x y z => K.OpenCell x ∧ K.OpenCell y ∧ K.OpenFound z
  | _ => True

/-- A source from which nothing enclosed can be reached. -/
structure OpenSource (source : Context) : Prop where
  globals : ¬K.scope source.globals
  target : ∀ i ∈ source.imports, ∀ ref ∈ i.target, K.OpenContext ref.context
  imports : ∀ i ∈ source.imports, ¬K.module i.name
  modules : ∀ module ∈ source.modules, ¬K.module module.name
  name : ¬K.module source.source

/-- A source that has been run, and that declares enclosed modules at most. -/
structure Settled (source : Context) : Prop where
  evaluated : source.evaluated = true
  modules : ∀ module ∈ source.modules, K.module module.name

/-- The automatic imports bring in nothing of a module. -/
def ImportsNothing (module : String) (automatic : List String) : Prop :=
  ∀ text ∈ automatic, ∀ i, Import.parse text = .ok i → i.name ≠ module

/-- Nothing open mentions anything enclosed, and what is enclosed is as it was. -/
structure Holds (m : Machine) : Prop where
  cells : ∀ cell, K.cell cell → cell.index < m.cells.size
  tables : ∀ ref, K.table ref → ref.index < m.tables.size
  iterators : ∀ ref, K.iterator ref → ref.index < m.iterators.size
  scopes : ∀ ref, K.scope ref → ref.index < m.scopes.size
  content : ∀ cell, K.OpenCell cell → K.OpenContent (m.content cell)
  table : ∀ ref, K.OpenObject ref → K.OpenTable (m.table ref)
  bindings : ∀ ref, ¬K.scope ref → K.OpenBindings (m.scope ref)
  remaining : ∀ ref, K.OpenIterator ref → K.OpenCells (m.remaining ref)
  sameContent : ∀ cell, K.cell cell → m.content cell = K.base.content cell
  sameTable : ∀ ref, K.table ref → m.table ref = K.base.table ref
  sameRemaining : ∀ ref, K.iterator ref → m.remaining ref = K.base.remaining ref
  instanceOf : ∀ ref, K.OpenInstance (m.instanceOf ref)
  sources : m.contexts.size = K.sources
  source : ∀ ref, K.OpenContext ref → K.OpenSource (m.context ref)
  settled : ∀ ref, K.context ref → K.Settled (m.context ref)
  loaded : ∀ ref ∈ m.loaded, ref.index < K.sources
  natives : ∀ binding ∈ m.natives, ¬K.module binding.module → ¬K.native binding.function
  registered : ∀ binding ∈ m.natives, K.module binding.module → K.native binding.function
  forbidden : ∀ name, K.module name → name ∈ m.options.forbiddenImports
  automatic : ∀ name, K.module name → ImportsNothing name m.options.autoImports

/-- A computation that keeps an enclosure and gives an open cell. -/
abbrev Gives (x : Run CellRef) : Prop := Maintains K.Holds K.OpenCell x

variable {K} {m : Machine}

/-! ### Lists, scopes and frames -/

theorem openCells_nil : K.OpenCells [] := fun _ h ↦ nomatch h

theorem OpenCells.cons {cell : CellRef} {cells : List CellRef} (hcell : K.OpenCell cell)
    (hcells : K.OpenCells cells) : K.OpenCells (cell :: cells) :=
  List.forall_mem_cons.mpr ⟨hcell, hcells⟩

theorem OpenCells.get? {cells : List CellRef} (h : K.OpenCells cells) (i : Nat) :
    K.OpenFound cells[i]? :=
  fun cell hcell ↦ h cell (List.mem_of_getElem? hcell)

theorem openBindings_empty : K.OpenBindings {} := by
  intro name cell h
  rw [Std.TreeMap.getElem?_emptyc] at h
  cases h

theorem OpenBindings.insert {scope : Scope} (h : K.OpenBindings scope) (name : String)
    {cell : CellRef} (hcell : K.OpenCell cell) : K.OpenBindings (scope.insert name cell) := by
  intro other found hfound
  rw [Std.TreeMap.getElem?_insert] at hfound
  split at hfound
  · cases hfound
    exact hcell
  · exact h other found hfound

theorem OpenBindings.erase {scope : Scope} (h : K.OpenBindings scope) (name : String) :
    K.OpenBindings (scope.erase name) := by
  intro other found hfound
  rw [Std.TreeMap.getElem?_erase] at hfound
  split at hfound
  · cases hfound
  · exact h other found hfound

theorem OpenBindings.overlay {base inner : Scope} (hbase : K.OpenBindings base)
    (hinner : K.OpenBindings inner) : K.OpenBindings (base.overlay inner) := by
  intro name cell h
  rw [Scope.getElem?_overlay] at h
  cases hfound : inner[name]? with
  | some other =>
    rw [hfound, Option.some_or] at h
    cases h
    exact hinner name cell hfound
  | none =>
    rw [hfound, Option.none_or] at h
    exact hbase name cell h

theorem OpenBindings.insertAll {scope : Scope} (h : K.OpenBindings scope) {names : List String}
    {cells : List CellRef} (hcells : K.OpenCells cells) :
    K.OpenBindings ((names.zip cells).foldl (fun acc (name, cell) ↦ acc.insert name cell) scope) := by
  induction names generalizing cells scope with
  | nil => exact h
  | cons name names ih =>
    cases cells with
    | nil => exact h
    | cons cell cells =>
      obtain ⟨hcell, hrest⟩ := List.forall_mem_cons.mp hcells
      exact ih (h.insert name hcell) hrest

theorem OpenBindings.mem_toList {scope : Scope} (h : K.OpenBindings scope) {name : String}
    {cell : CellRef} (hmem : (name, cell) ∈ scope.toList) : K.OpenCell cell :=
  h name cell (Std.TreeMap.mem_toList_iff_getElem?_eq_some.mp hmem)

/-- The frame of an open source is open. -/
theorem OpenSource.frame {source : Context} (h : K.OpenSource source) :
    K.OpenFrame source.frame := by
  intro ref hmem
  rw [List.mem_singleton.mp hmem]
  exact h.globals

/-! ### Tables -/

theorem openTable_empty : K.OpenTable {} where
  slots i entry h := by simp at h
  retired block h := by simp at h
  size := Nat.le_refl _

theorem OpenSlots.push {slots : Array Entry} (h : K.OpenSlots slots) {entry : Entry}
    (hentry : K.OpenEntry entry) : K.OpenSlots (slots.push entry) := by
  intro i found hfound
  rw [Array.getElem?_push] at hfound
  split at hfound
  · cases hfound
    exact hentry
  · exact h i found hfound

theorem OpenSlots.set {slots : Array Entry} (h : K.OpenSlots slots) (j : Nat) {entry : Entry}
    (hentry : K.OpenEntry entry) : K.OpenSlots (slots.setIfInBounds j entry) := by
  intro i found hfound
  rw [Array.getElem?_setIfInBounds] at hfound
  split at hfound
  · split at hfound
    · cases hfound
      exact hentry
    · cases hfound
  · exact h i found hfound

theorem OpenSlots.take {slots : Array Entry} (h : K.OpenSlots slots) (n : Nat) :
    K.OpenSlots (slots.take n) := by
  intro i found hfound
  rw [Array.take_eq_extract, Array.getElem?_extract, Nat.zero_add] at hfound
  split at hfound
  · exact h i found hfound
  · cases hfound

theorem OpenSlots.modifyValue {slots : Array Entry} (h : K.OpenSlots slots) (j : Nat)
    {value : CellRef} (hvalue : K.OpenCell value) :
    K.OpenSlots (slots.modify j fun entry ↦ { entry with value }) := by
  intro i found hfound
  rw [Array.getElem?_modify] at hfound
  split at hfound
  · obtain ⟨entry, hentry, rfl⟩ := Option.map_eq_some_iff.mp hfound
    exact ⟨(h i entry hentry).key, hvalue⟩
  · exact h i found hfound

/-- Assumes: that all places moved from exist. Moving entries down brings in no others. -/
theorem OpenSlots.shiftDown {slots : Array Entry} (h : K.OpenSlots slots) (start count : Nat)
    (hplaces : count = 0 ∨ start + count < slots.size) :
    K.OpenSlots (Table.shiftDown slots start count) := by
  have hrange : ∀ j ∈ List.range count, start + j + 1 < slots.size := by
    intro j hj
    have hcount := List.mem_range.mp hj
    omega
  unfold Table.shiftDown
  clear hplaces
  generalize List.range count = places at hrange
  induction places generalizing slots with
  | nil => exact h
  | cons j js ih =>
    have hplace := hrange j (List.mem_cons_self ..)
    rw [List.foldl_cons]
    refine ih (h.set _ ?_) fun k hk ↦ ?_
    · rw [Array.getElem?_eq_getElem hplace, Option.getD_some]
      exact h _ _ (Array.getElem?_eq_getElem hplace)
    · rw [Array.size_setIfInBounds]
      exact hrange k (List.mem_cons_of_mem _ hk)

namespace OpenTable

variable {table : Table}

theorem append (h : K.OpenTable table) {entry : Entry} (hentry : K.OpenEntry entry) :
    K.OpenTable (table.append entry) := by
  have hsize := h.size
  unfold Table.append
  split
  · split
    · rename_i hroom
      exact { h with
        slots := h.slots.set _ hentry
        size := by
          rwa [Array.size_setIfInBounds] }
    · exact { h with
        slots := h.slots.push hentry
        size := by
          rw [Array.size_push]
          exact Nat.succ_le_succ hsize }
  · refine ⟨(h.slots.take _).push hentry, fun block hblock ↦ ?_, ?_⟩
    · rcases Array.mem_push.mp hblock with hblock | rfl
      · exact h.retired block hblock
      · exact h.slots
    · rw [Array.size_push, Array.take_eq_extract, Array.size_extract]
      dsimp only
      omega

theorem set (h : K.OpenTable table) (id : KeyId) {key value : CellRef} (hkey : K.OpenCell key)
    (hvalue : K.OpenCell value) : K.OpenTable (table.set id key value) := by
  unfold Table.set
  split
  · exact { h with
      slots := h.slots.modifyValue _ hvalue
      size := by
        rw [Array.size_modify]
        exact h.size }
  · have hindexed : K.OpenTable { table with index := table.index.insert id table.size } :=
      { h with }
    exact hindexed.append ⟨hkey, hvalue⟩

theorem erase (h : K.OpenTable table) (idOf : CellRef → KeyId) (id : KeyId) :
    K.OpenTable (table.erase idOf id).1 ∧ K.OpenFound (table.erase idOf id).2 := by
  have hsize := h.size
  unfold Table.erase
  split
  · exact ⟨h, fun _ hfound ↦ nomatch hfound⟩
  · rename_i i _
    refine ⟨⟨h.slots.shiftDown i _ (by omega), h.retired, ?_⟩, fun cell hcell ↦ ?_⟩
    · rw [Table.size_shiftDown]
      dsimp only
      omega
    · obtain ⟨entry, hentry, rfl⟩ := Option.map_eq_some_iff.mp hcell
      exact (h.slots i entry hentry).value

theorem get? (h : K.OpenTable table) (id : KeyId) : K.OpenFound (table.get? id) := by
  intro cell hcell
  obtain ⟨i, -, hvalue⟩ := Option.bind_eq_some_iff.mp hcell
  obtain ⟨entry, hentry, rfl⟩ := Option.map_eq_some_iff.mp hvalue
  exact (h.slots i entry hentry).value

theorem entries (h : K.OpenTable table) : ∀ entry ∈ table.entries, K.OpenEntry entry := by
  intro entry hentry
  obtain ⟨i, hi⟩ := List.mem_iff_getElem?.mp hentry
  rw [Array.getElem?_toList] at hi
  exact h.slots.take _ i entry hi

theorem values (h : K.OpenTable table) : K.OpenCells table.values := by
  intro cell hcell
  obtain ⟨entry, hentry, rfl⟩ := List.mem_map.mp hcell
  exact (h.entries entry hentry).value

theorem entryAt (h : K.OpenTable table) (walk : Table.Walk) (i : Nat) {entry : Entry}
    (hentry : table.entryAt walk i = some entry) : K.OpenEntry entry := by
  unfold Table.entryAt at hentry
  split at hentry
  · exact h.slots i entry hentry
  · obtain ⟨block, hblock, hentry⟩ := Option.bind_eq_some_iff.mp hentry
    exact h.retired block (Array.mem_of_getElem? hblock) i entry hentry

end OpenTable

/-! ### More and less -/

/-- One enclosure sets apart what another one does, and perhaps more, in an interpreter with no more
sources. -/
structure Covers (K K' : Enclosure) : Prop where
  module : ∀ name, K'.module name → K.module name
  cell : ∀ cell, K'.cell cell → K.cell cell
  table : ∀ ref, K'.table ref → K.table ref
  iterator : ∀ ref, K'.iterator ref → K.iterator ref
  scope : ∀ ref, K'.scope ref → K.scope ref
  context : ∀ ref, K'.context ref → K.context ref
  native : ∀ function, K'.native function → K.native function
  sources : K.sources ≤ K'.sources

namespace Covers

variable {K' : Enclosure} (hcovers : K.Covers K')
include hcovers

theorem openCell {cell : CellRef} (h : K.OpenCell cell) : K'.OpenCell cell :=
  fun hcell ↦ h (hcovers.cell cell hcell)

theorem openCells {cells : List CellRef} (h : K.OpenCells cells) : K'.OpenCells cells :=
  fun cell hcell ↦ hcovers.openCell (h cell hcell)

theorem openBindings {scope : Scope} (h : K.OpenBindings scope) : K'.OpenBindings scope :=
  fun name cell hbound ↦ hcovers.openCell (h name cell hbound)

theorem openContext {ref : ContextRef} (h : K.OpenContext ref) : K'.OpenContext ref :=
  ⟨fun href ↦ h.1 (hcovers.context ref href), Nat.lt_of_lt_of_le h.2 hcovers.sources⟩

theorem openFrame {frame : Frame} (h : K.OpenFrame frame) : K'.OpenFrame frame :=
  fun ref hmem href ↦ h ref hmem (hcovers.scope ref href)

theorem openContent {c : Content} (h : K.OpenContent c) : K'.OpenContent c := by
  cases c with
  | function stamp closure => exact ⟨hcovers.openContext h.1, hcovers.openFrame h.2⟩
  | method | hostMethod => exact hcovers.openCell h
  | native stamp function => exact fun hnative ↦ h (hcovers.native function hnative)
  | object ref => exact fun href ↦ h (hcovers.table ref href)
  | iterator ref => exact fun href ↦ h (hcovers.iterator ref href)
  | _ => exact trivial

theorem openEntry {entry : Entry} (h : K.OpenEntry entry) : K'.OpenEntry entry :=
  ⟨hcovers.openCell h.key, hcovers.openCell h.value⟩

theorem openTable {table : Table} (h : K.OpenTable table) : K'.OpenTable table where
  slots i entry hentry := hcovers.openEntry (h.slots i entry hentry)
  retired block hblock i entry hentry := hcovers.openEntry (h.retired block hblock i entry hentry)
  size := h.size

theorem openInstance {value : Instance} (h : K.OpenInstance value) : K'.OpenInstance value := by
  cases value with
  | vector =>
    obtain ⟨hx, hy, hz⟩ := h
    exact ⟨hcovers.openCell hx, hcovers.openCell hy, fun cell hcell ↦ hcovers.openCell (hz cell hcell)⟩
  | odd | counted => exact trivial

theorem openSource {source : Context} (h : K.OpenSource source) : K'.OpenSource source where
  globals href := h.globals (hcovers.scope _ href)
  target i hi ref href := hcovers.openContext (h.target i hi ref href)
  imports i hi hnamed := h.imports i hi (hcovers.module _ hnamed)
  modules module hmodule hnamed := h.modules module hmodule (hcovers.module _ hnamed)
  name hnamed := h.name (hcovers.module _ hnamed)

end Covers

/-! ### Machines that respect an enclosure -/

namespace Holds

/-- An open value is an open object, if it is one. -/
theorem openObject (h : K.Holds m) {cell : CellRef} (hcell : K.OpenCell cell) {ref : TableRef}
    (hobject : m.content cell = .object ref) : K.OpenObject ref := by
  have hcontent := h.content cell hcell
  rw [hobject] at hcontent
  exact hcontent

theorem openTable? (h : K.Holds m) {cell : CellRef} (hcell : K.OpenCell cell) {ref : TableRef}
    (hobject : m.tableOf? cell = some ref) : K.OpenObject ref :=
  h.openObject hcell (Machine.tableOf?_eq_some_iff.mp hobject)

theorem lookUp (h : K.Holds m) {ref : TableRef} (href : K.OpenObject ref) (key : CellRef) :
    K.OpenFound (m.lookUp ref key) :=
  (h.table ref href).get? _

theorem lookUpText (h : K.Holds m) {ref : TableRef} (href : K.OpenObject ref) (key : String) :
    K.OpenFound (m.lookUpText ref key) :=
  (h.table ref href).get? _

theorem lookUpName (h : K.Holds m) {frame : Frame} (hframe : K.OpenFrame frame) (name : String) :
    K.OpenFound (m.lookUpName frame name) := by
  intro cell hcell
  obtain ⟨ref, hmem, hbound⟩ := List.exists_of_findSome?_eq_some hcell
  exact h.bindings ref (hframe ref hmem) name cell hbound

theorem global? (h : K.Holds m) {ref : ContextRef} (hopen : K.OpenContext ref) (name : String) :
    K.OpenFound (m.global? ref name) :=
  fun cell hcell ↦ h.bindings _ (h.source ref hopen).globals name cell hcell

theorem globals (h : K.Holds m) {ref : ContextRef} (hopen : K.OpenContext ref) :
    K.OpenBindings (m.scope (m.context ref).globals) :=
  h.bindings _ (h.source ref hopen).globals

theorem snapshot (h : K.Holds m) {frame : Frame} (hframe : K.OpenFrame frame) :
    K.OpenBindings (m.snapshot frame) := by
  unfold OpenFrame at hframe
  unfold Machine.snapshot
  generalize frame.scopes = refs at hframe
  induction refs with
  | nil => exact openBindings_empty
  | cons ref refs ih =>
    obtain ⟨href, hrest⟩ := List.forall_mem_cons.mp hframe
    rw [List.foldr_cons]
    exact (ih hrest).overlay (h.bindings ref href)

end Holds

end Enclosure

end TreeScript
