import TreeScript.Proofs.Enclosure.Evaluation
import TreeScript.Proofs.Iteration.Arrays
import TreeScript.Proofs.Iteration.Walks

/-!
# What is added to a machine

A machine is whole if it mentions nothing that does not exist (`Machine.Whole`). What is added to
such a machine is enclosed to begin with, because nothing that was there mentions it
(`Whole.holds_added`), and whatever a program does, it stays as it was. It can be handed over to
programs piece by piece: what was added after a piece is enclosed still, if the machine was whole up
to the piece (`Enclosure.Holds.handOver`).

The lemmas on `Whole` follow the ways in which a machine is added to.
-/

set_option autoImplicit false

namespace TreeScript

namespace Machine

open Enclosure

/-! ### Whole machines -/

/-- Everything a machine does not have, as an enclosure. -/
def absent (m : Machine) : Enclosure where
  module _ := False
  cell cell := m.cells.size ≤ cell.index
  table ref := m.tables.size ≤ ref.index
  iterator ref := m.iterators.size ≤ ref.index
  scope _ := False
  context _ := False
  native _ := False
  sources := m.contexts.size
  base := m
  operator _ _ := id
  bare := .inr fun _ ↦ id

/-- A machine that mentions nothing it does not have. -/
structure Whole (m : Machine) : Prop where
  content : ∀ cell, m.absent.OpenContent (m.content cell)
  table : ∀ ref, m.absent.OpenTable (m.table ref)
  bindings : ∀ ref, m.absent.OpenBindings (m.scope ref)
  remaining : ∀ ref, m.absent.OpenCells (m.remaining ref)
  instanceOf : ∀ ref, m.absent.OpenInstance (m.instanceOf ref)
  source : ∀ ref : ContextRef, ref.index < m.contexts.size → m.absent.OpenSource (m.context ref)
  loaded : ∀ ref ∈ m.loaded, ref.index < m.contexts.size

variable {m n k : Machine} {ref : TableRef} {c : Content} {key value : CellRef}

/-- A machine that has more lacks less. -/
theorem covers_absent (hcells : m.cells.size ≤ n.cells.size) (htables : m.tables.size ≤ n.tables.size)
    (hiterators : m.iterators.size ≤ n.iterators.size) (hsources : m.contexts.size ≤ n.contexts.size) :
    m.absent.Covers n.absent where
  module _ := id
  cell _ := hcells.trans
  table _ := htables.trans
  iterator _ := hiterators.trans
  scope _ := id
  context _ := id
  native _ := id
  sources := hsources

theorem Whole.object (h : m.Whole) {cell : CellRef} (hobject : m.content cell = .object ref) :
    ref.index < m.tables.size := by
  have hopen := h.content cell
  rw [hobject] at hopen
  exact Nat.lt_of_not_le hopen

theorem Whole.withCell (h : m.Whole) (hc : m.absent.OpenContent c) : (m.withCell c).Whole := by
  have hcovers : m.absent.Covers (m.withCell c).absent :=
    covers_absent (keepsCells_withCell m c).size (Nat.le_refl _) (Nat.le_refl _) (Nat.le_refl _)
  refine ⟨fun cell ↦ ?_, fun ref ↦ hcovers.openTable (h.table ref),
    fun ref ↦ hcovers.openBindings (h.bindings ref), fun ref ↦ hcovers.openCells (h.remaining ref),
    fun ref ↦ hcovers.openInstance (h.instanceOf ref),
    fun ref href ↦ hcovers.openSource (h.source ref href), h.loaded⟩
  rw [Machine.content_withCell]
  split
  · exact hcovers.openContent hc
  · exact hcovers.openContent (h.content cell)

theorem Whole.withTable (h : m.Whole) : m.withTable.Whole := by
  have hcovers : m.absent.Covers m.withTable.absent :=
    covers_absent (Nat.le_refl _) m.grown_withTable.size (Nat.le_refl _) (Nat.le_refl _)
  refine ⟨fun cell ↦ hcovers.openContent (h.content cell), fun ref ↦ ?_,
    fun ref ↦ hcovers.openBindings (h.bindings ref), fun ref ↦ hcovers.openCells (h.remaining ref),
    fun ref ↦ hcovers.openInstance (h.instanceOf ref),
    fun ref href ↦ hcovers.openSource (h.source ref href), h.loaded⟩
  rw [table_withTable]
  exact hcovers.openTable (h.table ref)

theorem Whole.enter (h : m.Whole) (hkey : key.index < m.cells.size)
    (hvalue : value.index < m.cells.size) : (m.after (.enter ref key value)).Whole := by
  have hcovers : m.absent.Covers (m.after (.enter ref key value)).absent :=
    covers_absent (Nat.le_refl _) (Nat.le_of_eq (size_after m _).2.symm) (Nat.le_refl _)
      (Nat.le_refl _)
  refine ⟨fun cell ↦ hcovers.openContent (h.content cell), fun other ↦ hcovers.openTable ?_,
    fun ref ↦ hcovers.openBindings (h.bindings ref), fun ref ↦ hcovers.openCells (h.remaining ref),
    fun ref ↦ hcovers.openInstance (h.instanceOf ref),
    fun ref href ↦ hcovers.openSource (h.source ref href), h.loaded⟩
  by_cases hexists : other.index < m.tables.size
  · rw [table_after m _ hexists]
    unfold Change.onTable
    dsimp only
    split
    · exact (h.table other).set _ (Nat.not_le_of_lt hkey) (Nat.not_le_of_lt hvalue)
    · exact h.table other
  · rw [table_after_of_none m _ (Nat.le_of_not_lt hexists)]
    exact h.table other

/-- A whole machine to which an array of two values is added that exist is whole. -/
theorem Whole.newPair (h : m.Whole) (hkey : key.index < m.cells.size)
    (hvalue : value.index < m.cells.size) {out : CellRef} (hmade : newArray [key, value] m = .ok out n) :
    n.Whole := by
  let labelled (m : Machine) (i : Nat) : Machine := m.withCell (.number (Decimal.ofInt i))
  let first : Machine :=
    (labelled m.withTable 0).after (.enter ⟨m.tables.size⟩ ⟨m.cells.size⟩ key)
  let second : Machine :=
    (labelled first 1).after (.enter ⟨m.tables.size⟩ ⟨first.cells.size⟩ value)
  have hrun : TreeScript.newArray [key, value] m =
      .ok ⟨second.cells.size⟩ (second.withCell (.object ⟨m.tables.size⟩)) := rfl
  cases hrun.symm.trans hmade
  have hgrown (k : Machine) (i : Nat) : k.cells.size < (labelled k i).cells.size := size_lt_push _ _
  have hlabelled {k : Machine} (hk : k.Whole) (i : Nat) : (labelled k i).Whole := hk.withCell trivial
  have hmore : m.cells.size ≤ first.cells.size := Nat.le_of_lt (hgrown m.withTable 0)
  have hfirst : first.Whole := (hlabelled h.withTable 0).enter (hgrown m.withTable 0)
    (hkey.trans (hgrown m.withTable 0))
  have hsecond : second.Whole := (hlabelled hfirst 1).enter (hgrown first 1)
    ((Nat.lt_of_lt_of_le hvalue hmore).trans (hgrown first 1))
  have htables : second.tables.size = m.tables.size + 1 := by
    rw [(size_after _ _).2]
    change first.tables.size = _
    rw [(size_after _ _).2]
    exact Array.size_push _
  exact hsecond.withCell (Nat.not_le_of_lt (htables ▸ Nat.lt_succ_self _))

/-! ### Additions -/

/-- Cells, tables and iterators were added to a machine, and nothing else has changed. -/
structure Enlarged (m n : Machine) : Prop where
  cells : m.KeepsCells n
  tables : m.tables.size ≤ n.tables.size
  table : ∀ ref : TableRef, ref.index < m.tables.size → n.table ref = m.table ref
  iterators : m.iterators.size ≤ n.iterators.size
  remaining : ∀ ref : IteratorRef, ref.index < m.iterators.size → n.remaining ref = m.remaining ref
  rest : { m with cells := n.cells, tables := n.tables, iterators := n.iterators } = n

theorem Enlarged.trans (h : m.Enlarged n) (h' : n.Enlarged k) : m.Enlarged k := by
  refine ⟨h.cells.trans h'.cells, h.tables.trans h'.tables, fun ref href ↦ ?_,
    h.iterators.trans h'.iterators, fun ref href ↦ ?_, ?_⟩
  · rw [h'.table ref (Nat.lt_of_lt_of_le href h.tables), h.table ref href]
  · rw [h'.remaining ref (Nat.lt_of_lt_of_le href h.iterators), h.remaining ref href]
  · rw [← h'.rest, ← h.rest]

section

variable (h : m.Enlarged n)
include h

theorem Enlarged.contexts : n.contexts = m.contexts := by rw [← h.rest]

theorem Enlarged.loaded : n.loaded = m.loaded := by rw [← h.rest]

theorem Enlarged.scope (ref : ScopeRef) : n.scope ref = m.scope ref := by
  rw [← h.rest]
  rfl

theorem Enlarged.context (ref : ContextRef) : n.context ref = m.context ref := by
  rw [← h.rest]
  rfl

theorem Enlarged.instanceOf (ref : InstanceRef) : n.instanceOf ref = m.instanceOf ref := by
  rw [← h.rest]
  rfl

theorem Enlarged.keepsFrom (first : Nat) : KeepsFrom first m n :=
  ⟨h.cells, h.tables, fun ref _ ↦ h.table ref⟩

end

/-- A machine lacks what it lacks when it was added to, and more. -/
theorem Enlarged.absent_covers (h : m.Enlarged n) : m.absent.Covers n.absent :=
  covers_absent h.cells.size h.tables h.iterators (Nat.le_of_eq (congrArg Array.size h.contexts.symm))

theorem Grown.enlarged (h : m.Grown n) : m.Enlarged n := by
  have hiterators : n.iterators = m.iterators := by rw [← h.rest]
  refine ⟨h.cells, h.size, h.table, Nat.le_of_eq (congrArg Array.size hiterators.symm),
    fun ref _ ↦ ?_, ?_⟩
  · unfold Machine.remaining Machine.iterator
    rw [hiterators]
  · rw [hiterators]
    exact h.rest

/-- The machine once an iterator is another one. -/
def withIterator (m : Machine) (ref : IteratorRef) (it : Iterator) : Machine :=
  { m with iterators := m.iterators.setIfInBounds ref.index it }

theorem remaining_withIterator (m : Machine) (ref other : IteratorRef) (it : Iterator) :
    (m.withIterator ref it).remaining other =
      if other = ref ∧ ref.index < m.iterators.size then it.remaining else m.remaining other := by
  unfold Machine.remaining Machine.iterator withIterator
  dsimp only
  rw [getD_setIfInBounds]
  by_cases hplace : other = ref ∧ ref.index < m.iterators.size
  · obtain ⟨rfl, hexists⟩ := hplace
    rw [if_pos ⟨rfl, hexists⟩, if_pos ⟨rfl, hexists⟩]
  · rw [if_neg hplace, if_neg]
    rintro ⟨hsame, hexists⟩
    exact hplace ⟨congrArg IteratorRef.mk hsame.symm, hsame ▸ hexists⟩

/-- An iterator that is not there has nothing left, so another one may take its place only if it has
nothing left either. -/
theorem remaining_withIterator_self {m : Machine} {ref : IteratorRef} {it : Iterator}
    (h : m.remaining ref = [] → it.remaining = []) :
    (m.withIterator ref it).remaining ref = it.remaining := by
  rw [remaining_withIterator]
  by_cases hexists : ref.index < m.iterators.size
  · exact if_pos ⟨rfl, hexists⟩
  · have hnone : m.remaining ref = [] := remaining_of_missing (Nat.le_of_not_lt hexists)
    rw [if_neg fun hboth ↦ hexists hboth.2, hnone, h hnone]

/-- An iterator that was added may be drawn from. -/
theorem Enlarged.withIterator (h : m.Enlarged n) {ref : IteratorRef}
    (hnew : m.iterators.size ≤ ref.index) (it : Iterator) : m.Enlarged (n.withIterator ref it) := by
  refine ⟨h.cells.trans (keepsCells_of_eq rfl), h.tables, h.table,
    h.iterators.trans_eq Array.size_setIfInBounds.symm, fun other hother ↦ ?_, ?_⟩
  · have hne : other ≠ ref := by
      rintro rfl
      exact Nat.not_le_of_lt hother hnew
    rw [remaining_withIterator, if_neg fun hsame ↦ hne hsame.1]
    exact h.remaining other hother
  · rw [← h.rest]
    rfl

/-- What was added to a machine on the way to another one, as an enclosure. -/
def added (m n : Machine) : Enclosure where
  module _ := False
  cell cell := m.cells.size ≤ cell.index ∧ cell.index < n.cells.size
  table ref := m.tables.size ≤ ref.index ∧ ref.index < n.tables.size
  iterator ref := m.iterators.size ≤ ref.index ∧ ref.index < n.iterators.size
  scope _ := False
  context _ := False
  native _ := False
  sources := m.contexts.size
  base := n
  operator _ _ := id
  bare := .inr fun _ ↦ id

/-- A machine has all but what was added to it. -/
theorem absent_covers_added (m n : Machine) : m.absent.Covers (m.added n) where
  module _ := id
  cell _ := And.left
  table _ := And.left
  iterator _ := And.left
  scope _ := id
  context _ := id
  native _ := id
  sources := Nat.le_refl _

/-- What was added to a later machine is less. -/
theorem Enlarged.added_covers (h : m.Enlarged n) (k : Machine) : (m.added k).Covers (n.added k) where
  module _ := id
  cell _ := And.imp_left h.cells.size.trans
  table _ := And.imp_left h.tables.trans
  iterator _ := And.imp_left h.iterators.trans
  scope _ := id
  context _ := id
  native _ := id
  sources := Nat.le_of_eq (congrArg Array.size h.contexts.symm)

/-- What runs in a source that was there mentions nothing that was added. -/
theorem Enlarged.openSite_added (h : m.Enlarged n) (k : Machine) {site : Site}
    (hsite : site.context.index < m.contexts.size) : (n.added k).OpenSite site :=
  ⟨⟨id, hsite.trans_eq (congrArg Array.size h.contexts.symm)⟩, fun _ _ ↦ id⟩

section

variable (h : m.Whole) (hn : m.Enlarged n)
include h hn

/-! What a whole machine had mentions nothing else, however much was added to it. -/

theorem Whole.content_enlarged {cell : CellRef} (hold : cell.index < m.cells.size) :
    m.absent.OpenContent (n.content cell) :=
  hn.cells.content cell hold ▸ h.content cell

theorem Whole.table_enlarged {ref : TableRef} (hold : ref.index < m.tables.size) :
    m.absent.OpenTable (n.table ref) :=
  hn.table ref hold ▸ h.table ref

theorem Whole.remaining_enlarged {ref : IteratorRef} (hold : ref.index < m.iterators.size) :
    m.absent.OpenCells (n.remaining ref) :=
  hn.remaining ref hold ▸ h.remaining ref

end

/-- What is added to a whole machine is enclosed. -/
theorem Whole.holds_added (h : m.Whole) (hn : m.Enlarged n) : (m.added n).Holds n := by
  have hcovers := m.absent_covers_added n
  exact {
    cells := fun _ hcell ↦ hcell.2
    tables := fun _ href ↦ href.2
    iterators := fun _ href ↦ href.2
    scopes := fun _ href ↦ href.elim
    content := fun cell hcell ↦ by
      by_cases hold : cell.index < m.cells.size
      · exact hcovers.openContent (h.content_enlarged hn hold)
      · have hnone : n.cells.size ≤ cell.index :=
          Nat.le_of_not_lt fun hbound ↦ hcell ⟨Nat.le_of_not_lt hold, hbound⟩
        rw [content_of_missing hnone]
        exact trivial
    table := fun ref href ↦ by
      by_cases hold : ref.index < m.tables.size
      · exact hcovers.openTable (h.table_enlarged hn hold)
      · have hnone : n.tables.size ≤ ref.index :=
          Nat.le_of_not_lt fun hbound ↦ href ⟨Nat.le_of_not_lt hold, hbound⟩
        rw [table_of_missing hnone]
        exact openTable_empty
    bindings := fun ref _ ↦ hn.scope ref ▸ hcovers.openBindings (h.bindings ref)
    remaining := fun ref href ↦ by
      by_cases hold : ref.index < m.iterators.size
      · exact hcovers.openCells (h.remaining_enlarged hn hold)
      · have hnone : n.iterators.size ≤ ref.index :=
          Nat.le_of_not_lt fun hbound ↦ href ⟨Nat.le_of_not_lt hold, hbound⟩
        rw [remaining_of_missing hnone]
        exact openCells_nil
    sameContent := fun _ _ ↦ rfl
    sameTable := fun _ _ ↦ rfl
    sameRemaining := fun _ _ ↦ rfl
    instanceOf := fun ref ↦ hn.instanceOf ref ▸ hcovers.openInstance (h.instanceOf ref)
    sources := congrArg Array.size hn.contexts
    source := fun ref href ↦ hn.context ref ▸ hcovers.openSource (h.source ref href.2)
    settled := fun _ href ↦ href.elim
    loaded := fun ref href ↦ h.loaded ref (hn.loaded ▸ href)
    natives := fun _ _ _ ↦ id
    registered := fun _ _ hmodule ↦ hmodule.elim
    forbidden := fun _ hmodule ↦ hmodule.elim
    automatic := fun _ hmodule ↦ hmodule.elim }

end Machine

/-! ### Handing over -/

namespace Enclosure.Holds

open Machine

variable {base m n k : Machine} {ref : IteratorRef}

/-- Assumes: what was added to a machine is enclosed, with an iterator in it, and on the way there
was a whole machine before the iterator was made. The iterator may hand out what was added up to
that machine: what was added after that is enclosed still. -/
theorem handOver (h : (m.added base).Holds k) (hn : n.Whole) (hmn : m.Enlarged n)
    (hbase : n.Enlarged base) (href : (n.added base).iterator ref) (it : Iterator) :
    (n.added (base.withIterator ref it)).Holds (k.withIterator ref it) := by
  have hsize : (base.withIterator ref it).iterators.size = base.iterators.size :=
    Array.size_setIfInBounds
  have hcovers : (m.added base).Covers (n.added (base.withIterator ref it)) :=
    { hmn.added_covers base with iterator := fun other hother ↦
        (hmn.added_covers base).iterator other (And.imp_right hsize.symm.trans_ge hother) }
  have hnew : n.absent.Covers (n.added (base.withIterator ref it)) := n.absent_covers_added _
  have hsources : n.contexts.size = m.contexts.size := congrArg Array.size hmn.contexts
  have hexists : ref.index < k.iterators.size :=
    h.iterators ref ((hmn.added_covers base).iterator ref href)
  exact {
    cells := fun cell hcell ↦ h.cells cell (hcovers.cell cell hcell)
    tables := fun ref href ↦ h.tables ref (hcovers.table ref href)
    iterators := fun other hother ↦ by
      change other.index < (k.iterators.setIfInBounds ref.index it).size
      rw [Array.size_setIfInBounds]
      exact h.iterators other (hcovers.iterator other hother)
    scopes := fun _ href ↦ href.elim
    content := fun cell hcell ↦ by
      change (n.added _).OpenContent (k.content cell)
      by_cases hopen : (m.added base).OpenCell cell
      · exact hcovers.openContent (h.content cell hopen)
      · have hformer := not_not.mp hopen
        have hold : cell.index < n.cells.size :=
          Nat.lt_of_not_le fun hnone ↦ hcell ⟨hnone, hformer.2⟩
        rw [h.sameContent cell hformer]
        exact hnew.openContent (hn.content_enlarged hbase hold)
    table := fun ref href ↦ by
      change (n.added _).OpenTable (k.table ref)
      by_cases hopen : (m.added base).OpenObject ref
      · exact hcovers.openTable (h.table ref hopen)
      · have hformer := not_not.mp hopen
        have hold : ref.index < n.tables.size :=
          Nat.lt_of_not_le fun hnone ↦ href ⟨hnone, hformer.2⟩
        rw [h.sameTable ref hformer]
        exact hnew.openTable (hn.table_enlarged hbase hold)
    bindings := fun ref _ ↦ hcovers.openBindings (h.bindings ref id)
    remaining := fun other hother ↦ by
      have hne : other ≠ ref := by
        rintro rfl
        exact hother (And.imp_right hsize.trans_ge href)
      rw [remaining_withIterator, if_neg fun hsame ↦ hne hsame.1]
      by_cases hopen : (m.added base).OpenIterator other
      · exact hcovers.openCells (h.remaining other hopen)
      · have hformer := not_not.mp hopen
        have hold : other.index < n.iterators.size :=
          Nat.lt_of_not_le fun hnone ↦ hother ⟨hnone, hsize.symm ▸ hformer.2⟩
        rw [h.sameRemaining other hformer]
        exact hnew.openCells (hn.remaining_enlarged hbase hold)
    sameContent := fun cell hcell ↦ h.sameContent cell (hcovers.cell cell hcell)
    sameTable := fun ref href ↦ h.sameTable ref (hcovers.table ref href)
    sameRemaining := fun other hother ↦ by
      change (k.withIterator ref it).remaining other = (base.withIterator ref it).remaining other
      rw [remaining_withIterator, remaining_withIterator]
      by_cases hsame : other = ref
      · rw [if_pos ⟨hsame, hexists⟩, if_pos ⟨hsame, href.2⟩]
      · rw [if_neg fun h ↦ hsame h.1, if_neg fun h ↦ hsame h.1]
        exact h.sameRemaining other (hcovers.iterator other hother)
    instanceOf := fun ref ↦ hcovers.openInstance (h.instanceOf ref)
    sources := h.sources.trans hsources.symm
    source := fun ref href ↦
      hcovers.openSource (h.source ref ⟨id, Nat.lt_of_lt_of_eq href.2 hsources⟩)
    settled := fun _ href ↦ href.elim
    loaded := fun ref href ↦ Nat.lt_of_lt_of_le (h.loaded ref href) hcovers.sources
    natives := fun _ _ _ ↦ id
    registered := fun _ _ hmodule ↦ hmodule.elim
    forbidden := fun _ hmodule ↦ hmodule.elim
    automatic := fun _ hmodule ↦ hmodule.elim }

end Enclosure.Holds

end TreeScript
