import TreeScript.Proofs.Enclosure.Basic
import TreeScript.Proofs.Iteration.LookAhead

/-!
# The store under an enclosure

A change of the store respects an enclosure if it is made outside and what it brings in is open. What
is new is open, because what is enclosed exists already; an open cell may be overwritten by any open
content, and an open object may take any open entry. From these follow the operations on cells,
objects, iterators, instances and frames.
-/

set_option autoImplicit false

namespace TreeScript

namespace Enclosure

variable {K : Enclosure} {m : Machine} {α β σ : Type}

/-- An enclosure is not concerned with stack traces, output, log and most options. -/
theorem indifferent : Indifferent K.Holds := by
  intro m n h hm
  exact {
    cells := fun cell hcell ↦ h.cells ▸ hm.cells cell hcell
    tables := fun ref href ↦ h.tables ▸ hm.tables ref href
    iterators := fun ref href ↦ h.iterators ▸ hm.iterators ref href
    scopes := fun ref href ↦ h.scopes ▸ hm.scopes ref href
    content := fun cell hcell ↦ h.content cell ▸ hm.content cell hcell
    table := fun ref href ↦ h.table ref ▸ hm.table ref href
    bindings := fun ref href ↦ h.scope ref ▸ hm.bindings ref href
    remaining := fun ref href ↦ h.remaining ref ▸ hm.remaining ref href
    sameContent := fun cell hcell ↦ (h.content cell).trans (hm.sameContent cell hcell)
    sameTable := fun ref href ↦ (h.table ref).trans (hm.sameTable ref href)
    sameRemaining := fun ref href ↦ (h.remaining ref).trans (hm.sameRemaining ref href)
    instanceOf := fun ref ↦ by
      unfold Machine.instanceOf
      rw [h.instances]
      exact hm.instanceOf ref
    sources := h.contexts ▸ hm.sources
    source := fun ref href ↦ h.context ref ▸ hm.source ref href
    settled := fun ref href ↦ h.context ref ▸ hm.settled ref href
    loaded := fun ref href ↦ hm.loaded ref (h.loaded ▸ href)
    natives := fun binding hmem ↦ hm.natives binding (h.natives ▸ hmem)
    registered := fun binding hmem ↦ hm.registered binding (h.natives ▸ hmem)
    forbidden := h.forbidden ▸ hm.forbidden
    automatic := h.automatic ▸ hm.automatic }

/-! ### Cells -/

theorem Holds.fresh (h : K.Holds m) : K.OpenCell ⟨m.cells.size⟩ :=
  fun hcell ↦ Nat.lt_irrefl _ (h.cells _ hcell)

theorem Holds.withCell (h : K.Holds m) {c : Content} (hc : K.OpenContent c) :
    K.Holds (m.withCell c) :=
  { h with
    cells := fun cell hcell ↦ by
      unfold Machine.withCell
      rw [Array.size_push]
      exact Nat.lt_succ_of_lt (h.cells cell hcell)
    content := fun cell hcell ↦ by
      rw [Machine.content_withCell]
      split
      · exact hc
      · exact h.content cell hcell
    sameContent := fun cell hcell ↦ by
      rw [Machine.content_old (h.cells cell hcell)]
      exact h.sameContent cell hcell }

theorem alloc {c : Content} (hc : K.OpenContent c) : K.Gives (alloc c) :=
  .of_modifyGet (fun _ hm ↦ hm.withCell hc) fun _ hm ↦ hm.fresh

theorem write {target : CellRef} (htarget : K.OpenCell target) {c : Content}
    (hc : K.OpenContent c) : Spares K.Holds (write target c) :=
  .of_modify fun m hm ↦
    { hm with
      cells := fun cell hcell ↦ by
        rw [Array.size_setIfInBounds]
        exact hm.cells cell hcell
      content := fun cell hcell ↦ by
        rw [Machine.content_write]
        split
        · exact hc
        · exact hm.content cell hcell
      sameContent := fun cell hcell ↦ by
        have hother : target.index ≠ cell.index := fun h ↦ by
          obtain rfl : target = cell := congrArg CellRef.mk h
          exact htarget hcell
        rw [Machine.content_write, if_neg fun h ↦ hother h.1]
        exact hm.sameContent cell hcell }

theorem content {cell : CellRef} (hcell : K.OpenCell cell) :
    Maintains K.Holds K.OpenContent (content cell) :=
  .get_bind fun _ hm ↦ .pure (hm.content cell hcell)

theorem inherit {cell source : CellRef} (hcell : K.OpenCell cell) (hsource : K.OpenCell source) :
    Spares K.Holds (inherit cell source) :=
  (content hsource).bind fun _ hc ↦ write hcell hc

theorem copy {cell : CellRef} (hcell : K.OpenCell cell) : K.Gives (copy cell) :=
  (content hcell).bind fun _ hc ↦ alloc hc

theorem newEmpty : K.Gives newEmpty := alloc trivial

theorem newNumber (d : Decimal) : K.Gives (newNumber d) := alloc trivial

theorem newString (s : String) : K.Gives (newString s) := alloc trivial

theorem newBoolean (b : Bool) : K.Gives (newBoolean b) := alloc trivial

theorem newObject {ref : TableRef} (href : K.OpenObject ref) : K.Gives (newObject ref) := alloc href

theorem newStamp : Spares K.Holds newStamp := indifferent.newStamp

/-- A computation of a plain value out of what the machine is. -/
theorem read (f : Machine → α) : Spares K.Holds (do return f (← get)) :=
  .get_bind fun _ _ ↦ .pure trivial

/-- Reading a cell without regard to what its content mentions. -/
theorem kindOf (cell : CellRef) : Spares K.Holds (TreeScript.content cell) := read _

theorem display (cell : CellRef) : Spares K.Holds (display cell) := read _

theorem isTrue (cell : CellRef) : Spares K.Holds (isTrue cell) := read _

theorem equal (a b : CellRef) : Spares K.Holds (equal a b) := read _

theorem copies {cells : List CellRef} (hcells : K.OpenCells cells) :
    Maintains K.Holds K.OpenCells (cells.mapM TreeScript.copy) :=
  .mapM fun cell hcell ↦ copy (hcells cell hcell)

/-! ### Objects -/

theorem newTable : Maintains K.Holds K.OpenObject newTable :=
  .of_modifyGet
    (fun m hm ↦
      { hm with
        tables := fun ref href ↦ by
          rw [Array.size_push]
          exact Nat.lt_succ_of_lt (hm.tables ref href)
        table := fun ref href ↦ m.table_withTable ref ▸ hm.table ref href
        sameTable := fun ref href ↦ (m.table_withTable ref).trans (hm.sameTable ref href) })
    fun _ hm href ↦ Nat.lt_irrefl _ (hm.tables _ href)

theorem modifyTable {target : TableRef} (htarget : K.OpenObject target) {change : Table → Table}
    (hchange : ∀ table, K.OpenTable table → K.OpenTable (change table)) :
    Spares K.Holds (modifyTable target change) :=
  .of_modify fun m hm ↦
    { hm with
      tables := fun ref href ↦ by
        rw [Array.size_modify]
        exact hm.tables ref href
      table := fun ref href ↦ by
        unfold Machine.table
        rw [getD_modify]
        split
        · exact hchange _ (hm.table ref href)
        · exact hm.table ref href
      sameTable := fun ref href ↦ by
        have hother : target.index ≠ ref.index := fun h ↦ by
          obtain rfl : target = ref := congrArg TableRef.mk h
          exact htarget href
        unfold Machine.table
        rw [getD_modify, if_neg fun h ↦ hother h.1]
        exact hm.sameTable ref href }

theorem tableOf {ref : TableRef} (href : K.OpenObject ref) :
    Maintains K.Holds K.OpenTable (tableOf ref) :=
  .get_bind fun _ hm ↦ .pure (hm.table ref href)

section Objects

variable {ref : TableRef} (href : K.OpenObject ref)
include href

theorem setEntry {key value : CellRef} (hkey : K.OpenCell key) (hvalue : K.OpenCell value) :
    Spares K.Holds (setEntry ref key value) :=
  .get_bind fun _ _ ↦ modifyTable href fun _ htable ↦ htable.set _ hkey hvalue

theorem setText (key : String) {value : CellRef} (hvalue : K.OpenCell value) :
    Spares K.Holds (setText ref key value) :=
  (newString key).bind fun _ hkey ↦ setEntry href hkey hvalue

theorem eraseEntry (key : CellRef) : Maintains K.Holds K.OpenFound (eraseEntry ref key) :=
  .get_bind fun _ _ ↦ (tableOf href).bind fun _ htable ↦
    (modifyTable href fun _ _ ↦ (htable.erase _ _).1).bind fun _ ↦ .pure (htable.erase _ _).2

theorem forEntries {act : σ → Entry → Run σ} {S : σ → Prop} {init : σ} (hinit : S init)
    (h : ∀ s, S s → ∀ entry, K.OpenEntry entry → Maintains K.Holds S (act s entry)) :
    Maintains K.Holds S (forEntries ref init act) := by
  refine (tableOf href).bind fun table _ ↦ Maintains.foldlM (fun s hs i _ ↦ ?_) init hinit
  refine (tableOf href).bind fun table htable ↦ ?_
  split
  · rename_i entry hentry
    exact h s hs entry (htable.entryAt _ i hentry)
  · exact .pure hs

theorem pushEntry {value : CellRef} (hvalue : K.OpenCell value) :
    Spares K.Holds (pushEntry ref value) :=
  .get_bind fun _ _ ↦ (newNumber _).bind fun _ hkey ↦ setEntry href hkey hvalue

theorem mergeInto {source : TableRef} (hsource : K.OpenObject source) :
    Spares K.Holds (mergeInto ref source) :=
  (tableOf hsource).bind fun _ htable ↦
    Spares.each
      (fun entry hentry ↦ setEntry href (htable.entries entry hentry).key
        (htable.entries entry hentry).value) (.pure trivial)

theorem cloneTable : Maintains K.Holds K.OpenObject (cloneTable ref) :=
  newTable.bind fun _ hclone ↦ (mergeInto hclone href).bind fun _ ↦ .pure hclone

end Objects

theorem newArrayTable {items : List CellRef} (hitems : K.OpenCells items) :
    Maintains K.Holds K.OpenObject (newArrayTable items) := by
  refine newTable.bind fun ref href ↦ Spares.bind (Spares.forIn (fun (item, i) hitem _ ↦ ?_) _)
    fun _ ↦ .pure href
  have hopen : K.OpenCell item := hitems item (List.fst_mem_of_mem_zipIdx hitem)
  exact (newNumber _).bind fun _ hkey ↦ (setEntry href hkey hopen).bind fun _ ↦ .pure trivial

theorem newArray {items : List CellRef} (hitems : K.OpenCells items) : K.Gives (newArray items) :=
  (newArrayTable hitems).bind fun _ href ↦ newObject href

theorem newTextArray (items : List String) : K.Gives (newTextArray items) :=
  (Maintains.mapM fun item _ ↦ newString item).bind fun _ hcells ↦ newArray hcells

theorem tableOrNew {cell : CellRef} (hcell : K.OpenCell cell) :
    Maintains K.Holds K.OpenObject (tableOrNew cell) := by
  refine (content hcell).bind fun c hc ↦ ?_
  split
  · exact .pure hc
  · exact newTable

/-! ### Iterators and instances -/

theorem newIterator {items : List CellRef} (hitems : K.OpenCells items) :
    K.Gives (newIterator items) := by
  refine Maintains.bind (Q := K.OpenIterator) (.of_modifyGet (fun m hm ↦ ?_) fun m hm href ↦ ?_)
    fun ref href ↦ alloc href
  · exact { hm with
      iterators := fun ref href ↦ by
        rw [Array.size_push]
        exact Nat.lt_succ_of_lt (hm.iterators ref href)
      remaining := fun ref href ↦ by
        unfold Machine.remaining Machine.iterator
        rw [getD_push]
        split
        · exact hitems
        · exact hm.remaining ref href
      sameRemaining := fun ref href ↦ by
        unfold Machine.remaining Machine.iterator
        rw [getD_push, if_neg (Nat.ne_of_lt (hm.iterators ref href))]
        exact hm.sameRemaining ref href }
  · exact Nat.lt_irrefl _ (hm.iterators _ href)

theorem setIterator {target : IteratorRef} (htarget : K.OpenIterator target) {it : Iterator}
    (hitems : K.OpenCells it.remaining) : Spares K.Holds (setIterator target it) :=
  .of_modify fun m hm ↦
    { hm with
      iterators := fun ref href ↦ by
        rw [Array.size_setIfInBounds]
        exact hm.iterators ref href
      remaining := fun ref href ↦ by
        unfold Machine.remaining Machine.iterator
        rw [getD_setIfInBounds]
        split
        · exact hitems
        · exact hm.remaining ref href
      sameRemaining := fun ref href ↦ by
        have hother : target.index ≠ ref.index := fun h ↦ by
          obtain rfl : target = ref := congrArg IteratorRef.mk h
          exact htarget href
        unfold Machine.remaining Machine.iterator
        rw [getD_setIfInBounds, if_neg fun h ↦ hother h.1]
        exact hm.sameRemaining ref href }

theorem hasNext {ref : IteratorRef} (href : K.OpenIterator ref) : Spares K.Holds (hasNext ref) := by
  refine .get_bind fun m hm ↦ ?_
  have hremaining := hm.remaining ref href
  rw [Machine.remaining, ← Iterator.remaining_hasNext] at hremaining
  exact (setIterator href hremaining).bind fun _ ↦ .pure trivial

theorem next? {ref : IteratorRef} (href : K.OpenIterator ref) :
    Maintains K.Holds K.OpenFound (next? ref) := by
  refine .get_bind fun m hm ↦ ?_
  have hremaining := hm.remaining ref href
  obtain ⟨hnext, hrest⟩ := (m.iterator ref).next_eq
  have hitems : K.OpenCells (m.iterator ref).next.2.remaining := by
    rw [hrest]
    exact fun item hitem ↦ hremaining item (List.mem_of_mem_tail hitem)
  refine (setIterator href hitems).bind fun _ ↦ .pure fun cell hcell ↦ ?_
  exact hremaining cell (List.mem_of_mem_head? (hnext ▸ hcell))

theorem newInstance {value : Instance} (hvalue : K.OpenInstance value) :
    K.Gives (newInstance value) := by
  refine Spares.bind (.of_modifyGet (fun m hm ↦ ?_) fun _ _ ↦ trivial) fun ref ↦ alloc trivial
  exact { hm with
    instanceOf := fun ref ↦ by
      unfold Machine.instanceOf
      rw [getD_push]
      split
      · exact hvalue
      · exact hm.instanceOf ref }

theorem setInstance (target : InstanceRef) {value : Instance} (hvalue : K.OpenInstance value) :
    Spares K.Holds (modify fun m : Machine ↦
      { m with instances := m.instances.setIfInBounds target.index value } : Run Unit) :=
  .of_modify fun m hm ↦
    { hm with
      instanceOf := fun ref ↦ by
        unfold Machine.instanceOf
        rw [getD_setIfInBounds]
        split
        · exact hvalue
        · exact hm.instanceOf ref }

theorem newVector (type : HostType) (x y : Decimal) : K.Gives (newVector type x y) :=
  (newNumber x).bind fun _ hx ↦ (newNumber y).bind fun _ hy ↦
    newInstance ⟨hx, hy, fun _ h ↦ nomatch h⟩

/-! ### Frames -/

theorem newScope {scope : Scope} (hscope : K.OpenBindings scope) :
    Maintains K.Holds (fun ref ↦ ¬K.scope ref) (newScope scope) :=
  .of_modifyGet
    (fun m hm ↦
      { hm with
        scopes := fun ref href ↦ by
          rw [Array.size_push]
          exact Nat.lt_succ_of_lt (hm.scopes ref href)
        bindings := fun ref href ↦ by
          change K.OpenBindings ((m.withScope scope).scope ref)
          rw [Machine.scope_withScope]
          split
          · exact hscope
          · exact hm.bindings ref href })
    fun _ hm href ↦ Nat.lt_irrefl _ (hm.scopes _ href)

theorem modifyScope (target : ScopeRef) {change : Scope → Scope}
    (hchange : ∀ scope, K.OpenBindings scope → K.OpenBindings (change scope)) :
    Spares K.Holds (modifyScope target change) :=
  .of_modify fun m hm ↦
    { hm with
      scopes := fun ref href ↦ by
        rw [Array.size_modify]
        exact hm.scopes ref href
      bindings := fun ref href ↦ by
        unfold Machine.scope
        rw [getD_modify]
        split
        · exact hchange _ (hm.bindings ref href)
        · exact hm.bindings ref href }

theorem bind (target : ScopeRef) (name : String) {cell : CellRef} (hcell : K.OpenCell cell) :
    Spares K.Holds (TreeScript.modifyScope target (·.insert name cell)) :=
  modifyScope target fun _ hscope ↦ hscope.insert name hcell

theorem putOnTop (frame : Frame) (name : String) {cell : CellRef} (hcell : K.OpenCell cell) :
    Spares K.Holds (frame.putOnTop name cell) :=
  bind frame.top name hcell

theorem put (frame : Frame) (name : String) {cell : CellRef} (hcell : K.OpenCell cell) :
    Spares K.Holds (frame.put name cell) :=
  .get_bind fun _ _ ↦ bind _ name hcell

theorem putSelf {frame : Frame} (hframe : K.OpenFrame frame) {cell : CellRef}
    (hcell : K.OpenCell cell) : Spares K.Holds (frame.putSelf cell) := by
  refine .get_bind fun m hm ↦ ?_
  dsimp only
  split
  · rename_i former hformer
    exact (putOnTop frame "super" (hm.lookUpName hframe _ former hformer)).bind fun _ ↦
      putOnTop frame "self" hcell
  · exact putOnTop frame "self" hcell

theorem remove (frame : Frame) (name : String) : Spares K.Holds (frame.remove name) := by
  refine .get_bind fun m _ ↦ ?_
  split
  · exact (modifyScope _ fun _ hscope ↦ hscope.erase name).bind fun _ ↦ .pure trivial
  · exact .pure trivial

theorem setVariable (context : ContextRef) (name : String) {cell : CellRef}
    (hcell : K.OpenCell cell) : Spares K.Holds (setVariable context name cell) :=
  .get_bind fun _ _ ↦ bind _ name hcell

theorem removeVariable (context : ContextRef) (name : String) :
    Spares K.Holds (removeVariable context name) :=
  .get_bind fun _ _ ↦ modifyScope _ fun _ hscope ↦ hscope.erase name

theorem forkWith (frame : Frame) {scope : Scope} (hscope : K.OpenBindings scope) :
    Maintains K.Holds K.OpenFrame (frame.forkWith scope) := by
  refine (newScope hscope).bind fun top htop ↦ .pure fun ref href ↦ ?_
  rw [List.mem_singleton.mp href]
  exact htop

theorem fork {site : Site} (hsite : K.OpenSite site) :
    Maintains K.Holds K.OpenSite site.fork := by
  refine Maintains.bind ?_ fun frame hframe ↦ .pure ⟨hsite.context, hframe⟩
  refine (newScope openBindings_empty).bind fun top htop ↦ .pure fun ref href ↦ ?_
  rcases List.mem_cons.mp href with rfl | href
  · exact htop
  · exact hsite.frame ref href

theorem forkSelf {site : Site} (hsite : K.OpenSite site) {self : CellRef}
    (hself : K.OpenCell self) : Maintains K.Holds K.OpenSite (site.forkSelf self) :=
  (fork hsite).bind fun _ hinner ↦ (putSelf hinner.frame hself).bind fun _ ↦ .pure hinner

end Enclosure

end TreeScript
