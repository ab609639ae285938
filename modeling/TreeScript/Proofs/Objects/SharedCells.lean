import TreeScript.Proofs.Objects.KeyCells

/-!
# Containers share cells

An element of a container is a cell, and so is a variable. Containers that are built by `push`, by
`::` or by `$extends` take in the very cells they are given (`push_shares`, `prepend_shares`,
`append_shares`, `extend_shares`), while literals and calls copy them. So an assignment to the
variable is an assignment to the element, and the other way round; `built_containers_share_cells`
says so.
-/

set_option autoImplicit false

namespace TreeScript

/-- A value is an object that has a cell under one of its keys. -/
def Machine.Contains (m : Machine) (container cell : CellRef) : Prop :=
  ∃ ref id, m.content container = .object ref ∧ (m.table ref).get? id = some cell

/-! ### Loops -/

/-- Assumes: a loop whose body keeps an invariant. It ends with the invariant; and what the body
brings about for some element, and undoes for none, holds in the end. -/
theorem Run.forIn_coverage {α ι : Type} {xs : List α} {body : α → PUnit → Run (ForInStep PUnit)}
    {I : Machine → Prop} {present : ι → Machine → Prop} {event : ι → α → Prop}
    (hbody : ∀ a ∈ xs, ∀ n, I n → ∃ n', body a ⟨⟩ n = .ok (.yield ⟨⟩) n' ∧ I n' ∧
      ∀ i, (present i n ∨ event i a) → present i n') {m : Machine} (hm : I m) :
    ∃ m', forIn xs ⟨⟩ body m = .ok ⟨⟩ m' ∧ I m' ∧
      ∀ i, (present i m ∨ ∃ a ∈ xs, event i a) → present i m' := by
  induction xs generalizing m with
  | nil =>
    refine ⟨m, rfl, hm, fun i h ↦ ?_⟩
    rcases h with hpresent | ⟨a, ha, -⟩
    · exact hpresent
    · cases ha
  | cons a xs ih =>
    obtain ⟨n, hstep, hn, hfirst⟩ := hbody a (List.mem_cons_self ..) m hm
    obtain ⟨m', hrest, hm', hlast⟩ := ih (fun b hb ↦ hbody b (List.mem_cons_of_mem _ hb)) hn
    refine ⟨m', ?_, hm', fun i h ↦ hlast i ?_⟩
    · rw [List.forIn_cons, Run.bind_ok hstep]
      exact hrest
    · rcases h with hpresent | ⟨b, hb, hevent⟩
      · exact .inl (hfirst i (.inl hpresent))
      · rcases List.mem_cons.mp hb with rfl | hb
        · exact .inl (hfirst i (.inr hevent))
        · exact .inr ⟨b, hb, hevent⟩

/-! ### Building containers -/

section

variable {m : Machine} {ref target source : TableRef} {cell : CellRef}

/-- An object that is built around a table contains what the table leads to. -/
theorem contains_newObject {id : KeyId} (hfound : (m.table ref).get? id = some cell) :
    (m.withCell (.object ref)).Contains ⟨m.cells.size⟩ cell :=
  ⟨ref, id, m.content_new _, hfound⟩

/-- A cell that holds an object exists. -/
theorem Machine.bound_of_object {cell : CellRef} (hobject : m.content cell = .object ref) :
    cell.index < m.cells.size :=
  Machine.bound_of_content (by rw [hobject]; exact nofun)

/-- Assumes: an object in order. A value that is pushed is under one of its keys. -/
theorem pushEntry_apply (horderly : m.Orderly ref) (value : CellRef) :
    ∃ m' id, pushEntry ref value m = .ok () m' ∧ (m'.table ref).get? id = some value ∧
      m.SameElsewhere m' ∧
      ∀ other : CellRef, other.index < m.cells.size → m'.content other = m.content other := by
  let numbered := m.withCell (.number (m.highestKey ref + Decimal.ofInt 1))
  have hnumbered : numbered.Orderly ref := horderly.withCell _
  refine ⟨numbered.after (.enter ref ⟨m.cells.size⟩ value), numbered.keyId ⟨m.cells.size⟩, rfl,
    ?_, rfl, fun other hother ↦ ?_⟩
  · rw [hnumbered.get?_enter, if_pos rfl]
  · exact Machine.content_old hother _

/-- What is entered in one table is not in the others. -/
theorem table_enter_of_ne {other : TableRef} (hother : other ≠ ref) (key value : CellRef) :
    (m.after (.enter ref key value)).table other = m.table other := by
  have hindex : ref.index ≠ other.index := fun hsame ↦ hother (TableRef.eq_iff.mpr hsame.symm)
  exact (getD_modify ..).trans (if_neg fun h ↦ hindex h.1)

/-- Assumes: two objects in order. Merging one into the other leaves the cells and the other tables
as they are, and the keys of the one lead in the other to the very cells they led to. -/
theorem mergeInto_apply (htarget : m.Orderly target) (hsource : m.Orderly source) :
    ∃ m', mergeInto target source m = .ok () m' ∧ m'.Orderly target ∧ m'.cells = m.cells ∧
      (∀ other, other ≠ target → m'.table other = m.table other) ∧
      ∀ id cell, (m.table source).get? id = some cell → (m'.table target).get? id = some cell := by
  let body (entry : Entry) (_ : PUnit) : Run (ForInStep PUnit) := do
    setEntry target entry.key entry.value
    return .yield ⟨⟩
  let reached (id : KeyId) (n : Machine) : Prop :=
    ∀ cell, (m.table source).get? id = some cell → (n.table target).get? id = some cell
  let Merging (n : Machine) : Prop := n.Orderly target ∧ n.cells = m.cells ∧
    ∀ other, other ≠ target → n.table other = m.table other
  have hbody : ∀ entry ∈ (m.table source).entries, ∀ n : Machine, Merging n →
      ∃ n', body entry ⟨⟩ n = .ok (.yield ⟨⟩) n' ∧ Merging n' ∧
        ∀ id, (reached id n ∨ m.keyId entry.key = id) → reached id n' := by
    rintro entry hentry n ⟨horderly, hcells, hothers⟩
    have hbound : entry.key.index < n.cells.size := by
      rw [hcells]
      exact hsource.keys entry hentry
    have hkey : n.keyId entry.key = m.keyId entry.key := by
      rw [Machine.keyId, Machine.content_congr hcells]
      rfl
    refine ⟨n.after (.enter target entry.key entry.value), rfl,
      ⟨horderly.after fun _ ↦ hbound, hcells, fun other hother ↦ ?_⟩, fun id h cell hfound ↦ ?_⟩
    · rw [table_enter_of_ne hother, hothers other hother]
    · rw [horderly.get?_enter, hkey]
      split
      · rename_i hsame
        rw [hsame, hsource.inOrder.get?_of_mem_entries hentry] at hfound
        exact hfound
      · rename_i hother
        exact h.resolve_right (fun hsame ↦ hother hsame.symm) cell hfound
  obtain ⟨m', hloop, ⟨hafter, hcells, hothers⟩, hreached⟩ :=
    Run.forIn_coverage hbody (m := m) ⟨htarget, rfl, fun _ _ ↦ rfl⟩
  refine ⟨m', ?_, hafter, hcells, hothers, fun id cell hfound ↦ ?_⟩
  · have htable : tableOf source m = .ok (m.table source) m := rfl
    unfold mergeInto
    rw [Run.bind_ok htable, Run.bind_ok hloop]
    rfl
  · obtain ⟨entry, hentry, hid, -⟩ := hsource.inOrder.mem_entries hfound
    exact hreached id (.inr ⟨entry, hentry, hid⟩) cell hfound

/-- Assumes: an object in order. A clone of it is in order, and its keys lead to the very cells they
lead to in the object. -/
theorem cloneTable_apply (hsource : m.Orderly source) :
    ∃ m', cloneTable source m = .ok ⟨m.tables.size⟩ m' ∧ m'.Orderly ⟨m.tables.size⟩ ∧
      m'.cells = m.cells ∧
      ∀ id cell, (m.table source).get? id = some cell →
        (m'.table ⟨m.tables.size⟩).get? id = some cell := by
  obtain ⟨m', hmerged, hafter, hcells, -, hreached⟩ :=
    mergeInto_apply m.orderly_newTable hsource.withTable
  have hcreated : newTable m = .ok ⟨m.tables.size⟩ m.withTable := rfl
  refine ⟨m', ?_, hafter, hcells, fun id cell hfound ↦ hreached id cell ?_⟩
  · unfold cloneTable
    rw [Run.bind_ok hcreated, Run.bind_ok hmerged]
    rfl
  · rw [Machine.table_withTable]
    exact hfound

/-- An array has the very cells it is made of. -/
theorem newArray_apply (items : List CellRef) (m : Machine) :
    ∃ out m', newArray items m = .ok out m' ∧ ∀ item ∈ items, m'.Contains out item := by
  let ref : TableRef := ⟨m.tables.size⟩
  let body (x : CellRef × Nat) (_ : PUnit) : Run (ForInStep PUnit) := do
    setEntry ref (← newNumber (Decimal.ofInt x.2)) x.1
    return .yield ⟨⟩
  let placed (p : Nat) (n : Machine) : Prop :=
    (n.table ref).get? (.number (Decimal.ofInt p)) = items[p]?
  have hbody : ∀ x ∈ items.zipIdx, ∀ n : Machine, n.Orderly ref →
      ∃ n', body x ⟨⟩ n = .ok (.yield ⟨⟩) n' ∧ n'.Orderly ref ∧
        ∀ p, (placed p n ∨ x.2 = p) → placed p n' := by
    intro x hx n hn
    have hitem : items[x.2]? = some x.1 := List.mem_zipIdx_iff_getElem?.mp hx
    let numbered := n.withCell (.number (Decimal.ofInt x.2))
    have hnumbered : numbered.Orderly ref := hn.withCell _
    have hkey : numbered.keyId ⟨n.cells.size⟩ = .number (Decimal.ofInt x.2) := by
      unfold Machine.keyId
      rw [Machine.content_new]
      rfl
    refine ⟨numbered.after (.enter ref ⟨n.cells.size⟩ x.1), rfl, hnumbered.after fun _ ↦ ?_,
      fun p h ↦ ?_⟩
    · exact size_lt_push _ _
    · change ((numbered.after _).table ref).get? _ = _
      rw [hnumbered.get?_enter, hkey]
      split
      · rename_i hsame
        have hplace : (x.2 : Int) = p := by simpa [Decimal.ofInt] using hsame.symm
        rw [← Int.ofNat_inj.mp hplace, hitem]
      · rename_i hother
        refine h.resolve_right fun hsame ↦ hother ?_
        rw [hsame]
  obtain ⟨m', hloop, -, hplaced⟩ := Run.forIn_coverage hbody m.orderly_newTable
  have hcreated : newTable m = .ok ref m.withTable := rfl
  have htable : newArrayTable items m = .ok ref m' := by
    unfold newArrayTable
    rw [Run.bind_ok hcreated, Run.bind_ok hloop]
    rfl
  refine ⟨⟨m'.cells.size⟩, m'.withCell (.object ref), ?_, fun item hitem ↦ ?_⟩
  · unfold newArray
    rw [Run.bind_ok htable]
    rfl
  · obtain ⟨p, hp⟩ := List.mem_iff_getElem?.mp hitem
    have hfound := hplaced p (.inr ⟨(item, p), List.mem_zipIdx_iff_getElem?.mpr hp, rfl⟩)
    exact contains_newObject (hfound.trans hp)

/-- Assumes: an object in order. After `push` it contains the very cell it was given. -/
theorem push_shares (call : Call) {owner : CellRef} (hobject : m.content owner = .object ref)
    (horderly : m.Orderly ref) (x : CellRef) :
    ∃ m', ObjectMethod.push.run call owner [x] m = .ok owner m' ∧ m'.Contains owner x ∧
      m.SameElsewhere m' ∧
      ∀ other : CellRef, other.index < m.cells.size → m'.content other = m.content other := by
  obtain ⟨m', id, hpushed, hfound, helsewhere, hkept⟩ := pushEntry_apply horderly x
  have htable := tableOrNew_apply hobject
  refine ⟨m', ?_, ⟨ref, id, ?_, hfound⟩, helsewhere, hkept⟩
  · change (tableOrNew owner >>= fun ref ↦ pushEntry ref x >>= fun _ ↦ pure owner) m = _
    rw [Run.bind_ok htable, Run.bind_ok hpushed]
    rfl
  · rw [hkept owner (Machine.bound_of_object hobject), hobject]

/-- Assumes: a plain value, and an array or another plain value. An array of the first with the
second behind it contains the very cell of the first. -/
theorem prepend_shares {x y : CellRef} (hx : m.tableOf? x = none)
    (hy : ∀ t, m.tableOf? y = some t → m.isArray t = true) :
    ∃ out m', appendValues x y m = .ok out m' ∧ m'.Contains out x := by
  have hgiven (items : List CellRef) (hitem : x ∈ items)
      (hsame : appendValues x y m = newArray items m) :
      ∃ out m', appendValues x y m = .ok out m' ∧ m'.Contains out x := by
    obtain ⟨out, m', hbuilt, hcontains⟩ := newArray_apply items m
    exact ⟨out, m', hsame.trans hbuilt, hcontains x hitem⟩
  cases htable : m.tableOf? y with
  | none =>
    refine hgiven [x, y] (List.mem_cons_self ..) ?_
    unfold appendValues
    rw [Run.get_bind, hx, htable]
  | some t =>
    refine hgiven (x :: (m.table t).values) (List.mem_cons_self ..) ?_
    unfold appendValues
    rw [Run.get_bind, hx, htable]
    dsimp only
    rw [if_pos (hy t htable)]

/-- Assumes: a plain value, and an object in order or another plain value. The second with the first
added to it contains the very cell of the first. -/
theorem append_shares {x y : CellRef} (hx : m.tableOf? x = none)
    (hy : ∀ s, m.tableOf? y = some s → m.Orderly s) :
    ∃ out m', appendValues y x m = .ok out m' ∧ m'.Contains out x := by
  cases htable : m.tableOf? y with
  | none =>
    obtain ⟨out, m', hbuilt, hcontains⟩ := newArray_apply [y, x] m
    refine ⟨out, m', ?_, hcontains x (by simp)⟩
    unfold appendValues
    rw [Run.get_bind, hx, htable]
    exact hbuilt
  | some s =>
    obtain ⟨n, hcloned, hclone, -, -⟩ := cloneTable_apply (hy s htable)
    obtain ⟨m', id, hpushed, hfound, -, -⟩ := pushEntry_apply hclone x
    refine ⟨⟨m'.cells.size⟩, m'.withCell (.object ⟨m.tables.size⟩), ?_, contains_newObject hfound⟩
    unfold appendValues
    rw [Run.get_bind, hx, htable]
    dsimp only
    rw [Run.bind_ok hcloned, Run.bind_ok hpushed]
    rfl

/-- What an object literal does that only extends an object. -/
theorem mapLiteral_extends (interp : Interp) (site : Site) (node : Node) :
    interp.mapLiteral site [(.identifier "$extends", node)] = (do
      let ref ← newTable
      let result ← newObject ref
      interp.extend site ref node
      return result) := by
  have hfirst : Interp.directive? (.identifier "$extends") = some .bases := rfl
  unfold Interp.mapLiteral
  refine bind_congr fun ref ↦ bind_congr fun result ↦ ?_
  simp only [List.forIn_cons, List.forIn_nil, hfirst, bind_assoc, pure_bind]
  refine bind_congr fun _ ↦ ?_
  rfl

/-- To extend the object that a name stands for is to merge it into the new one. -/
theorem extend_apply {interp : Interp} {site : Site} {name : String} {base : CellRef} {n m' : Machine}
    (hvalue : interp.value site (.identifier name) .required m = .ok base n)
    (hbase : n.tableOf? base = some source)
    (hmerged : mergeInto target source n = .ok () m') :
    interp.extend site target (.identifier name) m = .ok () m' := by
  have hbegun : interp.extendsSource site (.identifier name) m = .ok base n := hvalue
  unfold Interp.extend
  simp only [List.forIn_cons, List.forIn_nil, bind_assoc]
  rw [Run.bind_ok hbegun, Run.get_bind, hbase]
  dsimp only
  rw [bind_assoc, Run.bind_ok hmerged]
  rfl

/-- Assumes: no debugger, and a variable that holds an object in order. An object that extends it
contains the very cells that the object contains still. -/
theorem extend_shares (n : Nat) {site : Site} {name : String} {base : CellRef}
    (hdebugger : m.options.debugger = none) (hvisible : m.visible? site name = some base)
    (hobject : m.content base = .object source) (hsource : m.Orderly source) :
    ∃ out m', (interp (n + 1)).mapLiteral site [(.identifier "$extends", .identifier name)] m =
        .ok out m' ∧
      ∀ cell, m.Contains base cell → m'.Contains base cell ∧ m'.Contains out cell := by
  let target : TableRef := ⟨m.tables.size⟩
  let out : CellRef := ⟨m.cells.size⟩
  let started := m.withTable.withCell (.object target)
  obtain ⟨k, hvalue, hk⟩ := Interp.value_variable (m := started) n
    (nofun : Mode.required ≠ .createNew) hdebugger hvisible
  have htarget : k.Orderly target := (m.orderly_newTable.withCell _).unwound hk
  have hkept (cell : CellRef) (hcell : cell.index < m.cells.size) : k.content cell = m.content cell := by
    have hold : started.content cell = m.withTable.content cell := Machine.content_old hcell _
    exact (hk.content cell).trans hold
  have hbase : k.tableOf? base = some source := by
    unfold Machine.tableOf?
    rw [hkept base (Machine.bound_of_object hobject), hobject]
  obtain ⟨m', hmerged, -, hcells, hothers, hreached⟩ :=
    mergeInto_apply htarget ((hsource.withTable.withCell _).unwound hk)
  have hcreated : newTable m = .ok target m.withTable := rfl
  have hheld : newObject target m.withTable = .ok out started := rfl
  refine ⟨out, m', ?_, ?_⟩
  · rw [mapLiteral_extends, Run.bind_ok hcreated, Run.bind_ok hheld,
      Run.bind_ok (extend_apply hvalue hbase hmerged)]
    rfl
  · rintro cell ⟨ref, id, hcontent, hfound⟩
    cases hobject.symm.trans hcontent
    have hsame (other : CellRef) : m'.content other = k.content other :=
      Machine.content_congr hcells other
    have hled : (k.table source).get? id = some cell := by
      rw [hk.table]
      change (m.withTable.table source).get? id = _
      rw [Machine.table_withTable]
      exact hfound
    have hdifferent : source ≠ target := by
      rintro rfl
      exact Nat.lt_irrefl _ hsource.table
    refine ⟨⟨source, id, ?_, ?_⟩, ⟨target, id, ?_, hreached id cell hled⟩⟩
    · rw [hsame, hkept base (Machine.bound_of_object hobject), hobject]
    · rw [hothers source hdifferent]
      exact hled
    · rw [hsame, hk.content]
      exact m.withTable.content_new _

end

/-! ### Assigning to a shared cell -/

/-- Assumes: an assignment to a variable the cell of which a container has. The container has it
afterwards, with what is assigned. -/
theorem assign_reaches_element {m : Machine} {n : Nat} {site : Site} {operator name : String}
    {node : Node} {start : Machine} {new cell container : CellRef}
    (h : (interp (n + 1)).Assigning site operator node start new m)
    (hvisible : m.visible? site name = some cell) (hbound : cell.index < m.cells.size)
    (hother : container ≠ cell) (hcontains : m.Contains container cell) :
    ∃ m', (interp (n + 1)).assign site operator (.identifier name) node start = .ok cell m' ∧
      m'.Contains container cell ∧ m'.content cell = m.content new := by
  obtain ⟨m', hassigned, hm'⟩ := Interp.assign_variable h hvisible
  obtain ⟨ref, id, hobject, hfound⟩ := hcontains
  have hkept : ¬(Change.overwrite cell (m.content new)).Overwrites container := hother.symm
  refine ⟨m', hassigned, ⟨ref, id, ?_, ?_⟩, ?_⟩
  · rw [hm'.content, Machine.content_after hkept, hobject]
  · rw [hm'.table]
    exact hfound
  · rw [hm'.content, Machine.content_overwrite_self hbound]

/-- Containers built by `push`, by `::` and by `$extends` have the very cells they are built from.
So an assignment to a variable reaches the element of a container that has the cell of the variable,
and an assignment to the element reaches the variable, as it overwrites the cell the element is. -/
theorem built_containers_share_cells (m : Machine) :
    (∀ (call : Call) (owner x : CellRef) (ref : TableRef), m.content owner = .object ref →
      m.Orderly ref →
      ∃ m', ObjectMethod.push.run call owner [x] m = .ok owner m' ∧ m'.Contains owner x ∧
        m.SameElsewhere m' ∧
        ∀ other : CellRef, other.index < m.cells.size → m'.content other = m.content other) ∧
    (∀ x y : CellRef, m.tableOf? x = none → (∀ t, m.tableOf? y = some t → m.isArray t = true) →
      ∃ out m', appendValues x y m = .ok out m' ∧ m'.Contains out x) ∧
    (∀ x y : CellRef, m.tableOf? x = none → (∀ s, m.tableOf? y = some s → m.Orderly s) →
      ∃ out m', appendValues y x m = .ok out m' ∧ m'.Contains out x) ∧
    (∀ (n : Nat) (site : Site) (name : String) (base : CellRef) (source : TableRef),
      m.options.debugger = none → m.visible? site name = some base →
      m.content base = .object source → m.Orderly source →
      ∃ out m', (interp (n + 1)).mapLiteral site [(.identifier "$extends", .identifier name)] m =
          .ok out m' ∧
        ∀ cell, m.Contains base cell → m'.Contains base cell ∧ m'.Contains out cell) ∧
    (∀ (n : Nat) (site : Site) (operator name : String) (node : Node) (start : Machine)
      (new cell container : CellRef), (interp (n + 1)).Assigning site operator node start new m →
      m.visible? site name = some cell → cell.index < m.cells.size → container ≠ cell →
      m.Contains container cell →
      ∃ m', (interp (n + 1)).assign site operator (.identifier name) node start = .ok cell m' ∧
        m'.Contains container cell ∧ m'.content cell = m.content new) ∧
    (∀ (n : Nat) (site : Site) (operator name : String) (step node : Node) (start evaluated : Machine)
      (new owner key cell : CellRef) (ref : TableRef),
      (interp (n + 1)).Assigning site operator node start new evaluated →
      (∀ args, step ≠ .call args) →
      (interp n).ComesTo site .createIfMissing name step evaluated owner key m →
      m.content owner = .object ref → m.Intact ref → m.PlainKey key →
      m.lookUp ref key = some cell →
      ∃ m', (interp (n + 1)).assign site operator (entryChain name step) node start = .ok cell m' ∧
        m'.content cell = m.content new) := by
  refine ⟨fun call owner x ref hobject horderly ↦ push_shares call hobject horderly x,
    fun x y hx hy ↦ prepend_shares hx hy, fun x y hx hy ↦ append_shares hx hy, ?_, ?_, ?_⟩
  · intro n site name base source hdebugger hvisible hobject hsource
    exact extend_shares n hdebugger hvisible hobject hsource
  · intro n site operator name node start new cell container hassigning hvisible hbound hother
      hcontains
    exact assign_reaches_element hassigning hvisible hbound hother hcontains
  · intro n site operator name step node start evaluated new owner key cell ref hassigning hstep
      hcomes hobject hintact hplain hfound
    obtain ⟨written, m', hassigned, hwritten⟩ := assign_entry hassigning.plain hstep
      hassigning.value hcomes hobject hintact hplain
    cases hwritten.kept cell hfound
    exact ⟨m', hassigned, hwritten.content⟩

/-- After `o.push(k)` and `k = false`, the object has `false` where the string was pushed. -/
theorem pushed_element_is_overwritten :
    ∃ m₁ m₂, ObjectMethod.push.run (.detached 0 0) ⟨0⟩ [⟨1⟩] keyedObject = .ok ⟨0⟩ m₁ ∧
      m₁.Contains ⟨0⟩ ⟨1⟩ ∧ m₁.content ⟨1⟩ = .string "a" ∧
      (interp 1).assign heldSite "=" (.identifier "k") (.boolean false) m₁ = .ok ⟨1⟩ m₂ ∧
      m₂.Contains ⟨0⟩ ⟨1⟩ ∧ m₂.content ⟨1⟩ = .boolean false := by
  obtain ⟨hpush, -⟩ := built_containers_share_cells keyedObject
  obtain ⟨m₁, hpushed, hcontains, helsewhere, hkept⟩ := hpush (.detached 0 0) ⟨0⟩ ⟨1⟩ ⟨0⟩ rfl
    (Machine.orderly_of_empty (by decide) rfl)
  have hkey : m₁.content ⟨1⟩ = .string "a" := hkept ⟨1⟩ (by decide)
  have hdebugger : m₁.options.debugger = none := by
    rw [helsewhere.options]
    rfl
  have hvisible : m₁.visible? heldSite "k" = some ⟨1⟩ := by
    rw [helsewhere.visible?]
    decide
  have hbound : (⟨1⟩ : CellRef).index < m₁.cells.size :=
    Machine.bound_of_content (by rw [hkey]; exact nofun)
  obtain ⟨k, hvalue, hk⟩ := Interp.value_boolean 0 heldSite false hdebugger
  have hlater : k.Contains ⟨0⟩ ⟨1⟩ := by
    obtain ⟨ref, id, hobject, hfound⟩ := hcontains
    refine ⟨ref, id, ?_, ?_⟩
    · rw [hk.content, Machine.content_old (Nat.zero_lt_of_lt hbound), hobject]
    · rw [hk.table]
      exact hfound
  obtain ⟨-, -, -, -, hassign, -⟩ := built_containers_share_cells k
  obtain ⟨m₂, hassigned, hafter, hholds⟩ := hassign 0 heldSite "=" "k" (.boolean false) m₁ _ ⟨1⟩ ⟨0⟩
    ⟨.inr rfl, hvalue, by rw [hk.options]; exact hdebugger⟩ ((hk.visible? _ _).trans hvisible)
    (by rw [hk.cells]; exact Nat.lt_trans hbound (size_lt_push _ _))
    (by decide) hlater
  refine ⟨m₁, m₂, hpushed, hcontains, hkey, hassigned, hafter, ?_⟩
  rw [hholds, hk.content, Machine.content_new]

end TreeScript
