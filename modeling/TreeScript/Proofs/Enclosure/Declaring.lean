import TreeScript.Proofs.Enclosure.Store
import TreeScript.Proofs.Walk
import TreeScript.Session.Basic

/-!
# Sources that only declare natives

Running a source whose statements are native declarations makes cells and binds them as variables of
the source, and else does nothing: what there was before stays as it was, no scope, table or source
is made, all variables are bound to new cells, and these hold natives the source may declare
(`Declares`). The rules follow the way of a declaration, from its name being looked up at the root
of the source (`resolve`) to the statements one after the other (`runs`).
-/

set_option autoImplicit false

namespace TreeScript

/-- A statement that declares a native function. -/
def Node.DeclaresNative (node : Node) : Prop := ∃ name, node = .declaration name [] none true

/-- A cell that a machine does not have. -/
def Machine.Lacks (base : Machine) (cell : CellRef) : Prop := base.cells.size ≤ cell.index

/-- A native function a source may declare: one of a module it exports, or of a module named like
the source. -/
def Machine.Provides (m : Machine) (home : ContextRef) (function : Native) : Prop :=
  ∃ binding ∈ m.natives, binding.function = function ∧
    binding.module ∈ (m.context home).modules.toList.map (·.name) ++ [(m.context home).source]

/-- What a cell can hold that was made for a native declaration. -/
def Machine.Declarable (m : Machine) (home : ContextRef) : Content → Prop
  | .empty => True
  | .native _ function => m.Provides home function
  | _ => False

/-- One machine is another with cells more, which hold natives that a source may declare, and to
which its variables are bound. -/
structure Declares (base : Machine) (home : ContextRef) (m : Machine) : Prop where
  size : base.cells.size ≤ m.cells.size
  content : ∀ cell, ¬base.Lacks cell → m.content cell = base.content cell
  made : ∀ cell, base.Lacks cell → base.Declarable home (m.content cell)
  scopes : m.scopes.size = base.scopes.size
  scope : ∀ ref, ref ≠ (base.context home).globals → m.scope ref = base.scope ref
  globals : ∀ (name : String) (cell : CellRef),
    (m.scope (base.context home).globals)[name]? = some cell → base.Lacks cell ∧ ¬m.Lacks cell
  tables : m.tables = base.tables
  iterators : m.iterators = base.iterators
  instances : m.instances = base.instances
  contexts : m.contexts = base.contexts
  loaded : m.loaded = base.loaded
  evaluating : m.evaluating = base.evaluating
  natives : m.natives = base.natives
  forbidden : m.options.forbiddenImports = base.options.forbiddenImports
  automatic : m.options.autoImports = base.options.autoImports

namespace Declares

variable {base : Machine} {home : ContextRef}

/-- A source without variables has declared nothing. -/
theorem start (hempty : base.scope (base.context home).globals = {}) : Declares base home base where
  size := Nat.le_refl _
  content _ _ := rfl
  made cell hcell := by
    rw [Machine.content_of_missing hcell]
    exact trivial
  scopes := rfl
  scope _ _ := rfl
  globals name cell h := by
    rw [hempty, Std.TreeMap.getElem?_emptyc] at h
    cases h
  tables := rfl
  iterators := rfl
  instances := rfl
  contexts := rfl
  loaded := rfl
  evaluating := rfl
  natives := rfl
  forbidden := rfl
  automatic := rfl

theorem indifferent : Indifferent (Declares base home) := by
  intro m n h hm
  exact {
    size := h.cells ▸ hm.size
    content := fun cell hcell ↦ (h.content cell).trans (hm.content cell hcell)
    made := fun cell hcell ↦ h.content cell ▸ hm.made cell hcell
    scopes := h.scopes ▸ hm.scopes
    scope := fun ref href ↦ (h.scope ref).trans (hm.scope ref href)
    globals := fun name cell hbound ↦ by
      unfold Machine.Lacks
      rw [h.cells]
      exact hm.globals name cell (h.scope _ ▸ hbound)
    tables := h.tables.trans hm.tables
    iterators := h.iterators.trans hm.iterators
    instances := h.instances.trans hm.instances
    contexts := h.contexts.trans hm.contexts
    loaded := h.loaded.trans hm.loaded
    evaluating := h.evaluating.trans hm.evaluating
    natives := h.natives.trans hm.natives
    forbidden := h.forbidden.trans hm.forbidden
    automatic := h.automatic.trans hm.automatic }

/-! ### Cells and variables -/

/-- A computation that declares and gives a new cell. -/
abbrev Makes (base : Machine) (home : ContextRef) (x : Run CellRef) : Prop :=
  Maintains (Declares base home) base.Lacks x

theorem alloc {c : Content} (hc : base.Declarable home c) : Makes base home (alloc c) :=
  .of_modifyGet
    (fun m hm ↦
      { hm with
        size := by
          rw [Array.size_push]
          exact Nat.le_succ_of_le hm.size
        content := fun cell hcell ↦ by
          change (m.withCell c).content cell = _
          have hold : cell.index ≠ m.cells.size := fun h ↦ hcell (Nat.le_trans hm.size (Nat.le_of_eq h.symm))
          rw [Machine.content_withCell, if_neg hold]
          exact hm.content cell hcell
        made := fun cell hcell ↦ by
          change base.Declarable home ((m.withCell c).content cell)
          rw [Machine.content_withCell]
          split
          · exact hc
          · exact hm.made cell hcell
        globals := fun name cell hbound ↦ by
          obtain ⟨hnew, hmade⟩ := hm.globals name cell hbound
          refine ⟨hnew, fun hlacks ↦ hmade ?_⟩
          unfold Machine.Lacks at hlacks
          rw [Array.size_push] at hlacks
          exact Nat.le_of_succ_le hlacks })
    fun _ hm ↦ hm.size

theorem newEmpty : Makes base home newEmpty := alloc trivial

/-- New cells may be overwritten with what other new cells hold. -/
theorem inherit {target source : CellRef} (htarget : base.Lacks target)
    (hsource : base.Lacks source) : Spares (Declares base home) (inherit target source) :=
  .get_bind fun n hn ↦ .of_modify fun m hm ↦
    { hm with
      size := by
        rw [Array.size_setIfInBounds]
        exact hm.size
      content := fun cell hcell ↦ by
        have hother : ¬(target.index = cell.index ∧ cell.index < m.cells.size) :=
          fun h ↦ hcell (Nat.le_trans htarget (Nat.le_of_eq h.1))
        rw [Machine.content_write, if_neg hother]
        exact hm.content cell hcell
      made := fun cell hcell ↦ by
        rw [Machine.content_write]
        split
        · exact hn.made source hsource
        · exact hm.made cell hcell
      globals := fun name cell hbound ↦ by
        unfold Machine.Lacks
        rw [Array.size_setIfInBounds]
        exact hm.globals name cell hbound }

/-- A variable may be bound to a new cell that there is. -/
theorem bound {m : Machine} (hm : Declares base home m) (name : String) {cell : CellRef}
    (hnew : base.Lacks cell) (hmade : ¬m.Lacks cell) :
    Declares base home (m.bound (base.context home).globals name cell) :=
  { hm with
    scopes := by
      unfold Machine.bound
      rw [Array.size_modify]
      exact hm.scopes
    scope := fun ref href ↦ by
      have hother : ¬((base.context home).globals.index = ref.index ∧ ref.index < m.scopes.size) :=
        fun h ↦ href (congrArg ScopeRef.mk h.1.symm)
      rw [Machine.scope_bound, if_neg hother]
      exact hm.scope ref href
    globals := fun other found hfound ↦ by
      rw [Machine.scope_bound] at hfound
      split at hfound
      · rw [Std.TreeMap.getElem?_insert] at hfound
        split at hfound
        · cases hfound
          exact ⟨hnew, hmade⟩
        · exact hm.globals other found hfound
      · exact hm.globals other found hfound }

/-- A name that is put at the root of a source is put among its variables. -/
theorem put_apply (m : Machine) (name : String) (cell : CellRef) :
    (base.context home).frame.put name cell m =
      .ok () (m.bound (base.context home).globals name cell) := by
  have htarget : (m.binderOf? (base.context home).frame name).getD (base.context home).frame.top =
      (base.context home).globals := by
    cases hbinder : m.binderOf? (base.context home).frame name with
    | none => rfl
    | some ref => exact List.mem_singleton.mp (List.mem_of_find?_eq_some hbinder)
  unfold Frame.put
  rw [Run.get_bind, htarget]
  rfl

/-- A new variable is bound to a new cell. -/
theorem newVariable {α : Type} {Q : α → Prop} (name : String) {rest : CellRef → Run α}
    (hrest : ∀ cell, base.Lacks cell → Maintains (Declares base home) Q (rest cell)) :
    Maintains (Declares base home) Q (do
      let cell ← TreeScript.newEmpty
      (base.context home).frame.put name cell
      rest cell) := by
  intro m hm
  have hmade := (newEmpty.of_ok hm (newEmpty_apply m)).1
  rw [Run.bind_ok (newEmpty_apply m), Run.bind_ok (put_apply _ name _)]
  refine hrest _ hm.size _ (hmade.bound name hm.size fun hlacks ↦ ?_)
  unfold Machine.Lacks Machine.withCell at hlacks
  rw [Array.size_push] at hlacks
  exact Nat.lt_irrefl _ hlacks

theorem lookUpName {m : Machine} (hm : Declares base home m) {name : String} {cell : CellRef}
    (h : m.lookUpName (base.context home).frame name = some cell) : base.Lacks cell := by
  obtain ⟨ref, hmem, hbound⟩ := List.exists_of_findSome?_eq_some h
  obtain rfl : ref = (base.context home).globals := List.mem_singleton.mp hmem
  exact (hm.globals name cell hbound).1

theorem context {m : Machine} (hm : Declares base home m) (ref : ContextRef) :
    m.context ref = base.context ref :=
  Machine.context_congr hm.contexts ref

theorem global? {m : Machine} (hm : Declares base home m) {name : String} {cell : CellRef}
    (h : m.global? home name = some cell) : base.Lacks cell := by
  unfold Machine.global? at h
  rw [hm.context] at h
  exact (hm.globals name cell h).1

/-! ### Declarations -/

/-- The root of a source. -/
def root (base : Machine) (home : ContextRef) : Site := ⟨home, (base.context home).frame⟩

/-- A chain that has found a new cell. -/
def Found (base : Machine) (r : Resolution) : Prop := ∃ cell ∈ r.value, base.Lacks cell

/-- How far a chain at the root of a source has got before its first step. -/
def unresolved (base : Machine) (home : ContextRef) : Resolution :=
  { context := home, frame := (base.context home).frame }

section Chains

variable (origin : Node) (name : String)

theorem foundStep (i : Nat) (key source : String) {cell : CellRef} (hcell : base.Lacks cell)
    (r : Resolution) : Maintains (Declares base home) (Found base) (do
      logStep i key source
      return { r with value := some cell }) :=
  (indifferent.logStep i key source).bind fun _ ↦ .pure ⟨cell, rfl, hcell⟩

theorem createName (i : Nat) : Maintains (Declares base home) (Found base)
    (Chain.createName ⟨origin, root base home, .createIfMissing⟩ i true name
      (unresolved base home)) := by
  rw [Chain.createName_eq]
  have hcreating : Spares (Declares base home)
      (Chain.requireCreating ⟨origin, root base home, .createIfMissing⟩ name
        (unresolved base home)) :=
    .pure ()
  exact hcreating.bind fun _ ↦ newVariable name fun cell hcell ↦
    foundStep i name "created" hcell _

/-- Assumes: a source without imports. A name at its root stands for a new cell. -/
theorem resolveName (himports : (base.context home).imports = #[]) (i : Nat) :
    Maintains (Declares base home) (Found base)
      (Chain.resolveName ⟨origin, root base home, .createIfMissing⟩ i true name
        (unresolved base home)) := by
  refine .get_bind fun m hm ↦ ?_
  split
  · rename_i cell hbound
    exact (Maintains.pure (hm.lookUpName hbound)).bind fun _ hcell ↦ foundStep i name _ hcell _
  · refine .get_bind fun n hn ↦ ?_
    split
    · rename_i cell hglobal
      exact (Maintains.pure (hn.global? hglobal)).bind fun _ hcell ↦ foundStep i name _ hcell _
    · refine .get_bind fun k hk ↦ ?_
      have hnone : ((k.context home).imports).toList = [] := by
        rw [hk.context, himports]
      change Maintains _ _ (Chain.switchToImport _ name _ _ ((k.context home).imports).toList >>= _)
      rw [hnone, Chain.switchToImport, pure_bind]
      exact .ite (fun hforeign ↦ absurd rfl hforeign.2) fun _ ↦ createName origin name i

/-- Assumes: a source without imports. A chain that is a name at its root leads to a new cell. -/
theorem resolve (interp : Interp) (himports : (base.context home).imports = #[]) :
    Makes base home
      (resolve interp (root base home) origin .createIfMissing [.identifier name]) := by
  have hsteps : Makes base home (Chain.resolveSteps ⟨origin, root base home, .createIfMissing⟩
      interp 0 origin [.identifier name] (unresolved base home)) := by
    rw [Chain.resolveSteps_cons]
    refine Maintains.bind (.get_bind fun m _ ↦ resolveName origin name himports 0) fun r hr ↦ ?_
    obtain ⟨cell, hvalue, hcell⟩ := hr
    unfold Chain.resolveSteps
    rw [Option.mem_def.mp hvalue]
    exact .pure hcell
  unfold TreeScript.resolve
  refine Spares.check (Indifferent.raiseAt _ _ _) ?_
  exact .get_bind fun _ _ ↦ .ite (fun _ ↦ (indifferent.logInfo _).bind fun _ ↦ hsteps) fun _ ↦ hsteps

/-- A native that is found under the names of some modules is one of theirs. -/
theorem provides {m : Machine} (hm : Declares base home m) {function : Native}
    (hfound : m.native? ((base.context home).modules.toList.map (·.name) ++
      [(base.context home).source]) name = some function) : base.Provides home function := by
  obtain ⟨module, hmem, hbinding⟩ := List.exists_of_findSome?_eq_some hfound
  obtain ⟨binding, hfind, rfl⟩ := Option.map_eq_some_iff.mp hbinding
  have hnamed := List.find?_some hfind
  rw [Bool.and_eq_true, beq_iff_eq] at hnamed
  refine ⟨binding, hm.natives ▸ List.mem_of_find?_eq_some hfind, rfl, ?_⟩
  rwa [hnamed.1]

theorem declaredNative : Makes base home (declaredNative (root base home) name) := by
  unfold TreeScript.declaredNative
  refine Spares.check (Indifferent.raiseAt _ _ _) (.get_bind fun m hm ↦ .get_bind fun n hn ↦ ?_)
  dsimp only [root]
  rw [hm.context]
  split
  · rename_i function hfound
    have hprovided : base.Provides home function := provides name hn hfound
    exact indifferent.newStamp.bind fun _ ↦ alloc hprovided
  · exact Indifferent.raiseAt _ _ _

end Chains

/-- Assumes: a source without imports. The evaluation of a native declaration at its root declares.
-/
theorem declaration (himports : (base.context home).imports = #[]) {node : Node}
    (hnode : node.DeclaresNative) (mode : Mode) (fuel : Nat) :
    Spares (Declares base home) ((interp fuel).eval (root base home) mode node) := by
  obtain ⟨name, rfl⟩ := hnode
  cases fuel with
  | zero => exact Maintains.throw .outOfFuel
  | succ fuel =>
    have hdeclared : Makes base home ((interp fuel).declare (root base home)
        (.declaration name [] none true) name [] none true) :=
      (declaredNative name).bind fun _ hfunction ↦ (resolve _ name _ himports).bind
        fun _ hcell ↦ (inherit hcell hfunction).bind fun _ ↦ .pure hcell
    change Spares _ ((interp fuel).evalNode _ mode (.declaration name [] none true))
    refine indifferent.evalNode ?_
    exact hdeclared.bind fun _ _ ↦ .pure trivial

/-- Assumes: a source without imports. Native declarations one after the other declare. -/
theorem declarations (himports : (base.context home).imports = #[]) (mode : Mode) (fuel : Nat)
    (nodes : List Node) : (∀ node ∈ nodes, node.DeclaresNative) → ∀ last,
      Spares (Declares base home) ((interp fuel).sequenceFrom (root base home) mode last nodes) := by
  induction nodes with
  | nil => exact fun _ last ↦ .pure last
  | cons node nodes ih =>
    intro hnodes last
    obtain ⟨hnode, hrest⟩ := List.forall_mem_cons.mp hnodes
    refine (declaration himports hnode mode fuel).bind fun result ↦ ?_
    split
    · exact ih hrest result
    · exact .pure trivial

/-- Assumes: a source without imports whose statements are native declarations. Running it
declares. -/
theorem runs (himports : (base.context home).imports = #[]) {statements : List Node}
    (hstatements : ∀ node ∈ statements, node.DeclaresNative) :
    Spares (Declares base home) (Session.evaluateStatements home statements) := by
  refine .get_bind fun m hm ↦ ?_
  rw [hm.context]
  have hroot : Spares (Declares base home)
      ((interp Session.fuel).eval (root base home) .required (.root statements)) := by
    generalize Session.fuel = fuel
    cases fuel with
    | zero => exact Maintains.throw .outOfFuel
    | succ fuel =>
      change Spares _ ((interp fuel).evalNode _ .required (.root statements))
      refine indifferent.evalNode ?_
      exact newEmpty.bind fun _ _ ↦ declarations himports _ fuel _ hstatements _
  refine hroot.bind fun result ↦ .ite (fun _ ↦ ?_) fun _ ↦ .pure trivial
  exact .get_bind fun _ _ ↦ Spares.bind (Indifferent.raiseAt _ _ _) fun _ ↦ .pure trivial

end Declares

end TreeScript
