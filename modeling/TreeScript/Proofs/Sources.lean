import TreeScript.Proofs.Walk
import TreeScript.Session.Basic

/-!
# What sources declare and how they are found

A source declares what stands in its statements: an import for every import statement, a module for
every export statement, and a body of the statements that are neither (`Declarations.of_collect`).
What is looked up by name is a loaded source of that name (`Lookup.of_context?`), or a module of
that name in a loaded source (`Lookup.of_module?`).
-/

set_option autoImplicit false

namespace TreeScript

/-- A statement that is no import and no export. -/
def Node.IsBody (node : Node) : Prop :=
  (∀ name asName inline, node ≠ .importStatement name asName inline) ∧
    ∀ symbols name, node ≠ .exportStatement symbols name

/-- An import that is read from a text stands for no module yet. -/
theorem Import.target_of_parse {text : String} {i : Import} (h : parse text = .ok i) :
    i.target = none := by
  unfold parse at h
  dsimp only at h
  split at h
  all_goals
    cases h
    try rfl

namespace Declarations

/-- What is declared comes from statements of a source that may not import everything. -/
structure Among (statements : List Node) (forbidden : List String) (declared : Declarations) :
    Prop where
  imports : ∀ i ∈ declared.imports, i.target = none ∧ i.name ∉ forbidden ∧
    .importStatement i.name i.asName i.inline ∈ statements
  modules : ∀ module ∈ declared.modules, .exportStatement module.symbols module.name ∈ statements
  body : ∀ node ∈ declared.body, node ∈ statements ∧ node.IsBody

/-- One statement more declares what comes from the statements. -/
theorem of_add {source : String} {statements : List Node} {forbidden : List String}
    {declared after : Declarations} (h : declared.Among statements forbidden) {node : Node}
    (hnode : node ∈ statements) (hadd : add source forbidden declared node = .ok after) :
    after.Among statements forbidden := by
  unfold add at hadd
  split at hadd
  · rename_i name asName inline
    dsimp only at hadd
    split at hadd
    · cases hadd
    · rename_i hallowed
      split at hadd
      · cases hadd
      · cases hadd
        refine { h with imports := fun i hi ↦ ?_ }
        rcases Array.mem_push.mp hi with hi | rfl
        · exact h.imports i hi
        · exact ⟨rfl, fun hmem ↦ hallowed (List.contains_iff_mem.mpr hmem), hnode⟩
  · split at hadd
    · cases hadd
    · cases hadd
      refine { h with modules := fun module hmodule ↦ ?_ }
      rcases Array.mem_push.mp hmodule with hmodule | rfl
      · exact h.modules module hmodule
      · exact hnode
  · rename_i hnoImport hnoExport
    cases hadd
    refine { h with body := fun other hother ↦ ?_ }
    rcases Array.mem_push.mp hother with hother | rfl
    · exact h.body other hother
    · exact ⟨hnode, hnoImport, hnoExport⟩

/-- Assumes: a source that may declare what it does. What holds before its first statement, and is
kept by each of its statements, holds of what it declares. -/
theorem collect_induction {P : Declarations → Prop} {source : String} {forbidden : List String}
    {statements : List Node} {declared : Declarations}
    (h : collect source forbidden statements = .ok declared) (hstart : P {})
    (hadd : ∀ node ∈ statements, ∀ before after, P before →
      add source forbidden before node = .ok after → P after) : P declared := by
  have hfold : ∀ (nodes : List Node) (start : Declarations), nodes ⊆ statements → P start →
      ∀ after, nodes.foldlM (add source forbidden) start = .ok after → P after := by
    intro nodes
    induction nodes with
    | nil =>
      intro start _ hstart after hafter
      cases hafter
      exact hstart
    | cons node nodes ih =>
      intro start hsubset hstart after hafter
      rw [List.foldlM_cons] at hafter
      cases hnext : add source forbidden start node with
      | error e =>
        rw [hnext] at hafter
        cases hafter
      | ok next =>
        rw [hnext] at hafter
        have hnode : node ∈ statements := hsubset (List.mem_cons_self ..)
        exact ih next (fun _ hmem ↦ hsubset (List.mem_cons_of_mem _ hmem))
          (hadd node hnode start next hstart hnext) after hafter
  exact hfold statements {} (fun _ hmem ↦ hmem) hstart declared h

/-- What a source declares comes from its statements. -/
theorem of_collect {source : String} {forbidden : List String} {statements : List Node}
    {declared : Declarations} (h : collect source forbidden statements = .ok declared) :
    declared.Among statements forbidden := by
  refine collect_induction h ?_ fun node hnode before after hbefore hadd ↦ of_add hbefore hnode hadd
  exact ⟨fun _ h ↦ absurd h (Array.not_mem_empty _), fun _ h ↦ absurd h (Array.not_mem_empty _),
    fun _ h ↦ absurd h (Array.not_mem_empty _)⟩

/-- The names imports go by are told apart when they are collected. -/
theorem distinct_of_collect {source : String} {forbidden : List String}
    {statements : List Node} {declared : Declarations}
    (h : collect source forbidden statements = .ok declared) :
    declared.imports.toList.Pairwise fun i j ↦ i.key ≠ j.key := by
  refine collect_induction (P := fun d ↦ d.imports.toList.Pairwise fun i j ↦ i.key ≠ j.key) h .nil
    fun node _ before after hbefore hadd ↦ ?_
  unfold add at hadd
  split at hadd
  · dsimp only at hadd
    split at hadd
    · cases hadd
    · split at hadd
      · cases hadd
      · rename_i hnew
        cases hadd
        rw [Array.toList_push, List.pairwise_append]
        refine ⟨hbefore, List.pairwise_singleton .., fun i hi j hj hsame ↦ hnew ?_⟩
        rw [List.mem_singleton.mp hj] at hsame
        unfold hasImport
        rw [Array.any_eq_true']
        exact ⟨i, Array.mem_def.mpr hi, beq_iff_eq.mpr hsame⟩
  · split at hadd
    · cases hadd
    · cases hadd
      exact hbefore
  · cases hadd
    exact hbefore

end Declarations

namespace Session.Lookup

variable {m : Machine}

/-- A source that is found by name is loaded and has that name. -/
theorem of_context? {source : String} {ref : ContextRef} (h : context? m source = some ref) :
    ref ∈ m.loaded ∧ (m.context ref).source = source := by
  have hmem := List.mem_of_find?_eq_some h
  have hnamed := List.find?_some h
  exact ⟨Array.mem_def.mpr (List.mem_reverse.mp hmem), beq_iff_eq.mp hnamed⟩

/-- A module that is found by name is one of a loaded source and has that name. -/
theorem of_module? {name : String} {ref : ModuleRef} (h : module? m name = some ref) :
    ref.context ∈ m.loaded ∧ ∃ module ∈ (m.context ref.context).modules, module.name = name := by
  obtain ⟨context, hmem, hfound⟩ := List.exists_of_findSome?_eq_some h
  obtain ⟨⟨module, i⟩, hfind, rfl⟩ := Option.map_eq_some_iff.mp hfound
  have hindexed := List.mem_reverse.mp (List.mem_of_find?_eq_some hfind)
  have hnamed := List.find?_some hfind
  refine ⟨Array.mem_def.mpr (List.mem_reverse.mp hmem), module, ?_, beq_iff_eq.mp hnamed⟩
  exact Array.mem_def.mpr (List.fst_mem_of_mem_zipIdx hindexed)

end Session.Lookup

/-! ### Loading -/

namespace Machine

variable {m : Machine}

/-- The machine `modifyContext` leaves behind. -/
def withContext (m : Machine) (target : ContextRef) (change : Context → Context) : Machine :=
  { m with contexts := m.contexts.modify target.index change }

/-- Assumes: a source that there is. Its change changes no other source. -/
theorem context_withContext {target : ContextRef} (hloaded : target.index < m.contexts.size)
    (change : Context → Context) (ref : ContextRef) :
    (m.withContext target change).context ref =
      if ref = target then change (m.context target) else m.context ref := by
  refine (getD_modify m.contexts target.index ref.index default change).trans ?_
  by_cases hsame : ref = target
  · subst hsame
    rw [if_pos ⟨rfl, hloaded⟩, if_pos rfl]
    rfl
  · rw [if_neg fun h ↦ hsame (congrArg ContextRef.mk h.1.symm), if_neg hsame]
    rfl

/-- A machine with one more source, whose variables are in a new scope. -/
def withSource (m : Machine) (trace : StackTrace) (source : Context) : Machine :=
  { m with
    scopes := m.scopes.push {}, traces := m.traces.push trace, contexts := m.contexts.push source }

theorem context_withSource (trace : StackTrace) (source : Context) (ref : ContextRef) :
    (m.withSource trace source).context ref =
      if ref.index = m.contexts.size then source else m.context ref :=
  getD_push m.contexts ref.index source default

/-- A new source is changed as if it were made so. -/
theorem withContext_withSource (trace : StackTrace) (source : Context) (change : Context → Context) :
    (m.withSource trace source).withContext ⟨m.contexts.size⟩ change =
      m.withSource trace (change source) := by
  have hlast : (m.contexts.push source).modify m.contexts.size change =
      m.contexts.push (change source) := by
    refine Array.ext_getElem? fun i ↦ ?_
    rw [Array.getElem?_modify, Array.getElem?_push, Array.getElem?_push]
    by_cases hi : i = m.contexts.size
    · rw [if_pos hi.symm, if_pos hi, if_pos hi]
      rfl
    · rw [if_neg fun h ↦ hi h.symm, if_neg hi, if_neg hi]
  unfold withSource withContext
  rw [hlast]

end Machine

theorem newContext_apply (source : String) (debugValues : List String) (m : Machine) :
    newContext source debugValues m = .ok ⟨m.contexts.size⟩ (m.withSource { debugValues }
      { source, globals := ⟨m.scopes.size⟩, trace := ⟨m.traces.size⟩ }) :=
  rfl

theorem modifyContext_apply (target : ContextRef) (change : Context → Context) (m : Machine) :
    modifyContext target change m = .ok () (m.withContext target change) :=
  rfl

namespace Session

/-- A source as it is made from what it declares. -/
def sourceOf (m : Machine) (source : String) (declared : Declarations) : Context where
  source
  globals := ⟨m.scopes.size⟩
  trace := ⟨m.traces.size⟩
  imports := declared.imports
  modules := declared.modules
  body := declared.body.toList

/-- What is left of loading once a source has been made. -/
def enlist (context : ContextRef) (automatic : List String) (message : Nat → String) :
    Run ContextRef := do
  for text in automatic do
    let i ← Run.ofSource (Import.parse text)
    let _ ← addImport context i
  modify fun m => { m with loaded := m.loaded.push context }
  let imports := ((← get).context context).imports.size
  logVerbose (message imports)
  return context

variable {source : String} {statements : List Node} {isUser : Bool} {m : Machine}

/-- A source that may not declare what it does is not loaded. -/
theorem loadSource_error {e : SourceError}
    (h : Declarations.collect source (if isUser then m.options.forbiddenImports else []) statements =
      .error e) : loadSource source statements isUser m = .error e.failure m := by
  unfold loadSource
  rw [Run.get_bind]
  dsimp only
  rw [h]
  rfl

/-- A source is made from what it declares and then enlisted. -/
theorem loadSource_ok {declared : Declarations}
    (h : Declarations.collect source (if isUser then m.options.forbiddenImports else []) statements =
      .ok declared) :
    loadSource source statements isUser m =
      enlist ⟨m.contexts.size⟩ (if isUser then m.options.autoImports else [])
        (fun imports ↦
          s!"loaded {source}: {declared.modules.size} module(s), {imports} import(s)")
        (m.withSource { debugValues := m.options.traceValues } (sourceOf m source declared)) := by
  have hgiven : Run.ofSource (.ok declared) m = .ok declared m := rfl
  unfold loadSource enlist
  rw [Run.get_bind]
  dsimp only
  rw [h, Run.bind_ok hgiven, Run.bind_ok (newContext_apply source m.options.traceValues m),
    Run.bind_ok (modifyContext_apply _ _ _), Machine.withContext_withSource]
  cases isUser with
  | true => rfl
  | false => rfl

end Session

end TreeScript
