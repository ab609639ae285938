import TreeScript.Proofs.Enclosure.Evaluation
import TreeScript.Proofs.Sources

/-!
# Sessions under an enclosure

Loading a source adds one more source to the interpreter, which is open unless it takes the name of
an enclosed module or exports a module of such a name (`load`): a forbidden import is refused, and
the automatic imports bring in nothing of the module. Linking leads an open import to an open source,
because enclosed sources have no modules but enclosed ones and no open import asks for these
(`linked`). Running passes over the enclosed sources, which have been run already
(`evaluateContext`), and runs the statements of the others at open sites. So a session keeps an
enclosure (`evaluate`, `runProgram`), unless it is told to run more statements in an enclosed source
(`evaluateIn`).
-/

set_option autoImplicit false

namespace TreeScript

open Session Session.Lookup

/-- What a source may not declare ends a computation, and what it declares goes on. -/
theorem Maintains.ofSource {I : Machine → Prop} {α : Type} (result : Except SourceError α) :
    Maintains I (fun a ↦ result = .ok a) (Run.ofSource result) := by
  cases result with
  | ok a => exact .pure rfl
  | error e => exact .throw e.failure

namespace Enclosure

variable {K : Enclosure} {m : Machine} {α : Type} {Q : α → Prop} {context : ContextRef}

/-- An import that brings in nothing enclosed. -/
structure OpenImport (K : Enclosure) (i : Import) : Prop where
  name : ¬K.module i.name
  target : ∀ ref ∈ i.target, K.OpenContext ref.context

/-- Statements that export no module of a name. -/
def ExportsNothing (module : String) (statements : List Node) : Prop :=
  ∀ symbols, .exportStatement symbols module ∉ statements

theorem Holds.loaded_of_context (h : K.Holds m) (hcontext : K.context context) :
    context.index < m.contexts.size := by
  refine Decidable.byContradiction fun hmissing ↦ ?_
  have hevaluated := (h.settled context hcontext).evaluated
  rw [Machine.context_of_missing (Nat.le_of_not_lt hmissing)] at hevaluated
  cases hevaluated

theorem OpenSource.openImport {source : Context} (h : K.OpenSource source) {i : Import}
    (hi : i ∈ source.imports) : K.OpenImport i :=
  ⟨h.imports i hi, h.target i hi⟩

/-! ### Changes of sources -/

/-- A source may change as long as an open one stays open and an enclosed one settled. -/
theorem modifyContext {target : ContextRef} (hloaded : target.index < K.sources)
    {change : Context → Context}
    (hopen : K.OpenContext target → ∀ source, K.OpenSource source → K.OpenSource (change source))
    (hsettled : K.context target → ∀ source, Settled K source → Settled K (change source)) :
    Spares K.Holds (modifyContext target change) := by
  refine .of_modify fun m hm ↦ ?_
  have htarget : target.index < m.contexts.size := hm.sources ▸ hloaded
  have hcontext := Machine.context_withContext htarget change
  exact { hm with
    sources := by
      rw [Array.size_modify]
      exact hm.sources
    source := fun ref href ↦ by
      change K.OpenSource ((m.withContext target change).context ref)
      rw [hcontext]
      split
      · rename_i hsame
        rw [hsame] at href
        exact hopen href _ (hm.source _ href)
      · exact hm.source ref href
    settled := fun ref href ↦ by
      change Settled K ((m.withContext target change).context ref)
      rw [hcontext]
      split
      · rename_i hsame
        rw [hsame] at href
        exact hsettled href _ (hm.settled _ href)
      · exact hm.settled ref href }

theorem addImport (hopen : K.OpenContext context) {i : Import} (hi : K.OpenImport i) :
    Spares K.Holds (addImport context i) := by
  refine .get_bind fun m _ ↦ .ite (fun _ ↦ .pure trivial) fun _ ↦ ?_
  refine Spares.bind (modifyContext hopen.2 (fun _ source hsource ↦ ?_)
    fun hcontext ↦ absurd hcontext hopen.1) fun _ ↦ .pure trivial
  refine { hsource with target := fun j hj ↦ ?_, imports := fun j hj ↦ ?_ }
  · rcases Array.mem_push.mp hj with hj | rfl
    · exact hsource.target j hj
    · exact hi.target
  · rcases Array.mem_push.mp hj with hj | rfl
    · exact hsource.imports j hj
    · exact hi.name

/-! ### Loading -/

/-- The same enclosure in an interpreter with another number of sources. -/
def spanning (K : Enclosure) (sources : Nat) : Enclosure := { K with sources }

theorem covers_spanning {n : Nat} (hmore : K.sources ≤ n) : K.Covers (K.spanning n) :=
  ⟨fun _ h ↦ h, fun _ h ↦ h, fun _ h ↦ h, fun _ h ↦ h, fun _ h ↦ h, fun _ h ↦ h, fun _ h ↦ h, hmore⟩

theorem Settled.spanning {source : Context} (h : Settled K source) (n : Nat) :
    Settled (K.spanning n) source :=
  ⟨h.evaluated, h.modules⟩

/-- Assumes: a source that is open in the larger interpreter. A machine respects an enclosure with
it, too. -/
theorem Holds.withSource (h : K.Holds m) (trace : StackTrace) {source : Context}
    (hsource : (K.spanning (K.sources + 1)).OpenSource source) :
    (K.spanning (K.sources + 1)).Holds (m.withSource trace source) := by
  have hcovers : K.Covers (K.spanning (K.sources + 1)) := covers_spanning (Nat.le_succ _)
  have hcontext (ref : ContextRef) :
      (m.withSource trace source).context ref =
        if ref.index = K.sources then source else m.context ref := by
    rw [← h.sources]
    exact Machine.context_withSource trace source ref
  exact {
    cells := h.cells
    tables := h.tables
    iterators := h.iterators
    scopes := fun ref href ↦ by
      change ref.index < (m.scopes.push {}).size
      rw [Array.size_push]
      exact Nat.lt_succ_of_lt (h.scopes ref href)
    content := fun cell hcell ↦ hcovers.openContent (h.content cell hcell)
    table := fun ref href ↦ hcovers.openTable (h.table ref href)
    bindings := fun ref href ↦ by
      change K.OpenBindings ((m.withScope {}).scope ref)
      rw [Machine.scope_withScope]
      split
      · exact openBindings_empty
      · exact h.bindings ref href
    remaining := h.remaining
    sameContent := h.sameContent
    sameTable := h.sameTable
    sameRemaining := h.sameRemaining
    instanceOf := fun ref ↦ hcovers.openInstance (h.instanceOf ref)
    sources := by
      change (m.contexts.push source).size = K.sources + 1
      rw [Array.size_push, h.sources]
    source := fun ref href ↦ by
      rw [hcontext]
      split
      · exact hsource
      · rename_i hother
        have hformer : ref.index < K.sources := Nat.lt_of_le_of_ne (Nat.le_of_lt_succ href.2) hother
        exact hcovers.openSource (h.source ref ⟨href.1, hformer⟩)
    settled := fun ref href ↦ by
      have hloaded := h.loaded_of_context href
      rw [hcontext, if_neg (h.sources ▸ Nat.ne_of_lt hloaded)]
      exact (h.settled ref href).spanning _
    loaded := fun ref href ↦ Nat.lt_succ_of_lt (h.loaded ref href)
    natives := h.natives
    registered := h.registered
    forbidden := h.forbidden
    automatic := h.automatic }

/-- A machine that respects an enclosure, however many sources there are. -/
def Respected (K : Enclosure) (m : Machine) : Prop := (K.spanning m.contexts.size).Holds m

theorem Holds.respected (h : K.Holds m) : K.Respected m := by
  unfold Respected
  rw [h.sources]
  exact h

theorem respected_of_holds {o : Outcome α} {n : Nat} (h : Outcome.Holds (K.spanning n).Holds Q o) :
    Outcome.Holds K.Respected Q o := by
  cases h with
  | ok hn ha => exact .ok hn.respected ha
  | error hn => exact .error hn.respected

/-- What keeps an enclosure whatever the number of sources keeps it respected. -/
theorem respected {x : Run α} (h : ∀ n, Maintains (K.spanning n).Holds Q x) :
    Maintains K.Respected Q x :=
  fun m hm ↦ respected_of_holds (h m.contexts.size m hm)

/-- An automatic import is open. -/
theorem openImport_of_parse {automatic : List String}
    (h : ∀ name, K.module name → ImportsNothing name automatic) {text : String} (htext : text ∈ automatic) {i : Import} (hparse : Import.parse text = .ok i) :
    K.OpenImport i := by
  refine ⟨fun hnamed ↦ h _ hnamed text htext i hparse rfl, fun ref href ↦ ?_⟩
  rw [Import.target_of_parse hparse] at href
  cases href

/-- Assumes: an open source. Entering it in the list of loaded sources keeps the enclosure. -/
theorem enlist (hopen : K.OpenContext context) {automatic : List String}
    (hautomatic : ∀ name, K.module name → ImportsNothing name automatic) (message : Nat → String) :
    Spares K.Holds (Session.enlist context automatic message) := by
  have hlisted : Spares K.Holds
      (modify fun m : Machine ↦ { m with loaded := m.loaded.push context } : Run Unit) :=
    .of_modify fun m hm ↦
      { hm with
        loaded := fun ref href ↦ by
          rcases Array.mem_push.mp href with href | rfl
          · exact hm.loaded ref href
          · exact hopen.2 }
  refine Spares.bind (Spares.forIn (fun text htext _ ↦ ?_) _) fun _ ↦ hlisted.bind fun _ ↦
    .get_bind fun _ _ ↦ (indifferent.logVerbose _).bind fun _ ↦ .pure trivial
  refine (Maintains.ofSource _).bind fun i hparse ↦ ?_
  exact (addImport hopen (openImport_of_parse hautomatic htext hparse)).bind fun _ ↦ .pure trivial

/-- Assumes: a user's source that does not take the name of an enclosed module and exports no module
of such a name. Loading it keeps the enclosure. -/
theorem load {source : String} {statements : List Node} (hname : ¬K.module source)
    (hexports : ∀ name, K.module name → ExportsNothing name statements) :
    Spares K.Respected (Session.load source statements) := by
  intro m hm
  cases hcollect : Declarations.collect source m.options.forbiddenImports statements with
  | error e =>
    unfold Session.load
    rw [loadSource_error hcollect]
    exact .error hm
  | ok declared =>
    have hdeclared := Declarations.of_collect hcollect
    -- From here on there is one more source, and it is open.
    have hnew : (K.spanning (m.contexts.size + 1)).OpenSource (sourceOf m source declared) :=
      { globals := fun h ↦ Nat.lt_irrefl _ (hm.scopes _ h)
        target := fun i hi ref href ↦ by
          rw [(hdeclared.imports i hi).1] at href
          cases href
        imports := fun i hi hnamed ↦ (hdeclared.imports i hi).2.1 (hm.forbidden _ hnamed)
        modules := fun module hmodule hnamed ↦
          hexports _ hnamed module.symbols (hdeclared.modules module hmodule)
        name := hname }
    have hmade := hm.withSource { debugValues := m.options.traceValues } hnew
    have hopen : (K.spanning (m.contexts.size + 1)).OpenContext ⟨m.contexts.size⟩ :=
      ⟨fun h ↦ Nat.lt_irrefl _ (hm.loaded_of_context h), Nat.lt_succ_self _⟩
    unfold Session.load
    rw [loadSource_ok hcollect]
    exact respected_of_holds (enlist hopen hm.automatic _ _ hmade)

/-! ### Linking -/

/-- An open import is linked to an open source: the enclosed ones have no modules but enclosed ones,
and it asks for another. -/
theorem linked {i : Import} (hi : K.OpenImport i) :
    Maintains K.Holds K.OpenImport (Session.linked i) := by
  refine .ite (fun _ ↦ .pure hi) fun _ ↦ .get_bind fun m hm ↦ ?_
  split
  · rename_i ref hfound
    obtain ⟨hloaded, module, hmodule, hnamed⟩ := of_module? hfound
    refine .pure { hi with target := fun found href ↦ ?_ }
    obtain rfl : ref = found := Option.some.inj href
    refine ⟨fun henclosed ↦ hi.name ?_, hm.loaded _ hloaded⟩
    rw [← hnamed]
    exact (hm.settled _ henclosed).modules module hmodule
  · exact .throw _

theorem linkContext (hloaded : context.index < K.sources) :
    Spares K.Holds (linkContext context) := by
  refine .get_bind fun m hm ↦ Spares.bind (Spares.forIn (fun (i, k) hmem _ ↦ ?_) _) fun _ ↦
    .pure trivial
  have hset {j : Import} (hj : ¬K.context context → K.OpenImport j) : Spares K.Holds
      (TreeScript.modifyContext context fun c ↦
        { c with imports := c.imports.setIfInBounds k j }) := by
    refine modifyContext hloaded (fun hopen source hsource ↦ ?_) fun _ source hsource ↦
      ⟨hsource.evaluated, hsource.modules⟩
    have hentry {j' : Import} (h : j' ∈ source.imports.setIfInBounds k j) : K.OpenImport j' := by
      rcases Array.mem_or_eq_of_mem_setIfInBounds h with h | rfl
      · exact hsource.openImport h
      · exact hj hopen.1
    exact { hsource with
      target := fun j' h ↦ (hentry h).target, imports := fun j' h ↦ (hentry h).name }
  by_cases henclosed : K.context context
  · have hlinked : Spares K.Holds (Session.linked i) := by
      refine .ite (fun _ ↦ .pure trivial) fun _ ↦ .get_bind fun m _ ↦ ?_
      split
      · exact .pure trivial
      · exact .throw _
    exact hlinked.bind fun _ ↦ (hset fun h ↦ absurd henclosed h).bind fun _ ↦ .pure trivial
  · have hi : K.OpenImport i :=
      (hm.source context ⟨henclosed, hloaded⟩).openImport
        (Array.mem_def.mpr (List.fst_mem_of_mem_zipIdx hmem))
    exact (linked hi).bind fun _ hj ↦ (hset fun _ ↦ hj).bind fun _ ↦ .pure trivial

theorem link : Spares K.Holds link :=
  .get_bind fun _ hm ↦ Spares.bind (Spares.forInArray (fun context hmem _ ↦
    (linkContext (hm.loaded context hmem)).bind fun _ ↦ .pure trivial) _) fun _ ↦ .pure trivial

/-! ### Running -/

theorem evaluateStatements (hopen : K.OpenContext context) (statements : List Node) :
    K.Gives (evaluateStatements context statements) := by
  refine .get_bind fun m hm ↦ ?_
  have hsite : K.OpenSite ⟨context, (m.context context).frame⟩ :=
    ⟨hopen, (hm.source context hopen).frame⟩
  refine ((openInterp K Session.fuel).eval _ _ _ hsite).bind fun result hresult ↦ ?_
  exact .ite (fun _ ↦ .get_bind fun _ _ ↦ Spares.bind (raiseAt _ _ _) fun _ ↦ .pure hresult)
    fun _ ↦ .pure hresult

/-- Which sources are being evaluated does not matter. -/
theorem markEvaluating (change : Machine → List ContextRef) : Spares K.Holds
    (modify fun m : Machine ↦ { m with evaluating := change m } : Run Unit) :=
  .of_modify fun _ hm ↦ { hm with }

theorem whileEvaluating (context : ContextRef) {act : Run α} (h : Maintains K.Holds Q act) :
    Maintains K.Holds Q (whileEvaluating context act) := by
  refine (markEvaluating _).bind fun _ ↦ ?_
  refine (Maintains.tryCatch h fun e ↦ ?_).bind fun result hresult ↦ ?_
  · exact (markEvaluating _).bind fun _ ↦ .throw e
  · exact (markEvaluating _).bind fun _ ↦ .pure hresult

/-- The sources an open one depends on are open. -/
theorem Holds.dependencies (hm : K.Holds m) (hopen : K.OpenContext context) :
    ∀ dependency ∈ dependencies m context, K.OpenContext dependency := by
  intro dependency hmem
  obtain ⟨i, hi, hfound⟩ := List.mem_filterMap.mp hmem
  obtain ⟨hfound, -⟩ := Option.filter_eq_some_iff.mp hfound
  obtain ⟨ref, href, rfl⟩ := Option.map_eq_some_iff.mp hfound
  exact (hm.source context hopen).target i (Array.mem_def.mpr hi) ref href

/-- A source that is enclosed has been run, and one that is open runs at its own root, which is
open. -/
theorem evaluateContext (fuel : Nat) :
    ∀ context : ContextRef, context.index < K.sources →
      Spares K.Holds (evaluateContext fuel context) := by
  induction fuel with
  | zero => exact fun context _ ↦ newEmpty.spares
  | succ fuel ih =>
    intro context hloaded
    refine .get_bind fun m hm ↦ .ite (fun _ ↦ newEmpty.spares) fun hpending ↦ ?_
    have hopen : K.OpenContext context := by
      refine ⟨fun henclosed ↦ hpending ?_, hloaded⟩
      rw [(hm.settled context henclosed).evaluated]
      rfl
    refine whileEvaluating context (.get_bind fun n hn ↦ ?_)
    refine Spares.bind (Spares.forIn (fun dependency hmem _ ↦ ?_) _) fun _ ↦ .get_bind fun _ _ ↦ ?_
    · exact (ih dependency (hn.dependencies hopen dependency hmem).2).bind fun _ ↦ .pure trivial
    · refine (indifferent.logVerbose _).bind fun _ ↦ Spares.bind ?_ fun _ ↦
        (evaluateStatements hopen _).spares
      exact modifyContext hloaded (fun _ _ hsource ↦ { hsource with }) fun _ _ hsource ↦
        ⟨rfl, hsource.modules⟩

theorem evaluateLoaded (hloaded : context.index < K.sources) :
    Spares K.Holds (evaluateLoaded context) :=
  .get_bind fun _ _ ↦ evaluateContext _ context hloaded

theorem requireContext (source : String) :
    Maintains K.Holds (fun context ↦ context.index < K.sources) (requireContext source) := by
  refine .get_bind fun m hm ↦ ?_
  split
  · rename_i context hfound
    exact .pure (hm.loaded context (of_context? hfound).1)
  · exact .throw _

theorem run (source : String) : Spares K.Holds (run source) :=
  (requireContext source).bind fun _ hloaded ↦ link.bind fun _ ↦ evaluateLoaded hloaded

theorem runAll : Spares K.Holds runAll := by
  refine link.bind fun _ ↦ .get_bind fun m hm ↦
    Spares.bind (Spares.forInArray (fun context hmem _ ↦ ?_) _) fun _ ↦ .pure trivial
  refine .get_bind fun _ _ ↦ .ite (fun _ ↦ ?_) fun _ ↦ .pure trivial
  exact (evaluateLoaded (hm.loaded context hmem)).bind fun _ ↦ .pure trivial

/-- Assumes: as for `load`. Loading a source and running it keeps the enclosure. -/
theorem evaluate {source : String} {statements : List Node} (hname : ¬K.module source)
    (hexports : ∀ name, K.module name → ExportsNothing name statements) :
    Spares K.Respected (evaluate source statements) :=
  (load hname hexports).bind fun _ ↦ respected fun _ ↦ run source

/-- Assumes: statements that export no module of an enclosed name, for a source that is not
enclosed. Running them there keeps the enclosure. -/
theorem evaluateIn {source : String} {statements : List Node}
    (hexports : ∀ name, K.module name → ExportsNothing name statements) (hm : K.Holds m)
    (htarget : ∀ context ∈ context? m source, ¬K.context context) :
    Outcome.Holds K.Holds (fun _ ↦ True) (evaluateIn source statements m) := by
  unfold Session.evaluateIn Session.requireContext
  rw [bind_assoc, Run.get_bind]
  cases hfound : context? m source with
  | none => exact .error hm
  | some context =>
    have hopen : K.OpenContext context :=
      ⟨htarget context hfound, hm.loaded context (of_context? hfound).1⟩
    refine (?_ : Spares K.Holds _) m hm
    rw [pure_bind]
    refine .get_bind fun n hn ↦ ?_
    refine (Maintains.ofSource _).bind fun declared hcollect ↦ ?_
    have hdeclared := Declarations.of_collect hcollect
    have hmodules : Spares K.Holds (TreeScript.modifyContext context fun c ↦
        { c with modules := c.modules ++ declared.modules }) := by
      refine modifyContext hopen.2 (fun _ source hsource ↦ ?_) fun h ↦ absurd h hopen.1
      refine { hsource with modules := fun module hmodule ↦ ?_ }
      rcases Array.mem_append.mp hmodule with hmodule | hmodule
      · exact hsource.modules module hmodule
      · exact fun hnamed ↦ hexports _ hnamed module.symbols (hdeclared.modules module hmodule)
    refine Spares.bind (Spares.forInArray (fun i hi _ ↦ ?_) _) fun _ ↦
      hmodules.bind fun _ ↦ runAll.bind fun _ ↦ (evaluateStatements hopen _).spares
    obtain ⟨htarget, hforbidden, -⟩ := hdeclared.imports i hi
    have hi : K.OpenImport i :=
      ⟨fun hnamed ↦ hforbidden (hn.forbidden _ hnamed), fun ref href ↦ by
        rw [htarget] at href
        cases href⟩
    refine (addImport hopen hi).bind fun added ↦ .ite (fun _ ↦ ?_) fun _ ↦ .pure trivial
    exact Spares.bind (Maintains.throw _) fun _ ↦ .pure trivial

/-- Assumes: sources none of which takes the name of an enclosed module or exports a module of such a
name. Running them as a program keeps the enclosure. -/
theorem runProgram (name : String) {entry : Option SourceText} {sources : List SourceText}
    (hsources : ∀ source ∈ entry.toList ++ sources,
      ¬K.module source.name ∧ ∀ name, K.module name → ExportsNothing name source.statements) :
    Spares K.Respected (runProgram name entry sources) := by
  have hload (source : SourceText) (hmem : source ∈ entry.toList ++ sources) :
      Spares K.Respected (Session.load source.name source.statements) :=
    load (hsources source hmem).1 (hsources source hmem).2
  unfold Session.runProgram
  split
  · exact .throw _
  · rename_i entry
    have hrun : Spares K.Respected (do
        logVerbose s!"program {name}: running {entry.name} with {sources.length} source(s)"
        Session.run entry.name) :=
      respected fun _ ↦ (indifferent.logVerbose _).bind fun _ ↦ run entry.name
    refine Spares.bind (Spares.forIn (fun source hmem _ ↦ ?_) _) fun _ ↦
      .get_bind fun _ _ ↦ .ite (fun _ ↦ ?_) fun _ ↦ hrun
    · exact (hload source (List.mem_append_right _ hmem)).bind fun _ ↦ .pure trivial
    · exact (hload entry (List.mem_cons_self ..)).bind fun _ ↦ hrun

end Enclosure

end TreeScript
