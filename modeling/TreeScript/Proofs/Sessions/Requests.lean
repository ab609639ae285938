import TreeScript.Proofs.Sessions.Amending

/-!
# Requests to a session

Whatever a session is asked to do (`Request`), it first loads and links sources, and then runs what
is to be run: the sources it has been led to, and perhaps statements in one of them (`Plan`). A
request comes to the same as its two parts (`Request.act_eq`).
-/

set_option autoImplicit false

namespace TreeScript.Session

open Lookup

/-- What a session can be asked to do: what a user can have it do, what a host program can, and the
steps in which it is started. -/
inductive Request where
  | user (step : Step)
  | link
  | runAll
  | hostType (module name : String) (shape : HostShape)
  | natives (bindings : List NativeBinding)
  | core (module : CoreModule)
  | configure (options : Options)

namespace Request

/-- Does what is asked for. -/
def act : Request → Run Unit
  | user step => step.act
  | link => Session.link
  | runAll => Session.runAll
  | hostType module name shape => registerType module name shape
  | natives bindings => registerNatives bindings
  | core module => loadCore module
  | configure options => modify fun m => { m with options }

end Request

/-- What is left of a request when sources have been loaded and linked: the sources to evaluate,
which may come from the list of all that are loaded, and statements to run in a source. -/
structure Plan where
  listed : Bool := false
  sources : List ContextRef := []
  statements : Option (ContextRef × List Node) := none

/-- Runs what is left of a request. -/
def Plan.perform (plan : Plan) : Run Unit := do
  evaluateAll plan.listed plan.sources
  if let some (context, statements) := plan.statements then
    let _ ← evaluateStatements context statements

/-- Links the sources for one of them to be run. -/
def prepareRun (source : String) : Run Plan := do
  let context ← requireContext source
  Session.link
  return { sources := [context] }

/-- Adds imports to a source, none of which may be under a name that it knows. -/
def addImports (context : ContextRef) (source : String) (imports : Array Import) : Run Unit := do
  for i in imports do
    if !(← addImport context i) then
      throw (SourceError.duplicateImport i.key source).failure

/-- Takes declarations into a source, and links the sources for statements to be run in it. -/
def prepareStatements (source : String) (statements : List Node) : Run Plan := do
  let context ← requireContext source
  let forbidden := (← get).options.forbiddenImports
  let declared ← Run.ofSource (Declarations.collect source forbidden statements)
  addImports context source declared.imports
  modifyContext context fun c => { c with modules := c.modules ++ declared.modules }
  Session.link
  return {
    listed := true
    sources := (← get).loaded.toList
    statements := some (context, declared.body.toList) }

/-- Loads the sources of a program, and links them for its entry to be run. -/
def prepareProgram (name : String) (entry : SourceText) (sources : List SourceText) : Run Plan := do
  for source in sources do
    let _ ← load source.name source.statements
  if (context? (← get) entry.name).isNone then
    let _ ← load entry.name entry.statements
  logVerbose s!"program {name}: running {entry.name} with {sources.length} source(s)"
  prepareRun entry.name

namespace Request

/-- Loads and links what is asked for, without running it. -/
def prepare : Request → Run Plan
  | user (.load source) => do
    let _ ← load source.name source.statements
    return {}
  | user (.run source) => prepareRun source
  | user (.evaluate source) => do
    let _ ← load source.name source.statements
    prepareRun source.name
  | user (.evaluateIn source) => prepareStatements source.name source.statements
  | user (.program _ none _) => throw SourceError.noEntry.failure
  | user (.program name (some entry) sources) => prepareProgram name entry sources
  | link => do
    Session.link
    return {}
  | runAll => do
    Session.link
    return { listed := true, sources := (← get).loaded.toList }
  | hostType module name shape => do
    registerType module name shape
    return {}
  | natives bindings => do
    registerNatives bindings
    return {}
  | core module => do
    registerNatives module.bindings
    let context ← loadSource module.source module.statements false
    return { sources := [context] }
  | configure options => do
    modify fun m => { m with options }
    return {}

end Request

/-! ### The two parts of a request -/

theorem Plan.perform_empty : ({} : Plan).perform = pure () := by
  unfold perform evaluateAll
  simp only [List.forIn_nil, pure_bind]

theorem Plan.perform_single (context : ContextRef) :
    ({ sources := [context] } : Plan).perform = (do let _ ← evaluateLoaded context) := by
  unfold perform
  simp only [evaluateAll_single, bind_assoc, pure_bind]

theorem prepareRun_bind (source : String) :
    (prepareRun source >>= Plan.perform) = (do let _ ← run source) := by
  unfold prepareRun run
  simp only [bind_assoc, pure_bind, Plan.perform_single]

/-- A request loads and links, and then runs. -/
theorem Request.act_eq (request : Request) : request.act = request.prepare >>= Plan.perform := by
  cases request with
  | user step =>
    cases step with
    | load source => simp only [act, prepare, Step.act, bind_assoc, pure_bind, Plan.perform_empty]
    | run source => exact (prepareRun_bind source).symm
    | evaluate source =>
      simp only [act, prepare, Step.act, evaluate, bind_assoc, prepareRun_bind]
    | evaluateIn source =>
      simp only [act, prepare, Step.act, evaluateIn, prepareStatements, addImports, runAll_eq,
        Plan.perform, bind_assoc, pure_bind]
    | program name entry sources =>
      cases entry with
      | none => rfl
      | some entry =>
        simp only [act, prepare, Step.act, runProgram, prepareProgram, bind_assoc]
        congr 1
        funext _
        congr 1
        funext m
        split
        · simp only [bind_assoc, prepareRun_bind]
        · simp only [bind_assoc, prepareRun_bind]
  | link => simp only [act, prepare, bind_assoc, pure_bind, Plan.perform_empty, bind_pure_unit]
  | runAll =>
    simp only [act, prepare, runAll_eq, Plan.perform, bind_assoc, pure_bind, bind_pure_unit]
  | hostType module name shape =>
    simp only [act, prepare, bind_assoc, pure_bind, Plan.perform_empty, bind_pure_unit]
  | natives bindings =>
    simp only [act, prepare, bind_assoc, pure_bind, Plan.perform_empty, bind_pure_unit]
  | core module => simp only [act, prepare, loadCore, bind_assoc, pure_bind, Plan.perform_single]
  | configure options =>
    simp only [act, prepare, bind_assoc, pure_bind, Plan.perform_empty, bind_pure_unit]

/-! ### What is prepared -/

section Preparing

variable {exports : Bool} {m n : Machine} {context : ContextRef}

theorem requireContext_some {source : String} (h : context? m source = some context) :
    requireContext source m = .ok context m := by
  unfold requireContext
  rw [Run.get_bind, h]
  rfl

theorem requireContext_none {source : String} (h : context? m source = none) :
    requireContext source m = .error (SourceError.notLoaded source).failure m := by
  unfold requireContext
  rw [Run.get_bind, h]
  rfl

theorem Amending.requireContext (source : String) : Amending exports (requireContext source) := by
  refine .elsewhere fun m ↦ ?_
  cases hfound : context? m source with
  | some context =>
    rw [requireContext_some hfound]
    rfl
  | none =>
    rw [requireContext_none hfound]
    rfl

theorem Amending.prepareRun (source : String) : Amending exports (prepareRun source) :=
  fun m hm ↦ (Amending.requireContext source m hm).bind fun _ ↦
    (Amending.link m hm).bind fun _ ↦ .pure trivial

theorem Amending.load (source : String) (statements : List Node) :
    Amending exports (load source statements) :=
  Amending.loadSource source statements true

/-- Imports that are not linked are added until one is refused. -/
theorem Amending.addImports (context : ContextRef) (source : String) {imports : Array Import}
    (hunlinked : ∀ i ∈ imports, i.target = none) :
    Amending exports (addImports context source imports) := by
  refine fun m hm ↦ Spares.bind (Spares.forInArray (fun i hi _ ↦ ?_) _) fun _ ↦ .pure trivial
  refine (Amending.addImport context (hunlinked i hi) m hm).bind fun added ↦ ?_
  exact .ite (fun _ ↦ Spares.bind (.throw _) fun _ ↦ .pure trivial) fun _ ↦ .pure trivial

/-- Taking declarations into a source makes it export more. -/
theorem Amending.prepareStatements (source : String) (statements : List Node) :
    Amending true (prepareStatements source statements) := by
  refine fun m hm ↦ (Amending.requireContext source m hm).bind fun context ↦ .get_bind fun k hk ↦
    (Maintains.ofSource _).bind fun declared hcollect ↦ ?_
  have hunlinked (i : Import) (hi : i ∈ declared.imports) : i.target = none :=
    ((Declarations.of_collect hcollect).imports i hi).1
  have hexported : Spares (m.Amended true) (modifyContext context fun c =>
      { c with modules := c.modules ++ declared.modules }) :=
    .of_modify fun n hn ↦ hn.tail (.revised (Context.revises_exports declared.modules))
  exact (Amending.addImports context source hunlinked m hm).bind fun _ ↦ hexported.bind fun _ ↦
    (Amending.link m hm).bind fun _ ↦ .get_bind fun _ _ ↦ .pure trivial

theorem Amending.prepareProgram (name : String) (entry : SourceText) (sources : List SourceText) :
    Amending exports (prepareProgram name entry sources) := by
  intro m hm
  have hload (source : SourceText) :
      Spares (m.Amended exports) (Session.load source.name source.statements) :=
    Amending.load source.name source.statements m hm
  have hrun : Spares (m.Amended exports) (do
      TreeScript.logVerbose
        s!"program {name}: running {entry.name} with {sources.length} source(s)"
      Session.prepareRun entry.name) :=
    (Amending.logVerbose _ m hm).bind fun _ ↦ Amending.prepareRun entry.name m hm
  refine Spares.bind (Spares.forIn (fun source _ _ ↦ ?_) _) fun _ ↦
    .get_bind fun _ _ ↦ .ite (fun _ ↦ ?_) fun _ ↦ hrun
  · exact (hload source).bind fun _ ↦ .pure trivial
  · exact (hload entry).bind fun _ ↦ hrun

/-- Loading and linking amends the sources. Only statements that are run in a source that has been
loaded before make a source export more. -/
theorem Request.amending (request : Request)
    (h : exports = true ∨ ∀ source, request ≠ .user (.evaluateIn source)) :
    Amending exports request.prepare := by
  -- Most requests do one thing and leave nothing to be run.
  have hdone {α : Type} {x : Run α} {plan : α → Plan} (hx : Amending exports x) :
      Amending exports (do
        let a ← x
        return plan a) :=
    fun m hm ↦ (hx m hm).bind fun _ ↦ .pure trivial
  have hnatives (bindings : List NativeBinding) : Amending exports (registerNatives bindings) :=
    .elsewhere fun _ ↦ rfl
  have hoptions (options : Options) :
      Amending exports (modify fun m => { m with options } : Run Unit) :=
    .elsewhere fun _ ↦ rfl
  cases request with
  | user step =>
    cases step with
    | load source => exact hdone (.load source.name source.statements)
    | run source => exact .prepareRun source
    | evaluate source =>
      exact fun m hm ↦ (Amending.load source.name source.statements m hm).bind fun _ ↦
        Amending.prepareRun source.name m hm
    | evaluateIn source =>
      rcases h with rfl | h
      · exact .prepareStatements source.name source.statements
      · exact absurd rfl (h source)
    | program name entry sources =>
      cases entry with
      | none => exact fun _ _ ↦ .throw _
      | some entry => exact .prepareProgram name entry sources
  | link => exact hdone .link
  | runAll =>
    exact fun m hm ↦ (Amending.link m hm).bind fun _ ↦ .get_bind fun _ _ ↦ .pure trivial
  | hostType module name shape => exact hdone (.registerType module name shape)
  | natives bindings => exact hdone (hnatives bindings)
  | core module =>
    exact fun m hm ↦ (hnatives module.bindings m hm).bind fun _ ↦
      (Amending.loadSource module.source module.statements false m hm).bind fun _ ↦ .pure trivial
  | configure options => exact hdone (hoptions options)

/-- Linking does not change which sources are loaded. -/
theorem loaded_link {loaded : Array ContextRef} : Spares (·.loaded = loaded) Session.link := by
  have hlinked (i : Import) : Spares (·.loaded = loaded) (linked i) := by
    refine .ite (fun _ ↦ .pure trivial) fun _ ↦ .get_bind fun m _ ↦ ?_
    split
    · exact .pure trivial
    · exact .throw _
  refine .get_bind fun m _ ↦ Spares.bind (Spares.forInArray (fun c _ _ ↦ ?_) _) fun _ ↦ .pure trivial
  refine Spares.bind (.get_bind fun _ _ ↦ Spares.bind (Spares.forIn (fun (i, place) _ _ ↦ ?_) _)
    fun _ ↦ .pure trivial) fun _ ↦ .pure trivial
  exact (hlinked i).bind fun _ ↦ Spares.bind (.of_modify fun _ h ↦ h) fun _ ↦ .pure trivial

/-- Linking amends the sources, and makes none of them export more. -/
theorem amended_of_link (hm : m.Consistent) (h : Session.link m = .ok () n) :
    m.Amended false n := by
  have hlink : Amending false Session.link := .link
  have hfinal := hlink.final hm
  rwa [h] at hfinal

/-- A run that is prepared is that of the source found under the name, once all are linked. -/
theorem of_prepareRun {source : String} {plan : Plan} (h : prepareRun source m = .ok plan n) :
    ∃ context, context? m source = some context ∧ Session.link m = .ok () n ∧
      plan = { sources := [context] } := by
  unfold prepareRun at h
  cases hfound : context? m source with
  | none =>
    rw [Run.bind_error (requireContext_none hfound)] at h
    cases h
  | some context =>
    rw [Run.bind_ok (requireContext_some hfound)] at h
    obtain ⟨_, k, hlinked, h⟩ := Run.bind_eq_ok_iff.mp h
    cases h
    exact ⟨context, rfl, hlinked, rfl⟩

/-- A run is prepared if the source is found and all can be linked. -/
theorem prepareRun_found {source : String} (hfound : context? m source = some context)
    (hlinked : Session.link m = .ok () n) :
    prepareRun source m = .ok { sources := [context] } n := by
  unfold prepareRun
  rw [Run.bind_ok (requireContext_some hfound), Run.bind_ok hlinked]
  rfl

/-- A program that is prepared is a run of its entry that is prepared. -/
theorem of_prepareProgram {name : String} {entry : SourceText} {sources : List SourceText}
    {plan : Plan} (h : prepareProgram name entry sources m = .ok plan n) :
    ∃ k, prepareRun entry.name k = .ok plan n := by
  unfold prepareProgram at h
  obtain ⟨_, k, -, h⟩ := Run.bind_eq_ok_iff.mp h
  rw [Run.get_bind] at h
  split at h
  · obtain ⟨_, k, -, h⟩ := Run.bind_eq_ok_iff.mp h
    obtain ⟨_, k, -, h⟩ := Run.bind_eq_ok_iff.mp h
    exact ⟨k, h⟩
  · obtain ⟨_, k, -, h⟩ := Run.bind_eq_ok_iff.mp h
    exact ⟨k, h⟩

/-- A source that has been enlisted is in the list. -/
theorem of_enlist_ok {c : ContextRef} {automatic : List String} {message : Nat → String}
    (h : enlist context automatic message m = .ok c n) : c = context ∧ context ∈ n.loaded := by
  unfold enlist at h
  obtain ⟨_, k, -, h⟩ := Run.bind_eq_ok_iff.mp h
  have hlisted : (modify fun m : Machine ↦ { m with loaded := m.loaded.push context } : Run Unit) k =
      .ok () (k.listing context) := rfl
  obtain ⟨n', hlogged, hsame⟩ :=
    logVerbose_apply (message ((k.listing context).context context).imports.size) (k.listing context)
  rw [Run.bind_ok hlisted, Run.get_bind, Run.bind_ok hlogged] at h
  cases h
  refine ⟨rfl, ?_⟩
  rw [← hsame.same]
  exact Array.mem_push_self

/-- A source that has been loaded is in the list. -/
theorem listed_of_loadSource {source : String} {statements : List Node} {isUser : Bool}
    (h : loadSource source statements isUser m = .ok context n) : context ∈ n.loaded := by
  cases hcollect : Declarations.collect source (if isUser then m.options.forbiddenImports else [])
      statements with
  | error e =>
    rw [loadSource_error hcollect] at h
    cases h
  | ok declared =>
    rw [loadSource_ok hcollect] at h
    obtain ⟨rfl, hlisted⟩ := of_enlist_ok h
    exact hlisted

/-- What is to be evaluated has been loaded. -/
theorem Request.loaded_of_prepare {request : Request} {plan : Plan}
    (h : request.prepare m = .ok plan n) : ∀ context ∈ plan.sources, context ∈ n.loaded := by
  have hnone {α : Type} {x : Run α} {m n : Machine}
      (h : (do let _ ← x; return {} : Run Plan) m = .ok plan n) :
      ∀ context ∈ plan.sources, context ∈ n.loaded := by
    obtain ⟨_, k, -, h⟩ := Run.bind_eq_ok_iff.mp h
    cases h
    exact fun _ hmem ↦ nomatch hmem
  have hrun {source : String} {m n : Machine} (h : prepareRun source m = .ok plan n) :
      ∀ context ∈ plan.sources, context ∈ n.loaded := by
    obtain ⟨found, hfound, hlinked, rfl⟩ := of_prepareRun h
    intro context hmem
    rw [List.mem_singleton.mp hmem, (loaded_link.of_ok rfl hlinked).1]
    exact (of_context? hfound).1
  cases request with
  | user step =>
    cases step with
    | load source => exact hnone h
    | run source => exact hrun h
    | evaluate source =>
      obtain ⟨_, k, -, h⟩ := Run.bind_eq_ok_iff.mp h
      exact hrun h
    | evaluateIn source =>
      obtain ⟨_, k, -, h⟩ := Run.bind_eq_ok_iff.mp h
      rw [Run.get_bind] at h
      obtain ⟨_, k, -, h⟩ := Run.bind_eq_ok_iff.mp h
      obtain ⟨_, k, -, h⟩ := Run.bind_eq_ok_iff.mp h
      obtain ⟨_, k, -, h⟩ := Run.bind_eq_ok_iff.mp h
      obtain ⟨_, k, -, h⟩ := Run.bind_eq_ok_iff.mp h
      cases h
      exact fun context hmem ↦ Array.mem_def.mpr hmem
    | program name entry sources =>
      cases entry with
      | none => cases h
      | some entry =>
        obtain ⟨k, h⟩ := of_prepareProgram h
        exact hrun h
  | link => exact hnone h
  | runAll =>
    obtain ⟨_, k, -, h⟩ := Run.bind_eq_ok_iff.mp h
    cases h
    exact fun context hmem ↦ Array.mem_def.mpr hmem
  | hostType module name shape => exact hnone h
  | natives bindings => exact hnone h
  | core module =>
    obtain ⟨_, k, -, h⟩ := Run.bind_eq_ok_iff.mp h
    obtain ⟨context, k', hload, h⟩ := Run.bind_eq_ok_iff.mp h
    cases h
    intro context' hmem
    rw [List.mem_singleton.mp hmem]
    exact listed_of_loadSource hload
  | configure options => exact hnone h

end Preparing

/-! ### Runs -/

/-- The bodies that a request runs, in their order. -/
def Request.Runs (request : Request) (m : Machine) (runs : List BodyRun) : Prop :=
  match request.prepare m with
  | .ok plan n => ∃ o, Tour plan.listed plan.sources n runs o
  | .error _ _ => runs = []

section Running

variable {request : Request} {m n : Machine} {runs : List BodyRun}

/-- Statements that are run in a source leave the sources as they are. -/
theorem sameSources_rest (statements : Option (ContextRef × List Node)) (m : Machine) :
    m.SameSources (Outcome.final ((do
      if let some (context, statements) := statements then
        let _ ← evaluateStatements context statements : Run Unit) m)) := by
  cases statements with
  | none => rfl
  | some rest =>
    obtain ⟨context, statements⟩ := rest
    have hsame := evaluateStatements_sameSources context statements m
    dsimp only
    cases hrun : evaluateStatements context statements m with
    | ok cell n =>
      rw [hrun] at hsame
      rw [Run.bind_ok hrun]
      exact hsame
    | error e n =>
      rw [hrun] at hsame
      rw [Run.bind_error hrun]
      exact hsame

/-- What a request would do is settled when it is made. -/
theorem Request.exists_runs (request : Request) (hm : m.AtRest) : ∃ runs, request.Runs m runs := by
  unfold Request.Runs
  cases hprepared : request.prepare m with
  | error e n => exact ⟨[], rfl⟩
  | ok plan n =>
    have hamended : m.Amended true n := by
      have hfinal := (request.amending (.inl rfl)).final hm.consistent
      rwa [hprepared] at hfinal
    have hn : n.Consistent := hamended.consistent hm.consistent
    obtain ⟨runs, htour⟩ := evaluateAll_tour plan.listed hn (hamended.evaluating.trans hm.idle)
      fun c hc ↦ hn.loaded c (Request.loaded_of_prepare hprepared c hc)
    exact ⟨runs, _, htour⟩

/-- A request that has been prepared runs what a tour through its sources does. -/
theorem Request.Runs.tour_of_prepare (h : request.Runs m runs) {plan : Plan}
    (hprepared : request.prepare m = .ok plan n) :
    ∃ o, Tour plan.listed plan.sources n runs o := by
  unfold Request.Runs at h
  rwa [hprepared] at h

theorem Request.Runs.unique {runs' : List BodyRun} (h : request.Runs m runs)
    (h' : request.Runs m runs') : runs = runs' := by
  unfold Request.Runs at h h'
  cases hprepared : request.prepare m with
  | error e n =>
    rw [hprepared] at h h'
    exact h.trans h'.symm
  | ok plan n =>
    rw [hprepared] at h h'
    obtain ⟨_, htour⟩ := h
    obtain ⟨_, htour'⟩ := h'
    exact (htour.unique htour').1

/-- Assumes: a machine at rest. A request is refused before it runs anything, or it runs what it has
prepared, and changes nothing else about the sources. If a body fails, the request fails with it. -/
theorem Request.Runs.course (h : request.Runs m runs) (hm : m.AtRest) :
    (∃ e n, request.prepare m = .error e n ∧ request.act m = .error e n ∧ runs = []) ∨
      ∃ plan n o, request.prepare m = .ok plan n ∧ Tour plan.listed plan.sources n runs o ∧
        n.AtRest ∧ o.final.SameSources (Outcome.final (request.act m)) ∧
          ∀ e k, o = .error e k → request.act m = .error e k := by
  rw [Request.act_eq]
  unfold Request.Runs at h
  cases hprepared : request.prepare m with
  | error e n =>
    rw [hprepared] at h
    exact .inl ⟨e, n, rfl, Run.bind_error hprepared, h⟩
  | ok plan n =>
    rw [hprepared] at h
    obtain ⟨o, htour⟩ := h
    have hamended : m.Amended true n := by
      have hfinal := (request.amending (.inl rfl)).final hm.consistent
      rwa [hprepared] at hfinal
    have hn : n.AtRest := ⟨hamended.consistent hm.consistent, hamended.evaluating.trans hm.idle⟩
    refine .inr ⟨plan, n, o, rfl, htour, hn, ?_⟩
    obtain ⟨_, htour'⟩ := evaluateAll_tour plan.listed hn.consistent hn.idle fun c hc ↦
      hn.consistent.loaded c (Request.loaded_of_prepare hprepared c hc)
    obtain ⟨-, rfl⟩ := htour.unique htour'
    rw [Run.bind_ok hprepared]
    unfold Plan.perform
    cases hrun : evaluateAll plan.listed plan.sources n with
    | error e k =>
      rw [Run.bind_error hrun]
      refine ⟨Machine.SameSources.refl k, fun e' k' hfailed ↦ ?_⟩
      cases hfailed
      rfl
    | ok _ k =>
      rw [Run.bind_ok hrun]
      refine ⟨sameSources_rest plan.statements k, fun e' k' hfailed ↦ ?_⟩
      cases hfailed

/-- A request leaves a machine at rest behind where it finds one. -/
theorem Request.atRest (hm : m.AtRest) : (Outcome.final (request.act m)).AtRest := by
  obtain ⟨runs, hruns⟩ := request.exists_runs hm
  have hprepared : m.Amended true (Outcome.final (request.prepare m)) :=
    (request.amending (.inl rfl)).final hm.consistent
  rcases hruns.course hm with ⟨e, n, hrefused, hfails, -⟩ | ⟨plan, n, o, -, htour, hn, hsame, -⟩
  · rw [hrefused] at hprepared
    rw [hfails]
    exact ⟨Machine.Amended.consistent hprepared hm.consistent,
      (Machine.Amended.evaluating hprepared).trans hm.idle⟩
  · have hadvances := htour.advances.trans (.of_sameSources hsame)
    have hevaluating := hsame.evaluating.trans htour.evaluating
    exact ⟨hn.consistent.advances hadvances hevaluating, hevaluating.trans hn.idle⟩

end Running

/-! ### Histories -/

/-- The machine that requests leave behind that are made one after the other, whether they succeed
or fail. -/
def after (m : Machine) (requests : List Request) : Machine :=
  requests.foldl (fun m request ↦ Outcome.final (request.act m)) m

theorem after_append (m : Machine) (requests more : List Request) :
    after m (requests ++ more) = after (after m requests) more :=
  List.foldl_append

/-- Requests that are made one after the other until one fails. -/
def each (requests : List Request) : Run Unit := do
  for request in requests do
    request.act

theorem each_nil : each [] = pure () := rfl

theorem each_cons (request : Request) (requests : List Request) :
    each (request :: requests) = (do
      request.act
      each requests) := by
  unfold each
  simp only [List.forIn_cons, bind_assoc, pure_bind]

theorem each_append (requests more : List Request) :
    each (requests ++ more) = (do
      each requests
      each more) := by
  induction requests with
  | nil => rfl
  | cons request requests ih => rw [List.cons_append, each_cons, each_cons, ih, bind_assoc]

theorem each_map {α : Type} (request : α → Request) (as : List α) :
    each (as.map request) = (do
      for a in as do
        (request a).act) := by
  unfold each
  rw [List.forIn_map]

/-- Requests all of which succeed leave behind what they do when they are made whether they succeed
or fail. -/
theorem after_of_each {requests : List Request} {m n : Machine} (h : each requests m = .ok () n) :
    after m requests = n := by
  induction requests generalizing m with
  | nil =>
    cases h
    rfl
  | cons request requests ih =>
    rw [each_cons] at h
    obtain ⟨_, k, hact, h⟩ := Run.bind_eq_ok_iff.mp h
    unfold after
    rw [List.foldl_cons, hact]
    exact ih h

/-- The bodies that are run for requests that are made one after the other. -/
inductive Performed : List Request → Machine → List BodyRun → Prop
  | nil {m : Machine} : Performed [] m []
  | cons {request : Request} {requests : List Request} {m : Machine} {runs later : List BodyRun}
      (hruns : request.Runs m runs)
      (hrest : Performed requests (Outcome.final (request.act m)) later) :
      Performed (request :: requests) m (runs ++ later)

theorem Performed.exists_runs {m : Machine} (hm : m.AtRest) (requests : List Request) :
    ∃ runs, Performed requests m runs := by
  induction requests generalizing m with
  | nil => exact ⟨[], .nil⟩
  | cons request requests ih =>
    obtain ⟨runs, hruns⟩ := request.exists_runs hm
    obtain ⟨later, hrest⟩ := ih (request.atRest hm)
    exact ⟨runs ++ later, .cons hruns hrest⟩

theorem atRest_after {m : Machine} (hm : m.AtRest) (requests : List Request) :
    (after m requests).AtRest := by
  induction requests generalizing m with
  | nil => exact hm
  | cons request requests ih => exact ih (request.atRest hm)

theorem Performed.append {requests more : List Request} {m : Machine} {runs later : List BodyRun}
    (h : Performed requests m runs) (hlater : Performed more (after m requests) later) :
    Performed (requests ++ more) m (runs ++ later) := by
  induction h with
  | nil => exact hlater
  | cons hruns _ ih =>
    rw [List.append_assoc]
    exact .cons hruns (ih hlater)

/-! ### Starting a session -/

/-- The requests by which a session is started. -/
def opening (options : Options) : List Request :=
  let quiet : Options :=
    { options with
      trace := 0, logResolve := false, logAssignments := false, logCalls := false,
      debugger := none }
  .configure quiet :: CoreModule.all.map .core ++ [.configure options]

/-- A session is started by requests. -/
theorem start_eq {options checked : Options} (h : checkOptions options = .ok checked) :
    start options = each (opening checked) := by
  unfold start opening
  rw [h]
  simp only [each_append, each_cons, each_map, each_nil, Request.act, bind_assoc,
    bind_pure_unit]

/-- A session that has been started is what the requests leave behind by which it is. -/
theorem after_opening {options : Options} {m m₀ : Machine} (h : start options m = .ok () m₀) :
    ∃ checked, checkOptions options = .ok checked ∧ each (opening checked) m = .ok () m₀ ∧
      after m (opening checked) = m₀ := by
  cases hchecked : checkOptions options with
  | error issue =>
    unfold start at h
    rw [hchecked] at h
    cases h
  | ok checked =>
    rw [start_eq hchecked] at h
    exact ⟨checked, rfl, h, after_of_each h⟩

end TreeScript.Session
