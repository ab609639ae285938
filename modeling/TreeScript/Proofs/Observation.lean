import TreeScript.Proofs.Comparison.Observers
import TreeScript.Proofs.Sources

/-!
# Watching a run does not change it

Traces, logs and debuggers watch an evaluation and do not interfere with it
(`observation_does_not_interfere`). With all of them switched off it gives the same cell or the same
failure, and leaves the same in every variable.

`Observed.comparison` says this of the evaluator. What is left is what a session does around it: it
loads sources, links their imports, and runs them one after the other. For none of this it asks what
watches the run, so each of these steps runs alike on a machine that is watched and on one that is
not (`Observed.load`, `Observed.link`, `Observed.runBy`).

The comparison holds of interpreters that refuse to switch traces and logs. So evaluations are
spelled out once more with the interpreter as a parameter (`Session.Evaluation.actBy`); with the
interpreter of the session they are what the session does (`Session.Evaluation.actBy_interp`).
-/

set_option autoImplicit false

namespace TreeScript

namespace Session

open Lookup

/-! ### Evaluations by any interpreter -/

section

variable (interp : Interp)

/-- Runs statements in the root frame of a source, by an interpreter. -/
def evaluateStatementsBy (context : ContextRef) (statements : List Node) : Run CellRef := do
  let site : Site := { context, frame := ((← get).context context).frame }
  let result ← interp.eval site .required (.root statements)
  if result.flow.needsLoop then
    let source := ((← get).context context).source
    site.raise .invalidControl
      ("Unexpected " ++ result.flow.word ++ " outside of a loop in " ++ source)
  return result.value

/-- Evaluates a source after those it depends on, by an interpreter. -/
def evaluateContextBy : Nat → ContextRef → Run CellRef
  | 0, _ => newEmpty
  | fuel + 1, context => do
    let m ← get
    if (m.context context).evaluated || m.evaluating.contains context then
      return ← newEmpty
    whileEvaluating context do
      for dependency in dependencies (← get) context do
        let _ ← evaluateContextBy fuel dependency
      let c := (← get).context context
      logVerbose ("evaluating " ++ c.source)
      modifyContext context fun c => { c with evaluated := true }
      evaluateStatementsBy interp context c.body

/-- Evaluates a source with fuel for all the sources there are, by an interpreter. -/
def evaluateLoadedBy (context : ContextRef) : Run CellRef := do
  evaluateContextBy interp ((← get).contexts.size + 1) context

/-- Runs a loaded source, by an interpreter. -/
def runBy (source : String) : Run CellRef := do
  let context ← requireContext source
  link
  evaluateLoadedBy interp context

/-- Runs every loaded source that has not been run, by an interpreter. -/
def runAllBy : Run Unit := do
  link
  for context in (← get).loaded do
    if !((← get).context context).evaluated then
      let _ ← evaluateLoadedBy interp context

end

/-- What a host can have a session evaluate. -/
inductive Evaluation where
  | run (source : String)
  | evaluate (source : SourceText)
  | evaluateIn (source : SourceText)
  | program (name : String) (entry : Option SourceText) (sources : List SourceText)
  | call (source : String) (function : CellRef) (args : List CellRef)

namespace Evaluation

/-- Has the session evaluate it. -/
def act : Evaluation → Run CellRef
  | run source => Session.run source
  | evaluate source => Session.evaluate source.name source.statements
  | evaluateIn source => Session.evaluateIn source.name source.statements
  | program name entry sources => runProgram name entry sources
  | call source function args => callFunction source function args

/-- Evaluates it by an interpreter. -/
def actBy (interp : Interp) : Evaluation → Run CellRef
  | run source => runBy interp source
  | evaluate source => do
    let _ ← load source.name source.statements
    runBy interp source.name
  | evaluateIn source => do
    let context ← requireContext source.name
    let forbidden := (← get).options.forbiddenImports
    let declared ← Run.ofSource (Declarations.collect source.name forbidden source.statements)
    for i in declared.imports do
      if !(← addImport context i) then
        throw (SourceError.duplicateImport i.key source.name).failure
    modifyContext context fun c => { c with modules := c.modules ++ declared.modules }
    runAllBy interp
    evaluateStatementsBy interp context declared.body.toList
  | program _ none _ => throw SourceError.noEntry.failure
  | program name (some entry) sources => do
    for source in sources do
      let _ ← load source.name source.statements
    if (context? (← get) entry.name).isNone then
      let _ ← load entry.name entry.statements
    logVerbose s!"program {name}: running {entry.name} with {sources.length} source(s)"
    runBy interp entry.name
  | call source function args => do
    let context ← requireContext source
    let site : Site := { context, frame := ((← get).context context).frame }
    interp.call site "<host>" .none function args

end Evaluation

theorem evaluateContextBy_interp (n : Nat) (context : ContextRef) :
    evaluateContextBy (interp fuel) n context = evaluateContext n context := by
  induction n generalizing context with
  | zero => rfl
  | succ n ih =>
    unfold evaluateContextBy evaluateContext
    simp only [ih]
    rfl

theorem evaluateLoadedBy_interp : evaluateLoadedBy (interp fuel) = evaluateLoaded := by
  funext context
  exact bind_congr fun m ↦ evaluateContextBy_interp _ context

theorem runBy_interp : runBy (interp fuel) = run := by
  unfold runBy run
  rw [evaluateLoadedBy_interp]

theorem runAllBy_interp : runAllBy (interp fuel) = runAll := by
  unfold runAllBy runAll
  rw [evaluateLoadedBy_interp]

/-- A session evaluates by its interpreter. -/
theorem Evaluation.actBy_interp (e : Evaluation) : e.actBy (interp fuel) = e.act := by
  cases e with
  | run source => exact congrFun runBy_interp source
  | evaluate source =>
    unfold actBy act Session.evaluate
    rw [runBy_interp]
  | evaluateIn source =>
    unfold actBy act Session.evaluateIn
    rw [runAllBy_interp]
    rfl
  | program name entry sources =>
    cases entry with
    | none => rfl
    | some entry => simp only [actBy, act, runProgram, runBy_interp]
  | call source function args => rfl

end Session

namespace Observed

open Relations Session Session.Lookup

variable {α β : Type} {m : Machine} {interp : Interp}

/-! ### Loading and linking sources -/

theorem ofSource (result : Except SourceError α) :
    relations.Same m (Run.ofSource result) (Run.ofSource result) := by
  cases result with
  | ok a => exact Same.refl_pure a
  | error e => exact Runs.throw _

theorem logVerbose (text text' : String) :
    relations.Same m (logVerbose text) (TreeScript.logVerbose text') := by
  have hquiet (text : String) : Quiet (TreeScript.logVerbose text) := by
    intro m
    by_cases hlevel : m.logLevel = .verbose
    · refine ⟨m.log.push ("[V]> " ++ text), ?_⟩
      change EStateM.Result.ok () (if m.logLevel = .verbose then _ else m) = _
      rw [if_pos hlevel]
    · refine ⟨m.log, ?_⟩
      change EStateM.Result.ok () (if m.logLevel = .verbose then _ else m) = _
      rw [if_neg hlevel]
  exact quiet m (hquiet text) (hquiet text')

theorem modifyContext (ref : ContextRef) (change : Context → Context) :
    relations.Same m (modifyContext ref change) (TreeScript.modifyContext ref change) :=
  runs_of_ok fun _ _ hlike ↦
    ⟨(), (), _, _, rfl, rfl, { hlike with contexts := by simp only [hlike.contexts] }, rfl⟩

theorem newTrace (trace : StackTrace) :
    relations.Same m (newTrace trace) (TreeScript.newTrace trace) :=
  runs_of_ok fun n n' hlike ↦ ⟨_, _, _, _, rfl, rfl, hlike.retraced (by rw [hlike.traces]),
    by simp only [hlike.traces]⟩

theorem newContext (source : String) (debugValues : List String) :
    relations.Same m (newContext source debugValues)
      (TreeScript.newContext source debugValues) := by
  refine (newScope {}).bind fun globals ↦ Same.bind (newTrace _) fun trace ↦ ?_
  exact runs_of_ok fun n n' hlike ↦ ⟨_, _, _, _, rfl, rfl,
    { hlike with contexts := by simp only [hlike.contexts] }, by simp only [hlike.contexts]⟩

theorem context?_eq {n n' : Machine} (halike : n.Alike n') : context? n' = context? n := by
  funext source
  unfold context?
  rw [halike.loaded, halike.context]

theorem requireContext (source : String) :
    relations.Same m (requireContext source) (Session.requireContext source) := by
  refine Runs.get_bind fun n n' halike ↦ ?_
  rw [context?_eq halike]
  split
  · exact Same.refl_pure _
  · exact Runs.throw _

theorem addImport (context : ContextRef) (i : Import) :
    relations.Same m (addImport context i) (Session.addImport context i) := by
  refine Runs.get_bind fun n n' halike ↦ ?_
  rw [halike.context]
  split
  · exact Same.refl_pure false
  · exact (modifyContext _ _).bind fun _ ↦ Same.refl_pure true

theorem load (source : String) (statements : List Node) :
    relations.Same m (load source statements) (Session.load source statements) := by
  refine Runs.get_bind_now fun n n' _ hlike ↦ ?_
  -- The options differ, but not in the imports that are forbidden or made by default.
  rw [hlike.options]
  refine (ofSource _).bind fun declared ↦ (newContext source _).bind fun context ↦
    (modifyContext _ _).bind fun _ ↦ ?_
  refine Same.bind (Same.forIn _ (fun text _ ↦ ?_) _) fun _ ↦ ?_
  · exact (ofSource _).bind fun i ↦ (addImport context i).bind fun _ ↦ Same.refl_pure _
  · have hlisted : relations.Same n
        (modify fun m : Machine ↦ { m with loaded := m.loaded.push context } : Run Unit)
        (modify fun m : Machine ↦ { m with loaded := m.loaded.push context }) :=
      runs_of_ok fun _ _ hlike ↦
        ⟨(), (), _, _, rfl, rfl, { hlike with loaded := by simp only [hlike.loaded] }, rfl⟩
    exact hlisted.bind fun _ ↦ Runs.get_bind fun _ _ _ ↦
      (logVerbose _ _).bind fun _ ↦ Same.refl_pure context

theorem linked (i : Import) : relations.Same m (linked i) (Session.linked i) := by
  unfold Session.linked
  split
  · exact Same.refl_pure i
  · refine Runs.get_bind fun n n' halike ↦ ?_
    have hmodule : module? n' i.name = module? n i.name := by
      unfold module? moduleIn?
      rw [halike.loaded, halike.context]
    have hnames : moduleNames n' = moduleNames n := by
      unfold moduleNames
      rw [halike.loaded, halike.context]
    rw [hmodule, hnames]
    split
    · exact Same.refl_pure _
    · exact Runs.throw _

theorem linkContext (context : ContextRef) :
    relations.Same m (linkContext context) (Session.linkContext context) := by
  refine Runs.get_bind fun n n' halike ↦ ?_
  rw [halike.context]
  refine Same.bind (Same.forIn _ (fun (i, k) _ ↦ ?_) _) fun _ ↦ Same.refl_pure ()
  exact (linked i).bind fun _ ↦ (modifyContext _ _).bind fun _ ↦ Same.refl_pure _

theorem link : relations.Same m link link := by
  refine Runs.get_bind fun n n' halike ↦ ?_
  rw [halike.loaded, ← Array.forIn_toList]
  refine Same.bind (Same.forIn _ (fun context _ ↦ ?_) _) fun _ ↦ Same.refl_pure ()
  exact (linkContext context).bind fun _ ↦ Same.refl_pure _

/-! ### Running sources -/

theorem evaluateStatementsBy (hinterp : comparison.Evaluates interp) (context : ContextRef)
    (statements : List Node) :
    relations.Same m (evaluateStatementsBy interp context statements)
      (Session.evaluateStatementsBy interp context statements) := by
  refine Runs.get_bind fun n n' halike ↦ ?_
  rw [halike.context]
  refine Same.bind (hinterp.eval .required (.root statements) rfl) fun result ↦ ?_
  split
  · refine Runs.get_bind fun k k' halike ↦ ?_
    rw [halike.context]
    exact Same.bind (raise _ _ _ _) fun _ ↦ Same.refl_pure _
  · exact Same.refl_pure _

theorem whileEvaluating (context : ContextRef) {x y : Run α} (h : relations.Same m x y) :
    relations.Same m (whileEvaluating context x) (Session.whileEvaluating context y) := by
  have hmarked (change : List ContextRef → List ContextRef) : relations.Same m
      (modify fun m : Machine ↦ { m with evaluating := change m.evaluating } : Run Unit)
      (modify fun m : Machine ↦ { m with evaluating := change m.evaluating }) :=
    runs_of_ok fun _ _ hlike ↦
      ⟨(), (), _, _, rfl, rfl, { hlike with evaluating := by simp only [hlike.evaluating] }, rfl⟩
  refine (hmarked (context :: ·)).bind fun _ ↦ ?_
  refine Same.bind (Runs.tryCatch h fun n e e' _ hfails ↦ ?_) fun result ↦
    (hmarked _).bind fun _ ↦ Same.refl_pure result
  exact (hmarked _).bind fun _ ↦ Runs.throw_of_fails hfails

theorem evaluateContextBy (hinterp : comparison.Evaluates interp) (n : Nat)
    (context : ContextRef) :
    relations.Same m (evaluateContextBy interp n context)
      (Session.evaluateContextBy interp n context) := by
  induction n generalizing context with
  | zero => exact comparison.steady .newEmpty
  | succ n ih =>
    refine Runs.get_bind_now fun k k' _ hlike ↦ ?_
    rw [hlike.toAlike.context, hlike.evaluating]
    split
    · exact (comparison.steady .newEmpty).bind fun _ ↦ Same.refl_pure _
    · -- What a source depends on is read off its imports, so both runs go through the same list.
      refine whileEvaluating context (Runs.get_bind fun l l' halike ↦ ?_)
      have hdependencies : dependencies l' context = dependencies l context := by
        unfold dependencies
        rw [halike.context]
      rw [hdependencies]
      refine Same.bind (Same.forIn _ (fun dependency _ ↦ ?_) _) fun _ ↦ ?_
      · exact (ih dependency).bind fun _ ↦ Same.refl_pure _
      · refine Runs.get_bind fun j j' halike ↦ ?_
        rw [halike.context]
        exact (logVerbose _ _).bind fun _ ↦ (modifyContext _ _).bind fun _ ↦
          evaluateStatementsBy hinterp context _

theorem evaluateLoadedBy (hinterp : comparison.Evaluates interp) (context : ContextRef) :
    relations.Same m (evaluateLoadedBy interp context)
      (Session.evaluateLoadedBy interp context) := by
  refine Runs.get_bind fun n n' halike ↦ ?_
  rw [halike.contexts]
  exact evaluateContextBy hinterp _ context

theorem runBy (hinterp : comparison.Evaluates interp) (source : String) :
    relations.Same m (runBy interp source) (Session.runBy interp source) :=
  (requireContext source).bind fun context ↦ link.bind fun _ ↦ evaluateLoadedBy hinterp context

theorem runAllBy (hinterp : comparison.Evaluates interp) :
    relations.Same m (runAllBy interp) (Session.runAllBy interp) := by
  refine link.bind fun _ ↦ Runs.get_bind fun n n' halike ↦ ?_
  rw [halike.loaded, ← Array.forIn_toList]
  refine Same.bind (Same.forIn _ (fun context _ ↦ ?_) _) fun _ ↦ Same.refl_pure ()
  refine Runs.get_bind fun k k' halike ↦ ?_
  rw [halike.context]
  split
  · exact (evaluateLoadedBy hinterp context).bind fun _ ↦ Same.refl_pure _
  · exact Same.refl_pure _

/-- An evaluation by an interpreter that respects the comparison respects it. -/
theorem actBy (hinterp : comparison.Evaluates interp) (e : Evaluation) :
    relations.Same m (e.actBy interp) (e.actBy interp) := by
  cases e with
  | run source => exact runBy hinterp source
  | evaluate source => exact (load _ _).bind fun _ ↦ runBy hinterp source.name
  | evaluateIn source =>
    refine (requireContext source.name).bind fun context ↦ Runs.get_bind_now fun n n' _ hlike ↦ ?_
    rw [hlike.options]
    refine (ofSource _).bind fun declared ↦ ?_
    rw [← Array.forIn_toList]
    refine Same.bind (Same.forIn _ (fun i _ ↦ ?_) _) fun _ ↦ ?_
    · refine (addImport context i).bind fun added ↦ ?_
      split
      · exact Runs.throw _
      · exact Same.refl_pure _
    · exact (modifyContext _ _).bind fun _ ↦ (runAllBy hinterp).bind fun _ ↦
        evaluateStatementsBy hinterp context _
  | program name entry sources =>
    cases entry with
    | none => exact Runs.throw _
    | some entry =>
      refine Same.bind (Same.forIn _ (fun source _ ↦ ?_) _) fun _ ↦ ?_
      · exact (load _ _).bind fun _ ↦ Same.refl_pure _
      · refine Runs.get_bind fun n n' halike ↦ ?_
        rw [context?_eq halike]
        split
        · exact (load _ _).bind fun _ ↦ (logVerbose _ _).bind fun _ ↦ runBy hinterp entry.name
        · exact (logVerbose _ _).bind fun _ ↦ runBy hinterp entry.name
  | call source function args =>
    refine (requireContext source).bind fun context ↦ Runs.get_bind fun n n' halike ↦ ?_
    rw [halike.context]
    exact hinterp.call "<host>" .none function args rfl

end Observed

/-! ### Watched and unwatched evaluations -/

/-- The machine with everything switched off that only watches a run. -/
def Machine.unobserved (m : Machine) : Machine := { m with options := m.options.unobserved }

/-- Assumes: no debugger, or one whose source of actions never fails. Switching off what watches a
run changes nothing else. -/
theorem Machine.NeverFails.observed {m : Machine} (h : m.NeverFails) : m.Observed m.unobserved where
  toAlike := ⟨rfl, fun _ ↦ .same _, rfl, rfl, rfl, rfl, rfl, rfl, rfl, rfl, rfl, rfl⟩
  traces := rfl
  evaluating := rfl
  hostModules := rfl
  options := rfl
  neverFails := h
  output := .refl _
  apart _ := rfl

/-- An evaluation goes as it would if some natives were refused, as every one does that calls none
of them. -/
def Session.Evaluation.Avoids (avoided : Native → Bool) (e : Evaluation) (m : Machine) : Prop :=
  e.actBy (interpAvoiding avoided fuel) m = e.act m

/-- Outcomes of a run that is watched and of the same run unwatched: the same cell, or the same
failure with its kind, message and stack trace, and machines that hold the same. -/
inductive Outcome.Observed : Outcome CellRef → Outcome CellRef → Prop
  | ok (cell : CellRef) {m m' : Machine} (h : m.Observed m') : Observed (.ok cell m) (.ok cell m')
  | error (failure : Failure) {m m' : Machine} (h : m.Observed m') :
    Observed (.error failure m) (.error failure m')

open Session in
/-- Assumes: no debugger, or one whose source of actions never fails, and an evaluation that does
not switch traces or logs. With everything switched off that watches it, it gives the same cell or
the same failure, and leaves the same sources and scopes with the same contents. All that may differ
is the log and the output, to which a debugger adds. Where the cells of both machines hold a
closure, its frame may refer to another stack trace, which no evaluation looks at. -/
theorem observation_does_not_interfere {m : Machine} {e : Evaluation} (hfails : m.NeverFails)
    (hwatched : e.Avoids Native.switchesObservers m)
    (hunwatched : e.Avoids Native.switchesObservers m.unobserved) :
    Outcome.Observed (e.act m) (e.act m.unobserved) := by
  have hinterp : Observed.comparison.Evaluates (interpAvoiding Native.switchesObservers fuel) :=
    Observed.comparison.evaluates_interpAvoiding fuel
  have hends := (Observed.actBy hinterp e).now hfails.observed
  rw [hwatched, hunwatched] at hends
  revert hends
  generalize e.act m = o
  generalize e.act m.unobserved = o'
  intro hends
  cases hends with
  | ok _ hlike hvalue =>
    cases hvalue
    exact .ok _ hlike
  | error _ hlike hfailure =>
    cases hfailure
    exact .error _ hlike

/-- Assumes: a loaded source, and a callee that holds a closure whose body is evaluated in the same
way by all interpreters. Its call avoids all natives. -/
theorem Session.Evaluation.avoids_call {m : Machine} {source : String} {context : ContextRef}
    {function : CellRef} {stamp : Stamp} {closure : Closure}
    (hcontext : requireContext source m = .ok context m)
    (hclosure : m.content function = .function stamp closure)
    (hbody : ∀ (interp interp' : Interp) (site : Site),
      interp.node site .required closure.body = interp'.node site .required closure.body)
    (avoided : Native → Bool) (args : List CellRef) :
    (call source function args).Avoids avoided m := by
  let site : Site := { context, frame := (m.context context).frame }
  have hact (interp : Interp) :
      (call source function args).actBy interp m =
        interp.call site "<host>" .none function args m :=
    Run.bind_ok hcontext
  unfold Avoids
  rw [← actBy_interp, hact, hact]
  change (interpAvoiding avoided (fuel - 1)).callAvoiding avoided site "<host>" .none function args
    m = (interp (fuel - 1)).callValue site "<host>" .none function args m
  -- Two interpreters with less fuel are left, and the body asks neither of them for anything.
  have heval (inner : Site) :
      (interpAvoiding avoided (fuel - 1)).eval inner .required closure.body =
        (interp (fuel - 1)).eval inner .required closure.body := by
    change (interpAvoiding avoided (fuel - 2)).evalNode inner .required closure.body =
      (interp (fuel - 2)).evalNode inner .required closure.body
    rw [Visit.evalNode_eq, Visit.evalNode_eq, hbody (interpAvoiding avoided (fuel - 2))]
  rw [Interp.callAvoiding_closure _ _ _ _ _ _ hclosure, Interp.callValue_closure hclosure,
    Interp.callValue_closure hclosure]
  simp only [heval]

/-- A function that declares another one. -/
def watchedClosure : Closure where
  params := []
  body := .declaration "g" [] none false
  context := ⟨0⟩
  frame := { top := ⟨0⟩, outer := [], trace := ⟨0⟩ }

/-- A machine with that function, on which every node is traced, everything is logged, and a
debugger halts before every node until it runs out of actions. -/
def watchedMachine : Machine where
  cells := #[.function ⟨0⟩ watchedClosure]
  scopes := #[{}]
  traces := #[{}]
  contexts := #[{ source := "main", globals := ⟨0⟩, trace := ⟨0⟩ }]
  loaded := #[⟨0⟩]
  options := {
    trace := 2, logResolve := true, logAssignments := true, logCalls := true
    debugger := some { step := true, actions := some (.queue [.symbols, .stack] false) } }

open Session in
/-- Traces, logs and the debugger write something during the call, and that is all they do. -/
theorem watched_call_is_not_interfered_with :
    let e : Evaluation := .call "main" ⟨0⟩ []
    watchedMachine.NeverFails ∧
      e.Avoids Native.switchesObservers watchedMachine ∧
      e.Avoids Native.switchesObservers watchedMachine.unobserved ∧
      Outcome.Observed (e.act watchedMachine) (e.act watchedMachine.unobserved) ∧
      (Outcome.final (e.act watchedMachine)).output ≠ "" ∧
      (Outcome.final (e.act watchedMachine)).log ≠ #[] := by
  intro e
  have hfails : watchedMachine.NeverFails := by
    rintro debugger ⟨⟩ source ⟨⟩
    rfl
  have hloaded : requireContext "main" watchedMachine = .ok ⟨0⟩ watchedMachine := rfl
  have hloaded' : requireContext "main" watchedMachine.unobserved =
      .ok ⟨0⟩ watchedMachine.unobserved := rfl
  have hwatched : e.Avoids Native.switchesObservers watchedMachine :=
    Evaluation.avoids_call hloaded rfl (fun _ _ _ ↦ rfl) _ _
  have hunwatched : e.Avoids Native.switchesObservers watchedMachine.unobserved :=
    Evaluation.avoids_call hloaded' rfl (fun _ _ _ ↦ rfl) _ _
  refine ⟨hfails, hwatched, hunwatched, observation_does_not_interfere hfails hwatched hunwatched,
    ?_, ?_⟩
  · decide +kernel
  · decide +kernel

end TreeScript
