import TreeScript.Proofs.Sessions.Requests

/-!
# What a session keeps by keeping its books

Besides evaluating nodes, a session keeps books: it makes sources, links their imports, and marks
those that are being evaluated or have been. None of that changes the options or what stands on a
stack trace. So an invariant that looks nowhere else is kept by a session if evaluations keep it
(`Kept.request`).
-/

set_option autoImplicit false

namespace TreeScript

namespace Session

/-- An invariant that looks at most at the options and at the nodes on the stack traces, and that
evaluations and calls keep. -/
structure Kept (I : Machine → Prop) : Prop where
  books : ∀ m n : Machine, n.options = m.options →
    (∀ ref, (n.trace ref).entries = (m.trace ref).entries) → I m → I n
  eval : ∀ site mode node, Spares I ((interp fuel).eval site mode node)
  call : ∀ site name preparation function args,
    Spares I ((interp fuel).call site name preparation function args)

namespace Kept

variable {I : Machine → Prop} {α : Type} {Q : α → Prop} (hI : Kept I)
include hI

theorem of_modify {change : Machine → Machine} (hoptions : ∀ m, (change m).options = m.options)
    (htraces : ∀ m, (change m).traces = m.traces) : Spares I (modify change) := by
  refine .of_modify fun m hm ↦ hI.books m _ (hoptions m) (fun ref ↦ ?_) hm
  unfold Machine.trace
  rw [htraces]

theorem of_modifyGet {step : Machine → α × Machine} (hoptions : ∀ m, (step m).2.options = m.options)
    (htraces : ∀ m, (step m).2.traces = m.traces) : Spares I (modifyGet step) := by
  refine .of_modifyGet (fun m hm ↦ hI.books m _ (hoptions m) (fun ref ↦ ?_) hm) fun _ _ ↦ trivial
  unfold Machine.trace
  rw [htraces]

theorem alloc (content : Content) : Spares I (alloc content) :=
  hI.of_modifyGet (fun _ ↦ rfl) fun _ ↦ rfl

theorem modifyContext (ref : ContextRef) (change : Context → Context) :
    Spares I (modifyContext ref change) :=
  hI.of_modify (fun _ ↦ rfl) fun _ ↦ rfl

theorem logVerbose (text : String) : Spares I (logVerbose text) := by
  refine hI.of_modify (fun m ↦ ?_) fun m ↦ ?_
  · split <;> rfl
  · split <;> rfl

omit hI in
theorem requireContext (source : String) : Spares I (requireContext source) := by
  refine .get_bind fun m _ ↦ ?_
  split
  · exact .pure trivial
  · exact .throw _

/-- The stack trace of a new source is empty, as is what was found in its place before. -/
theorem newContext (source : String) (debugValues : List String) :
    Spares I (newContext source debugValues) := by
  have htrace : Spares I (newTrace { debugValues }) := by
    refine .of_modifyGet (fun m hm ↦ hI.books m _ rfl (fun ref ↦ ?_) hm) fun _ _ ↦ trivial
    change ((m.traces.push { debugValues })[ref.index]?.getD {}).entries = (m.trace ref).entries
    rw [getD_push]
    split
    · rename_i hnew
      rw [Machine.trace_of_missing (Nat.le_of_eq hnew.symm)]
    · rfl
  exact Spares.bind (hI.of_modifyGet (fun _ ↦ rfl) fun _ ↦ rfl) fun _ ↦ htrace.bind fun _ ↦
    hI.of_modifyGet (fun _ ↦ rfl) fun _ ↦ rfl

theorem addImport (context : ContextRef) (i : Import) : Spares I (addImport context i) :=
  .get_bind fun _ _ ↦ .ite (fun _ ↦ .pure trivial) fun _ ↦
    (hI.modifyContext context _).bind fun _ ↦ .pure trivial

omit hI in
theorem ofSource (result : Except SourceError α) : Spares I (Run.ofSource result) :=
  (Maintains.ofSource result).spares

theorem loadSource (source : String) (statements : List Node) (isUser : Bool) :
    Spares I (loadSource source statements isUser) := by
  have hlisted (context : ContextRef) (message : Machine → String) :
      Spares I (do
        modify fun m => { m with loaded := m.loaded.push context }
        TreeScript.logVerbose (message (← get))
        return context) :=
    Spares.bind (hI.of_modify (fun _ ↦ rfl) fun _ ↦ rfl) fun _ ↦ .get_bind fun _ _ ↦
      (hI.logVerbose _).bind fun _ ↦ .pure trivial
  refine .get_bind fun m _ ↦ (ofSource _).bind fun declared ↦ (hI.newContext source _).bind
    fun context ↦ (hI.modifyContext context _).bind fun _ ↦ .ite (fun _ ↦ ?_) fun _ ↦
      hlisted context _
  refine Spares.bind (Spares.forIn (fun text _ _ ↦ ?_) _) fun _ ↦ hlisted context _
  exact (ofSource _).bind fun i ↦ (hI.addImport context i).bind fun _ ↦ .pure trivial

theorem link : Spares I link := by
  have hlinked (i : Import) : Spares I (linked i) := by
    refine .ite (fun _ ↦ .pure trivial) fun _ ↦ .get_bind fun m _ ↦ ?_
    split
    · exact .pure trivial
    · exact .throw _
  refine .get_bind fun _ _ ↦ Spares.bind (Spares.forInArray (fun context _ _ ↦ ?_) _) fun _ ↦
    .pure trivial
  refine Spares.bind (.get_bind fun _ _ ↦ Spares.bind (Spares.forIn (fun entry _ _ ↦ ?_) _)
    fun _ ↦ .pure trivial) fun _ ↦ .pure trivial
  exact (hlinked entry.1).bind fun _ ↦ (hI.modifyContext context _).bind fun _ ↦ .pure trivial

theorem registerType (module name : String) (shape : HostShape) :
    Spares I (registerType module name shape) := by
  have hentered (context : ContextRef) : Spares I (do
      let type : HostType := { stamp := ← newStamp, module, name, shape }
      setVariable context name (← TreeScript.alloc (.hostType type))
      TreeScript.modifyContext context fun c =>
        { c with modules := c.modules.modify 0 fun module =>
            if module.symbols.contains name then module
            else { module with symbols := module.symbols ++ [name] } }) :=
    Spares.bind (hI.of_modifyGet (fun _ ↦ rfl) fun _ ↦ rfl) fun _ ↦ (hI.alloc _).bind fun cell ↦
      Spares.bind (.get_bind fun _ _ ↦ hI.of_modify (fun _ ↦ rfl) fun _ ↦ rfl) fun _ ↦
        hI.modifyContext context _
  unfold Session.registerType
  refine Spares.check (.fail _) ?_
  refine Spares.check (.fail _) ?_
  refine .get_bind fun m _ ↦ ?_
  dsimp only
  split
  · exact hentered _
  · exact (hI.newContext module []).bind fun context ↦ (hI.modifyContext context _).bind fun _ ↦
      Spares.bind (hI.of_modify (fun _ ↦ rfl) fun _ ↦ rfl) fun _ ↦ hentered context

/-! ### Running -/

theorem evaluateStatements (context : ContextRef) (statements : List Node) :
    Spares I (evaluateStatements context statements) := by
  refine .get_bind fun m _ ↦ ?_
  refine (hI.eval _ _ _).bind fun result ↦ .ite (fun _ ↦ .get_bind fun n _ ↦ ?_) fun _ ↦
    .pure trivial
  exact Spares.bind (.get_bind fun _ _ ↦ .throw _) fun _ ↦ .pure trivial

theorem whileEvaluating {act : Run α} (context : ContextRef) (hact : Spares I act) :
    Spares I (whileEvaluating context act) := by
  have hdone : Spares I
      (modify fun m : Machine => { m with
        evaluating := m.evaluating.filter (· ≠ context) } : Run Unit) :=
    hI.of_modify (fun _ ↦ rfl) fun _ ↦ rfl
  refine Spares.bind (hI.of_modify (fun _ ↦ rfl) fun _ ↦ rfl) fun _ ↦
    Spares.bind (.tryCatch hact fun e ↦ ?_) fun _ ↦ hdone.bind fun _ ↦ .pure trivial
  exact hdone.bind fun _ ↦ .throw e

theorem evaluateContext (fuel : Nat) : ∀ context : ContextRef,
    Spares I (evaluateContext fuel context) := by
  induction fuel with
  | zero => exact fun _ ↦ hI.alloc _
  | succ fuel ih =>
    refine fun context ↦ .get_bind fun m _ ↦ .ite
      (fun _ ↦ Spares.bind (hI.alloc _) fun _ ↦ .pure trivial)
      fun _ ↦ hI.whileEvaluating context (.get_bind fun _ _ ↦ Spares.bind (Spares.forIn
        (fun dependency _ _ ↦ ?_) _) fun _ ↦ .get_bind fun _ _ ↦ ?_)
    · exact (ih dependency).bind fun _ ↦ .pure trivial
    · exact (hI.logVerbose _).bind fun _ ↦ (hI.modifyContext context _).bind fun _ ↦
        hI.evaluateStatements context _

theorem evaluateAll (listed : Bool) (contexts : List ContextRef) :
    Spares I (evaluateAll listed contexts) := by
  refine Spares.forIn (fun context _ _ ↦ .get_bind fun _ _ ↦ .ite (fun _ ↦ ?_) fun _ ↦
    .pure trivial) _
  exact Spares.bind (.get_bind fun _ _ ↦ hI.evaluateContext _ context) fun _ ↦ .pure trivial

/-! ### Requests -/

theorem prepareRun (source : String) : Spares I (prepareRun source) :=
  (requireContext source).bind fun _ ↦ hI.link.bind fun _ ↦ .pure trivial

theorem load (source : SourceText) : Spares I (Session.load source.name source.statements) :=
  hI.loadSource source.name source.statements true

theorem prepareStatements (source : String) (statements : List Node) :
    Spares I (prepareStatements source statements) := by
  have hadded (context : ContextRef) (imports : Array Import) :
      Spares I (addImports context source imports) := by
    refine Spares.bind (Spares.forInArray (fun i _ _ ↦ ?_) _) fun _ ↦ .pure trivial
    refine (hI.addImport context i).bind fun _ ↦ .ite (fun _ ↦ ?_) fun _ ↦ .pure trivial
    exact Spares.bind (.throw _) fun _ ↦ .pure trivial
  exact (requireContext source).bind fun context ↦ .get_bind fun _ _ ↦ (ofSource _).bind
    fun declared ↦ (hadded context _).bind fun _ ↦ (hI.modifyContext context _).bind fun _ ↦
      hI.link.bind fun _ ↦ .get_bind fun _ _ ↦ .pure trivial

theorem prepareProgram (name : String) (entry : SourceText) (sources : List SourceText) :
    Spares I (prepareProgram name entry sources) := by
  have hrun : Spares I (do
      TreeScript.logVerbose
        s!"program {name}: running {entry.name} with {sources.length} source(s)"
      Session.prepareRun entry.name) :=
    (hI.logVerbose _).bind fun _ ↦ hI.prepareRun entry.name
  refine Spares.bind (Spares.forIn (fun source _ _ ↦ ?_) _) fun _ ↦
    .get_bind fun _ _ ↦ .ite (fun _ ↦ ?_) fun _ ↦ hrun
  · exact (hI.load source).bind fun _ ↦ .pure trivial
  · exact (hI.load entry).bind fun _ ↦ hrun

/-- Loading and linking keep the invariant, if the options may be set where they are. -/
theorem prepare (request : Request) (hconfigure : ∀ options, request = .configure options →
    ∀ m : Machine, I m → I { m with options }) : Spares I request.prepare := by
  have hnatives (bindings : List NativeBinding) : Spares I (registerNatives bindings) :=
    hI.of_modify (fun _ ↦ rfl) fun _ ↦ rfl
  cases request with
  | user step =>
    cases step with
    | load source => exact (hI.load source).bind fun _ ↦ .pure trivial
    | run source => exact hI.prepareRun source
    | evaluate source => exact (hI.load source).bind fun _ ↦ hI.prepareRun source.name
    | evaluateIn source => exact hI.prepareStatements source.name source.statements
    | program name entry sources =>
      cases entry with
      | none => exact .throw _
      | some entry => exact hI.prepareProgram name entry sources
  | link => exact hI.link.bind fun _ ↦ .pure trivial
  | runAll => exact hI.link.bind fun _ ↦ .get_bind fun _ _ ↦ .pure trivial
  | hostType module name shape =>
    exact (hI.registerType module name shape).bind fun _ ↦ .pure trivial
  | natives bindings => exact (hnatives bindings).bind fun _ ↦ .pure trivial
  | core module =>
    exact (hnatives module.bindings).bind fun _ ↦
      (hI.loadSource module.source module.statements false).bind fun _ ↦ .pure trivial
  | configure options =>
    exact Spares.bind (.of_modify (hconfigure options rfl)) fun _ ↦ .pure trivial

/-- A request keeps the invariant, if the options may be set where it sets them. -/
theorem request (request : Request) (hconfigure : ∀ options, request = .configure options →
    ∀ m : Machine, I m → I { m with options }) : Spares I request.act := by
  rw [Request.act_eq]
  refine (hI.prepare request hconfigure).bind fun plan ↦
    (hI.evaluateAll plan.listed plan.sources).bind fun _ ↦ ?_
  split
  · exact (hI.evaluateStatements _ _).bind fun _ ↦ .pure trivial
  · exact .pure trivial

theorem callFunction (source : String) (function : CellRef) (args : List CellRef) :
    Spares I (callFunction source function args) :=
  (requireContext source).bind fun _ ↦ .get_bind fun _ _ ↦ hI.call _ "<host>" .none function args

end Kept

end Session

end TreeScript
