import TreeScript.Proofs.Sessions.Evaluated

/-!
# Starting a session succeeds

`Achieves I Q x` says that `x` succeeds on all machines on which `I` holds, leaves one on which it
holds again, and gives a value with property `Q`. A source without imports that declares natives
which have been registered is run so (`Prepared.runs`): nothing it does can fail, because the
natives are found and every name can be bound in its own frame. The core modules are such sources,
whatever the options are. So a session starts whenever its options pass the check, and has them in
force then (`start_succeeds`).
-/

set_option autoImplicit false

namespace TreeScript

/-! ### Computations that succeed -/

/-- A computation succeeds where an invariant holds, keeps it, and gives a value with a property. -/
def Achieves {α : Type} (I : Machine → Prop) (Q : α → Prop) (x : Run α) : Prop :=
  ∀ m, I m → ∃ a n, x m = .ok a n ∧ I n ∧ Q a

namespace Achieves

variable {I : Machine → Prop} {α β : Type} {Q : α → Prop} {R : β → Prop} {x : Run α}

theorem pure {a : α} (h : Q a) : Achieves I Q (Pure.pure a) := fun m hm ↦ ⟨a, m, rfl, hm, h⟩

theorem bind {f : α → Run β} (hfirst : Achieves I Q x) (hrest : ∀ a, Q a → Achieves I R (f a)) :
    Achieves I R (x >>= f) := by
  intro m hm
  obtain ⟨a, n, hx, hn, ha⟩ := hfirst m hm
  obtain ⟨b, k, hf, hk, hb⟩ := hrest a ha n hn
  exact ⟨b, k, (Run.bind_ok hx).trans hf, hk, hb⟩

theorem get_bind {f : Machine → Run α} (h : ∀ m, I m → Achieves I Q (f m)) :
    Achieves I Q (get >>= f) :=
  fun m hm ↦ h m hm m hm

theorem ite {p : Prop} [Decidable p] {x y : Run α} (hx : p → Achieves I Q x)
    (hy : ¬p → Achieves I Q y) : Achieves I Q (if p then x else y) := by
  split
  · exact hx ‹p›
  · exact hy ‹¬p›

theorem of_modify {change : Machine → Machine} (h : ∀ m, I m → I (change m)) :
    Achieves I (fun _ ↦ True) (modify change) :=
  fun m hm ↦ ⟨(), change m, rfl, h m hm, trivial⟩

theorem of_modifyGet {step : Machine → α × Machine} (h : ∀ m, I m → I (step m).2) :
    Achieves I (fun _ ↦ True) (modifyGet step) :=
  fun m hm ↦ ⟨(step m).1, (step m).2, rfl, h m hm, trivial⟩

theorem mono {R : α → Prop} (h : Achieves I Q x) (hmono : ∀ a, Q a → R a) : Achieves I R x := by
  intro m hm
  obtain ⟨a, n, hx, hn, ha⟩ := h m hm
  exact ⟨a, n, hx, hn, hmono a ha⟩

/-- A loop over the numbers below a bound takes what holds at first, pass by pass, to what holds at
last. -/
theorem foldlM_range (S : Nat → α → Prop) (step : α → Nat → Run α) (init : α) (count : Nat)
    (hinit : S 0 init) (hstep : ∀ k < count, ∀ a, S k a → Achieves I (S (k + 1)) (step a k)) :
    Achieves I (S count) ((List.range count).foldlM step init) := by
  induction count with
  | zero => exact pure hinit
  | succ count ih =>
    rw [List.range_succ, List.foldlM_append]
    refine bind (ih fun k hk ↦ hstep k (by omega)) fun a ha ↦ ?_
    rw [List.foldlM_cons]
    exact bind (hstep count (by omega) a ha) fun b hb ↦ pure hb

end Achieves

/-! ### Declaring natives -/

/-- A source stands on a machine with some natives and options. -/
structure Prepared (home : ContextRef) (source : Context) (natives : List NativeBinding)
    (options : Options) (m : Machine) : Prop where
  source : m.context home = source
  natives : m.natives = natives
  options : m.options = options
  idle : m.evaluating = [home]

namespace Prepared

variable {home : ContextRef} {source : Context} {natives : List NativeBinding} {options : Options}
  {α : Type} {Q : α → Prop}

/-- The root of the source. -/
def root (home : ContextRef) (source : Context) : Site := ⟨home, source.frame⟩

/-- What changes none of this keeps it. -/
theorem of_same {m n : Machine} (h : Prepared home source natives options m)
    (hcontexts : n.contexts = m.contexts) (hnatives : n.natives = m.natives)
    (hoptions : n.options = m.options) (hidle : n.evaluating = m.evaluating) :
    Prepared home source natives options n where
  source := by
    rw [Machine.context_congr hcontexts]
    exact h.source
  natives := hnatives.trans h.natives
  options := hoptions.trans h.options
  idle := hidle.trans h.idle

theorem alloc (content : Content) :
    Achieves (Prepared home source natives options) (fun _ ↦ True) (alloc content) :=
  .of_modifyGet fun _ hm ↦ hm.of_same rfl rfl rfl rfl

theorem inherit (cell other : CellRef) :
    Achieves (Prepared home source natives options) (fun _ ↦ True) (inherit cell other) :=
  .get_bind fun _ _ ↦ .of_modify fun _ hm ↦ hm.of_same rfl rfl rfl rfl

theorem put (name : String) (cell : CellRef) (frame : Frame) :
    Achieves (Prepared home source natives options) (fun _ ↦ True) (frame.put name cell) :=
  .get_bind fun _ _ ↦ .of_modify fun _ hm ↦ hm.of_same rfl rfl rfl rfl

theorem logInfo (text : String) :
    Achieves (Prepared home source natives options) (fun _ ↦ True) (logInfo text) := by
  refine .of_modify fun m hm ↦ ?_
  split
  · exact hm
  · exact hm.of_same rfl rfl rfl rfl

theorem logStep (i : Nat) (key text : String) :
    Achieves (Prepared home source natives options) (fun _ ↦ True) (logStep i key text) :=
  .get_bind fun _ _ ↦ .ite (fun _ ↦ logInfo _) fun _ ↦ .pure trivial

/-- Assumes: no debugger. A node is evaluated where the rule for its construct succeeds. -/
theorem evalNode (hdebugger : options.debugger = none) {interp : Interp} {site : Site} {mode : Mode}
    {node : Node} {Q : Completion → Prop}
    (h : Achieves (Prepared home source natives options) Q (interp.node site mode node)) :
    Achieves (Prepared home source natives options) Q (interp.evalNode site mode node) := by
  intro m hm
  have hquiet : m.options.debugger = none := by rw [hm.options, hdebugger]
  obtain ⟨depth, recorded, style, announced, hrecord, hannounce, hunwound⟩ :=
    Visit.record_announce_apply site node hquiet
  have hannounced : Prepared home source natives options announced := by
    rw [← hunwound]
    exact hm.of_same rfl rfl rfl rfl
  obtain ⟨result, done, hnode, hdone, hresult⟩ := h announced hannounced
  obtain ⟨last, heval, hlast⟩ := Visit.evalNode_ok hrecord hannounce hnode
  refine ⟨result, last, heval, ?_, hresult⟩
  rw [← hlast]
  exact hdone.of_same rfl rfl rfl rfl

section Declarations

variable (origin : Node) (name : String)

theorem createName (i : Nat) (r : Resolution) :
    Achieves (Prepared home source natives options) (fun _ ↦ True)
      (Chain.createName ⟨origin, root home source, .createIfMissing⟩ i true name r) :=
  Achieves.bind (alloc .empty) fun cell _ ↦ Achieves.bind (put name cell r.frame) fun _ _ ↦
    Achieves.bind (logStep i name "created") fun _ _ ↦ .pure trivial

/-- Assumes: a source without imports. A name at its root stands for a cell, or is bound to a new
one. -/
theorem resolveName (himports : source.imports = #[]) (i : Nat) :
    Achieves (Prepared home source natives options) (fun _ ↦ True)
      (Chain.resolveName ⟨origin, root home source, .createIfMissing⟩ i true name
        { context := home, frame := source.frame }) := by
  have hfound (text : String) (cell : CellRef) :
      Achieves (Prepared home source natives options) (fun _ ↦ True) (do
        TreeScript.logStep i name text
        return ({ context := home, frame := source.frame, value := some cell } : Resolution)) :=
    Achieves.bind (logStep i name text) fun _ _ ↦ .pure trivial
  refine .get_bind fun m _ ↦ ?_
  split
  · exact hfound "local symbols" _
  · refine .get_bind fun n _ ↦ ?_
    split
    · exact hfound "global variables" _
    · refine .get_bind fun k hk ↦ ?_
      have hnone : ((k.context home).imports).toList = [] := by
        rw [hk.source, himports]
      change Achieves _ _ (Chain.switchToImport _ name _ _ ((k.context home).imports).toList >>= _)
      rw [hnone, Chain.switchToImport, pure_bind]
      exact .ite (fun hforeign ↦ absurd rfl hforeign.2) fun _ ↦ createName origin name i _

/-- Assumes: a source without imports. The name of a declaration leads to a cell. -/
theorem resolve (interp : Interp) (himports : source.imports = #[]) :
    Achieves (Prepared home source natives options) (fun _ ↦ True)
      (resolve interp (root home source) origin .createIfMissing [.identifier name]) := by
  have hsteps : Achieves (Prepared home source natives options) (fun _ ↦ True)
      (Chain.resolveSteps ⟨origin, root home source, .createIfMissing⟩ interp 0 origin
        [.identifier name] { context := home, frame := source.frame }) := by
    refine .get_bind fun m _ ↦ Achieves.bind (resolveName origin name himports 0) fun r _ ↦ ?_
    unfold Chain.resolveSteps
    dsimp only
    split
    · exact .pure trivial
    · exact alloc .empty
  exact .get_bind fun m _ ↦ .ite (fun _ ↦ Achieves.bind (logInfo _) fun _ _ ↦ hsteps) fun _ ↦ hsteps

/-- A native that is registered for one of the modules of the source, or for its name. -/
def Declared (source : Context) (natives : List NativeBinding) (name : String) : Prop :=
  ∃ binding ∈ natives, binding.name = name ∧
    binding.module ∈ source.modules.toList.map (·.name) ++ [source.source]

theorem declaredNative (hdeclared : Declared source natives name) :
    Achieves (Prepared home source natives options) (fun _ ↦ True)
      (declaredNative (root home source) name) := by
  unfold TreeScript.declaredNative
  refine .get_bind fun m hm ↦ .get_bind fun n hn ↦ ?_
  dsimp only [root]
  rw [hm.source]
  obtain ⟨binding, hmem, rfl, hmodule⟩ := hdeclared
  have hfound : ∃ function, n.native? (source.modules.toList.map (·.name) ++ [source.source])
      binding.name = some function := by
    refine Option.ne_none_iff_exists'.mp fun hnone ↦ ?_
    have hmissing := List.findSome?_eq_none_iff.mp hnone binding.module hmodule
    rw [Option.map_eq_none_iff, List.find?_eq_none] at hmissing
    exact hmissing binding (hn.natives ▸ hmem) (by simp)
  obtain ⟨function, hfunction⟩ := hfound
  rw [hfunction]
  exact Achieves.bind (.of_modifyGet fun _ hm ↦ hm.of_same rfl rfl rfl rfl) fun _ _ ↦ alloc _

end Declarations

/-- Assumes: a source without imports, and no debugger. A declaration of a native that is registered
ends normally. -/
theorem declaration (himports : source.imports = #[]) (hdebugger : options.debugger = none)
    {name : String} (hdeclared : Declared source natives name) (mode : Mode) (fuel : Nat) :
    Achieves (Prepared home source natives options) (·.flow = .normal)
      ((interp (fuel + 1)).eval (root home source) mode (.declaration name [] none true)) := by
  change Achieves _ _ ((interp fuel).evalNode _ mode (.declaration name [] none true))
  refine evalNode hdebugger ?_
  have hdeclare : Achieves (Prepared home source natives options) (fun _ ↦ True)
      ((interp fuel).declare (root home source) (.declaration name [] none true) name [] none true) :=
    (declaredNative name hdeclared).bind fun function _ ↦ (resolve _ name _ himports).bind
      fun cell _ ↦ (inherit cell function).bind fun _ _ ↦ .pure trivial
  exact hdeclare.bind fun _ _ ↦ .pure rfl

/-- Declarations of natives that are registered, one after the other. -/
theorem declarations (himports : source.imports = #[]) (hdebugger : options.debugger = none)
    (mode : Mode) (fuel : Nat) {names : List String}
    (hdeclared : ∀ name ∈ names, Declared source natives name) :
    ∀ last : Completion, last.flow = .normal →
      Achieves (Prepared home source natives options) (·.flow = .normal)
        ((interp (fuel + 1)).sequenceFrom (root home source) mode last
          (names.map fun name ↦ .declaration name [] none true)) := by
  induction names with
  | nil => exact fun last hlast ↦ .pure hlast
  | cons name names ih =>
    intro last _
    obtain ⟨hname, hnames⟩ := List.forall_mem_cons.mp hdeclared
    refine (declaration himports hdebugger hname mode fuel).bind fun result hresult ↦ ?_
    rw [if_pos hresult]
    exact ih hnames result hresult

/-- Assumes: a source without imports, and no debugger. A body of declarations of natives that are
registered is run. -/
theorem runs (himports : source.imports = #[]) (hdebugger : options.debugger = none)
    {names : List String} (hdeclared : ∀ name ∈ names, Declared source natives name) :
    Achieves (Prepared home source natives options) (fun _ ↦ True)
      (Session.evaluateStatements home (names.map fun name ↦ .declaration name [] none true)) := by
  refine .get_bind fun m hm ↦ ?_
  rw [hm.source]
  have hroot : Achieves (Prepared home source natives options) (·.flow = .normal)
      ((interp Session.fuel).eval (root home source) .required
        (.root (names.map fun name ↦ .declaration name [] none true))) := by
    obtain ⟨fuel, hfuel⟩ : ∃ fuel, Session.fuel = fuel + 2 := ⟨Session.fuel - 2, by decide⟩
    rw [hfuel]
    change Achieves _ _ ((interp (fuel + 1)).evalNode _ .required (.root _))
    refine evalNode hdebugger ?_
    exact (alloc .empty).bind fun _ _ ↦ declarations himports hdebugger _ fuel hdeclared _ rfl
  refine hroot.bind fun result hresult ↦ ?_
  rw [hresult]
  exact .pure trivial

end Prepared

/-! ### Loading the core modules -/

namespace CoreModule

/-- Declarations of natives are what is left of a source. -/
theorem foldlM_declarations (source : String) (forbidden names : List String)
    (declared : Declarations) :
    (names.map fun name ↦ Node.declaration name [] none true).foldlM
        (Declarations.add source forbidden) declared =
      .ok { declared with
        body := declared.body ++ names.map fun name ↦ Node.declaration name [] none true } := by
  induction names generalizing declared with
  | nil => simp [pure, Except.pure]
  | cons name names ih =>
    rw [List.map_cons, List.foldlM_cons]
    change (names.map _).foldlM _ { declared with body := declared.body.push _ } = _
    rw [ih]
    simp

/-- What the source of a core module declares: one module of its name with all of its functions. -/
def declarations (core : CoreModule) : Declarations where
  modules := #[{ name := core.name, symbols := core.functions.map (·.1) }]
  body := ((core.functions.map (·.1)).map fun name ↦ Node.declaration name [] none true).toArray

theorem collect_statements (core : CoreModule) :
    Declarations.collect core.source [] core.statements = .ok core.declarations := by
  have hstatements : core.statements =
      ((core.functions.map (·.1)).map fun name ↦ Node.declaration name [] none true) ++
        [.exportStatement (core.functions.map (·.1)) core.name] := by
    rw [List.map_map]
    rfl
  unfold Declarations.collect
  rw [hstatements, List.foldlM_append, foldlM_declarations]
  simp [bind, Except.bind, Declarations.add, pure, Except.pure, declarations]

end CoreModule

namespace Session

theorem quiet_logVerbose (text : String) : Quiet (logVerbose text) := by
  intro m
  change ∃ log, EStateM.Result.ok () (if m.logLevel = .verbose then _ else m) = _
  split
  · exact ⟨_, rfl⟩
  · exact ⟨m.log, rfl⟩

variable {m : Machine}

/-- A source that imports nothing automatically is enlisted. -/
theorem enlist_succeeds (context : ContextRef) (message : Nat → String) (m : Machine) :
    ∃ log, enlist context [] message m =
      .ok context { m with loaded := m.loaded.push context, log } := by
  unfold enlist
  rw [List.forIn_nil, pure_bind]
  obtain ⟨log, hlogged⟩ := quiet_logVerbose (message (m.context context).imports.size)
    { m with loaded := m.loaded.push context }
  exact ⟨log, Run.bind_ok (f := fun _ ↦ pure context) hlogged⟩

/-- The source of a core module is made and enlisted. -/
theorem loadSource_core (core : CoreModule) (m : Machine) :
    ∃ log, loadSource core.source core.statements false m = .ok ⟨m.contexts.size⟩
      { m.enlisted { debugValues := m.options.traceValues }
          (sourceOf m core.source core.declarations) with log } := by
  have hcollected : Declarations.collect core.source
      (if false then m.options.forbiddenImports else []) core.statements = .ok core.declarations :=
    core.collect_statements
  rw [loadSource_ok hcollected]
  exact enlist_succeeds _ _ _

/-- Assumes: a source that has just been made, imports nothing, and declares natives that are
registered, on a machine without a debugger on which nothing is being evaluated. It is evaluated,
under the same options. -/
theorem evaluateLoaded_succeeds {home : ContextRef} (hexists : home.index < m.contexts.size)
    (himports : (m.context home).imports = #[]) (hpending : (m.context home).evaluated = false)
    (hidle : m.evaluating = []) (hdebugger : m.options.debugger = none) {names : List String}
    (hbody : (m.context home).body = names.map fun name ↦ .declaration name [] none true)
    (hdeclared : ∀ name ∈ names, Prepared.Declared (m.context home) m.natives name) :
    ∃ cell n, evaluateLoaded home m = .ok cell n ∧ n.options = m.options ∧ n.evaluating = [] := by
  have hnew : ¬m.Entered home := by
    rintro (hentered | hentered)
    · exact Bool.false_ne_true (hpending.symm.trans hentered)
    · rw [hidle] at hentered
      cases hentered
  -- Without imports there is nothing that has to be evaluated first.
  have hnone : Lookup.dependencies m home = [] := by
    unfold Lookup.dependencies
    rw [himports]
    rfl
  let source : Context := { m.context home with evaluated := true }
  have himports' : source.imports = #[] := himports
  have hprepared : Prepared home source m.natives m.options ((m.opening home).starting home) := by
    obtain ⟨log, hlogged⟩ := quiet_logVerbose
      ("evaluating " ++ ((m.opening home).context home).source) (m.opening home)
    refine ⟨?_, ?_, ?_, ?_⟩
    · rw [Machine.context_starting (m := m.opening home) hexists, if_pos rfl]
      rfl
    · unfold Machine.starting
      rw [hlogged]
      rfl
    · unfold Machine.starting
      rw [hlogged]
      rfl
    · rw [Machine.evaluating_starting]
      exact congrArg (home :: ·) hidle
  obtain ⟨cell, n, hrun, hn, -⟩ :=
    Prepared.runs himports' hdebugger hdeclared _ hprepared
  refine ⟨cell, n.closing home, ?_, hn.options, ?_⟩
  · unfold evaluateLoaded
    rw [Run.get_bind, evaluateContext_new _ hnew, hnone]
    refine whileEvaluating_ok ?_
    unfold evaluateEach
    rw [List.forIn_nil, pure_bind, evaluateBody_apply]
    change evaluateStatements home (m.context home).body _ = _
    rw [hbody]
    exact hrun
  · unfold Machine.closing
    rw [hn.idle]
    simp

/-- Assumes: a machine on which nothing is being evaluated, and no debugger. A core module is
loaded, under the same options. -/
theorem loadCore_succeeds (core : CoreModule) (hidle : m.evaluating = [])
    (hdebugger : m.options.debugger = none) :
    ∃ n, loadCore core m = .ok () n ∧ n.options = m.options ∧ n.evaluating = [] := by
  let registered : Machine := { m with natives := core.bindings.reverse ++ m.natives }
  have hregistered : registerNatives core.bindings m = .ok () registered := rfl
  obtain ⟨log, hlisted⟩ := loadSource_core core registered
  let source := sourceOf registered core.source core.declarations
  let home : ContextRef := ⟨registered.contexts.size⟩
  let listed : Machine :=
    { registered.enlisted { debugValues := m.options.traceValues } source with log }
  have hexists : home.index < listed.contexts.size := size_lt_push _ _
  have hhome : (registered.enlisted { debugValues := m.options.traceValues } source).context home =
      source :=
    (Machine.context_enlisted (m := registered) _).trans (if_pos rfl)
  have hdeclared : ∀ name ∈ core.functions.map (·.1),
      Prepared.Declared source registered.natives name := by
    intro name hname
    obtain ⟨⟨_, function⟩, hfunction, rfl⟩ := List.mem_map.mp hname
    refine ⟨⟨core.name, _, function⟩, List.mem_append_left _ (List.mem_reverse.mpr ?_), rfl, ?_⟩
    · exact List.mem_map.mpr ⟨_, hfunction, rfl⟩
    · simp [source, sourceOf, CoreModule.declarations]
  obtain ⟨cell, n, hrun, hoptions, hdone⟩ := evaluateLoaded_succeeds hexists
    (congrArg Context.imports hhome) (congrArg Context.evaluated hhome) hidle hdebugger
    (congrArg Context.body hhome)
    (fun name hname ↦ (congrArg (Prepared.Declared · registered.natives name) hhome).mpr
      (hdeclared name hname))
  exact ⟨n, (Run.bind_ok hregistered).trans ((Run.bind_ok hlisted).trans (Run.bind_ok hrun)),
    hoptions,
    hdone⟩

/-- A session starts if its options pass the check, and has them in force then. -/
theorem start_succeeds {options checked : Options} (h : checkOptions options = .ok checked)
    (level : LogLevel) :
    ∃ m, start options { logLevel := level } = .ok () m ∧ m.options = checked := by
  have hload (cores : List CoreModule) : ∀ m : Machine, m.evaluating = [] →
      m.options.debugger = none → ∃ n, (forIn cores PUnit.unit fun core _ ↦ do
        loadCore core
        pure (.yield PUnit.unit) : Run PUnit) m = .ok () n := by
    induction cores with
    | nil => exact fun m _ _ ↦ ⟨m, rfl⟩
    | cons core cores ih =>
      intro m hidle hdebugger
      obtain ⟨n, hloaded, hoptions, hdone⟩ := loadCore_succeeds core hidle hdebugger
      obtain ⟨k, hrest⟩ := ih n hdone (by rw [hoptions, hdebugger])
      refine ⟨k, ?_⟩
      rw [List.forIn_cons, bind_assoc, Run.bind_ok hloaded, pure_bind]
      exact hrest
  unfold start
  rw [h]
  obtain ⟨n, hloaded⟩ := hload CoreModule.all
    { options := { checked with
        trace := 0, logResolve := false, logAssignments := false, logCalls := false,
        debugger := none }, logLevel := level } rfl rfl
  exact ⟨_, Run.bind_ok hloaded, rfl⟩

end Session

end TreeScript
