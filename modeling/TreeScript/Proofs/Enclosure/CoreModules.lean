import TreeScript.Proofs.Enclosure.Declaring
import TreeScript.Proofs.Enclosure.Sessions

/-!
# The core modules of a new session

A new session has loaded the core modules one after the other, each as a source of its own that has
been run, and nothing else (`Furnished`): the only values are the natives that the sources declare,
and the variables of a source stand for natives of its module. Each module that is loaded keeps it
so (`Furnished.loadCore`), so it is so when the session has started (`Furnished.of_start`). A core
module whose import is forbidden is therefore enclosed when a session begins: its natives, the
variables of its source and the source itself (`Furnished.holds`).
-/

set_option autoImplicit false

namespace TreeScript

open Session

/-! ### The table of core modules -/

/-- A native that is no operator and does not belong to a host program. -/
def Native.isBuiltIn : Native → Bool
  | .operator .. | .host _ => false
  | _ => true

namespace CoreModule

/-- The natives of a core module. -/
def natives (core : CoreModule) : List Native := core.functions.map (·.2)

theorem eq_of_name : ∀ core ∈ all, ∀ other ∈ all, core.name = other.name → core = other := by
  simp [all]

theorem name_ne_source : ∀ core ∈ all, ∀ other ∈ all, core.name ≠ other.source := by
  decide

/-- No two core modules share a native. -/
theorem name_eq_of_native : ∀ core ∈ all, ∀ other ∈ all, ∀ function ∈ core.natives,
    function ∈ other.natives → core.name = other.name := by
  decide

theorem isBuiltIn_of_mem : ∀ core ∈ all, ∀ function ∈ core.natives, function.isBuiltIn := by
  decide

/-- The binding of a core module has its name and one of its natives. -/
theorem of_mem_bindings {core : CoreModule} {binding : NativeBinding}
    (h : binding ∈ core.bindings) :
    binding.module = core.name ∧ binding.function ∈ core.natives := by
  obtain ⟨⟨name, function⟩, hmem, rfl⟩ := List.mem_map.mp h
  exact ⟨rfl, List.mem_map.mpr ⟨_, hmem, rfl⟩⟩

/-- What a core module declares: no imports, modules of its name, and native functions. -/
structure Declared (core : CoreModule) (declared : Declarations) : Prop where
  imports : declared.imports = #[]
  modules : ∀ module ∈ declared.modules, module.name = core.name
  body : ∀ node ∈ declared.body, node.DeclaresNative

theorem of_collect {core : CoreModule} {declared : Declarations}
    (h : Declarations.collect core.source [] core.statements = .ok declared) :
    core.Declared declared := by
  have hamong := Declarations.of_collect h
  have hstatement (node : Node) (hmem : node ∈ core.statements) :
      node.DeclaresNative ∨ ∃ symbols, node = .exportStatement symbols core.name := by
    rcases List.mem_append.mp hmem with hmem | hmem
    · obtain ⟨⟨name, function⟩, -, rfl⟩ := List.mem_map.mp hmem
      exact .inl ⟨name, rfl⟩
    · exact .inr ⟨_, List.mem_singleton.mp hmem⟩
  constructor
  · refine Array.eq_empty_iff_forall_not_mem.mpr fun i hi ↦ ?_
    rcases hstatement _ (hamong.imports i hi).2.2 with ⟨name, h⟩ | ⟨symbols, h⟩
    · cases h
    · cases h
  · intro module hmodule
    rcases hstatement _ (hamong.modules module hmodule) with ⟨name, h⟩ | ⟨symbols, h⟩
    · cases h
    · exact (Node.exportStatement.inj h).2
  · intro node hnode
    obtain ⟨hmem, -, hexport⟩ := hamong.body node hnode
    rcases hstatement node hmem with h | ⟨symbols, rfl⟩
    · exact h
    · exact absurd rfl (hexport symbols core.name)

/-- A native that the source of a core module may declare is one of the module. -/
theorem of_provides {m : Machine} {core : CoreModule} (hcore : core ∈ all)
    (hnatives : ∀ binding ∈ m.natives, ∃ other ∈ all, binding ∈ other.bindings)
    {home : ContextRef} (hname : (m.context home).source = core.source)
    (hmodules : ∀ module ∈ (m.context home).modules, module.name = core.name) {function : Native}
    (hprovides : m.Provides home function) : function ∈ core.natives := by
  obtain ⟨binding, hbinding, rfl, hmodule⟩ := hprovides
  obtain ⟨other, hother, hmem⟩ := hnatives binding hbinding
  obtain ⟨hnamed, hnative⟩ := of_mem_bindings hmem
  rw [hnamed] at hmodule
  rcases List.mem_append.mp hmodule with hmodule | hmodule
  · obtain ⟨module, hmodule, hsame⟩ := List.mem_map.mp hmodule
    have hnames : other.name = core.name := hsame ▸ hmodules module (Array.mem_def.mpr hmodule)
    rwa [eq_of_name other hother core hcore hnames] at hnative
  · rw [hname] at hmodule
    exact absurd (List.mem_singleton.mp hmodule) (name_ne_source other hother core hcore)

end CoreModule

/-! ### Running a source that imports nothing -/

namespace Session

variable {m m' : Machine} {context : ContextRef}

theorem logVerbose_apply (text : String) (m : Machine) :
    ∃ m', logVerbose text m = .ok () m' ∧ m.SameWork m' := by
  refine ⟨_, rfl, ?_⟩
  by_cases hlevel : m.logLevel = .verbose
  · simp only [if_pos hlevel]
    exact ⟨rfl, rfl, rfl⟩
  · simp only [if_neg hlevel]
    exact ⟨rfl, rfl, rfl⟩

/-- Enlisting a source without automatic imports changes the list of loaded sources and the log. -/
theorem of_enlist {message : Nat → String} {ref : ContextRef}
    (h : enlist context [] message m = .ok ref m') :
    ref = context ∧ ({ m with loaded := m.loaded.push context } : Machine).SameWork m' := by
  unfold enlist at h
  rw [List.forIn_nil, pure_bind] at h
  obtain ⟨_, n, hlisted, h⟩ := Run.bind_eq_ok_iff.mp h
  cases hlisted
  rw [Run.get_bind] at h
  obtain ⟨k, hlogged, hsame⟩ := logVerbose_apply (message
    (({ m with loaded := m.loaded.push context } : Machine).context context).imports.size)
    { m with loaded := m.loaded.push context }
  rw [Run.bind_ok hlogged] at h
  cases h
  exact ⟨rfl, hsame⟩

/-- What is run while a source counts as being evaluated is run on a machine that says so. -/
theorem of_whileEvaluating {α : Type} {act : Run α} {a : α}
    (h : whileEvaluating context act m = .ok a m') :
    ∃ n, act { m with evaluating := context :: m.evaluating } = .ok a n ∧
      m' = { n with evaluating := n.evaluating.filter (· ≠ context) } := by
  obtain ⟨_, n, hmarked, h⟩ := Run.bind_eq_ok_iff.mp h
  cases hmarked
  obtain ⟨result, n, hcaught, h⟩ := Run.bind_eq_ok_iff.mp h
  cases hact : act { m with evaluating := context :: m.evaluating } with
  | ok b k =>
    rw [Run.tryCatch_ok hact] at hcaught
    cases hcaught
    cases h
    exact ⟨n, rfl, rfl⟩
  | error e k =>
    rw [Run.tryCatch_error hact] at hcaught
    cases hcaught

/-- Assumes: a source without imports that has not been run and is not being run. Running it marks
it as run and runs its body, and in the end it is no longer being run. -/
theorem of_evaluateContext {fuel : Nat} {cell : CellRef}
    (h : evaluateContext (fuel + 1) context m = .ok cell m')
    (himports : (m.context context).imports = #[]) (hpending : (m.context context).evaluated = false)
    (hidle : m.evaluating = []) :
    ∃ start n, ({ m with evaluating := [context] } : Machine).SameWork start ∧
      evaluateStatements context (m.context context).body
        (start.withContext context fun c ↦ { c with evaluated := true }) = .ok cell n ∧
      m' = { n with evaluating := n.evaluating.filter (· ≠ context) } := by
  unfold evaluateContext at h
  rw [Run.get_bind, hpending, hidle, if_neg (by simp)] at h
  obtain ⟨n, hrun, rfl⟩ := of_whileEvaluating h
  rw [hidle, Run.get_bind] at hrun
  have hnone : Lookup.dependencies { m with evaluating := [context] } context = [] := by
    change (m.context context).imports.toList.filterMap _ = []
    rw [himports]
    rfl
  rw [hnone, List.forIn_nil, pure_bind, Run.get_bind] at hrun
  obtain ⟨start, hlogged, hsame⟩ := logVerbose_apply
    ("evaluating " ++ (m.context context).source) { m with evaluating := [context] }
  obtain ⟨_, k, hlog, hrun⟩ := Run.bind_eq_ok_iff.mp hrun
  obtain ⟨_, rfl⟩ := EStateM.Result.ok.inj (hlogged.symm.trans hlog)
  exact ⟨start, n, hsame, hrun, rfl⟩

end Session

/-! ### Loading the core modules -/

namespace Machine

namespace SameWork

variable {a b : Machine}

theorem withContext (h : a.SameWork b) (target : ContextRef) (change : Context → Context) :
    (a.withContext target change).SameWork (b.withContext target change) where
  same := by
    rw [← h.same]
    rfl
  forbidden := h.forbidden
  automatic := h.automatic

theorem withEvaluating (h : a.SameWork b) (evaluating : List ContextRef) :
    ({ a with evaluating } : Machine).SameWork { b with evaluating } where
  same := by rw [← h.same]
  forbidden := h.forbidden
  automatic := h.automatic

end SameWork

variable {m k m' : Machine} {trace : StackTrace} {source : Context}

/-- The machine a source has been made and enlisted on. -/
def enlisted (m : Machine) (trace : StackTrace) (source : Context) : Machine :=
  { m.withSource trace source with loaded := m.loaded.push ⟨m.contexts.size⟩ }

/-- The machine a source begins to run on once it has been made and enlisted. -/
def entered (m : Machine) (trace : StackTrace) (source : Context) : Machine :=
  { m.enlisted trace { source with evaluated := true } with evaluating := [⟨m.contexts.size⟩] }

theorem context_entered (ref : ContextRef) :
    (m.entered trace source).context ref =
      if ref.index = m.contexts.size then { source with evaluated := true } else m.context ref :=
  context_withSource trace _ ref

theorem scope_entered (ref : ScopeRef) :
    (m.entered trace source).scope ref = if ref.index = m.scopes.size then {} else m.scope ref :=
  scope_withScope m {} ref

theorem context_enlisted (ref : ContextRef) :
    (m.enlisted trace source).context ref =
      if ref.index = m.contexts.size then source else m.context ref :=
  context_withSource trace source ref

end Machine

/-- Assumes: a source that imports nothing and has just been made on an idle machine. What running
it leaves behind was left behind by its body, which began to run where the source is entered. -/
theorem Session.of_evaluateLoaded {m k m' : Machine} {trace : StackTrace} {source : Context}
    {cell : CellRef} (hidle : m.evaluating = []) (himports : source.imports = #[])
    (hpending : source.evaluated = false) (hmade : (m.enlisted trace source).SameWork k)
    (h : evaluateLoaded ⟨m.contexts.size⟩ k = .ok cell m') :
    ∃ base n, (m.entered trace source).SameWork base ∧
      evaluateStatements ⟨m.contexts.size⟩ source.body base = .ok cell n ∧
      m' = { n with evaluating := n.evaluating.filter (· ≠ ⟨m.contexts.size⟩) } := by
  have hhome : k.context ⟨m.contexts.size⟩ = source := by
    rw [Machine.context_congr hmade.contexts]
    exact (Machine.context_enlisted _).trans (if_pos rfl)
  unfold evaluateLoaded at h
  rw [Run.get_bind] at h
  have hquiet : k.evaluating = [] := hmade.evaluating.trans hidle
  obtain ⟨start, n, hstart, hrun, hleft⟩ := of_evaluateContext h (by rw [hhome, himports])
    (by rw [hhome, hpending]) hquiet
  rw [hhome] at hrun
  refine ⟨_, n, ?_, hrun, hleft⟩
  have hbegun := ((hmade.withEvaluating [⟨m.contexts.size⟩]).trans hstart).withContext
    ⟨m.contexts.size⟩ fun c ↦ { c with evaluated := true }
  have hentered : ({ m.enlisted trace source with evaluating := [⟨m.contexts.size⟩] } :
      Machine).withContext ⟨m.contexts.size⟩ (fun c ↦ { c with evaluated := true }) =
        m.entered trace source :=
    congrArg
      (fun n : Machine ↦
        { n with
          loaded := m.loaded.push ⟨m.contexts.size⟩, evaluating := [⟨m.contexts.size⟩] })
      (Machine.withContext_withSource (m := m) trace source fun c ↦ { c with evaluated := true })
  rwa [hentered] at hbegun

/-- The source a core module is loaded as. -/
structure CoreModule.IsSource (core : CoreModule) (ref : ContextRef) (source : Context) : Prop where
  name : source.source = core.source
  globals : source.globals = ⟨ref.index⟩
  imports : source.imports = #[]
  modules : ∀ module ∈ source.modules, module.name = core.name
  evaluated : source.evaluated = true

/-- A machine that has loaded some of the core modules and has done nothing else. -/
structure Furnished (count : Nat) (m : Machine) : Prop where
  tables : m.tables = #[]
  iterators : m.iterators = #[]
  instances : m.instances = #[]
  scopes : m.scopes.size = count
  sources : m.contexts.size = count
  loaded : ∀ ref ∈ m.loaded, ref.index < count
  evaluating : m.evaluating = []
  natives : ∀ binding ∈ m.natives, ∃ core ∈ CoreModule.all, binding ∈ core.bindings
  source : ∀ (ref : ContextRef) (core : CoreModule), ref.index < count →
    CoreModule.all[ref.index]? = some core → core.IsSource ref (m.context ref)
  content : ∀ cell, m.content cell = .empty ∨
    ∃ stamp, ∃ core ∈ CoreModule.all, ∃ function ∈ core.natives, m.content cell = .native stamp function
  globals : ∀ (ref : ScopeRef) (core : CoreModule), CoreModule.all[ref.index]? = some core →
    ∀ (name : String) (cell : CellRef), (m.scope ref)[name]? = some cell →
      ¬m.Lacks cell ∧
        ∀ stamp function, m.content cell = .native stamp function → function ∈ core.natives

namespace Furnished

variable {m m' : Machine} {count : Nat}

/-- A machine on which nothing has been done. -/
theorem fresh (options : Options) (logLevel : LogLevel) : Furnished 0 { options, logLevel } where
  tables := rfl
  iterators := rfl
  instances := rfl
  scopes := rfl
  sources := rfl
  loaded ref h := absurd h (Array.not_mem_empty _)
  evaluating := rfl
  natives binding h := nomatch h
  source ref core h := absurd h (Nat.not_lt_zero _)
  content cell := .inl rfl
  globals ref core hcore name cell h := by
    change (({} : Scope))[name]? = some cell at h
    rw [Std.TreeMap.getElem?_emptyc] at h
    cases h

/-- Registering the natives of a core module. -/
theorem registerNatives (h : Furnished count m) {core : CoreModule} (hcore : core ∈ CoreModule.all) :
    Furnished count { m with natives := core.bindings.reverse ++ m.natives } :=
  { h with
    natives := fun binding hmem ↦ by
      rcases List.mem_append.mp hmem with hmem | hmem
      · exact ⟨core, hcore, List.mem_reverse.mp hmem⟩
      · exact h.natives binding hmem }

section

variable {core other : CoreModule} {declarations : Declarations} {trace : StackTrace}
  {base n : Machine} {cell : CellRef} {ref : ScopeRef} {name : String}
variable (h : Furnished count m) (hcore : CoreModule.all[count]? = some core)
  (hdeclared : core.Declared declarations)
  (hentered : (m.entered trace (sourceOf m core.source declarations)).SameWork base)
  (hn : Declares base ⟨m.contexts.size⟩ n)

include h hentered

/-- The source that is entered last is the module, and the others are what they were. -/
theorem context_entered (ref : ContextRef) :
    base.context ref =
      if ref.index = count then { sourceOf m core.source declarations with evaluated := true }
      else m.context ref := by
  rw [← h.sources, ← Machine.context_entered]
  exact hentered.context ref

/-- The module starts without variables, and those of the others are what they were. -/
theorem scope_entered (ref : ScopeRef) :
    base.scope ref = if ref.index = count then {} else m.scope ref := by
  rw [← h.scopes, ← Machine.scope_entered]
  exact hentered.scope ref

/-- The variables of the module are those of its source. -/
theorem globals_entered : (base.context ⟨m.contexts.size⟩).globals = ⟨count⟩ := by
  rw [h.context_entered hentered, if_pos h.sources]
  exact congrArg ScopeRef.mk h.scopes

include hcore hdeclared in
/-- A native that the module finds while it declares its own is one of them. -/
theorem native_of_provides {function : Native}
    (hprovides : base.Provides ⟨m.contexts.size⟩ function) : function ∈ core.natives := by
  refine CoreModule.of_provides (List.mem_of_getElem? hcore) (fun binding hbinding ↦ ?_) ?_ ?_
    hprovides
  · exact h.natives binding (hentered.natives ▸ hbinding)
  · rw [h.context_entered hentered, if_pos h.sources]
    rfl
  · rw [h.context_entered hentered, if_pos h.sources]
    exact hdeclared.modules

include hcore hdeclared hn in
/-- A cell that is new when the module has declared its natives is empty or holds one of them. -/
theorem content_of_lacks (hcell : base.Lacks cell) :
    n.content cell = .empty ∨
      ∃ stamp, ∃ function ∈ core.natives, n.content cell = .native stamp function := by
  have hmade := hn.made cell hcell
  cases hfound : n.content cell with
  | empty => exact .inl rfl
  | native stamp function =>
    rw [hfound] at hmade
    exact .inr ⟨stamp, function, h.native_of_provides hcore hdeclared hentered hmade, rfl⟩
  | _ =>
    rw [hfound] at hmade
    exact hmade.elim

omit h in
include hn in
/-- The other cells hold what they held. -/
theorem content_of_not_lacks (hcell : ¬base.Lacks cell) : n.content cell = m.content cell := by
  rw [hn.content cell hcell]
  exact hentered.content cell

include hcore hdeclared hn in
/-- What a variable of the module holds is there, and if it is a native, it is one of the module. -/
theorem global_declared (hbound : (n.scope ⟨count⟩)[name]? = some cell) :
    ¬n.Lacks cell ∧
      ∀ stamp function, n.content cell = .native stamp function → function ∈ core.natives := by
  rw [← h.globals_entered hentered] at hbound
  obtain ⟨hcell, hmade⟩ := hn.globals name cell hbound
  refine ⟨hmade, fun stamp function hfound ↦ ?_⟩
  rcases h.content_of_lacks hcore hdeclared hentered hn hcell with
    hempty | ⟨stamp', function', hfunction, hsame⟩
  · rw [hempty] at hfound
    cases hfound
  · rw [hsame] at hfound
    cases hfound
    exact hfunction

include hn in
/-- So it is with the variables of the other modules, as it was before. -/
theorem global_former (hother : CoreModule.all[ref.index]? = some other)
    (hformer : ref.index ≠ count) (hbound : (n.scope ref)[name]? = some cell) :
    ¬n.Lacks cell ∧
      ∀ stamp function, n.content cell = .native stamp function → function ∈ other.natives := by
  have hne : ref ≠ (base.context ⟨m.contexts.size⟩).globals := by
    rw [h.globals_entered hentered]
    exact fun hsame ↦ hformer (congrArg ScopeRef.index hsame)
  rw [hn.scope ref hne, h.scope_entered hentered, if_neg hformer] at hbound
  obtain ⟨hexists, hnative⟩ := h.globals ref other hother name cell hbound
  have hcell : ¬base.Lacks cell := by
    unfold Machine.Lacks
    rw [hentered.cells]
    exact hexists
  rw [content_of_not_lacks hentered hn hcell]
  exact ⟨fun hlacks ↦ hcell (Nat.le_trans hn.size hlacks), hnative⟩

include hcore hdeclared hn in
/-- Assumes: the next core module, entered as a source that has declared its natives. -/
theorem declared :
    Furnished (count + 1)
      { n with evaluating := n.evaluating.filter (· ≠ ⟨m.contexts.size⟩) } where
  tables := hn.tables.trans (hentered.tables.trans h.tables)
  iterators := hn.iterators.trans (hentered.iterators.trans h.iterators)
  instances := hn.instances.trans (hentered.instances.trans h.instances)
  scopes := by
    rw [hn.scopes, hentered.scopes]
    exact (Array.size_push _).trans (congrArg (· + 1) h.scopes)
  sources := by
    rw [hn.contexts, hentered.contexts]
    exact (Array.size_push _).trans (congrArg (· + 1) h.sources)
  loaded ref href := by
    rw [hn.loaded, hentered.loaded] at href
    rcases Array.mem_push.mp href with href | rfl
    · exact Nat.lt_succ_of_lt (h.loaded ref href)
    · exact Nat.lt_succ_of_le (Nat.le_of_eq h.sources)
  evaluating := by
    rw [hn.evaluating, hentered.evaluating]
    exact List.filter_eq_nil_iff.mpr fun ref href ↦ by
      rw [List.mem_singleton.mp href]
      simp
  natives binding hbinding := by
    rw [hn.natives, hentered.natives] at hbinding
    exact h.natives binding hbinding
  source ref other href hother := by
    change other.IsSource ref (n.context ref)
    rw [hn.context, h.context_entered hentered]
    split
    · rename_i hlast
      rw [hlast, hcore] at hother
      cases hother
      exact ⟨rfl, congrArg ScopeRef.mk (h.scopes.trans hlast.symm), hdeclared.imports,
        hdeclared.modules, rfl⟩
    · rename_i hformer
      exact h.source ref other (Nat.lt_of_le_of_ne (Nat.le_of_lt_succ href) hformer) hother
  content cell := by
    change n.content cell = _ ∨ ∃ stamp, ∃ other ∈ CoreModule.all, ∃ function ∈ other.natives,
      n.content cell = _
    by_cases hcell : base.Lacks cell
    · refine (h.content_of_lacks hcore hdeclared hentered hn hcell).imp_right ?_
      rintro ⟨stamp, function, hfunction, hfound⟩
      exact ⟨stamp, core, List.mem_of_getElem? hcore, function, hfunction, hfound⟩
    · rw [content_of_not_lacks hentered hn hcell]
      exact h.content cell
  globals ref other hother name cell hbound := by
    change (n.scope ref)[name]? = some cell at hbound
    change ¬n.Lacks cell ∧
      ∀ stamp function, n.content cell = .native stamp function → function ∈ other.natives
    by_cases hlast : ref.index = count
    · obtain rfl : ref = ⟨count⟩ := congrArg ScopeRef.mk hlast
      rw [hcore] at hother
      cases hother
      exact h.global_declared hcore hdeclared hentered hn hbound
    · exact h.global_former hentered hn hother hlast hbound

end

/-- Assumes: the next core module, loaded and run after its natives were registered. -/
theorem loadSource (h : Furnished count m) {core : CoreModule}
    (hcore : CoreModule.all[count]? = some core) {home : ContextRef} {k : Machine} {cell : CellRef}
    (hsource : Session.loadSource core.source core.statements false m = .ok home k)
    (hrun : evaluateLoaded home k = .ok cell m') : Furnished (count + 1) m' := by
  cases hcollect : Declarations.collect core.source [] core.statements with
  | error e =>
    rw [loadSource_error hcollect] at hsource
    cases hsource
  | ok declared =>
    have hdeclared := CoreModule.of_collect hcollect
    rw [loadSource_ok hcollect] at hsource
    obtain ⟨rfl, hmade⟩ := of_enlist hsource
    obtain ⟨base, n, hentered, hbody, rfl⟩ :=
      of_evaluateLoaded h.evaluating hdeclared.imports rfl hmade hrun
    refine h.declared hcore hdeclared hentered ?_
    have hhome : base.context ⟨m.contexts.size⟩ =
        { sourceOf m core.source declared with evaluated := true } := by
      rw [hentered.context, Machine.context_entered, if_pos rfl]
    have hempty : base.scope (base.context ⟨m.contexts.size⟩).globals = {} := by
      rw [hhome, hentered.scope, Machine.scope_entered]
      exact if_pos rfl
    have himports : (base.context ⟨m.contexts.size⟩).imports = #[] := by
      rw [hhome]
      exact hdeclared.imports
    exact ((Declares.runs himports fun node hnode ↦
      hdeclared.body node (Array.mem_def.mpr hnode)).of_ok (.start hempty) hbody).1

/-- Loading the next core module. -/
theorem loadCore (h : Furnished count m) {core : CoreModule}
    (hcore : CoreModule.all[count]? = some core) (hload : Session.loadCore core m = .ok () m') :
    Furnished (count + 1) m' := by
  obtain ⟨_, n, hregistered, hload⟩ := Run.bind_eq_ok_iff.mp hload
  cases hregistered
  obtain ⟨home, k, hsource, hload⟩ := Run.bind_eq_ok_iff.mp hload
  obtain ⟨cell, n, hrun, hload⟩ := Run.bind_eq_ok_iff.mp hload
  cases hload
  exact (h.registerNatives (List.mem_of_getElem? hcore)).loadSource hcore hsource hrun

/-- Loading the core modules that are left, one after the other. -/
theorem loadRest {modules : List CoreModule} :
    ∀ {count : Nat} {m : Machine} {done : PUnit}, Furnished count m →
      CoreModule.all.drop count = modules →
        (forIn modules PUnit.unit fun module _ ↦ do
          Session.loadCore module
          pure (.yield PUnit.unit) : Run PUnit) m = .ok done m' →
          Furnished (count + modules.length) m' := by
  induction modules with
  | nil =>
    intro count m done h _ hload
    cases hload
    exact h
  | cons core modules ih =>
    intro count m done h hrest hload
    rw [List.forIn_cons, bind_assoc] at hload
    obtain ⟨_, n, hcore, hload⟩ := Run.bind_eq_ok_iff.mp hload
    rw [pure_bind] at hload
    have hnext : CoreModule.all[count]? = some core := by
      rw [← List.head?_drop, hrest]
      rfl
    rw [List.length_cons, Nat.add_comm modules.length, ← Nat.add_assoc]
    refine ih (h.loadCore hnext hcore) ?_ hload
    rw [← List.drop_drop, hrest]
    rfl

end Furnished

/-- Options that pass the check keep what they say about imports. -/
theorem Session.of_checkOptions {options checked : Options}
    (h : checkOptions options = .ok checked) :
    checked.forbiddenImports = options.forbiddenImports ∧
      checked.autoImports = options.autoImports := by
  unfold checkOptions at h
  dsimp only at h
  generalize (if options.suggestions = 0 then defaultSuggestions else options.suggestions) =
    suggestions at h
  split at h
  · cases h
  · split at h
    · cases h
    · split at h
      · cases h
      · cases h
        exact ⟨rfl, rfl⟩

/-- A session that has started has loaded the core modules and has done nothing else. -/
theorem Furnished.of_start {options : Options} {level : LogLevel} {m : Machine}
    (h : Session.start options { logLevel := level } = .ok () m) :
    Furnished CoreModule.all.length m ∧
      m.options.forbiddenImports = options.forbiddenImports ∧
      m.options.autoImports = options.autoImports := by
  unfold Session.start at h
  cases hchecked : checkOptions options with
  | error issue =>
    rw [hchecked] at h
    cases h
  | ok checked =>
    rw [hchecked] at h
    obtain ⟨_, n, hquiet, h⟩ := Run.bind_eq_ok_iff.mp h
    cases hquiet
    obtain ⟨_, n, hload, h⟩ := Run.bind_eq_ok_iff.mp h
    cases h
    have hfurnished := (Furnished.fresh _ level).loadRest rfl hload
    rw [Nat.zero_add] at hfurnished
    exact ⟨{ hfurnished with }, of_checkOptions hchecked⟩

/-! ### The enclosure of a core module -/

/-- The enclosure of a core module in a session that has loaded it: its natives, the cells that hold
them, and its source with the variables. A host function that calls back is enclosed, too. -/
def CoreModule.enclosure (core : CoreModule) (hcore : core ∈ CoreModule.all) (home : ContextRef)
    (m : Machine) : Enclosure where
  module name := name = core.name
  cell cell := ∃ stamp, ∃ function ∈ core.natives, m.content cell = .native stamp function
  table _ := False
  iterator _ := False
  scope ref := ref = ⟨home.index⟩
  context ref := ref = home
  native function := function ∈ core.natives ∨ function = .host .bare
  sources := m.contexts.size
  base := m
  operator symbol fixity := by
    rintro (hmem | hbare)
    · exact Bool.false_ne_true (CoreModule.isBuiltIn_of_mem core hcore _ hmem)
    · cases hbare
  bare := .inl (.inr rfl)

namespace Furnished

open Enclosure

variable {m : Machine} {core other : CoreModule} {home ref : ContextRef}

/-- A core module has one place. -/
theorem place_eq {i j : Nat} (hcore : CoreModule.all[i]? = some core)
    (hother : CoreModule.all[j]? = some other) (hsame : other.name = core.name) : j = i := by
  have hdistinct : (CoreModule.all.map (·.name)).Nodup := by decide
  have hbound : j < (CoreModule.all.map (·.name)).length := by
    rw [List.length_map]
    exact (List.getElem?_eq_some_iff.mp hother).1
  refine (List.getElem?_inj hbound hdistinct).mp ?_
  rw [List.getElem?_map, List.getElem?_map, hcore, hother]
  exact congrArg some hsame

/-- A native of another core module is neither one of the module nor calls back. -/
theorem not_native (hcore : core ∈ CoreModule.all) (hother : other ∈ CoreModule.all)
    (hne : other.name ≠ core.name) {function : Native} (hnative : function ∈ other.natives) :
    ¬(function ∈ core.natives ∨ function = .host .bare) := by
  rintro (hshared | rfl)
  · exact hne (CoreModule.name_eq_of_native other hother core hcore function hnative hshared)
  · exact Bool.false_ne_true (CoreModule.isBuiltIn_of_mem other hother _ hnative)

section

variable (h : Furnished CoreModule.all.length m) (hcore : CoreModule.all[home.index]? = some core)

include h hcore

/-- A cell is open if it holds no native of the module. -/
theorem openContent {cell : CellRef}
    (hcell : ¬∃ stamp, ∃ function ∈ core.natives, m.content cell = .native stamp function) :
    (core.enclosure (List.mem_of_getElem? hcore) home m).OpenContent (m.content cell) := by
  have hmem : core ∈ CoreModule.all := List.mem_of_getElem? hcore
  rcases h.content cell with hempty | ⟨stamp, other, hother, function, hnative, hfound⟩
  · rw [hempty]
    exact trivial
  · rw [hfound]
    refine not_native hmem hother (fun hsame ↦ hcell ?_) hnative
    rw [CoreModule.eq_of_name other hother core hmem hsame] at hnative
    exact ⟨stamp, function, hnative, hfound⟩

/-- A variable that holds a native of the module is one of the module. -/
theorem scope_eq_of_native {ref : ScopeRef} {name : String} {cell : CellRef} {stamp : Stamp}
    {function : Native} (hbound : (m.scope ref)[name]? = some cell)
    (hnative : function ∈ core.natives) (hfound : m.content cell = .native stamp function) :
    ref = ⟨home.index⟩ := by
  obtain ⟨other, hother⟩ : ∃ other, CoreModule.all[ref.index]? = some other :=
    ⟨_, List.getElem?_eq_getElem (h.scopes ▸ Machine.scope_exists hbound)⟩
  have hshared := (h.globals ref other hother name cell hbound).2 stamp function hfound
  have hsame := CoreModule.name_eq_of_native other (List.mem_of_getElem? hother) core
    (List.mem_of_getElem? hcore) function hshared hnative
  exact congrArg ScopeRef.mk (place_eq hcore hother hsame)

/-- The sources of the other core modules are open. -/
theorem openSource (hother : ref ≠ home) (hbound : ref.index < m.contexts.size) :
    (core.enclosure (List.mem_of_getElem? hcore) home m).OpenSource (m.context ref) := by
  have hloaded : ref.index < CoreModule.all.length := h.sources ▸ hbound
  obtain ⟨other, hplace⟩ : ∃ other, CoreModule.all[ref.index]? = some other :=
    ⟨_, List.getElem?_eq_getElem hloaded⟩
  have hsource := h.source ref other hloaded hplace
  have hne : ref.index ≠ home.index := fun hsame ↦ hother (congrArg ContextRef.mk hsame)
  have hnamed : other.name ≠ core.name := fun hsame ↦ hne (place_eq hcore hplace hsame)
  exact {
    globals := fun hsame ↦ hne (congrArg ScopeRef.index (hsource.globals.symm.trans hsame))
    target := fun i hi ↦ by
      rw [hsource.imports] at hi
      exact absurd hi (Array.not_mem_empty i)
    imports := fun i hi ↦ by
      rw [hsource.imports] at hi
      exact absurd hi (Array.not_mem_empty i)
    modules := fun module hmodule hsame ↦
      hnamed ((hsource.modules module hmodule).symm.trans hsame)
    name := fun hsame ↦ CoreModule.name_ne_source core (List.mem_of_getElem? hcore) other
      (List.mem_of_getElem? hplace) (hsame.symm.trans hsource.name) }

/-- Assumes: a core module that may not be imported and is not imported automatically, in a session
that has just started. It is enclosed. -/
theorem holds (hforbidden : core.name ∈ m.options.forbiddenImports)
    (hautomatic : ImportsNothing core.name m.options.autoImports) :
    (core.enclosure (List.mem_of_getElem? hcore) home m).Holds m where
  cells := fun cell ⟨stamp, function, _, hfound⟩ ↦
    Machine.bound_of_content (by rw [hfound]; exact nofun)
  tables _ href := href.elim
  iterators _ href := href.elim
  scopes ref href := by
    rw [show ref = ⟨home.index⟩ from href, h.scopes]
    exact (List.getElem?_eq_some_iff.mp hcore).1
  content _ hcell := h.openContent hcore hcell
  table ref _ := by
    unfold Machine.table
    rw [h.tables]
    exact openTable_empty
  bindings ref href name cell hbound := by
    rintro ⟨stamp, function, hnative, hfound⟩
    exact href (h.scope_eq_of_native hcore hbound hnative hfound)
  remaining ref _ := by
    unfold Machine.remaining Machine.iterator
    rw [h.iterators]
    exact openCells_nil
  sameContent _ _ := rfl
  sameTable _ _ := rfl
  sameRemaining _ _ := rfl
  instanceOf ref := by
    unfold Machine.instanceOf
    rw [h.instances]
    exact trivial
  sources := rfl
  source ref href := h.openSource hcore href.1 href.2
  settled ref href := by
    have hsource := h.source home core (List.getElem?_eq_some_iff.mp hcore).1 hcore
    rw [show ref = home from href]
    exact ⟨hsource.evaluated, hsource.modules⟩
  loaded ref href := by
    have hloaded := h.loaded ref href
    rwa [← h.sources] at hloaded
  natives binding hbinding hne := by
    obtain ⟨other, hother, hmem⟩ := h.natives binding hbinding
    obtain ⟨hnamed, hnative⟩ := CoreModule.of_mem_bindings hmem
    exact not_native (List.mem_of_getElem? hcore) hother (hnamed ▸ hne) hnative
  registered binding hbinding hsame := by
    obtain ⟨other, hother, hbound⟩ := h.natives binding hbinding
    obtain ⟨hnamed, hnative⟩ := CoreModule.of_mem_bindings hbound
    rw [CoreModule.eq_of_name other hother core (List.mem_of_getElem? hcore)
      (hnamed.symm.trans hsame)] at hnative
    exact .inl hnative
  forbidden _ hname := hname ▸ hforbidden
  automatic _ hname := hname ▸ hautomatic

end

end Furnished

end TreeScript
