import TreeScript.Proofs.Sessions.Requests

/-!
# What loading sources does

A source is loaded with what it declares and with the automatic imports whose names it leaves free,
and nothing else depends on what was loaded before (`manifest`, `load_ok`). One that may not be
loaded is not listed (`load_error`). So a session that has loaded sources, one after the other and
each or not, has those it had before and behind them the ones that may be loaded, in their order and
none of them evaluated (`Stocked`, `stocked_after`).
-/

set_option autoImplicit false

namespace TreeScript

open Session Lookup

/-- The name of the module that an export statement declares. -/
def Node.export? : Node → Option String
  | .exportStatement _ name => some name
  | _ => none

/-- The names of the modules that a source exports. -/
def Session.SourceText.exports (source : SourceText) : List String :=
  source.statements.filterMap Node.export?

theorem Declarations.names_of_add {source : String} {forbidden : List String} {node : Node}
    {before after : Declarations} (h : add source forbidden before node = .ok after) :
    after.modules.toList.map (·.name) =
      before.modules.toList.map (·.name) ++ node.export?.toList := by
  unfold add at h
  split at h
  · dsimp only at h
    split at h
    · cases h
    · split at h
      · cases h
      · cases h
        exact (List.append_nil _).symm
  · split at h
    · cases h
    · cases h
      rw [Array.toList_push, List.map_append]
      rfl
  · rename_i hnoExport
    cases h
    have hnone : node.export? = none := by
      unfold Node.export?
      split
      · exact absurd rfl (hnoExport _ _)
      · rfl
    rw [hnone]
    exact (List.append_nil _).symm

/-- What a source declares exports under the names under which its statements do. -/
theorem Session.SourceText.exports_of_collect {source : SourceText} {forbidden : List String}
    {declared : Declarations}
    (h : Declarations.collect source.name forbidden source.statements = .ok declared) :
    declared.modules.toList.map (·.name) = source.exports := by
  have hfold {nodes : List Node} {before after : Declarations}
      (h : nodes.foldlM (Declarations.add source.name forbidden) before = .ok after) :
      after.modules.toList.map (·.name) =
        before.modules.toList.map (·.name) ++ nodes.filterMap Node.export? := by
    induction nodes generalizing before with
    | nil =>
      cases h
      exact (List.append_nil _).symm
    | cons node nodes ih =>
      rw [List.foldlM_cons] at h
      cases hnext : Declarations.add source.name forbidden before node with
      | error e =>
        rw [hnext] at h
        cases h
      | ok next =>
        rw [hnext] at h
        rw [ih h, Declarations.names_of_add hnext, List.append_assoc,
          List.filterMap_eq_flatMap_toList, List.filterMap_eq_flatMap_toList, List.flatMap_cons]
  exact hfold h

/-- Imports with one more, unless there is one under its name. -/
def Declarations.withImport (imports : Array Import) (i : Import) : Array Import :=
  if hasImport imports i.key then imports else imports.push i

/-- What a source is loaded with: what it declares, and the automatic imports behind its own. -/
def manifest (options : Options) (source : SourceText) : Except SourceError Declarations := do
  let declared ← Declarations.collect source.name options.forbiddenImports source.statements
  let automatic ← options.autoImports.mapM Import.parse
  return { declared with imports := automatic.foldl Declarations.withImport declared.imports }

theorem manifest_congr {options other : Options}
    (hforbidden : other.forbiddenImports = options.forbiddenImports)
    (hautomatic : other.autoImports = options.autoImports) : manifest other = manifest options := by
  funext source
  unfold manifest
  rw [hforbidden, hautomatic]

theorem of_manifest {options : Options} {source : SourceText} {declared : Declarations}
    (h : manifest options source = .ok declared) :
    ∃ own, Declarations.collect source.name options.forbiddenImports source.statements = .ok own ∧
      ∃ automatic, options.autoImports.mapM Import.parse = .ok automatic ∧
        declared =
          { own with imports := automatic.foldl Declarations.withImport own.imports } := by
  unfold manifest at h
  cases hcollect : Declarations.collect source.name options.forbiddenImports source.statements with
  | error e =>
    rw [hcollect] at h
    cases h
  | ok own =>
    rw [hcollect] at h
    cases hautomatic : options.autoImports.mapM Import.parse with
    | error e =>
      rw [hautomatic] at h
      cases h
    | ok automatic =>
      rw [hautomatic] at h
      cases h
      exact ⟨own, rfl, automatic, rfl, rfl⟩

/-- All of a list of texts can be read if the first can be and the others can be. -/
theorem Import.of_mapM_parse {text : String} {texts : List String} {imports : List Import}
    (h : (text :: texts).mapM parse = .ok imports) :
    ∃ i, parse text = .ok i ∧ ∃ rest, texts.mapM parse = .ok rest ∧ imports = i :: rest := by
  rw [List.mapM_cons] at h
  cases hparse : parse text with
  | error e =>
    rw [hparse] at h
    cases h
  | ok i =>
    rw [hparse] at h
    cases hrest : texts.mapM parse with
    | error e =>
      rw [hrest] at h
      cases h
    | ok rest =>
      rw [hrest] at h
      cases h
      exact ⟨i, rfl, rest, rfl, rfl⟩

/-- What a source imports stands for no module before it is linked. -/
theorem unlinked_of_manifest {options : Options} {source : SourceText} {declared : Declarations}
    (h : manifest options source = .ok declared) : ∀ i ∈ declared.imports, i.target = none := by
  have hparsed {texts : List String} {automatic : List Import}
      (h : texts.mapM Import.parse = .ok automatic) : ∀ i ∈ automatic, i.target = none := by
    induction texts generalizing automatic with
    | nil =>
      cases h
      exact fun _ hi ↦ nomatch hi
    | cons text texts ih =>
      obtain ⟨first, hfirst, rest, hrest, rfl⟩ := Import.of_mapM_parse h
      exact List.forall_mem_cons.mpr ⟨Import.target_of_parse hfirst, ih hrest⟩
  have hadded {automatic : List Import} (hautomatic : ∀ i ∈ automatic, i.target = none)
      {imports : Array Import} (himports : ∀ i ∈ imports, i.target = none) :
      ∀ i ∈ automatic.foldl Declarations.withImport imports, i.target = none := by
    induction automatic generalizing imports with
    | nil => exact himports
    | cons j automatic ih =>
      refine ih (fun i hi ↦ hautomatic i (List.mem_cons_of_mem j hi)) fun i hi ↦ ?_
      unfold Declarations.withImport at hi
      split at hi
      · exact himports i hi
      · rcases Array.mem_push.mp hi with hi | rfl
        · exact himports i hi
        · exact hautomatic i (List.mem_cons_self ..)
  obtain ⟨own, hown, automatic, hautomatic, rfl⟩ := of_manifest h
  exact hadded (hparsed hautomatic) fun i hi ↦ ((Declarations.of_collect hown).imports i hi).1

/-- Machines that differ in what surrounds the work have the same sources. -/
theorem Machine.SameWork.sameSources {m n : Machine} (h : m.SameWork n) : m.SameSources n := by
  rw [← h.same]
  rfl

namespace Session

variable {m n k : Machine} {trace : StackTrace} {context : Context}

/-! ### Loading one source -/

/-- An import is added to a source that has just been made. -/
theorem addImport_new (m : Machine) (trace : StackTrace) (context : Context) (i : Import) :
    ∃ added, addImport ⟨m.contexts.size⟩ i (m.withSource trace context) =
      .ok added (m.withSource trace
        { context with imports := Declarations.withImport context.imports i }) := by
  have hlast : (m.withSource trace context).context ⟨m.contexts.size⟩ = context := by
    rw [Machine.context_withSource, if_pos rfl]
  rw [addImport_apply, hlast]
  unfold Declarations.withImport
  by_cases hknown : Declarations.hasImport context.imports i.key = true
  · rw [if_pos hknown, if_pos hknown]
    exact ⟨false, rfl⟩
  · rw [if_neg hknown, if_neg hknown]
    unfold Machine.withImport
    rw [Machine.withContext_withSource]
    exact ⟨true, rfl⟩

/-- The loop that adds the automatic imports to a source. -/
def addAutomatic (c : ContextRef) (automatic : List String) : Run PUnit :=
  forIn automatic PUnit.unit fun text _ => do
    let i ← Run.ofSource (Import.parse text)
    let _ ← addImport c i
    pure (.yield PUnit.unit)

/-- One automatic import is read and added before the others. -/
theorem addAutomatic_cons {text : String} {i : Import} (hparse : Import.parse text = .ok i)
    (automatic : List String) :
    addAutomatic ⟨m.contexts.size⟩ (text :: automatic) (m.withSource trace context) =
      addAutomatic ⟨m.contexts.size⟩ automatic (m.withSource trace
        { context with imports := Declarations.withImport context.imports i }) := by
  obtain ⟨added, hadded⟩ := addImport_new m trace context i
  have hpass : (do
      let i ← Run.ofSource (Import.parse text)
      let _ ← addImport ⟨m.contexts.size⟩ i
      pure (.yield PUnit.unit) : Run (ForInStep PUnit)) (m.withSource trace context) =
        .ok (.yield PUnit.unit) (m.withSource trace
          { context with imports := Declarations.withImport context.imports i }) := by
    have hgiven : Run.ofSource (.ok i) (m.withSource trace context) =
      .ok i (m.withSource trace context) := rfl
    rw [hparse, Run.bind_ok hgiven, Run.bind_ok hadded]
    rfl
  unfold addAutomatic
  rw [List.forIn_cons, Run.bind_ok hpass]

theorem addAutomatic_ok {automatic : List String} {imports : List Import}
    (h : automatic.mapM Import.parse = .ok imports) :
    addAutomatic ⟨m.contexts.size⟩ automatic (m.withSource trace context) =
      .ok PUnit.unit (m.withSource trace
        { context with imports := imports.foldl Declarations.withImport context.imports }) := by
  induction automatic generalizing imports context with
  | nil =>
    cases h
    rfl
  | cons text automatic ih =>
    obtain ⟨i, hparse, rest, hrest, rfl⟩ := Import.of_mapM_parse h
    rw [addAutomatic_cons hparse, ih hrest]
    rfl

theorem addAutomatic_error (m : Machine) (trace : StackTrace) (context : Context)
    {automatic : List String} {e : SourceError} (h : automatic.mapM Import.parse = .error e) :
    ∃ imports, addAutomatic ⟨m.contexts.size⟩ automatic (m.withSource trace context) =
      .error e.failure (m.withSource trace { context with imports }) := by
  induction automatic generalizing context with
  | nil => cases h
  | cons text automatic ih =>
    rw [List.mapM_cons] at h
    cases hparse : Import.parse text with
    | error issue =>
      rw [hparse] at h
      cases h
      refine ⟨context.imports, ?_⟩
      have hrefused : Run.ofSource (Except.error e : Except SourceError Import)
        (m.withSource trace context) = .error e.failure (m.withSource trace context) := rfl
      unfold addAutomatic
      rw [List.forIn_cons, hparse]
      exact Run.bind_error (Run.bind_error hrefused)
    | ok i =>
      rw [hparse] at h
      cases hrest : automatic.mapM Import.parse with
      | error issue =>
        rw [hrest] at h
        cases h
        obtain ⟨imports, hfails⟩ := ih _ hrest
        refine ⟨imports, ?_⟩
        rw [addAutomatic_cons hparse]
        exact hfails
      | ok rest =>
        rw [hrest] at h
        cases h

/-- A source to which the automatic imports could be added is listed. -/
theorem enlist_ok {c : ContextRef} {automatic : List String}
    (hadded : addAutomatic c automatic m = .ok PUnit.unit k) (message : Nat → String) :
    ∃ n, enlist c automatic message m = .ok c n ∧ (k.listing c).SameWork n := by
  have hlisted : (modify fun m : Machine ↦ { m with loaded := m.loaded.push c } : Run Unit) k =
      .ok () (k.listing c) := rfl
  obtain ⟨n, hlogged, hsame⟩ :=
    logVerbose_apply (message ((k.listing c).context c).imports.size) (k.listing c)
  refine ⟨n, (Run.bind_ok hadded).trans ?_, hsame⟩
  rw [Run.bind_ok hlisted, Run.get_bind, Run.bind_ok hlogged]
  rfl

variable {source : SourceText} {declared : Declarations}

/-- A source that may be loaded is made from its manifest and listed. -/
theorem load_ok (h : manifest m.options source = .ok declared) :
    ∃ n, load source.name source.statements m = .ok ⟨m.contexts.size⟩ n ∧
      (m.enlisted { debugValues := m.options.traceValues }
        (sourceOf m source.name declared)).SameWork n := by
  obtain ⟨own, hcollect, automatic, hautomatic, rfl⟩ := of_manifest h
  unfold load
  rw [loadSource_ok hcollect]
  exact enlist_ok (addAutomatic_ok hautomatic) _

/-- A source that may not be loaded is not listed, though it may have been made. -/
theorem load_error {e : SourceError} (h : manifest m.options source = .error e) :
    ∃ n, load source.name source.statements m = .error e.failure n ∧
      (n = m ∨ ∃ trace context, context.evaluated = false ∧ n = m.withSource trace context) := by
  unfold manifest at h
  unfold load
  cases hcollect : Declarations.collect source.name m.options.forbiddenImports source.statements with
  | error e =>
    rw [hcollect] at h
    cases h
    exact ⟨m, loadSource_error hcollect, .inl rfl⟩
  | ok own =>
    rw [hcollect] at h
    cases hautomatic : m.options.autoImports.mapM Import.parse with
    | error e =>
      rw [hautomatic] at h
      cases h
      obtain ⟨imports, hfails⟩ := addAutomatic_error m { debugValues := m.options.traceValues }
        (sourceOf m source.name own) hautomatic
      rw [loadSource_ok hcollect]
      exact ⟨_, Run.bind_error hfails, .inr ⟨_, _, rfl, rfl⟩⟩
    | ok automatic =>
      rw [hautomatic] at h
      cases h

end Session

/-! ### Loading one source after the other -/

/-- The core modules import nothing. -/
theorem Furnished.imports {m : Machine} {c : ContextRef} (h : Furnished CoreModule.all.length m)
    (hc : c.index < m.contexts.size) : (m.context c).imports = #[] := by
  rw [h.sources] at hc
  exact (h.source c _ hc (List.getElem?_eq_getElem hc)).imports

/-- A source as it was loaded, before or after its imports have been linked to other sources. -/
structure Context.Declares (c : Context) (source : SourceText) (declared : Declarations) :
    Prop where
  name : c.source = source.name
  imports : c.imports = declared.imports
  modules : c.modules = declared.modules
  body : c.body = declared.body.toList

/-- A source that has been loaded and not evaluated is what it declares, and where its variables
are. -/
theorem Context.Declares.eq {c : Context} {source : SourceText} {declared : Declarations}
    (h : c.Declares source declared) (hpending : c.evaluated = false) :
    c = { source := source.name, globals := c.globals, trace := c.trace,
          modules := declared.modules, imports := declared.imports,
          body := declared.body.toList } := by
  obtain ⟨hname, himports, hmodules, hbody⟩ := h
  rw [← hname, ← himports, ← hmodules, ← hbody, ← hpending]

namespace Session

/-- A machine on which nothing has happened but that sources were loaded. There are new ones behind
those that there were, in the order in which they were loaded: one for each that may be loaded. -/
structure Stocked (m₀ : Machine) (sources : List SourceText) (news : List ContextRef)
    (m : Machine) : Prop where
  size : m₀.contexts.size ≤ m.contexts.size
  former : ∀ c, c.index < m₀.contexts.size → m.context c = m₀.context c
  pending : ∀ c, m₀.contexts.size ≤ c.index → (m.context c).evaluated = false
  evaluating : m.evaluating = m₀.evaluating
  hostModules : m.hostModules = m₀.hostModules
  forbidden : m.options.forbiddenImports = m₀.options.forbiddenImports
  automatic : m.options.autoImports = m₀.options.autoImports
  loaded : m.loaded.toList = m₀.loaded.toList ++ news
  names : (news.map fun c ↦ (m.context c).source).Sublist (sources.map (·.name))
  new : ∀ c ∈ news, m₀.contexts.size ≤ c.index ∧ c.index < m.contexts.size ∧
    ∃ source ∈ sources, ∃ declared, manifest m₀.options source = .ok declared ∧
      (m.context c).Declares source declared
  listed : ∀ source ∈ sources, ∀ declared, manifest m₀.options source = .ok declared →
    ∃ c ∈ news, (m.context c).Declares source declared

namespace Stocked

variable {m₀ m n : Machine} {sources : List SourceText} {source : SourceText}
  {news : List ContextRef}

theorem refl (m : Machine) : Stocked m [] [] m where
  size := Nat.le_refl _
  former _ _ := rfl
  pending c hc := by
    rw [Machine.context_of_missing hc]
    rfl
  evaluating := rfl
  hostModules := rfl
  forbidden := rfl
  automatic := rfl
  loaded := (List.append_nil _).symm
  names := .slnil
  new _ hc := nomatch hc
  listed _ hsource := nomatch hsource

/-- A source that may not be loaded is passed by. -/
theorem skip (h : Stocked m₀ sources news m) {e : SourceError}
    (hrefused : manifest m₀.options source = .error e) :
    Stocked m₀ (sources ++ [source]) news m :=
  { h with
    names := by
      rw [List.map_append]
      exact h.names.trans (List.sublist_append_left ..)
    new := fun c hc ↦ by
      obtain ⟨hlow, hhigh, other, hother, hdeclared⟩ := h.new c hc
      exact ⟨hlow, hhigh, other, List.mem_append_left _ hother, hdeclared⟩
    listed := fun other hother declared hdeclared ↦ by
      rcases List.mem_append.mp hother with hother | hother
      · exact h.listed other hother declared hdeclared
      · rw [List.mem_singleton.mp hother, hrefused] at hdeclared
        cases hdeclared }

/-- A source that is made and not listed is no new one. -/
theorem withSource (h : Stocked m₀ sources news m) (trace : StackTrace) {context : Context}
    (hpending : context.evaluated = false) :
    Stocked m₀ sources news (m.withSource trace context) := by
  have hold {c : ContextRef} (hc : c.index < m.contexts.size) :
      (m.withSource trace context).context c = m.context c := by
    rw [Machine.context_withSource, if_neg (Nat.ne_of_lt hc)]
  have hnames : news.map (fun c ↦ ((m.withSource trace context).context c).source) =
      news.map fun c ↦ (m.context c).source :=
    List.map_congr_left fun c hc ↦ by rw [hold (h.new c hc).2.1]
  exact { h with
    size := by
      rw [Machine.size_withSource]
      exact Nat.le_succ_of_le h.size
    former := fun c hc ↦ (hold (Nat.lt_of_lt_of_le hc h.size)).trans (h.former c hc)
    pending := fun c hc ↦ by
      rw [Machine.context_withSource]
      split
      · exact hpending
      · exact h.pending c hc
    names := hnames ▸ h.names
    new := fun c hc ↦ by
      obtain ⟨hlow, hhigh, hdeclared⟩ := h.new c hc
      rw [hold hhigh, Machine.size_withSource]
      exact ⟨hlow, Nat.lt_succ_of_lt hhigh, hdeclared⟩
    listed := fun other hother declared hdeclared ↦ by
      obtain ⟨c, hc, hsource⟩ := h.listed other hother declared hdeclared
      exact ⟨c, hc, (hold (h.new c hc).2.1).symm ▸ hsource⟩ }

/-- What does not concern the sources does not matter. -/
theorem sameWork (h : Stocked m₀ sources news m) (hsame : m.SameWork n) :
    Stocked m₀ sources news n where
  size := by
    rw [hsame.contexts]
    exact h.size
  former c hc := (hsame.context c).trans (h.former c hc)
  pending c hc := by
    rw [hsame.context]
    exact h.pending c hc
  evaluating := hsame.evaluating.trans h.evaluating
  hostModules := by
    rw [← hsame.same]
    exact h.hostModules
  forbidden := hsame.forbidden.trans h.forbidden
  automatic := hsame.automatic.trans h.automatic
  loaded := by
    rw [hsame.loaded]
    exact h.loaded
  names := by
    simp only [hsame.context]
    exact h.names
  new := by
    simp only [hsame.context, hsame.contexts]
    exact h.new
  listed := by
    simp only [hsame.context]
    exact h.listed

/-- A source that may be loaded is a new one. -/
theorem enlisted (h : Stocked m₀ sources news m) {declared : Declarations}
    (hdeclared : manifest m₀.options source = .ok declared) (trace : StackTrace) :
    Stocked m₀ (sources ++ [source]) (news ++ [⟨m.contexts.size⟩])
      (m.enlisted trace (sourceOf m source.name declared)) := by
  let made : Context := sourceOf m source.name declared
  have hmade : Stocked m₀ sources news (m.withSource trace made) := h.withSource trace rfl
  have hlast : (m.withSource trace made).context ⟨m.contexts.size⟩ = made := by
    rw [Machine.context_withSource, if_pos rfl]
  have hdeclares : made.Declares source declared := ⟨rfl, rfl, rfl, rfl⟩
  exact { hmade with
    loaded := by
      change (m.loaded.push _).toList = _
      rw [Array.toList_push, h.loaded, List.append_assoc]
    names := by
      rw [List.map_append, List.map_append]
      refine hmade.names.append ?_
      change [((m.withSource trace made).context ⟨m.contexts.size⟩).source].Sublist [source.name]
      rw [hlast]
      exact .refl _
    new := fun c hc ↦ by
      rcases List.mem_append.mp hc with hc | hc
      · obtain ⟨hlow, hhigh, other, hother, hsource⟩ := hmade.new c hc
        exact ⟨hlow, hhigh, other, List.mem_append_left _ hother, hsource⟩
      · rw [List.mem_singleton.mp hc]
        refine ⟨h.size, ?_, source, List.mem_append_right _ (List.mem_singleton_self _), declared,
          hdeclared, hlast.symm ▸ hdeclares⟩
        change m.contexts.size < (m.withSource trace made).contexts.size
        rw [Machine.size_withSource]
        exact Nat.lt_succ_self _
    listed := fun other hother found hfound ↦ by
      rcases List.mem_append.mp hother with hother | hother
      · obtain ⟨c, hc, hsource⟩ := hmade.listed other hother found hfound
        exact ⟨c, List.mem_append_left _ hc, hsource⟩
      · rw [List.mem_singleton.mp hother] at hfound ⊢
        rw [hdeclared] at hfound
        cases hfound
        exact ⟨_, List.mem_append_right _ (List.mem_singleton_self _), hlast.symm ▸ hdeclares⟩ }

/-- A source is loaded or not, and the session goes on. -/
theorem load (h : Stocked m₀ sources news m) (source : SourceText) :
    ∃ news', Stocked m₀ (sources ++ [source]) news'
      (Outcome.final (Session.load source.name source.statements m)) := by
  have hmanifest : manifest m.options source = manifest m₀.options source :=
    congrFun (manifest_congr h.forbidden h.automatic) source
  cases hdeclared : manifest m₀.options source with
  | ok declared =>
    obtain ⟨n, hload, hsame⟩ := load_ok (hmanifest.trans hdeclared)
    rw [hload]
    exact ⟨_, (h.enlisted hdeclared _).sameWork hsame⟩
  | error e =>
    obtain ⟨n, hload, hn⟩ := load_error (hmanifest.trans hdeclared)
    rw [hload]
    rcases hn with rfl | ⟨trace, context, hpending, rfl⟩
    · exact ⟨news, h.skip hdeclared⟩
    · exact ⟨news, (h.skip hdeclared).withSource trace hpending⟩

end Stocked

/-- The requests that load sources one after the other. -/
def loading (sources : List SourceText) : List Request :=
  sources.map fun source ↦ .user (.load source)

theorem final_act_load (source : SourceText) (m : Machine) :
    Outcome.final ((Request.user (.load source)).act m) =
      Outcome.final (load source.name source.statements m) := by
  change Outcome.final ((do let _ ← load source.name source.statements : Run Unit) m) = _
  cases hload : load source.name source.statements m with
  | ok c n =>
    rw [Run.bind_ok hload]
    rfl
  | error e n =>
    rw [Run.bind_error hload]
    rfl

/-- Sources that are loaded one after the other, each or not, are behind those that there were. -/
theorem stocked_after (m : Machine) (sources : List SourceText) :
    ∃ news, Stocked m sources news (after m (loading sources)) := by
  have hmore {m₀ m : Machine} {former : List SourceText} {news : List ContextRef}
      (h : Stocked m₀ former news m) :
      ∃ news', Stocked m₀ (former ++ sources) news' (after m (loading sources)) := by
    induction sources generalizing former news m with
    | nil =>
      rw [List.append_nil]
      exact ⟨news, h⟩
    | cons source sources ih =>
      obtain ⟨news', hnext⟩ := h.load source
      rw [← final_act_load] at hnext
      obtain ⟨news'', hlast⟩ := ih hnext
      rw [List.append_assoc] at hlast
      exact ⟨news'', hlast⟩
  exact hmore (.refl m)

/-- No import is linked in a session in which sources were loaded only. -/
theorem Stocked.unlinked {m₀ m : Machine} {sources : List SourceText} {news : List ContextRef}
    {c : ContextRef} (h : Stocked m₀ sources news m)
    (hfurnished : Furnished CoreModule.all.length m₀) (hc : c ∈ m.loaded) :
    ∀ i ∈ (m.context c).imports, i.target = none := by
  rw [Array.mem_def, h.loaded, List.mem_append] at hc
  rcases hc with hc | hc
  · have hcore : c.index < m₀.contexts.size := by
      rw [hfurnished.sources]
      exact hfurnished.loaded c (Array.mem_def.mpr hc)
    rw [h.former c hcore, hfurnished.imports hcore]
    exact fun _ hi ↦ absurd hi (Array.not_mem_empty _)
  · obtain ⟨-, -, source, -, declared, hdeclared, hsource⟩ := h.new c hc
    rw [hsource.imports]
    exact unlinked_of_manifest hdeclared

end Session

end TreeScript
