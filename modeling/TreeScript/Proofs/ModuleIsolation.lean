import TreeScript.Proofs.Comparison.Sealed
import TreeScript.Proofs.Walk

/-!
# Modules are isolated

Access chains respect the borders between sources (`modules_are_isolated`). A chain that gets its
value in a module gets it by a name the module exports, or by the name that stands for all symbols
of a source. It never ends with a module instead of a value, it follows imports of no source but the
one it started in, and it leaves the variables of all other sources alone.

The last of these is about the resolution itself and not about code that it calls on the way: all it
does to the machine is to spare the variables of other sources, but for the evaluations and calls
its steps ask the interpreter for (`Chain.Effects`). These in turn spare them, too, unless they
remove names or let a host call back at the root of a source. It takes it that sources do not share
scopes to begin with (`Site.Private`): each source gets a scope of its own when it is made
(`Machine.Separate.newContext`), code starts to run at the root of a source (`Site.Private.root`),
and the frames that forks and calls make are private, too (`fork`, `opened`).
-/

set_option autoImplicit false

namespace TreeScript

/-! ### Sources with scopes of their own -/

/-- Each source has its variables in a scope of its own. -/
structure Machine.Separate (m : Machine) : Prop where
  made : ∀ c : ContextRef, c.index < m.contexts.size → (m.context c).globals.index < m.scopes.size
  distinct : ∀ c d : ContextRef, c.index < m.contexts.size → d.index < m.contexts.size →
    (m.context c).globals = (m.context d).globals → c = d

/-- A scope with the variables of a source other than the one at home. -/
def Machine.IsForeign (m : Machine) (home : ContextRef) (ref : ScopeRef) : Prop :=
  ∃ c : ContextRef, c.index < m.contexts.size ∧ c ≠ home ∧ ref = (m.context c).globals

/-- A site of a source that sees no variables of other sources. -/
structure Site.Private (m : Machine) (site : Site) : Prop where
  separate : m.Separate
  loaded : site.context.index < m.contexts.size
  own : ∀ ref ∈ site.frame.scopes, ¬m.IsForeign site.context ref

/-- One machine has the same sources as another, with the same variables but for those at home. -/
structure Machine.SparesOthers (home : ContextRef) (m n : Machine) : Prop where
  contexts : n.contexts = m.contexts
  kept : ∀ c : ContextRef, c.index < m.contexts.size → c ≠ home →
    n.scope (m.context c).globals = m.scope (m.context c).globals

/-- The variables of a source that is made are in a new scope. -/
theorem Machine.Separate.newContext {m m' : Machine} (h : m.Separate) {source : String}
    {debugValues : List String} {ref : ContextRef}
    (hnew : newContext source debugValues m = .ok ref m') : m'.Separate := by
  obtain ⟨new, hglobals, hscopes, hcontexts⟩ : ∃ new : Context, new.globals = ⟨m.scopes.size⟩ ∧
      m'.scopes = m.scopes.push {} ∧ m'.contexts = m.contexts.push new := by
    cases hnew
    exact ⟨_, rfl, rfl, rfl⟩
  have hcontext (c : ContextRef) :
      m'.context c = if c.index = m.contexts.size then new else m.context c := by
    unfold Machine.context
    rw [hcontexts, getD_push]
  -- A source there was before has its variables in a scope there was before.
  have hformer (c : ContextRef) (hc : c.index < m.contexts.size) :
      (m.context c).globals ≠ new.globals := by
    intro hsame
    have hmade := h.made c hc
    rw [hsame, hglobals] at hmade
    exact Nat.lt_irrefl _ hmade
  constructor
  · intro c hc
    rw [hcontexts, Array.size_push] at hc
    rw [hcontext, hscopes, Array.size_push]
    split
    · rw [hglobals]
      exact Nat.lt_succ_self _
    · exact Nat.lt_succ_of_lt (h.made c (by omega))
  · intro c d hc hd hsame
    rw [hcontexts, Array.size_push] at hc hd
    rw [hcontext, hcontext] at hsame
    split at hsame
    · split at hsame
      · rename_i hcnew hdnew
        cases c
        cases d
        exact congrArg ContextRef.mk (hcnew.trans hdnew.symm)
      · exact absurd hsame.symm (hformer d (by omega))
    · split at hsame
      · exact absurd hsame (hformer c (by omega))
      · exact h.distinct c d (by omega) (by omega) hsame

/-- A scope more does not matter. -/
theorem Machine.Separate.withScope {m : Machine} (h : m.Separate) (scope : Scope) :
    (m.withScope scope).Separate where
  made c hloaded := by
    have hmade : (m.context c).globals.index < m.scopes.size := h.made c hloaded
    unfold Machine.withScope
    rw [Array.size_push]
    exact Nat.lt_succ_of_lt hmade
  distinct := h.distinct

namespace Site.Private

variable {m : Machine} {site : Site}

/-- The variables of its own source are not those of another. -/
theorem not_isForeign_globals (h : site.Private m) :
    ¬m.IsForeign site.context (m.context site.context).globals := by
  rintro ⟨c, hloaded, hother, hsame⟩
  exact hother (h.separate.distinct c site.context hloaded h.loaded hsame.symm)

/-- The root of a source sees the variables of that source only. -/
theorem root (hseparate : m.Separate) {c : ContextRef} (hloaded : c.index < m.contexts.size) :
    Site.Private m ⟨c, (m.context c).frame⟩ where
  separate := hseparate
  loaded := hloaded
  own ref hmem := by
    cases List.mem_singleton.mp hmem
    rintro ⟨d, hd, hother, hsame⟩
    exact hother (hseparate.distinct d c hd hloaded hsame.symm)

/-- A new scope belongs to no source. -/
theorem not_isForeign_next (hseparate : m.Separate) (home : ContextRef) :
    ¬m.IsForeign home ⟨m.scopes.size⟩ := by
  rintro ⟨c, hloaded, -, hsame⟩
  have hmade := hseparate.made c hloaded
  rw [← hsame] at hmade
  exact Nat.lt_irrefl _ hmade

/-- A frame with nothing but a new scope is private. -/
theorem opened (hseparate : m.Separate) {c : ContextRef} (hloaded : c.index < m.contexts.size)
    (scope : Scope) (trace : TraceRef) :
    Site.Private (m.withScope scope) ⟨c, { top := ⟨m.scopes.size⟩, outer := [], trace }⟩ where
  separate := hseparate.withScope scope
  loaded := hloaded
  own ref hmem := by
    cases List.mem_singleton.mp hmem
    exact not_isForeign_next hseparate c

/-- A fork of a private frame is private. -/
theorem fork (h : site.Private m) :
    Site.Private (m.withScope {})
      { site with
        frame :=
          { top := ⟨m.scopes.size⟩, outer := site.frame.scopes, trace := site.frame.trace } } where
  separate := h.separate.withScope {}
  loaded := h.loaded
  own ref hmem := by
    rcases List.mem_cons.mp hmem with rfl | hmem
    · exact not_isForeign_next h.separate site.context
    · exact h.own ref hmem

theorem outside (h : site.Private m) : site.Outside (m.IsForeign site.context) m where
  scopes := h.own
  visible hsealed := absurd hsealed h.not_isForeign_globals

theorem exist (h : site.Private m) (ref : ScopeRef) (hforeign : m.IsForeign site.context ref) :
    ref.index < m.scopes.size := by
  obtain ⟨c, hloaded, -, rfl⟩ := hforeign
  exact h.separate.made c hloaded

end Site.Private

namespace Machine

variable {home : ContextRef} {m n k : Machine}

/-- Machines with the same scopes and sources. -/
theorem SparesOthers.of_untouched (hscopes : n.scopes = m.scopes)
    (hcontexts : n.contexts = m.contexts) : m.SparesOthers home n where
  contexts := hcontexts
  kept _ _ _ := scope_congr hscopes _

/-- What keeps the variables of other sources sealed spares them. -/
theorem Keeps.sparesOthers (hmn : m.Keeps (m.IsForeign home) n)
    (hnk : n.Keeps (m.IsForeign home) k) : n.SparesOthers home k where
  contexts := hnk.contexts
  kept c hloaded hother := by
    rw [hmn.contexts] at hloaded
    rw [hmn.context]
    exact hnk.scope _ ⟨c, hloaded, hother, rfl⟩

end Machine

/-! ### Effects -/

/-- The nodes that a step of a chain may have to evaluate. A name is looked up instead. -/
def Node.asked : Node → List Node
  | .identifier _ => []
  | .call args => .call args :: args
  | .index key => [.index key, key]
  | node => [node]

/-- A step that is not a name may have to be evaluated itself. -/
theorem Node.mem_asked_self {step : Node} (h : ∀ name, step ≠ .identifier name) :
    step ∈ step.asked := by
  unfold Node.asked
  split
  · rename_i name
    exact absurd rfl (h name)
  · exact List.mem_cons_self ..
  · exact List.mem_cons_self ..
  · exact List.mem_cons_self ..

/-- What can happen to a machine along some steps of a chain: the chain itself spares the variables
of other sources, and else there are the evaluations and calls that these steps ask for. -/
inductive Chain.Effects (chain : Chain) (interp : Interp) (steps : List Node) (m : Machine) :
    Machine → Prop
  | nothing : Effects chain interp steps m m
  | own {n k : Machine} (h : Effects chain interp steps m n)
      (hspares : n.SparesOthers chain.site.context k) : Effects chain interp steps m k
  | evaluated {n : Machine} {node : Node} (h : Effects chain interp steps m n)
      (hasked : node ∈ steps.flatMap Node.asked) :
    Effects chain interp steps m (Outcome.final (interp.eval chain.site .required node n))
  | called {n : Machine} (h : Effects chain interp steps m n) {nodes : List Node}
      (hasked : .call nodes ∈ steps) (name : String) (preparation : Preparation)
      (function : CellRef) (args : List CellRef) :
    Effects chain interp steps m
      (Outcome.final (interp.call chain.site name preparation function args n))

theorem Chain.Effects.trans {chain : Chain} {interp : Interp} {steps : List Node} {m n k : Machine}
    (hmn : chain.Effects interp steps m n) (hnk : chain.Effects interp steps n k) :
    chain.Effects interp steps m k := by
  induction hnk with
  | nothing => exact hmn
  | own _ hspares ih => exact ih.own hspares
  | evaluated _ hasked ih => exact ih.evaluated hasked
  | called _ hasked name preparation function args ih =>
    exact ih.called hasked name preparation function args

/-- A computation with the effects that steps of a chain may have. -/
def Chain.Allows {α : Type} (chain : Chain) (interp : Interp) (steps : List Node) (x : Run α) :
    Prop :=
  ∀ m : Machine, chain.Effects interp steps m (Outcome.final (x m))

namespace Chain.Allows

variable {chain : Chain} {interp : Interp} {steps : List Node} {α β : Type}

theorem of_fails {x : Run α} (h : Fails x) : chain.Allows interp steps x := by
  intro m
  obtain ⟨e, he⟩ := h m
  rw [he]
  exact .nothing

theorem pure (a : α) : chain.Allows interp steps (Pure.pure a) := fun _ ↦ .nothing

theorem bind {x : Run α} {f : α → Run β} (hfirst : chain.Allows interp steps x)
    (hrest : ∀ a, chain.Allows interp steps (f a)) : chain.Allows interp steps (x >>= f) := by
  intro m
  have hx := hfirst m
  cases houtcome : x m with
  | ok a n =>
    rw [houtcome] at hx
    rw [Run.bind_ok houtcome]
    exact hx.trans (hrest a n)
  | error e n =>
    rw [houtcome] at hx
    rw [Run.bind_error houtcome]
    exact hx

/-- Working on the store is allowed. -/
theorem steady {x : Run α} (h : Steady x) : chain.Allows interp steps x := by
  intro m
  have hsame := h.sameOutside m
  exact Effects.nothing.own (.of_untouched hsame.scopes hsame.contexts)

/-- Logging a step is allowed. -/
theorem logged {i : Nat} {key source : String} {a : α} :
    chain.Allows interp steps (do
      logStep i key source
      return a) := by
  refine bind (fun m ↦ ?_) fun _ ↦ pure a
  obtain ⟨n, hlog, hunwound⟩ := logStep_apply i key source m
  rw [hlog, ← hunwound]
  exact Effects.nothing.own (.of_untouched rfl rfl)

theorem value {node : Node} (hasked : node ∈ steps.flatMap Node.asked) :
    chain.Allows interp steps (interp.value chain.site node) :=
  bind (fun _ ↦ Effects.nothing.evaluated hasked) fun _ ↦ pure _

theorem values {nodes : List Node} (hasked : ∀ node ∈ nodes, node ∈ steps.flatMap Node.asked) :
    chain.Allows interp steps (interp.values chain.site nodes) := by
  unfold Interp.values
  induction nodes with
  | nil => exact pure []
  | cons node nodes ih =>
    rw [List.mapM_cons]
    exact (value (hasked node (List.mem_cons_self ..))).bind fun _ ↦
      (ih fun node hmem ↦ hasked node (List.mem_cons_of_mem _ hmem)).bind fun _ ↦ pure _

/-- The key a step looks up. -/
theorem stepKey {step : Node} (hstep : step ∈ steps) :
    chain.Allows interp steps (chain.stepKey interp step) := by
  unfold Chain.stepKey
  split
  · exact steady (.newString _)
  · rename_i key
    have hkey : key ∈ (Node.index key).asked := List.mem_cons_of_mem _ (List.mem_cons_self ..)
    exact value (List.mem_flatMap.mpr ⟨.index key, hstep, hkey⟩)
  · rename_i hother _
    exact value (List.mem_flatMap.mpr ⟨step, hstep, Node.mem_asked_self hother⟩)

/-- A step behind a value. -/
theorem resolveStep {step : Node} (hstep : step ∈ steps) (i : Nat) (isFinal : Bool) (before : Node)
    (value : CellRef) (r : Resolution) :
    chain.Allows interp steps (chain.resolveStep interp i isFinal before step value r) := by
  unfold Chain.resolveStep
  split
  · rename_i nodes
    have hasked (node : Node) (hmem : node ∈ nodes) : node ∈ steps.flatMap Node.asked :=
      List.mem_flatMap.mpr ⟨.call nodes, hstep, List.mem_cons_of_mem _ hmem⟩
    exact (values hasked).bind fun _ ↦
      bind (fun _ ↦ Effects.nothing.called hstep _ _ _ _) fun _ ↦ logged
  · refine (stepKey hstep).bind fun key ↦ (steady (.access value key)).bind fun hit ↦ ?_
    cases hit with
    | some cell => exact (steady (.display key)).bind fun _ ↦ logged
    | none =>
      dsimp only
      split
      · refine (steady .newEmpty).bind fun created ↦
          (steady (.createEntry value key created isFinal)).bind fun taken ↦ ?_
        cases taken with
        | false => exact of_fails (.get_bind fun _ ↦ (chain.fails_raise _ _).bind _)
        | true => exact (steady (.display key)).bind fun _ ↦ logged
      · rename_i hmode
        exact (steady (.display key)).bind fun shown ↦
          of_fails (fails_createName (Bool.not_eq_true _ ▸ hmode) i isFinal shown r)

end Chain.Allows

namespace Chain

variable {chain : Chain} {sealed : ScopeRef → Prop} {m n : Machine} {r : Resolution}

/-- Assumes: a chain at a site outside of sealed scopes that has got to a site outside of them. A
step at a name keeps them and gets to a site outside again. -/
theorem keeps_resolveName (hexist : ∀ ref, sealed ref → ref.index < n.scopes.size)
    (hsite : chain.site.Outside sealed n) (hr : Site.Outside sealed n ⟨r.context, r.frame⟩)
    (i : Nat) (isFinal : Bool) (name : String) :
    n.Keeps sealed (Outcome.final (chain.resolveName i isFinal name r n)) ∧
      ∀ r' k, chain.resolveName i isFinal name r n = .ok r' k →
        Site.Outside sealed k ⟨r'.context, r'.frame⟩ := by
  let K := (Tracking.sealing sealed).comparison
  have hchain : K.Chains n chain chain := .at chain.site ⟨.retraced _, hsite⟩
  have hreached : K.Resolutions n r r := .at r.frame ⟨.retraced _, hr⟩
  have hends := (Comparison.resolveName hchain i isFinal name hreached).now ⟨.refl n, hexist⟩
  refine ⟨hends.later, fun r' k houtcome ↦ ?_⟩
  rw [houtcome] at hends
  cases hends with
  | ok _ _ hvalue => exact hvalue.sites.2

/-- What is known of a chain that started at a site on a machine as long as it has no value. -/
def Sparing (chain : Chain) (m n : Machine) (r : Resolution) : Prop :=
  r.value = none → m.Keeps (m.IsForeign chain.site.context) n ∧
    Site.Outside (m.IsForeign chain.site.context) n ⟨r.context, r.frame⟩

/-- Assumes: a chain at a private site. A step has the effects it may have, and no others. -/
theorem effects_advance (interp : Interp) (hprivate : chain.site.Private m)
    (hr : chain.Sparing m n r) {steps : List Node} {step : Node} (hmem : step ∈ steps) (i : Nat)
    (isFinal : Bool) (before : Node) :
    chain.Effects interp steps n (Outcome.final (chain.advance interp i isFinal before step r n)) ∧
      ∀ r' k, chain.advance interp i isFinal before step r n = .ok r' k → chain.Sparing m k r' := by
  unfold advance
  rw [Run.get_bind]
  rcases chain.takeStep_cases interp i isFinal before step (remember n r) with
    ⟨value, _, hstep⟩ | ⟨name, hvalue, _, hstep⟩ | ⟨_, hother, hstep⟩
  · rw [hstep]
    refine ⟨Allows.resolveStep hmem i isFinal before value _ n, fun r' k houtcome hnone ↦ ?_⟩
    obtain ⟨cell, rfl⟩ := of_resolveStep houtcome
    cases hnone
  · rw [hstep]
    rw [value_remember] at hvalue
    rw [remember_of_no_value n hvalue]
    obtain ⟨hkeeps, houtside⟩ := hr hvalue
    have hexist (ref : ScopeRef) (hforeign : m.IsForeign chain.site.context ref) :
        ref.index < n.scopes.size :=
      Nat.lt_of_lt_of_le (hprivate.exist ref hforeign) hkeeps.size
    obtain ⟨hlater, hreached⟩ := keeps_resolveName hexist (hprivate.outside.later hkeeps) houtside
      i isFinal name
    refine ⟨Effects.nothing.own (hkeeps.sparesOthers hlater), fun r' k houtcome _ ↦ ?_⟩
    rw [houtcome] at hlater
    exact ⟨hkeeps.trans hlater, hreached r' k houtcome⟩
  · rw [hstep]
    have hasked : step ∈ steps.flatMap Node.asked :=
      List.mem_flatMap.mpr ⟨step, hmem, Node.mem_asked_self hother⟩
    refine ⟨((Allows.value hasked).bind fun _ ↦ Allows.logged) n, fun r' k houtcome hnone ↦ ?_⟩
    obtain ⟨value, _, _, houtcome⟩ := Run.bind_eq_ok_iff.mp houtcome
    obtain ⟨_, _, houtcome⟩ := of_logStep_bind houtcome
    cases houtcome
    cases hnone

theorem effects_resolveSteps (interp : Interp) (hprivate : chain.site.Private m)
    {steps rest : List Node} :
    ∀ {n : Machine} {r : Resolution} (i : Nat) (before : Node), rest ⊆ steps → chain.Sparing m n r →
      chain.Effects interp steps n
        (Outcome.final (chain.resolveSteps interp i before rest r n)) := by
  induction rest with
  | nil =>
    intro n r i before _ _
    unfold resolveSteps
    cases r.value with
    | some cell => exact Allows.pure cell n
    | none => exact Allows.steady .newEmpty n
  | cons step rest ih =>
    intro n r i before hsubset hr
    have hmem : step ∈ steps := hsubset (List.mem_cons_self ..)
    obtain ⟨heffects, hsparing⟩ := effects_advance interp hprivate hr hmem i rest.isEmpty before
    rw [resolveSteps_cons]
    cases houtcome : chain.advance interp i rest.isEmpty before step r n with
    | ok r' k =>
      rw [houtcome] at heffects
      rw [Run.bind_ok houtcome]
      exact heffects.trans (ih (i + 1) step (fun _ h ↦ hsubset (List.mem_cons_of_mem _ h))
        (hsparing r' k houtcome))
    | error e k =>
      rw [houtcome] at heffects
      rw [Run.bind_error houtcome]
      exact heffects

end Chain

/-- Assumes: a private site. A resolution there has the effects that its steps may have, and no
others. -/
theorem effects_resolve (interp : Interp) {site : Site} {m : Machine} (hprivate : site.Private m)
    (origin : Node) (mode : Mode) (steps : List Node) :
    Chain.Effects { origin, site, mode } interp steps m
      (Outcome.final (resolve interp site origin mode steps m)) := by
  rcases resolve_cases interp site origin mode steps m with
    ⟨e, hfails⟩ | ⟨_, start, hunwound, houtcome⟩
  · rw [hfails]
    exact .nothing
  · have hscopes : start.scopes = m.scopes := by rw [← hunwound]
    have hcontexts : start.contexts = m.contexts := by rw [← hunwound]
    have hkeeps : m.Keeps (m.IsForeign site.context) start := .of_untouched hscopes hcontexts
    have hlogged : Chain.Effects { origin, site, mode } interp steps m start :=
      Chain.Effects.nothing.own (.of_untouched hscopes hcontexts)
    rw [houtcome]
    exact hlogged.trans (Chain.effects_resolveSteps interp hprivate 0 origin (List.Subset.refl _)
      fun _ ↦ ⟨hkeeps, hprivate.outside.later hkeeps⟩)

/-- Assumes: a private site, and a resolution there that goes as it would if natives that change
bindings anywhere were refused. It spares the variables of other sources. -/
theorem sparesOthers_resolve {n : Nat} {site : Site} {m : Machine} (hprivate : site.Private m)
    {origin : Node} {mode : Mode} {steps : List Node}
    (havoids : resolve (interpAvoiding Native.rebindsAnywhere n) site origin mode steps m =
      resolve (interp n) site origin mode steps m) :
    m.SparesOthers site.context (Outcome.final (resolve (interp n) site origin mode steps m)) := by
  let K := (Tracking.sealing (m.IsForeign site.context)).comparison
  have hinterp : K.Evaluates (interpAvoiding Native.rebindsAnywhere n) :=
    K.evaluates_interpAvoiding n
  have hsites : K.Sites m site site := ⟨.retraced _, hprivate.outside⟩
  have hends := (Comparison.resolve hinterp hsites origin mode steps).now ⟨.refl m, hprivate.exist⟩
  rw [← havoids]
  exact (Machine.Keeps.refl m).sparesOthers hends.later

/-- Access chains respect modules, in every mode. Where a chain gets its first value at a name and
is in a module then, the module exports that name, or the name stands for all symbols of another
source; and where it has been in another module before, that was one of its own source. A resolution
that succeeds gives the value that its walk ended with, and not a module. Imports of a source other
than its own are never followed. At a private site, whether it succeeds or fails, a resolution
leaves the variables of other sources as they are, apart from what the nodes it evaluates and the
functions it calls do; and these leave them as they are, too, if they remove no names and make no
host call back at the root of a source. -/
theorem modules_are_isolated (n : Nat) (site : Site) (origin : Node) (mode : Mode)
    (steps : List Node) :
    let chain : Chain := { origin, site, mode }
    (∀ (name : String) (ref : ModuleRef) (r : Resolution) (m : Machine),
      chain.FindsIn (interp n) steps name ref r m →
        (m.exports ref name ∨ name = "symbols" ∧ ref.context ≠ site.context) ∧
        ∀ former, r.module = some former → former = ref ∨ former.context = site.context) ∧
    (∀ (m m' : Machine) (cell : CellRef),
      resolve (interp n) site origin mode steps m = .ok cell m' →
        ∃ start i before r, m.Unwound start ∧
          chain.Walk (interp n) steps start i before [] r m' ∧ r.value = some cell) ∧
    (∀ (name : String) (writing : Bool) (r moved : Resolution) (imports : List Import)
      (m m' : Machine), r.context ≠ site.context →
        chain.switchToImport name writing r imports m ≠ .ok (some moved) m') ∧
    ∀ m : Machine, site.Private m →
      chain.Effects (interp n) steps m
        (Outcome.final (resolve (interp n) site origin mode steps m)) ∧
      (resolve (interpAvoiding Native.rebindsAnywhere n) site origin mode steps m =
          resolve (interp n) site origin mode steps m →
        m.SparesOthers site.context
          (Outcome.final (resolve (interp n) site origin mode steps m))) := by
  refine ⟨fun name ref r m hfinds ↦ hfinds.exports,
    fun m m' cell houtcome ↦ walk_of_resolve houtcome,
    fun name writing r moved imports m m' hforeign ↦ ?_, fun m hprivate ↦ ⟨?_, ?_⟩⟩
  · exact Chain.switchToImport_ne_some hforeign name writing imports m m' moved
  · exact effects_resolve (interp n) hprivate origin mode steps
  · exact sparesOthers_resolve hprivate

/-- A source that imports a library, which exports one of its two symbols. -/
def libraryMachine : Machine where
  cells := #[.boolean true, .boolean false]
  scopes := #[{}, Std.TreeMap.insert (Std.TreeMap.insert {} "pub" ⟨0⟩) "secret" ⟨1⟩]
  traces := #[{}]
  contexts := #[
    { source := "main", globals := ⟨0⟩, trace := ⟨0⟩,
      imports := #[{ name := "lib", asName := "", inline := false, target := some ⟨⟨1⟩, 0⟩ }] },
    { source := "lib", globals := ⟨1⟩, trace := ⟨0⟩,
      modules := #[{ name := "lib", symbols := ["pub"] }] }]

/-- The root of the importing source. -/
def importingSite : Site := ⟨⟨0⟩, (libraryMachine.context ⟨0⟩).frame⟩

/-- The chain from the library to the symbol it exports, in a mode that binds names anew. -/
def libraryChain : Chain where
  origin := .access [.identifier "lib", .identifier "pub"]
  site := importingSite
  mode := .createNew

theorem private_importingSite : importingSite.Private libraryMachine := by
  have hglobals (c : ContextRef) (hc : c.index < libraryMachine.contexts.size) :
      (libraryMachine.context c).globals = ⟨c.index⟩ := by
    obtain ⟨i⟩ := c
    match i, hc with
    | 0, _ => rfl
    | 1, _ => rfl
    | i + 2, hc => exact absurd hc (Nat.not_lt.mpr (Nat.le_add_left 2 i))
  refine .root ⟨fun c hc ↦ ?_, fun c d hc hd hsame ↦ ?_⟩ (by decide)
  · rw [hglobals c hc]
    exact hc
  · rw [hglobals c hc, hglobals d hd] at hsame
    cases c
    cases d
    cases hsame
    rfl

/-- The chain finds its value in the library by a name that the library exports, and leaves the
variables of the library alone. -/
theorem library_is_isolated :
    let steps : List Node := [.identifier "lib", .identifier "pub"]
    importingSite.Private libraryMachine ∧
      (∃ r m, libraryChain.FindsIn (interp 0) steps "pub" ⟨⟨1⟩, 0⟩ r m ∧
        m.exports ⟨⟨1⟩, 0⟩ "pub") ∧
      libraryMachine.SparesOthers ⟨0⟩ (Outcome.final
        (resolve (interp 0) importingSite libraryChain.origin .createNew steps
          libraryMachine)) := by
  intro steps
  have hisolated := modules_are_isolated 0 importingSite libraryChain.origin .createNew steps
  refine ⟨private_importingSite, ?_, ?_⟩
  · have hrun : (match libraryChain.advance (interp 0) 0 false libraryChain.origin
          (.identifier "lib") { context := ⟨0⟩, frame := importingSite.frame } libraryMachine with
        | .ok r m =>
          r.value.isNone && match libraryChain.advance (interp 0) 1 true (.identifier "lib")
              (.identifier "pub") r m with
            | .ok r' _ => r'.value.isSome && decide (r'.module = some ⟨⟨1⟩, 0⟩)
            | .error .. => false
        | .error .. => false) = true := by
      decide
    split at hrun
    · rename_i r m hfirst
      rw [Bool.and_eq_true] at hrun
      obtain ⟨hnone, hrun⟩ := hrun
      split at hrun
      · rename_i r' m' hsecond
        rw [Bool.and_eq_true] at hrun
        have hfinds : libraryChain.FindsIn (interp 0) steps "pub" ⟨⟨1⟩, 0⟩ r m :=
          .intro (.goesOn .begins hfirst) (Option.isNone_iff_eq_none.mp hnone) hsecond hrun.1
            (of_decide_eq_true hrun.2)
        refine ⟨r, m, hfinds, ?_⟩
        rcases (hisolated.1 "pub" ⟨⟨1⟩, 0⟩ r m hfinds).1 with hexported | ⟨hname, _⟩
        · exact hexported
        · exact absurd hname (by decide)
      · cases hrun
    · cases hrun
  · exact (hisolated.2.2.2 libraryMachine private_importingSite).2 rfl

end TreeScript
