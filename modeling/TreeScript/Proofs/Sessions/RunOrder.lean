import TreeScript.Proofs.Sessions.Evaluated
import TreeScript.Proofs.Sessions.Linking
import TreeScript.Proofs.Sessions.Loading

/-!
# In which order sources are run

When a source is run and that succeeds, each source that it depends on through the imports has been
run once, and none of a user that it does not depend on. A source has been run after those that it
imports from, unless these depend on it in turn; so the sources may import from each other in any
way, from themselves too (`run_starts_dependencies_first`). There is always enough fuel for that.

The core modules have been run when the session was started (`Performed.completed`), and they import
nothing, so what is run then is exactly the part of the sources that the entry depends on
(`Tour.reached`, `Tour.dependsOn`).
-/

set_option autoImplicit false

namespace TreeScript.Session

open Lookup

/-- The source that a step runs after those that it depends on. -/
def Step.entry? : Step → Option String
  | .run source => some source
  | .evaluate source => some source.name
  | .program _ entry _ => entry.map (·.name)
  | .load _ | .evaluateIn _ => none

variable {m m₀ n k : Machine} {c d : ContextRef} {runs : List BodyRun}

/-! ### What is run before the entry -/

/-- Loading sources runs nothing. -/
theorem performed_loading (m : Machine) (sources : List SourceText) :
    Performed (loading sources) m [] := by
  have hload (source : SourceText) (m : Machine) : Request.Runs (.user (.load source)) m [] := by
    unfold Request.Runs
    cases hprepared : (Request.user (.load source)).prepare m with
    | error e n => rfl
    | ok plan n =>
      obtain ⟨_, k, -, h⟩ := Run.bind_eq_ok_iff.mp hprepared
      cases h
      exact ⟨_, .nil⟩
  induction sources generalizing m with
  | nil => exact .nil
  | cons source sources ih => exact .cons (hload source m) (ih _)

/-- A request makes no source for a host type if it does not do so while it loads and links. -/
theorem hostModules_act {request : Request} (hm : m.AtRest)
    (hprepare : (Outcome.final (request.prepare m)).hostModules = m.hostModules) :
    (Outcome.final (request.act m)).hostModules = m.hostModules := by
  obtain ⟨runs, hruns⟩ := request.exists_runs hm
  rcases hruns.course hm with ⟨e, n, hrefused, hfails, -⟩ | ⟨plan, n, o, hplan, htour, -, hsame, -⟩
  · rw [hrefused] at hprepare
    rw [hfails]
    exact hprepare
  · rw [hplan] at hprepare
    rw [hsame.hostModules, htour.advances.hostModules]
    exact hprepare

/-- A core module is loaded without a source for a host type. -/
theorem hostModules_core (module : CoreModule) (m : Machine) :
    (Outcome.final ((Request.core module).prepare m)).hostModules = m.hostModules := by
  let bound : Machine := { m with natives := module.bindings.reverse ++ m.natives }
  have hbound : registerNatives module.bindings m = .ok () bound := rfl
  change (Outcome.final ((do
    registerNatives module.bindings
    let context ← loadSource module.source module.statements false
    return { sources := [context] } : Run Plan) m)).hostModules = _
  rw [Run.bind_ok hbound]
  cases hcollect : Declarations.collect module.source [] module.statements with
  | error e =>
    have hload : loadSource module.source module.statements false bound = .error e.failure bound :=
      loadSource_error hcollect
    rw [Run.bind_error hload]
    rfl
  | ok declared =>
    let made := bound.withSource { debugValues := bound.options.traceValues }
      (sourceOf bound module.source declared)
    have hload : loadSource module.source module.statements false bound =
        enlist ⟨bound.contexts.size⟩ [] _ made :=
      loadSource_ok hcollect
    have hadded : addAutomatic ⟨bound.contexts.size⟩ [] made = .ok PUnit.unit made := rfl
    obtain ⟨n, hlisted, hsame⟩ := enlist_ok hadded _
    rw [Run.bind_ok (hload.trans hlisted)]
    change n.hostModules = m.hostModules
    rw [← hsame.same]
    rfl

/-- A session has no sources for host types when it has been started. -/
theorem hostModules_start {options : Options} {level : LogLevel}
    (hstart : start options { logLevel := level } = .ok () m₀) : m₀.hostModules = [] := by
  obtain ⟨checked, -, -, hopened⟩ := after_opening hstart
  have hafter {requests : List Request} {m : Machine} (hm : m.AtRest)
      (hprepare : ∀ request ∈ requests, ∀ m : Machine,
        (Outcome.final (request.prepare m)).hostModules = m.hostModules) :
      (after m requests).hostModules = m.hostModules := by
    induction requests generalizing m with
    | nil => rfl
    | cons request requests ih =>
      rw [List.forall_mem_cons] at hprepare
      exact (ih (request.atRest hm) hprepare.2).trans (hostModules_act hm (hprepare.1 m))
  rw [← hopened]
  refine hafter (Ledger.fresh level).atRest fun request hrequest m ↦ ?_
  unfold opening at hrequest
  rw [List.mem_append, List.mem_cons, List.mem_singleton, List.mem_map] at hrequest
  rcases hrequest with (rfl | ⟨module, -, rfl⟩) | rfl
  · rfl
  · exact hostModules_core module m
  · rfl

/-! ### How the entry is prepared -/

/-- A source that a request loads is loaded as by a request of its own. -/
theorem after_load {source : SourceText} (h : load source.name source.statements m = .ok c n) :
    after m (loading [source]) = n := by
  change Outcome.final ((Request.user (.load source)).act m) = n
  rw [final_act_load, h]
  rfl

/-- Sources that a request loads one after the other are loaded as by one request each. -/
theorem after_loading {sources : List SourceText} {done : PUnit}
    (h : (forIn sources PUnit.unit fun source _ ↦ do
      let _ ← load source.name source.statements
      pure (.yield PUnit.unit) : Run PUnit) m = .ok done n) : after m (loading sources) = n := by
  refine after_of_each ?_
  unfold loading
  rw [each_map]
  simp only [Request.act, Step.act, bind_assoc, pure_bind]
  exact (Run.bind_ok h).trans rfl

/-- A step that runs a source after those that it depends on has loaded sources or none when it
comes to linking them. -/
theorem Step.of_prepare {step : Step} {name : String} {plan : Plan}
    (hentry : step.entry? = some name) (h : (Request.user step).prepare m = .ok plan n) :
    ∃ more k, (after m (loading more)).SameWork k ∧ prepareRun name k = .ok plan n := by
  cases step with
  | load source => cases hentry
  | evaluateIn source => cases hentry
  | run source =>
    cases hentry
    exact ⟨[], m, ⟨rfl, rfl, rfl⟩, h⟩
  | evaluate source =>
    cases hentry
    obtain ⟨c, k, hload, h⟩ := Run.bind_eq_ok_iff.mp h
    exact ⟨[source], k, after_load hload ▸ ⟨rfl, rfl, rfl⟩, h⟩
  | program program entry sources =>
    cases entry with
    | none => cases hentry
    | some entry =>
      cases hentry
      obtain ⟨_, k, hload, h⟩ := Run.bind_eq_ok_iff.mp h
      have hloaded := after_loading hload
      have hlogged {k : Machine} (h : (do
          logVerbose s!"program {program}: running {entry.name} with {sources.length} source(s)"
          prepareRun entry.name) k = .ok plan n) :
          ∃ k', k.SameWork k' ∧ prepareRun entry.name k' = .ok plan n := by
        obtain ⟨k', hlog, hsame⟩ := logVerbose_apply
          s!"program {program}: running {entry.name} with {sources.length} source(s)" k
        rw [Run.bind_ok hlog] at h
        exact ⟨k', hsame, h⟩
      rw [Run.get_bind] at h
      split at h
      · obtain ⟨c, k', hload, h⟩ := Run.bind_eq_ok_iff.mp h
        obtain ⟨k'', hsame, h⟩ := hlogged h
        refine ⟨sources ++ [entry], k'', ?_, h⟩
        unfold loading at hloaded ⊢
        rw [List.map_append, after_append, hloaded]
        exact (after_load hload).symm ▸ hsame
      · obtain ⟨k', hsame, h⟩ := hlogged h
        exact ⟨sources, k', hloaded.symm ▸ hsame, h⟩

/-- Assumes: a step that runs a source after those that it depends on, made where sources have been
loaded. If it comes to running the source, that is in the plan alone, and the step has linked the
sources that were loaded, those that it has loaded itself among them. -/
theorem Step.links_of_prepare {step : Step} {entry : String} {plan : Plan}
    {sources : List SourceText} (hm : m.AtRest) (hentry : step.entry? = some entry)
    (h : (Request.user step).prepare (after m (loading sources)) = .ok plan n) :
    ∃ c k more news, plan = { sources := [c] } ∧ context? k entry = some c ∧ k.Consistent ∧
      Stocked m (sources ++ more) news k ∧ k.Links n := by
  obtain ⟨more, k, hsame, hprepare⟩ := Step.of_prepare hentry h
  obtain ⟨c, hfound, hlinked, rfl⟩ := of_prepareRun hprepare
  obtain ⟨news, hstocked⟩ := stocked_after m (sources ++ more)
  have hloaded : after m (loading (sources ++ more)) =
      after (after m (loading sources)) (loading more) := by
    unfold loading
    rw [List.map_append, after_append]
  have hk : k.Consistent := by
    have hrest : (after (after m (loading sources)) (loading more)).AtRest :=
      atRest_after (atRest_after hm _) _
    have hamended : (after (after m (loading sources)) (loading more)).Amended true k :=
      .of_amends (.elsewhere hsame.sameSources)
    exact hamended.consistent hrest.consistent
  exact ⟨c, k, more, news, rfl, hfound, hk, hstocked.sameWork (hloaded ▸ hsame),
    links_of_link hk hlinked⟩

/-- When sources are loaded on a session that has been started, and are linked, the core modules do
not go on to any of them. -/
theorem Stocked.dependencies_core {sources : List SourceText} {news : List ContextRef}
    (hstocked : Stocked m₀ sources news k) (hfurnished : Furnished CoreModule.all.length m₀)
    (hlinks : k.Links n) (hc : c.index < m₀.contexts.size) : dependencies n c = [] := by
  have himports : (n.context c).imports = #[] := by
    rw [hlinks.context, hstocked.former _ hc]
    split
    · dsimp only
      rw [hfurnished.imports hc, Array.map_empty]
    · exact hfurnished.imports hc
  unfold dependencies
  rw [himports]
  rfl

/-! ### What has been run when the entry has -/

/-- What a session has run, in its order, when a source has been run after those that it depends on:
the bodies of these sources, to their ends and once each, and none of another source of a user. A
body is begun when the sources that its own depends on have been run and are no longer being
evaluated, unless they depend on it in turn. -/
structure DependenciesFirst (c : ContextRef) (n : Machine) (runs : List BodyRun) : Prop where
  bodies : ∀ run ∈ runs,
    run.outcome = evaluateStatements run.context (n.context run.context).body run.start
  completed : ∀ run ∈ runs, run.Completed
  reached : ∀ d, n.DependsOn c d → (runs.map (·.context)).count d = 1
  unreached : ∀ d, CoreModule.all.length ≤ d.index → ¬n.DependsOn c d → d ∉ runs.map (·.context)
  ordered : ∀ earlier run later, runs = earlier ++ run :: later →
    ∀ d ∈ dependencies n run.context, ¬n.DependsOn d run.context →
      d ∈ earlier.map (·.context) ∧ d ∉ run.start.evaluating

/-- Assumes: a ledger of a machine without sources for host types, where what has been run is core
modules, which depend on nothing. A tour that comes to its end adds what its source depends on. -/
theorem Tour.dependenciesFirst {later : List BodyRun} (htour : Tour false [c] n later (.ok () k))
    (hledger : Ledger runs n) (hhosts : n.hostModules = [])
    (hcores : ∀ d ∈ runs.map (·.context), d.index < CoreModule.all.length ∧ dependencies n d = [])
    (hcompleted : ∀ run ∈ runs, run.Completed) : DependenciesFirst c n (runs ++ later) := by
  have hrun (d : ContextRef) (hd : (n.context d).evaluated = true) : d ∈ runs.map (·.context) := by
    rcases hledger.evaluated d hd with ⟨⟨module, hmem⟩, -⟩ | hmem
    · rw [hhosts] at hmem
      exact nomatch hmem
    · exact hmem
  have hlast : Ledger (runs ++ later) k := hledger.tour htour
  have hadvances : n.Advances k := htour.advances
  refine ⟨fun run hmem ↦ ?_, fun run hmem ↦ ?_, fun d hd ↦ ?_, fun d huser hfree hmem ↦ ?_, ?_⟩
  · rw [(hlast.begun run hmem).2, hadvances.body]
  · exact (List.mem_append.mp hmem).elim (hcompleted run) (htour.completed rfl run)
  · -- The core modules, which alone have been run before, do not go on to other sources.
    have hevaluated : (k.context d).evaluated = true := by
      refine htour.reached hledger.atRest.idle (fun x hx y hy ↦ ?_) c (List.mem_singleton_self c)
        d hd
      rw [(hcores x (hrun x hx)).2] at hy
      exact nomatch hy
    refine List.count_eq_one_of_mem hlast.nodup ?_
    rw [List.map_append, List.mem_append]
    exact ((htour.evaluated_iff d).mp hevaluated).imp_left (hrun d)
  · rw [List.map_append, List.mem_append] at hmem
    rcases hmem with hmem | hmem
    · exact absurd (hcores d hmem).1 (Nat.not_lt.mpr huser)
    · obtain ⟨x, hx, hdepends⟩ := htour.dependsOn d hmem
      rw [List.mem_singleton.mp hx] at hdepends
      exact hfree hdepends
  · intro earlier run rest hsplit d hd hback
    rcases split_of_append hsplit with ⟨between, rfl⟩ | ⟨between, rfl, hlater⟩
    · have hcore : run.context ∈ (earlier ++ run :: between).map (·.context) :=
        List.mem_map_of_mem (List.mem_append_right _ (List.mem_cons_self ..))
      rw [(hcores _ hcore).2] at hd
      exact nomatch hd
    · rw [List.map_append, List.mem_append]
      refine ⟨(htour.after_dependencies hledger.atRest.idle hlater hd hback).imp_left (hrun d),
        fun hevaluating ↦ hback ?_⟩
      refine htour.stack (fun x hx ↦ ?_) run ?_ d hevaluating
      · rw [hledger.atRest.idle] at hx
        exact nomatch hx
      · rw [hlater]
        exact List.mem_append_right _ (List.mem_cons_self ..)

/-- Assumes: a session that has been started, in which sources are loaded, each or not, and a step
that runs one of them or one that it loads. If the step succeeds, then all imports are linked to the
modules of their names, and with any fuel that is more than there are sources the source is run as
with the fuel that it is given. What has been run in the session then is the bodies of the sources
that it depends on, after one another. -/
theorem run_starts_dependencies_first {options : Options} {level : LogLevel}
    (hstart : start options { logLevel := level } = .ok () m₀) (sources : List SourceText)
    {step : Step} {entry : String} (hentry : step.entry? = some entry)
    (hrun : step.act (after m₀ (loading sources)) = .ok () k) :
    ∃ checked before later n c cell, checkOptions options = .ok checked ∧
      Performed (opening checked ++ loading sources) { logLevel := level } before ∧
      (Request.user step).Runs (after m₀ (loading sources)) later ∧
      (Request.user step).prepare (after m₀ (loading sources)) = .ok { sources := [c] } n ∧
      context? n entry = some c ∧
      (∀ d ∈ n.loaded, ∀ i ∈ (n.context d).imports,
        i.target.isSome ∧ i.target = Lookup.module? n i.name) ∧
      (∀ fuel, n.contexts.size < fuel → evaluateContext fuel c n = .ok cell k) ∧
      DependenciesFirst c n (before ++ later) := by
  obtain ⟨hfurnished, -, -⟩ := Furnished.of_start hstart
  obtain ⟨checked, hchecked, hopened, hafter⟩ := after_opening hstart
  have hfresh := Ledger.fresh level
  obtain ⟨before, hbefore⟩ := Performed.exists_runs hfresh.atRest (opening checked)
  have hledger₀ : Ledger before m₀ := hafter ▸ hfresh.performed hbefore
  let m := after m₀ (loading sources)
  have hall : Performed (opening checked ++ loading sources) { logLevel := level } before := by
    have happend := hbefore.append (performed_loading (after _ (opening checked)) sources)
    rwa [List.append_nil] at happend
  have hledger : Ledger before m := by
    have hloaded := hledger₀.performed (performed_loading m₀ sources)
    rwa [List.append_nil] at hloaded
  -- The step has linked the sources, and has loaded more of them before or none.
  change (Request.user step).act m = _ at hrun
  rw [Request.act_eq] at hrun
  obtain ⟨plan, n, hprepared, hperformed⟩ := Run.bind_eq_ok_iff.mp hrun
  obtain ⟨c, k', more, news, rfl, hfound, hk, hstocked, hlinks⟩ :=
    Step.links_of_prepare hledger₀.atRest hentry hprepared
  have hn : Ledger before n := by
    have hfinal := (Request.amending (.user step) (.inl rfl)).final hledger.atRest.consistent
    rw [hprepared] at hfinal
    exact hledger.amended hfinal
  have hexists : c.index < n.contexts.size := by
    rw [hlinks.size]
    exact hk.loaded c (of_context? hfound).1
  -- The bodies that were run before are those of the core modules.
  have hcores (d : ContextRef) (hd : d ∈ before.map (·.context)) :
      d.index < CoreModule.all.length ∧ dependencies n d = [] := by
    obtain ⟨run, hrun, rfl⟩ := List.mem_map.mp hd
    have hcore : run.context.index < m₀.contexts.size :=
      exists_of_evaluated (hledger₀.begun run hrun).1
    exact ⟨hfurnished.sources ▸ hcore, hstocked.dependencies_core hfurnished hlinks hcore⟩
  have hhosts : n.hostModules = [] :=
    hlinks.hostModules.trans (hstocked.hostModules.trans (hostModules_start hstart))
  rw [Plan.perform_single] at hperformed
  obtain ⟨cell, k'', hcell, hfinished⟩ := Run.bind_eq_ok_iff.mp hperformed
  cases hfinished
  obtain ⟨later, htour⟩ := evaluateLoaded_tour hn.atRest.consistent hexists
  rw [hcell] at htour
  have hruns : (Request.user step).Runs m later := by
    unfold Request.Runs
    rw [hprepared]
    exact ⟨_, htour⟩
  have hfuel (fuel : Nat) (hroom : n.contexts.size < fuel) :
      evaluateContext fuel c n = .ok cell k := by
    rw [← hcell]
    unfold evaluateLoaded
    rw [Run.get_bind]
    exact evaluateContext_fuel hn.atRest.consistent hexists (by omega) (by omega)
  exact ⟨checked, before, later, n, c, cell, hchecked, hall, hruns, hprepared,
    (hlinks.context? entry).trans hfound, hlinks.linked fun _ ↦ hstocked.unlinked hfurnished,
    hfuel, htour.dependenciesFirst hn hhosts hcores (hbefore.completed hfresh.atRest hopened)⟩

/-- Going on from a source to those that it depends on does not leave sources that depend on each
other only. -/
theorem dependsOn_within (h : n.DependsOn c d) (among : List ContextRef) (hc : c ∈ among)
    (hamong : ∀ x ∈ among, ∀ y ∈ dependencies n x, y ∈ among) : d ∈ among := by
  induction h with
  | refl => exact hc
  | tail _ hstep ih => exact hamong _ ih _ hstep

/-- Sources that import from each other: two of them in a circle, one from itself, and one that
nothing imports from. -/
def circle : List SourceText :=
  let imports (name : String) : Node := .importStatement name "" false
  let exports (name : String) : Node := .exportStatement [] name
  [ ⟨"first.mtr", [exports "first", imports "second", imports "math"]⟩,
    ⟨"second.mtr", [exports "second", imports "first", imports "third"]⟩,
    ⟨"third.mtr", [exports "third", imports "third"]⟩,
    ⟨"aside.mtr", [exports "aside", imports "first"]⟩,
    ⟨"main", [imports "first"]⟩ ]

/-- The sources that the last one depends on are run once each, though two of them depend on each
other, and the source that nothing imports from is not. The third source, which imports from itself
only, is run before the second. -/
theorem circle_is_run_once :
    ∃ runs : List BodyRun, (∀ run ∈ runs, run.Completed) ∧
      (∀ c ∈ [⟨4⟩, ⟨5⟩, ⟨6⟩, ⟨8⟩], (runs.map (·.context)).count c = 1) ∧
      ⟨7⟩ ∉ runs.map (·.context) ∧
      ∀ earlier run later, runs = earlier ++ run :: later → run.context = ⟨5⟩ →
        ⟨6⟩ ∈ earlier.map (·.context) := by
  let step : Step := .run "main"
  let m := after plainSession (loading circle)
  let n := Outcome.final ((Request.user step).prepare m)
  have hstate : Outcome.value? (step.act m) = some () ∧ context? n "main" = some ⟨8⟩ ∧
      (⟨4⟩ ∈ dependencies n ⟨8⟩ ∧ ⟨5⟩ ∈ dependencies n ⟨4⟩ ∧ ⟨6⟩ ∈ dependencies n ⟨5⟩) ∧
      dependencies n ⟨6⟩ = [] ∧ ∀ c ∈ [⟨8⟩, ⟨4⟩, ⟨5⟩, ⟨6⟩, ⟨2⟩], ∀ d ∈ dependencies n c,
        d ∈ [⟨8⟩, ⟨4⟩, ⟨5⟩, ⟨6⟩, ⟨2⟩] := by
    decide +kernel
  obtain ⟨hact, hmain, hstep, hlast, hclosed⟩ := hstate
  have hrun : step.act m = .ok () (Outcome.final (step.act m)) := Outcome.eq_ok hact
  obtain ⟨-, before, later, n', c, -, -, -, -, hprepared, hfound, -, -, hfirst⟩ :=
    run_starts_dependencies_first start_plainSession circle rfl hrun
  obtain rfl : n = n' := congrArg Outcome.final hprepared
  obtain rfl : ⟨8⟩ = c := Option.some_inj.mp (hmain.symm.trans hfound)
  have hone : n.DependsOn ⟨8⟩ ⟨4⟩ := .single hstep.1
  have htwo : n.DependsOn ⟨8⟩ ⟨5⟩ := hone.tail hstep.2.1
  have hthree : n.DependsOn ⟨8⟩ ⟨6⟩ := htwo.tail hstep.2.2
  have hback : ¬n.DependsOn ⟨6⟩ ⟨5⟩ := fun h ↦
    absurd (dependsOn_within h [⟨6⟩] (by decide) (by simp [hlast])) (by decide)
  have haside : ¬n.DependsOn ⟨8⟩ ⟨7⟩ := fun h ↦
    absurd (dependsOn_within h [⟨8⟩, ⟨4⟩, ⟨5⟩, ⟨6⟩, ⟨2⟩] (by decide) hclosed) (by decide)
  refine ⟨before ++ later, hfirst.completed, ?_, hfirst.unreached _ (by decide) haside, ?_⟩
  · simp only [List.forall_mem_cons]
    exact ⟨hfirst.reached _ hone, hfirst.reached _ htwo, hfirst.reached _ hthree,
      hfirst.reached _ .refl, fun _ h ↦ nomatch h⟩
  · intro earlier run rest hsplit hsecond
    exact (hfirst.ordered earlier run rest hsplit ⟨6⟩ (hsecond ▸ hstep.2.2) (hsecond ▸ hback)).1

end TreeScript.Session
