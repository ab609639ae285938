import TreeScript.Proofs.Sessions.Requests

/-!
# Which sources count as evaluated

A source counts as evaluated from when its body begins, and goes on to do so whether the body comes
to its end or fails (`evaluated_means_begun`). So no body is ever begun twice, and one that has
failed is not taken up again. A request fails when one of the bodies that it runs does, and then
runs no more; but a later request passes the failed source by and runs the bodies of those that
depend on it, as if it had come to its end (`failed_source_is_passed_by`).

What a session has done so far is kept in a ledger of the bodies it has run. `Ledger` says how the
ledger and the machine belong together: loading and linking leave both as they are
(`Ledger.amended`), a tour enters the bodies that it runs (`Ledger.tour`), and so does a request
(`Ledger.request`).
-/

set_option autoImplicit false

namespace TreeScript.Session

open Lookup

/-- The bodies that a session has run so far, in their order. -/
structure Ledger (runs : List BodyRun) (m : Machine) : Prop where
  atRest : m.AtRest
  evaluated : ∀ c, (m.context c).evaluated = true →
    (m.Hosts c ∧ (m.context c).body = []) ∨ c ∈ runs.map (·.context)
  begun : ∀ run ∈ runs, (m.context run.context).evaluated = true ∧
    run.outcome = evaluateStatements run.context (m.context run.context).body run.start
  nodup : (runs.map (·.context)).Nodup
  ordered : ∀ earlier run later, runs = earlier ++ run :: later →
    ∀ d ∈ dependencies run.start run.context, ¬run.start.DependsOn d run.context →
      m.Hosts d ∨ d ∈ earlier.map (·.context)

/-- A source that counts as evaluated exists. -/
theorem exists_of_evaluated {m : Machine} {c : ContextRef} (h : (m.context c).evaluated = true) :
    c.index < m.contexts.size := by
  refine Nat.lt_of_not_le fun hmissing ↦ ?_
  rw [Machine.context_of_missing hmissing] at h
  exact Bool.false_ne_true h

namespace Ledger

variable {runs later : List BodyRun} {m n : Machine}

/-- Nothing has been run on a new machine. -/
theorem fresh (level : LogLevel) : Ledger [] { logLevel := level } where
  atRest :=
    { consistent :=
        { loaded := fun _ h ↦ absurd h (Array.not_mem_empty _)
          targets := fun _ _ h ↦ absurd h (Array.not_mem_empty _)
          evaluating := fun _ h ↦ nomatch h
          distinct := .nil }
      idle := rfl }
  evaluated _ h := absurd h Bool.false_ne_true
  begun _ h := nomatch h
  nodup := .nil
  ordered earlier run later h := by simp at h

/-- Loading and linking runs nothing. -/
theorem amended {exports : Bool} (h : Ledger runs m) (hn : m.Amended exports n) :
    Ledger runs n where
  atRest := ⟨hn.consistent h.atRest.consistent, hn.evaluating.trans h.atRest.idle⟩
  evaluated c hc := by
    by_cases hold : c.index < m.contexts.size
    · rw [hn.evaluated hold] at hc
      rw [hn.body hold]
      exact (h.evaluated c hc).imp_left fun ⟨hhosts, hbody⟩ ↦ ⟨hn.hosts hhosts, hbody⟩
    · exact .inl (hn.made (Nat.le_of_not_lt hold) hc)
  begun run hrun := by
    obtain ⟨hevaluated, houtcome⟩ := h.begun run hrun
    have hold := exists_of_evaluated hevaluated
    rw [hn.evaluated hold, hn.body hold]
    exact ⟨hevaluated, houtcome⟩
  nodup := h.nodup
  ordered earlier run later hsplit d hd hback :=
    (h.ordered earlier run later hsplit d hd hback).imp_left hn.hosts

/-- What is done elsewhere runs nothing. -/
theorem sameSources (h : Ledger runs m) (hsame : m.SameSources n) : Ledger runs n :=
  h.amended (Machine.Amended.of_amends (.elsewhere hsame) : m.Amended false n)

/-- A tour runs bodies that have not been run before. -/
theorem tour {listed : Bool} {cs : List ContextRef} {o : Outcome Unit} (h : Ledger runs m)
    (htour : Tour listed cs m later o) : Ledger (runs ++ later) o.final where
  atRest := ⟨h.atRest.consistent.advances htour.advances htour.evaluating,
    htour.evaluating.trans h.atRest.idle⟩
  evaluated c hc := by
    have hhosts : o.final.Hosts c ↔ m.Hosts c := by
      unfold Machine.Hosts
      rw [htour.advances.hostModules]
    rw [hhosts, htour.advances.body, List.map_append, List.mem_append, ← or_assoc]
    exact ((htour.evaluated_iff c).mp hc).imp_left (h.evaluated c)
  begun run hrun := by
    rw [htour.advances.body, htour.evaluated_iff]
    rcases List.mem_append.mp hrun with hrun | hrun
    · obtain ⟨hevaluated, houtcome⟩ := h.begun run hrun
      exact ⟨.inl hevaluated, houtcome⟩
    · exact ⟨.inr (List.mem_map.mpr ⟨run, hrun, rfl⟩), (htour.begins run hrun).2⟩
  nodup := by
    rw [List.map_append]
    refine List.nodup_append.mpr ⟨h.nodup, htour.nodup, ?_⟩
    rintro c hformer d hlater rfl
    obtain ⟨run, hrun, rfl⟩ := List.mem_map.mp hformer
    exact htour.not_entered _ hlater (.inl (h.begun run hrun).1)
  ordered earlier run rest hsplit d hd hback := by
    have hhosts : o.final.Hosts d ↔ m.Hosts d := by
      unfold Machine.Hosts
      rw [htour.advances.hostModules]
    rw [hhosts]
    rcases split_of_append hsplit with ⟨between, hformer⟩ | ⟨between, rfl, hlater⟩
    · exact h.ordered earlier run between hformer d hd hback
    · have hrun : run ∈ later := by
        rw [hlater]
        exact List.mem_append_right _ (List.mem_cons_self ..)
      obtain ⟨hadvances, -⟩ := htour.begins run hrun
      rw [hadvances.dependencies] at hd
      rw [hadvances.dependsOn_iff] at hback
      rw [List.map_append, List.mem_append]
      rcases htour.after_dependencies h.atRest.idle hlater hd hback with hbefore | hearlier
      · rcases h.evaluated d hbefore with ⟨hd, -⟩ | hd
        · exact .inl hd
        · exact .inr (.inl hd)
      · exact .inr (.inr hearlier)

/-- A request enters the bodies that it runs. -/
theorem request {request : Request} (h : Ledger runs m) (hruns : request.Runs m later) :
    Ledger (runs ++ later) (Outcome.final (request.act m)) := by
  have hprepared : m.Amended true (Outcome.final (request.prepare m)) :=
    (request.amending (.inl rfl)).final h.atRest.consistent
  rcases hruns.course h.atRest with
    ⟨e, n, hrefused, hfails, rfl⟩ | ⟨plan, n, o, hplan, htour, -, hsame, -⟩
  · rw [hrefused] at hprepared
    rw [hfails, List.append_nil]
    exact h.amended hprepared
  · rw [hplan] at hprepared
    exact ((h.amended hprepared).tour htour).sameSources hsame

/-- Requests that are made one after the other enter the bodies that they run. -/
theorem performed {requests : List Request} (h : Ledger runs m)
    (hlater : Performed requests m later) : Ledger (runs ++ later) (after m requests) := by
  induction hlater generalizing runs with
  | nil => rwa [List.append_nil]
  | cons hruns _ ih =>
    rw [← List.append_assoc]
    exact ih (h.request hruns)

end Ledger

/-- Nothing is being evaluated in a session that has been started. -/
theorem atRest_start {options : Options} {level : LogLevel} {m₀ : Machine}
    (hstart : start options { logLevel := level } = .ok () m₀) : m₀.AtRest := by
  obtain ⟨checked, -, -, hopened⟩ := after_opening hstart
  exact hopened ▸ atRest_after (Ledger.fresh level).atRest (opening checked)

/-! ### Requests that fail -/

section Failing

variable {request : Request} {runs : List BodyRun} {m n : Machine} {c : ContextRef}

/-- A request runs its bodies to their ends, or it fails with the last one that it runs. -/
theorem Request.Runs.completed_or_failed (h : request.Runs m runs) (hm : m.AtRest) :
    (∀ run ∈ runs, run.Completed) ∨
      ∃ earlier run e k n, runs = earlier ++ [run] ∧ (∀ r ∈ earlier, r.Completed) ∧
        run.outcome = .error e k ∧ request.act m = .error e n := by
  rcases h.course hm with ⟨-, -, -, -, rfl⟩ | ⟨plan, n, o, -, htour, -, -, hfails⟩
  · exact .inl fun _ hrun ↦ nomatch hrun
  · cases ho : o with
    | ok _ k => exact .inl (htour.completed ho)
    | error e k =>
      obtain ⟨earlier, run, k', hruns, hrun, hearlier⟩ := htour.failed ho
      exact .inr ⟨earlier, run, e, k', k, hruns, hearlier, hrun, hfails e k ho⟩

/-- A request that succeeds runs its bodies to their ends. -/
theorem Request.Runs.completed (h : request.Runs m runs) (hm : m.AtRest)
    (hact : request.act m = .ok () n) : ∀ run ∈ runs, run.Completed := by
  rcases h.completed_or_failed hm with hcompleted | ⟨-, -, e, -, k, -, -, -, hfails⟩
  · exact hcompleted
  · rw [hact] at hfails
    cases hfails

/-- Assumes: requests that are made of a machine at rest and all succeed. They run their bodies to
their ends. -/
theorem Performed.completed {requests : List Request} (h : Performed requests m runs)
    (hm : m.AtRest) (hall : each requests m = .ok () n) : ∀ run ∈ runs, run.Completed := by
  induction h with
  | nil => exact fun _ hrun ↦ nomatch hrun
  | @cons request _ m _ _ hruns _ ih =>
    rw [each_cons] at hall
    obtain ⟨_, k, hact, hall⟩ := Run.bind_eq_ok_iff.mp hall
    have hfinal : Outcome.final (request.act m) = k := by
      rw [hact]
      rfl
    intro run hrun
    rcases List.mem_append.mp hrun with hrun | hrun
    · exact hruns.completed hm hact run hrun
    · exact ih (request.atRest hm) (hfinal ▸ hall) run hrun

/-- Assumes: a machine at rest whose sources can be linked, and a source that does not count as
evaluated, while those that it depends on do, however their bodies ended. Running the source runs
its body and no other. -/
theorem runs_alone {source : String} (hm : m.AtRest) (hfound : context? m source = some c)
    (hlinked : link m = .ok () n) (hpending : (m.context c).evaluated = false)
    (hready : ∀ d ∈ dependencies n c, (m.context d).evaluated = true) :
    ∃ run, run.context = c ∧ (Request.user (.run source)).Runs m [run] := by
  have hamended := amended_of_link hm.consistent hlinked
  have hevaluated (d : ContextRef) (hd : d.index < m.contexts.size) :
      (n.context d).evaluated = (m.context d).evaluated := hamended.evaluated hd
  have hexists : c.index < m.contexts.size := hm.consistent.loaded c (of_context? hfound).1
  have hnew : ¬n.Entered c := by
    rintro (hentered | hentered)
    · simp [hevaluated c hexists, hpending] at hentered
    · rw [hamended.evaluating, hm.idle] at hentered
      exact nomatch hentered
  have hentered (d : ContextRef) (hd : d ∈ dependencies n c) : (n.opening c).Entered d := by
    have hd := hready d hd
    refine .inl ?_
    rw [show (n.opening c).context d = n.context d from rfl, hevaluated d (exists_of_evaluated hd)]
    exact hd
  obtain ⟨run, o, hrun, htour⟩ :=
    Tour.alone false (Nat.lt_of_lt_of_le hexists hamended.size) hnew hentered
  have hprepared : (Request.user (.run source)).prepare m = .ok { sources := [c] } n :=
    prepareRun_found hfound hlinked
  refine ⟨run, hrun, ?_⟩
  unfold Request.Runs
  rw [hprepared]
  exact ⟨o, htour⟩

end Failing

/-- Assumes: a session that has been started. Whatever it is asked to do, and whether that fails or
not, the sources that count as evaluated are those whose bodies have been begun, and those that were
made for host types and have no body. No body is begun twice, whether it came to its end or failed,
and each is begun after the bodies of the sources that its own depends on, unless these depend on it
in turn. A further request runs its bodies to their ends or fails with the last one that it runs.
But a source is run as soon as all that it depends on counts as evaluated, which it does however its
bodies ended. -/
theorem evaluated_means_begun {options : Options} {level : LogLevel} {m₀ : Machine}
    (hstart : start options { logLevel := level } = .ok () m₀) (requests : List Request) :
    let m := after m₀ requests
    ∃ checked runs, checkOptions options = .ok checked ∧
      Performed (opening checked ++ requests) { logLevel := level } runs ∧ Ledger runs m ∧
      (∀ request more, Request.Runs request m more →
        (∀ run ∈ more, run.Completed) ∨ ∃ earlier run e k n, more = earlier ++ [run] ∧
          (∀ r ∈ earlier, r.Completed) ∧ run.outcome = .error e k ∧ request.act m = .error e n) ∧
      ∀ source c n, context? m source = some c → link m = .ok () n →
        (m.context c).evaluated = false →
        (∀ d ∈ dependencies n c, (m.context d).evaluated = true) →
          ∃ run, run.context = c ∧ (Request.user (.run source)).Runs m [run] := by
  intro m
  obtain ⟨checked, hchecked, -, hopened⟩ := after_opening hstart
  have hfresh := Ledger.fresh level
  obtain ⟨runs, hruns⟩ := Performed.exists_runs hfresh.atRest (opening checked ++ requests)
  have hledger : Ledger runs m := by
    have hlast := hfresh.performed hruns
    rwa [after_append, hopened] at hlast
  exact ⟨checked, runs, hchecked, hruns, hledger, fun _ _ h ↦ h.completed_or_failed hledger.atRest,
    fun _ _ _ ↦ runs_alone hledger.atRest⟩

/-- A session with the default options. -/
def plainSession : Machine := Outcome.final (start {} {})

theorem start_plainSession : start {} {} = .ok () plainSession := Outcome.eq_ok (by decide +kernel)

/-- Loading a source that fails between two assignments, and one that uses the first of them. -/
def loadingFailure : List Request :=
  let assign (name : String) : Node := .assignment "=" (.identifier name) (.boolean true)
  [ .user (.load ⟨"lib.mtr", [assign "x", .identifier "absent", assign "y",
      .exportStatement ["x", "y"] "lib"]⟩),
    .user (.load ⟨"main", [.importStatement "lib" "" false,
      .access [.identifier "lib", .identifier "x"]]⟩) ]

/-- Running the second source fails with the first, which then counts as evaluated and has one of
its two variables. When the second source is run again, its body is run and comes to its end. -/
theorem failed_source_is_passed_by :
    let request : Request := .user (.run "main")
    let m := after plainSession (loadingFailure ++ [request])
    Outcome.value? (request.act (after plainSession loadingFailure)) = none ∧
      ((m.context ⟨4⟩).evaluated = true ∧ (m.global? ⟨4⟩ "x").isSome ∧ m.global? ⟨4⟩ "y" = none) ∧
      ∃ run, run.context = ⟨5⟩ ∧ request.Runs m [run] ∧ run.Completed := by
  intro request m
  obtain ⟨-, -, -, -, -, hends, halone⟩ :=
    evaluated_means_begun start_plainSession (loadingFailure ++ [request])
  have hstate : (Outcome.value? (request.act (after plainSession loadingFailure)) = none ∧
        (m.context ⟨4⟩).evaluated = true ∧ (m.global? ⟨4⟩ "x").isSome ∧
        m.global? ⟨4⟩ "y" = none) ∧
      context? m "main" = some ⟨5⟩ ∧ (m.context ⟨5⟩).evaluated = false ∧
      Outcome.value? (link m) = some () ∧ (∀ d ∈ dependencies (Outcome.final (link m)) ⟨5⟩,
        (m.context d).evaluated = true) ∧ Outcome.value? (request.act m) = some () := by
    decide +kernel
  obtain ⟨hstopped, hfound, hpending, hlinked, hready, hsucceeds⟩ := hstate
  obtain ⟨run, hrun, hruns⟩ := halone "main" ⟨5⟩ _ hfound (Outcome.eq_ok hlinked) hpending hready
  refine ⟨hstopped.1, hstopped.2, run, hrun, hruns, ?_⟩
  rcases hends request [run] hruns with hcompleted | ⟨-, -, e, -, n, -, -, -, hfails⟩
  · exact hcompleted run (List.mem_singleton.mpr rfl)
  · rw [hfails] at hsucceeds
    cases hsucceeds

end TreeScript.Session
