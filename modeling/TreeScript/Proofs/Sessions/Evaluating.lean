import Mathlib.Data.List.Nodup
import Mathlib.Data.List.Perm.Subperm
import TreeScript.Proofs.Sessions.Tour

/-!
# Evaluating a source is a tour

Evaluating a source goes through it and through what it depends on as a tour does
(`evaluateContext_tour`), provided that the sources it is led to exist (`Machine.Consistent`). The
fuel it is given bounds the length of a chain of sources that are being evaluated. Each is in the
chain once, so a fuel beyond the number of sources is never used up, and more of it changes nothing
(`evaluateContext_fuel`).
-/

set_option autoImplicit false

namespace TreeScript

/-- How a computation ended, without the value it gives. -/
def Outcome.dropped {α : Type} : Outcome α → Outcome Unit
  | .ok _ m => .ok () m
  | .error e m => .error e m

open Session Lookup

namespace Machine

/-- The sources exist that are loaded, that imports are linked to and that are being evaluated. Of
the last there are no two of the same number. -/
structure Consistent (m : Machine) : Prop where
  loaded : ∀ c ∈ m.loaded, c.index < m.contexts.size
  targets : ∀ c, ∀ i ∈ (m.context c).imports, ∀ module, i.target = some module →
    module.context.index < m.contexts.size
  evaluating : ∀ c ∈ m.evaluating, c.index < m.contexts.size
  distinct : m.evaluating.Nodup

/-- A consistent machine on which no source is being evaluated. -/
structure AtRest (m : Machine) : Prop where
  consistent : m.Consistent
  idle : m.evaluating = []

namespace Consistent

variable {m n : Machine} {c d : ContextRef}

/-- The sources that a source depends on exist. -/
theorem dependencies (h : m.Consistent) (hd : d ∈ dependencies m c) :
    d.index < m.contexts.size := by
  obtain ⟨i, hi, hfound⟩ := List.mem_filterMap.mp hd
  obtain ⟨hlinked, -⟩ := Option.filter_eq_some_iff.mp hfound
  obtain ⟨module, htarget, rfl⟩ := Option.map_eq_some_iff.mp hlinked
  exact h.targets c i (Array.mem_def.mpr hi) module htarget

theorem advances (h : m.Consistent) (hadvances : m.Advances n)
    (hevaluating : n.evaluating = m.evaluating) : n.Consistent where
  loaded c hc := by
    rw [hadvances.loaded] at hc
    rw [hadvances.size]
    exact h.loaded c hc
  targets c i hi := by
    rw [hadvances.context] at hi
    rw [hadvances.size]
    exact h.targets c i hi
  evaluating c hc := by
    rw [hevaluating] at hc
    rw [hadvances.size]
    exact h.evaluating c hc
  distinct := by
    rw [hevaluating]
    exact h.distinct

theorem opening (h : m.Consistent) (hexists : c.index < m.contexts.size) (hnew : ¬m.Entered c) :
    (m.opening c).Consistent where
  loaded := h.loaded
  targets := h.targets
  evaluating d hd := by
    rcases List.mem_cons.mp hd with rfl | hd
    · exact hexists
    · exact h.evaluating d hd
  distinct := List.nodup_cons.mpr ⟨fun hc ↦ hnew (.inr hc), h.distinct⟩

/-- No more sources are being evaluated than there are. -/
theorem length_evaluating (h : m.Consistent) : m.evaluating.length ≤ m.contexts.size := by
  have hdistinct : (m.evaluating.map (·.index)).Nodup :=
    List.Nodup.map (fun c d hsame ↦ congrArg ContextRef.mk hsame) h.distinct
  have hbounded : m.evaluating.map (·.index) ⊆ List.range m.contexts.size := by
    intro i hi
    obtain ⟨c, hc, rfl⟩ := List.mem_map.mp hi
    exact List.mem_range.mpr (h.evaluating c hc)
  have hlength := (List.subperm_of_subset hdistinct hbounded).length_le
  rwa [List.length_map, List.length_range] at hlength

end Consistent

end Machine

namespace Session

variable {m n : Machine} {c : ContextRef}

theorem whileEvaluating_ok {α : Type} {act : Run α} {a : α} (h : act (m.opening c) = .ok a n) :
    whileEvaluating c act m = .ok a (n.closing c) := by
  have hmarked : (modify fun m : Machine ↦
      { m with evaluating := c :: m.evaluating } : Run Unit) m =
      .ok () (m.opening c) := rfl
  unfold whileEvaluating
  rw [Run.bind_ok hmarked, Run.bind_ok (Run.tryCatch_ok h)]
  rfl

theorem whileEvaluating_error {α : Type} {act : Run α} {e : Failure}
    (h : act (m.opening c) = .error e n) :
    whileEvaluating c act m = .error e (n.closing c) := by
  have hmarked : (modify fun m : Machine ↦
      { m with evaluating := c :: m.evaluating } : Run Unit) m =
      .ok () (m.opening c) := rfl
  unfold whileEvaluating
  rw [Run.bind_ok hmarked]
  exact Run.bind_error (Run.tryCatch_error h)

theorem whileEvaluating_congr {α : Type} {act act' : Run α}
    (h : act (m.opening c) = act' (m.opening c)) :
    whileEvaluating c act m = whileEvaluating c act' m := by
  cases hact : act (m.opening c) with
  | ok a n => rw [whileEvaluating_ok hact, whileEvaluating_ok (h ▸ hact)]
  | error e n => rw [whileEvaluating_error hact, whileEvaluating_error (h ▸ hact)]

/-- A source that has been entered is not evaluated again. -/
theorem evaluateContext_entered (fuel : Nat) (hentered : m.Entered c) :
    evaluateContext (fuel + 1) c m = .ok ⟨m.cells.size⟩ (m.withCell .empty) := by
  have hskipped : ((m.context c).evaluated || m.evaluating.contains c) = true := by
    rw [Bool.or_eq_true, List.contains_iff_mem]
    exact hentered
  unfold evaluateContext
  rw [Run.get_bind, if_pos hskipped]
  rfl

/-- Evaluates sources one after the other. -/
def evaluateEach (fuel : Nat) (cs : List ContextRef) : Run Unit :=
  forIn cs PUnit.unit fun c _ => do
    let _ ← evaluateContext fuel c
    pure (.yield PUnit.unit)

theorem evaluateEach_cons (fuel : Nat) (c : ContextRef) (cs : List ContextRef) :
    evaluateEach fuel (c :: cs) = (do
      let _ ← evaluateContext fuel c
      evaluateEach fuel cs) := by
  unfold evaluateEach
  simp only [List.forIn_cons, bind_assoc, pure_bind]

/-- What is left of evaluating a source when those it depends on have been evaluated. -/
def evaluateBody (c : ContextRef) : Run CellRef := do
  let context := (← get).context c
  logVerbose ("evaluating " ++ context.source)
  modifyContext c fun context => { context with evaluated := true }
  evaluateStatements c context.body

/-- A source that has not been entered is evaluated after those it depends on. -/
theorem evaluateContext_new (fuel : Nat) (hnew : ¬m.Entered c) :
    evaluateContext (fuel + 1) c m = whileEvaluating c (do
      evaluateEach fuel (dependencies m c)
      evaluateBody c) m := by
  have hpending : ¬((m.context c).evaluated || m.evaluating.contains c) = true := by
    rw [Bool.or_eq_true, List.contains_iff_mem]
    exact hnew
  rw [evaluateContext]
  rw [Run.get_bind, if_neg hpending]
  rfl

theorem evaluateBody_apply (c : ContextRef) (m : Machine) :
    evaluateBody c m = evaluateStatements c (m.context c).body (m.starting c) := by
  let message := "evaluating " ++ (m.context c).source
  have hlogged : logVerbose message m = .ok () (Outcome.final (logVerbose message m)) := rfl
  unfold evaluateBody
  rw [Run.get_bind, Run.bind_ok hlogged, Run.bind_ok (modifyContext_apply _ _ _)]
  rfl

/-- Assumes: sources, each of which is evaluated as on a tour. So are they all. -/
theorem evaluateEach_tour {fuel : Nat} {cs : List ContextRef}
    (hexists : ∀ c ∈ cs, c.index < m.contexts.size) (hm : m.Consistent)
    (hroom : m.contexts.size < fuel + m.evaluating.length)
    (heach : ∀ (c : ContextRef) (m : Machine), m.Consistent → c.index < m.contexts.size →
      m.contexts.size < fuel + m.evaluating.length →
        ∃ runs, Tour false [c] m runs (Outcome.dropped (evaluateContext fuel c m))) :
    ∃ runs, Tour false cs m runs (evaluateEach fuel cs m) := by
  induction cs generalizing m with
  | nil => exact ⟨[], .nil⟩
  | cons c cs ih =>
    obtain ⟨runs, hfirst⟩ := heach c m hm (hexists c (List.mem_cons_self ..)) hroom
    rw [evaluateEach_cons]
    cases hrun : evaluateContext fuel c m with
    | error e n =>
      rw [hrun] at hfirst
      rw [Run.bind_error hrun]
      exact ⟨runs, hfirst.stop⟩
    | ok cell n =>
      rw [hrun] at hfirst
      have hadvances : m.Advances n := hfirst.advances
      have hevaluating : n.evaluating = m.evaluating := hfirst.evaluating
      obtain ⟨later, hrest⟩ := ih (m := n)
        (fun d hd ↦ hadvances.size ▸ hexists d (List.mem_cons_of_mem c hd))
        (hm.advances hadvances hevaluating) (by rw [hadvances.size, hevaluating]; exact hroom)
      rw [Run.bind_ok hrun]
      exact ⟨runs ++ later, hfirst.cons hrest⟩

/-- Assumes: a consistent machine and a source that exists, and more fuel than there are sources
that are not yet being evaluated. Evaluating the source is a tour. -/
theorem evaluateContext_tour {fuel : Nat} (hm : m.Consistent) (hexists : c.index < m.contexts.size)
    (hroom : m.contexts.size < fuel + m.evaluating.length) :
    ∃ runs, Tour false [c] m runs (Outcome.dropped (evaluateContext fuel c m)) := by
  induction fuel generalizing c m with
  | zero =>
    rw [Nat.zero_add] at hroom
    exact absurd hm.length_evaluating (Nat.not_le.mpr hroom)
  | succ fuel ih =>
    by_cases hentered : m.Entered c
    · rw [evaluateContext_entered fuel hentered]
      exact ⟨[], .pass hentered .nil⟩
    · have hroom' : m.contexts.size < fuel + (c :: m.evaluating).length := by
        rw [List.length_cons]
        omega
      have hopened := hm.opening hexists hentered
      obtain ⟨runs, hbefore⟩ : ∃ runs, Tour false (dependencies m c) (m.opening c) runs
          (evaluateEach fuel (dependencies m c) (m.opening c)) :=
        evaluateEach_tour (fun d hd ↦ hm.dependencies hd) hopened hroom' fun _ _ ↦ ih
      rw [evaluateContext_new fuel hentered]
      cases hdependencies : evaluateEach fuel (dependencies m c) (m.opening c) with
      | error e n =>
        rw [hdependencies] at hbefore
        rw [whileEvaluating_error (Run.bind_error hdependencies)]
        exact ⟨runs, .failBefore hexists hentered hbefore⟩
      | ok _ n =>
        rw [hdependencies] at hbefore
        cases hbody : evaluateStatements c (n.context c).body (n.starting c) with
        | ok cell k =>
          rw [whileEvaluating_ok
            (((Run.bind_ok hdependencies).trans (evaluateBody_apply c n)).trans hbody)]
          exact ⟨_, .run hexists hentered hbefore hbody .nil⟩
        | error e k =>
          rw [whileEvaluating_error
            (((Run.bind_ok hdependencies).trans (evaluateBody_apply c n)).trans hbody)]
          exact ⟨_, .fail hexists hentered hbefore hbody⟩

/-- Assumes: a consistent machine and a source that exists, and two amounts of fuel that are larger
than the number of sources that are not yet being evaluated. It does not matter which of the two is
given to the evaluation of the source. -/
theorem evaluateContext_fuel {fuel fuel' : Nat} (hm : m.Consistent)
    (hexists : c.index < m.contexts.size) (hroom : m.contexts.size < fuel + m.evaluating.length)
    (hroom' : m.contexts.size < fuel' + m.evaluating.length) :
    evaluateContext fuel c m = evaluateContext fuel' c m := by
  have hlength := hm.length_evaluating
  obtain ⟨fuel, rfl⟩ : ∃ rest, fuel = rest + 1 := ⟨fuel - 1, by omega⟩
  obtain ⟨fuel', rfl⟩ : ∃ rest, fuel' = rest + 1 := ⟨fuel' - 1, by omega⟩
  by_cases hentered : m.Entered c
  · rw [evaluateContext_entered fuel hentered, evaluateContext_entered fuel' hentered]
  · have htour (rest : Nat) (hroom : m.contexts.size < rest + 1 + m.evaluating.length) :
        ∃ runs, Tour false (dependencies m c) (m.opening c) runs
          (evaluateEach rest (dependencies m c) (m.opening c)) := by
      refine evaluateEach_tour (m := m.opening c) (fun d hd ↦ hm.dependencies hd)
        (hm.opening hexists hentered) ?_ fun _ _ ↦ evaluateContext_tour
      change m.contexts.size < rest + (c :: m.evaluating).length
      rw [List.length_cons]
      omega
    obtain ⟨_, hbefore⟩ := htour fuel hroom
    obtain ⟨_, hbefore'⟩ := htour fuel' hroom'
    rw [evaluateContext_new fuel hentered, evaluateContext_new fuel' hentered]
    exact whileEvaluating_congr (Run.bind_congr_left (hbefore.unique hbefore').2)

theorem evaluateLoaded_tour (hm : m.Consistent) (hexists : c.index < m.contexts.size) :
    ∃ runs, Tour false [c] m runs (Outcome.dropped (evaluateLoaded c m)) := by
  unfold evaluateLoaded
  rw [Run.get_bind]
  exact evaluateContext_tour hm hexists (by omega)

/-- Evaluates some sources one after the other. Those that come from the list of all that are loaded
are left out if they count as evaluated. -/
def evaluateAll (listed : Bool) (cs : List ContextRef) : Run Unit :=
  forIn cs PUnit.unit fun c _ => do
    if !(listed && ((← get).context c).evaluated) then
      let _ ← evaluateLoaded c
    pure (.yield PUnit.unit)

theorem runAll_eq : runAll = (do
    link
    evaluateAll true (← get).loaded.toList) := by
  unfold runAll evaluateAll
  simp only [← Array.forIn_toList, bind_pure_unit, Bool.true_and]

theorem evaluateAll_single (c : ContextRef) : evaluateAll false [c] = (do
    let _ ← evaluateLoaded c) := by
  unfold evaluateAll
  simp only [List.forIn_cons, List.forIn_nil, Bool.false_and, Bool.not_false, if_true, bind_assoc,
    pure_bind]
  rfl

theorem evaluateAll_cons (listed : Bool) (c : ContextRef) (cs : List ContextRef) :
    evaluateAll listed (c :: cs) = (do
      if !(listed && ((← get).context c).evaluated) then
        let _ ← evaluateLoaded c
      evaluateAll listed cs) := by
  unfold evaluateAll
  simp only [List.forIn_cons, bind_assoc]
  congr 1
  funext m
  split
  · simp only [bind_assoc, pure_bind]
  · simp only [pure_bind]

/-- Assumes: a consistent machine on which nothing is being evaluated, and sources that exist.
Evaluating them is a tour. -/
theorem evaluateAll_tour (listed : Bool) {cs : List ContextRef} (hm : m.Consistent)
    (hidle : m.evaluating = []) (hexists : ∀ c ∈ cs, c.index < m.contexts.size) :
    ∃ runs, Tour listed cs m runs (evaluateAll listed cs m) := by
  induction cs generalizing m with
  | nil => exact ⟨[], .nil⟩
  | cons c cs ih =>
    rw [evaluateAll_cons, Run.get_bind]
    by_cases hskipped : listed = true ∧ (m.context c).evaluated = true
    · obtain ⟨rfl, hevaluated⟩ := hskipped
      rw [hevaluated, if_neg (by simp)]
      obtain ⟨runs, hrest⟩ := ih hm hidle fun d hd ↦ hexists d (List.mem_cons_of_mem c hd)
      exact ⟨runs, .pass (.inl hevaluated) hrest⟩
    · have hfirst : ∃ runs, Tour listed [c] m runs (Outcome.dropped (evaluateLoaded c m)) := by
        obtain ⟨runs, hfirst⟩ := evaluateLoaded_tour hm (hexists c (List.mem_cons_self ..))
        cases listed with
        | false => exact ⟨runs, hfirst⟩
        | true =>
          refine ⟨runs, hfirst.listed_of_new ?_⟩
          rintro (hentered | hentered)
          · exact hskipped ⟨rfl, hentered⟩
          · rw [hidle] at hentered
            exact nomatch hentered
      obtain ⟨runs, hfirst⟩ := hfirst
      have hpending : (!(listed && (m.context c).evaluated)) = true := by
        rwa [Bool.not_eq_true', ← Bool.not_eq_true, Bool.and_eq_true]
      rw [if_pos hpending]
      cases hrun : evaluateLoaded c m with
      | error e n =>
        rw [hrun] at hfirst
        rw [Run.bind_error hrun]
        exact ⟨runs, hfirst.stop⟩
      | ok cell n =>
        rw [hrun] at hfirst
        have hadvances : m.Advances n := hfirst.advances
        have hevaluating : n.evaluating = m.evaluating := hfirst.evaluating
        obtain ⟨later, hrest⟩ := ih (hm.advances hadvances hevaluating) (hevaluating.trans hidle)
          fun d hd ↦ hadvances.size ▸ hexists d (List.mem_cons_of_mem c hd)
        rw [Run.bind_ok hrun]
        exact ⟨runs ++ later, hfirst.cons hrest⟩

end Session

end TreeScript
