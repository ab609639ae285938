import TreeScript.Proofs.Sessions.Evaluated
import TreeScript.Proofs.Sessions.Loading

/-!
# Names of imports and modules

The imports of a source go by different names, whatever a session is asked to do. The modules that a
source exports have different names when it is loaded, and keep them; but statements that are run in
it later may export a module under a name that it has already, and it then has two modules of that
name (`names_differ_until_declared_again`).

A name of a module is only taken up in two places. Where a source is loaded, it is refused if it is
there (`Declarations.distinctNames_of_collect`). Where statements are run in a source, their modules
are added behind those that it has (`Session.exported_of_prepareStatements`), and only the
statements themselves are looked at for names that are there twice.
-/

set_option autoImplicit false

namespace TreeScript.Session

open Lookup

/-- Statements that export a module under a name under which the source that they are to be run in
exports one. -/
def SourceText.DeclaresAgain (m : Machine) (source : SourceText) : Prop :=
  ∃ c, context? m source.name = some c ∧
    ∃ module ∈ (m.context c).modules, module.name ∈ source.exports

section

variable {m n : Machine} {c : ContextRef} {source : SourceText} {declared : Declarations}

/-! ### What a request leaves behind -/

/-- What is run leaves the imports and modules of the sources as they have been prepared. -/
theorem context_act (request : Request) (hm : m.AtRest) (c : ContextRef) :
    ((Outcome.final (request.act m)).context c).imports =
        ((Outcome.final (request.prepare m)).context c).imports ∧
      ((Outcome.final (request.act m)).context c).modules =
        ((Outcome.final (request.prepare m)).context c).modules := by
  obtain ⟨runs, hruns⟩ := request.exists_runs hm
  rcases hruns.course hm with ⟨e, n, hrefused, hfails, -⟩ | ⟨plan, n, o, hplan, htour, -, hsame, -⟩
  · rw [hrefused, hfails]
    exact ⟨rfl, rfl⟩
  · rw [hplan, hsame.context, htour.advances.context]
    exact ⟨rfl, rfl⟩

/-- What is asked for leaves the imports of every source under different names. -/
theorem distinctKeys_act (request : Request) (hm : m.AtRest)
    (hkeys : ∀ c, (m.context c).DistinctKeys) (c : ContextRef) :
    ((Outcome.final (request.act m)).context c).DistinctKeys := by
  have hprepared : m.Amended true (Outcome.final (request.prepare m)) :=
    (request.amending (.inl rfl)).final hm.consistent
  have hlast := hprepared.distinctKeys hkeys c
  unfold Context.DistinctKeys at hlast ⊢
  rwa [(context_act request hm c).1]

/-! ### Statements that are run in a source -/

/-- A machine on which a source has come to export more modules. -/
def exporting (m : Machine) (c : ContextRef) (modules : Array Module) : Machine :=
  m.withContext c fun source ↦ { source with modules := source.modules ++ modules }

/-- Imports whose names are new and differ are added. -/
theorem addImports_ok (name : String) {imports : Array Import} (hexists : c.index < m.contexts.size)
    (hdistinct : imports.toList.Pairwise fun i j ↦ i.key ≠ j.key)
    (hnew : ∀ i ∈ imports, Declarations.hasImport (m.context c).imports i.key = false) :
    ∃ n, addImports c name imports m = .ok () n := by
  have hloop {imports : List Import} {m : Machine} (hexists : c.index < m.contexts.size)
      (hdistinct : imports.Pairwise fun i j ↦ i.key ≠ j.key)
      (hnew : ∀ i ∈ imports, Declarations.hasImport (m.context c).imports i.key = false) :
      ∃ n, (forIn imports PUnit.unit fun i _ ↦ do
        if !(← addImport c i) then
          throw (SourceError.duplicateImport i.key name).failure
        pure (.yield PUnit.unit) : Run PUnit) m = .ok PUnit.unit n := by
    induction imports generalizing m with
    | nil => exact ⟨m, rfl⟩
    | cons i imports ih =>
      rw [List.pairwise_cons] at hdistinct
      rw [List.forall_mem_cons] at hnew
      have hadded : addImport c i m = .ok true (m.withImport c i) := by
        rw [addImport_apply, hnew.1]
        rfl
      have hpass : (do
          if !(← addImport c i) then
            throw (SourceError.duplicateImport i.key name).failure
          pure (.yield PUnit.unit) : Run (ForInStep PUnit)) m =
            .ok (.yield PUnit.unit) (m.withImport c i) := by
        rw [Run.bind_ok hadded]
        rfl
      rw [List.forIn_cons, Run.bind_ok hpass]
      refine ih ?_ hdistinct.2 fun j hj ↦ ?_
      · unfold Machine.withImport
        rw [Machine.size_withContext]
        exact hexists
      · rw [Machine.imports_withImport m hexists]
        have hdiffers : (i.key == j.key) = false := beq_eq_false_iff_ne.mpr (hdistinct.1 j hj)
        have hformer := hnew.2 j hj
        unfold Declarations.hasImport at hformer ⊢
        rw [Array.any_push, hformer, hdiffers]
        rfl
  obtain ⟨n, hadded⟩ := hloop hexists hdistinct fun i hi ↦ hnew i (Array.mem_def.mpr hi)
  refine ⟨n, ?_⟩
  unfold addImports
  rw [← Array.forIn_toList]
  exact (Run.bind_ok hadded).trans rfl

/-- Statements whose imports are not taken in come to nothing. -/
theorem prepareStatements_error {e : Failure} (hfound : context? m source.name = some c)
    (hcollect : Declarations.collect source.name m.options.forbiddenImports source.statements =
      .ok declared) (hrefused : addImports c source.name declared.imports m = .error e n) :
    prepareStatements source.name source.statements m = .error e n := by
  have hgiven : Run.ofSource (.ok declared) m = .ok declared m := rfl
  unfold prepareStatements
  rw [Run.bind_ok (requireContext_some hfound), Run.get_bind, hcollect, Run.bind_ok hgiven,
    Run.bind_error hrefused]

/-- Statements whose imports are taken in have their modules added to those of the source, and then
all sources are linked. -/
theorem exported_of_prepareStatements (hm : m.Consistent) (hfound : context? m source.name = some c)
    (hcollect : Declarations.collect source.name m.options.forbiddenImports source.statements =
      .ok declared) (hadded : addImports c source.name declared.imports m = .ok () n) :
    m.Amended false n ∧ (exporting n c declared.modules).Amended false
      (Outcome.final (prepareStatements source.name source.statements m)) := by
  have hgiven : Run.ofSource (.ok declared) m = .ok declared m := rfl
  have hn : m.Amended false n := by
    have hunlinked (i : Import) (hi : i ∈ declared.imports) : i.target = none :=
      ((Declarations.of_collect hcollect).imports i hi).1
    have hadds : Amending false (addImports c source.name declared.imports) :=
      .addImports c source.name hunlinked
    have hfinal := hadds.final hm
    rwa [hadded] at hfinal
  refine ⟨hn, ?_⟩
  have hexporting : (exporting n c declared.modules).Consistent := by
    have hamends : n.Amended true (exporting n c declared.modules) :=
      .of_amends (.revised (Context.revises_exports declared.modules))
    exact hamends.consistent (hn.consistent hm)
  have hmodules : (modifyContext c fun c =>
      { c with modules := c.modules ++ declared.modules } : Run Unit) n =
        .ok () (exporting n c declared.modules) := rfl
  unfold prepareStatements
  rw [Run.bind_ok (requireContext_some hfound), Run.get_bind, hcollect, Run.bind_ok hgiven,
    Run.bind_ok hadded, Run.bind_ok hmodules]
  have hlinks : Amending false link := .link
  have hlinked := hlinks.final hexporting
  cases hlink : link (exporting n c declared.modules) with
  | error e k =>
    rw [hlink] at hlinked
    rw [Run.bind_error hlink]
    exact hlinked
  | ok _ k =>
    rw [hlink] at hlinked
    rw [Run.bind_ok hlink]
    exact hlinked

/-- Assumes: a source that exists. Its modules have the names that they had and the new ones, and
those of the others have the names that they had. -/
theorem exported_exporting (hexists : c.index < m.contexts.size) (modules : Array Module)
    (d : ContextRef) : ((exporting m c modules).context d).exported =
      if d = c then (m.context d).exported ++ modules.toList.map (·.name)
      else (m.context d).exported := by
  unfold exporting
  rw [Machine.context_withContext hexists]
  split
  · rename_i hsame
    unfold Context.exported
    rw [hsame, Array.toList_append, List.map_append]
  · rfl

/-- Assumes: a source that exists, and modules of different names, none of which it has. It has
modules of different names when it has come to export these. -/
theorem distinctNames_exporting (hexists : c.index < m.contexts.size) {modules : Array Module}
    (hdistinct : (modules.toList.map (·.name)).Nodup) (hnames : ∀ c, (m.context c).DistinctNames)
    (hnew : ∀ name ∈ (m.context c).exported, name ∉ modules.toList.map (·.name))
    (d : ContextRef) : ((exporting m c modules).context d).DistinctNames := by
  unfold Context.DistinctNames
  rw [exported_exporting hexists]
  split
  · rename_i hsame
    subst hsame
    refine List.nodup_append.mpr ⟨hnames d, hdistinct, fun name hname other hother hsame ↦ ?_⟩
    exact hnew name hname (hsame ▸ hother)
  · exact hnames d

/-- Statements whose imports are taken in add the names of their modules to those of the source. -/
theorem exported_after_statements (hm : m.AtRest) (hfound : context? m source.name = some c)
    (hcollect : Declarations.collect source.name m.options.forbiddenImports source.statements =
      .ok declared)
    (hnew : ∀ i ∈ declared.imports, Declarations.hasImport (m.context c).imports i.key = false) :
    ((Outcome.final ((Request.user (.evaluateIn source)).act m)).context c).exported =
      (m.context c).exported ++ source.exports := by
  have hexists : c.index < m.contexts.size := hm.consistent.loaded c (of_context? hfound).1
  obtain ⟨n, hadded⟩ := addImports_ok source.name hexists
    (Declarations.distinct_of_collect hcollect) hnew
  obtain ⟨hn, hlast⟩ := exported_of_prepareStatements hm.consistent hfound hcollect hadded
  have hexists' : c.index < n.contexts.size := Nat.lt_of_lt_of_le hexists hn.size
  have hexporting : c.index < (exporting n c declared.modules).contexts.size := by
    unfold exporting
    rwa [Machine.size_withContext]
  have hrun := (context_act (.user (.evaluateIn source)) hm c).2
  change _ = ((Outcome.final
    (prepareStatements source.name source.statements m)).context c).modules at hrun
  unfold Context.exported
  rw [hrun]
  refine (hlast.names hexporting).trans ?_
  rw [exported_exporting hexists', if_pos rfl, hn.names hexists,
    SourceText.exports_of_collect hcollect]
  rfl

/-- Statements that declare no module again leave the modules of every source under different
names. -/
theorem distinctNames_statements (hm : m.Consistent) (hfresh : ¬source.DeclaresAgain m)
    (hnames : ∀ c, (m.context c).DistinctNames) (d : ContextRef) :
    ((Outcome.final
      (prepareStatements source.name source.statements m)).context d).DistinctNames := by
  cases hfound : context? m source.name with
  | none =>
    have hrefused : prepareStatements source.name source.statements m =
        .error (SourceError.notLoaded source.name).failure m :=
      Run.bind_error (requireContext_none hfound)
    rw [hrefused]
    exact hnames d
  | some c =>
    cases hcollect : Declarations.collect source.name m.options.forbiddenImports
        source.statements with
    | error e =>
      have hrefused : prepareStatements source.name source.statements m = .error e.failure m := by
        unfold prepareStatements
        rw [Run.bind_ok (requireContext_some hfound), Run.get_bind, hcollect]
        rfl
      rw [hrefused]
      exact hnames d
    | ok declared =>
      cases hadded : addImports c source.name declared.imports m with
      | error e n =>
        have hunlinked (i : Import) (hi : i ∈ declared.imports) : i.target = none :=
          ((Declarations.of_collect hcollect).imports i hi).1
        have hadds : Amending false (addImports c source.name declared.imports) :=
          .addImports c source.name hunlinked
        have hn := hadds.final hm
        rw [hadded] at hn
        rw [prepareStatements_error hfound hcollect hadded]
        exact hn.distinctNames hnames d
      | ok _ n =>
        obtain ⟨hn, hlast⟩ := exported_of_prepareStatements hm hfound hcollect hadded
        have hexists : c.index < m.contexts.size := hm.loaded c (of_context? hfound).1
        have hexists' : c.index < n.contexts.size := Nat.lt_of_lt_of_le hexists hn.size
        refine hlast.distinctNames (distinctNames_exporting hexists'
          (Declarations.distinctNames_of_collect hcollect) (hn.distinctNames hnames)
          fun module hmodule hagain ↦ ?_) d
        rw [hn.names hexists] at hmodule
        rw [SourceText.exports_of_collect hcollect] at hagain
        obtain ⟨former, hformer, rfl⟩ := List.mem_map.mp hmodule
        exact hfresh ⟨c, hfound, former, Array.mem_def.mpr hformer, hagain⟩

/-- What is asked for leaves the modules of every source under different names, if it does not run
statements that declare a module again. -/
theorem distinctNames_act {request : Request} (hm : m.AtRest)
    (hfresh : ∀ source, request = .user (.evaluateIn source) → ¬source.DeclaresAgain m)
    (hnames : ∀ c, (m.context c).DistinctNames) (c : ContextRef) :
    ((Outcome.final (request.act m)).context c).DistinctNames := by
  have hprepared (c : ContextRef) :
      ((Outcome.final (request.prepare m)).context c).DistinctNames := by
    by_cases hstatements : ∃ source, request = .user (.evaluateIn source)
    · obtain ⟨source, rfl⟩ := hstatements
      exact distinctNames_statements hm.consistent (hfresh source rfl) hnames c
    · have hamending : Amending false request.prepare :=
        request.amending (.inr fun source h ↦ hstatements ⟨source, h⟩)
      exact (hamending.final hm.consistent).distinctNames hnames c
  have hlast := hprepared c
  unfold Context.DistinctNames Context.exported at hlast ⊢
  rwa [(context_act request hm c).2]

/-! ### Histories -/

theorem distinctKeys_after (hm : m.AtRest) (hkeys : ∀ c, (m.context c).DistinctKeys)
    (requests : List Request) : ∀ c, ((after m requests).context c).DistinctKeys := by
  induction requests generalizing m with
  | nil => exact hkeys
  | cons request requests ih => exact ih (request.atRest hm) (distinctKeys_act request hm hkeys)

theorem distinctNames_after (hm : m.AtRest) (hnames : ∀ c, (m.context c).DistinctNames)
    {requests : List Request} (hfresh : ∀ earlier source later,
      requests = earlier ++ .user (.evaluateIn source) :: later →
        ¬source.DeclaresAgain (after m earlier)) :
    ∀ c, ((after m requests).context c).DistinctNames := by
  induction requests generalizing m with
  | nil => exact hnames
  | cons request requests ih =>
    refine ih (request.atRest hm) (distinctNames_act hm (fun source h ↦ ?_) hnames)
      fun earlier source later h ↦ ?_
    · exact hfresh [] source requests (by rw [h]; rfl)
    · exact hfresh (request :: earlier) source later (by rw [h]; rfl)

end

/-- Assumes: a session that has been started. Whatever it is asked to do, and whether that fails or
not, the imports of each source go by different names. The modules of each source have different
names as long as no statements are run in a source that declare one of its modules again. Where
statements are run in a source, and the names of their imports are new, the names of their modules
are added to those of the source, also if it has them already; then it has two modules of one
name. -/
theorem names_differ_until_declared_again {options : Options} {level : LogLevel} {m₀ : Machine}
    (hstart : start options { logLevel := level } = .ok () m₀) (requests : List Request) :
    let m := after m₀ requests
    (∀ c, (m.context c).DistinctKeys) ∧
      ((∀ earlier source later, requests = earlier ++ .user (.evaluateIn source) :: later →
        ¬source.DeclaresAgain (after m₀ earlier)) → ∀ c, (m.context c).DistinctNames) ∧
      ∀ source c declared, context? m source.name = some c →
        Declarations.collect source.name m.options.forbiddenImports source.statements =
          .ok declared →
        (∀ i ∈ declared.imports, Declarations.hasImport (m.context c).imports i.key = false) →
          let n := after m [.user (.evaluateIn source)]
          (n.context c).exported = (m.context c).exported ++ source.exports ∧
            (source.DeclaresAgain m → ¬(n.context c).DistinctNames) := by
  intro m
  have hrest : m₀.AtRest := atRest_start hstart
  have hm : m.AtRest := atRest_after hrest requests
  obtain ⟨checked, -, -, hopened⟩ := after_opening hstart
  have hfresh := (Ledger.fresh level).atRest
  have hkeys : ∀ c, (m₀.context c).DistinctKeys := by
    rw [← hopened]
    exact distinctKeys_after hfresh (fun _ ↦ .nil) _
  have hnames : ∀ c, (m₀.context c).DistinctNames := by
    rw [← hopened]
    refine distinctNames_after hfresh (fun _ ↦ .nil) fun earlier source later h ↦ ?_
    have hmem : Request.user (.evaluateIn source) ∈ opening checked := by
      rw [h]
      exact List.mem_append_right _ (List.mem_cons_self ..)
    simp [opening] at hmem
  refine ⟨distinctKeys_after hrest hkeys requests, distinctNames_after hrest hnames, ?_⟩
  intro source c declared hfound hcollect hnew n
  have hexported : (n.context c).exported = (m.context c).exported ++ source.exports :=
    exported_after_statements hm hfound hcollect hnew
  refine ⟨hexported, ?_⟩
  rintro ⟨d, hfound', module, hmodule, hagain⟩ hdistinct
  rw [hfound] at hfound'
  cases hfound'
  unfold Context.DistinctNames at hdistinct
  rw [hexported, List.nodup_append] at hdistinct
  exact hdistinct.2.2 _ (List.mem_map_of_mem (Array.mem_def.mp hmodule)) _ hagain rfl

/-- A source that exports a module, and statements that export one of the same name. -/
def declaredTwice : SourceText × SourceText :=
  (⟨"main", [.exportStatement ["x"] "a"]⟩, ⟨"main", [.exportStatement ["y"] "a"]⟩)

/-- The statements are run in the source, which then has two modules of one name. -/
theorem declared_twice_is_taken :
    let m := after plainSession [.user (.evaluate declaredTwice.1)]
    let n := after m [.user (.evaluateIn declaredTwice.2)]
    (m.context ⟨4⟩).exported = ["a"] ∧ (n.context ⟨4⟩).exported = ["a", "a"] ∧
      ¬(n.context ⟨4⟩).DistinctNames := by
  intro m n
  obtain ⟨-, -, htaken⟩ := names_differ_until_declared_again start_plainSession
    [.user (.evaluate declaredTwice.1)]
  have hstate : context? m "main" = some ⟨4⟩ ∧ (m.context ⟨4⟩).exported = ["a"] ∧
      ∃ module ∈ (m.context ⟨4⟩).modules, module.name ∈ declaredTwice.2.exports := by
    decide +kernel
  obtain ⟨hfound, hbefore, hnamesake⟩ := hstate
  have hcollect : Declarations.collect "main" m.options.forbiddenImports
      declaredTwice.2.statements = .ok { modules := #[{ name := "a", symbols := ["y"] }] } := by
    simp [Declarations.collect, Declarations.add, declaredTwice]
  obtain ⟨hexported, hagain⟩ := htaken declaredTwice.2 ⟨4⟩ _ hfound hcollect
    fun _ hi ↦ absurd hi (Array.not_mem_empty _)
  refine ⟨hbefore, ?_, hagain ?_⟩
  · rw [hexported]
    exact congrArg (· ++ ["a"]) hbefore
  · exact ⟨⟨4⟩, hfound, hnamesake⟩

end TreeScript.Session
