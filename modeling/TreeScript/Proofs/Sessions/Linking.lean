import TreeScript.Proofs.Sessions.Requests

/-!
# What linking does

Linking succeeds exactly if for each import of a loaded source that is not linked yet there is a
module of its name in a loaded source (`link_ok_iff`). Each import is then linked to the module that
was found under its name before, the links of the imports before it being nothing to that
(`Machine.resolved_withContext`), and nothing else about the sources changes (`Machine.Links`).
-/

set_option autoImplicit false

namespace TreeScript

open Session Lookup

namespace Machine

variable {m n : Machine} {target : ContextRef} {change further : Context → Context}

/-! ### Changes of one source -/

/-- A change of a source only matters where it is applied. -/
theorem withContext_congr (h : change (m.context target) = further (m.context target)) :
    m.withContext target change = m.withContext target further := by
  have hcontexts : m.contexts.modify target.index change =
      m.contexts.modify target.index further := by
    refine Array.ext_getElem? fun i ↦ ?_
    rw [Array.getElem?_modify, Array.getElem?_modify]
    split
    · rename_i hi
      subst hi
      by_cases hexists : target.index < m.contexts.size
      · unfold context at h
        rw [Array.getElem?_eq_getElem hexists] at h ⊢
        exact congrArg some h
      · rw [Array.getElem?_eq_none (Nat.le_of_not_lt hexists)]
        rfl
    · rfl
  unfold withContext
  rw [hcontexts]

/-- A change that leaves a source as it is changes nothing. -/
theorem withContext_self (h : change (m.context target) = m.context target) :
    m.withContext target change = m := by
  have hnothing : m.withContext target change = m.withContext target id := withContext_congr h
  rw [hnothing]
  have hcontexts : m.contexts.modify target.index id = m.contexts := by
    refine Array.ext_getElem? fun i ↦ ?_
    rw [Array.getElem?_modify, Option.map_id]
    split
    · rfl
    · rfl
  unfold withContext
  rw [hcontexts]

/-- Two changes of one source are one change. -/
theorem withContext_withContext (m : Machine) (target : ContextRef)
    (change further : Context → Context) :
    (m.withContext target change).withContext target further =
      m.withContext target fun c => further (change c) := by
  have hcontexts : (m.contexts.modify target.index change).modify target.index further =
      m.contexts.modify target.index fun c => further (change c) := by
    refine Array.ext_getElem? fun i ↦ ?_
    simp only [Array.getElem?_modify]
    split
    · rw [Option.map_map]
      rfl
    · rfl
  unfold withContext
  rw [hcontexts]

/-! ### What names stand for -/

/-- No module is found under a name that no loaded source exports. -/
theorem module?_eq_none_iff {name : String} : Lookup.module? m name = none ↔ m.Unexported name := by
  unfold Lookup.module? moduleIn?
  rw [List.findSome?_eq_none_iff]
  constructor
  · intro h c hc module hmodule hname
    have hnone := h c (List.mem_reverse.mpr (Array.mem_def.mp hc))
    rw [Option.map_eq_none_iff, List.find?_eq_none] at hnone
    obtain ⟨i, hi⟩ := List.mem_iff_getElem?.mp (Array.mem_def.mp hmodule)
    refine hnone (module, i) (List.mem_reverse.mpr (List.mem_zipIdx_iff_getElem?.mpr hi)) ?_
    simp [hname]
  · intro h c hc
    rw [Option.map_eq_none_iff, List.find?_eq_none]
    rintro ⟨module, i⟩ hmem hname
    have hmodule := List.fst_mem_of_mem_zipIdx (List.mem_reverse.mp hmem)
    exact h c (Array.mem_def.mpr (List.mem_reverse.mp hc)) module (Array.mem_def.mpr hmodule)
      (beq_iff_eq.mp hname)

/-- An import with the module that it is linked to or stands for. -/
def resolved (m : Machine) (i : Import) : Import :=
  if i.target.isSome then i else { i with target := Lookup.module? m i.name }

/-- A machine on which the same modules are found under all names. -/
theorem module?_congr (hloaded : n.loaded = m.loaded)
    (hmodules : ∀ c, (n.context c).modules = (m.context c).modules) (name : String) :
    Lookup.module? n name = Lookup.module? m name := by
  have hin : moduleIn? n name = moduleIn? m name := by
    funext c
    unfold moduleIn?
    rw [hmodules]
  unfold Lookup.module?
  rw [hloaded, hin]

theorem resolved_congr (hloaded : n.loaded = m.loaded)
    (hmodules : ∀ c, (n.context c).modules = (m.context c).modules) :
    n.resolved = m.resolved := by
  funext i
  unfold resolved
  rw [module?_congr hloaded hmodules]

/-- Other imports of a source change nothing about what an import stands for. -/
theorem resolved_withContext (hmodules : ∀ c, (change c).modules = c.modules) :
    (m.withContext target change).resolved = m.resolved :=
  resolved_congr rfl fun c ↦ forall_withContext
    (P := fun c source ↦ source.modules = (m.context c).modules) (fun _ ↦ rfl) (hmodules _) c

theorem resolved_resolved (i : Import) : m.resolved (m.resolved i) = m.resolved i := by
  unfold resolved
  by_cases hlinked : i.target.isSome = true
  · simp [hlinked]
  · by_cases hfound : (Lookup.module? m i.name).isSome = true
    · simp [hlinked, hfound]
    · simp [hlinked, hfound]

/-- A machine on which the imports of some sources have been changed. -/
def relinking (link : Import → Import) (cs : List ContextRef) (m : Machine) : Machine :=
  cs.foldl (fun n c ↦ n.withContext c fun source =>
    { source with imports := source.imports.map link }) m

theorem size_relinking (link : Import → Import) (cs : List ContextRef) (m : Machine) :
    (m.relinking link cs).contexts.size = m.contexts.size := by
  unfold relinking
  induction cs generalizing m with
  | nil => rfl
  | cons c cs ih =>
    rw [List.foldl_cons, ih]
    exact size_withContext ..

theorem same_relinking (link : Import → Import) (cs : List ContextRef) (m : Machine) :
    { m.relinking link cs with contexts := m.contexts } = m := by
  unfold relinking
  induction cs generalizing m with
  | nil => rfl
  | cons c cs ih =>
    rw [List.foldl_cons]
    exact congrArg (fun n : Machine ↦ { n with contexts := m.contexts })
      (ih (m.withContext c fun source => { source with imports := source.imports.map link }))

/-- Assumes: sources that exist, and a change of imports that does nothing the second time. -/
theorem context_relinking {link : Import → Import} (hlink : ∀ i, link (link i) = link i)
    {cs : List ContextRef} (hexists : ∀ c ∈ cs, c.index < m.contexts.size) (c : ContextRef) :
    (m.relinking link cs).context c = if c ∈ cs then
      { m.context c with imports := (m.context c).imports.map link } else m.context c := by
  unfold relinking
  induction cs generalizing m with
  | nil => simp
  | cons d cs ih =>
    rw [List.foldl_cons, ih, context_withContext (hexists d (List.mem_cons_self ..))]
    · by_cases hsame : c = d
      · subst hsame
        by_cases hlater : c ∈ cs
        · simp [hlater, hlink]
        · simp [hlater]
      · simp [hsame]
    · intro e he
      rw [size_withContext]
      exact hexists e (List.mem_cons_of_mem d he)

/-- A machine has become another, and nothing about the sources has changed but that all imports of
those that are loaded have been linked to the modules that they stood for. -/
structure Links (m n : Machine) : Prop where
  same : { n with contexts := m.contexts } = m
  size : n.contexts.size = m.contexts.size
  context : ∀ c, n.context c = if c ∈ m.loaded then
    { m.context c with imports := (m.context c).imports.map m.resolved } else m.context c
  found : ∀ c ∈ m.loaded, ∀ i ∈ (m.context c).imports, (m.resolved i).target.isSome

namespace Links

theorem loaded (h : m.Links n) : n.loaded = m.loaded := by
  rw [← h.same]

theorem evaluating (h : m.Links n) : n.evaluating = m.evaluating := by
  rw [← h.same]

theorem hostModules (h : m.Links n) : n.hostModules = m.hostModules := by
  rw [← h.same]

theorem modules (h : m.Links n) (c : ContextRef) :
    (n.context c).modules = (m.context c).modules := by
  rw [h.context]
  split
  · rfl
  · rfl

/-- Linking changes nothing about what names stand for. -/
theorem module? (h : m.Links n) (name : String) : Lookup.module? n name = Lookup.module? m name :=
  module?_congr h.loaded h.modules name

theorem source (h : m.Links n) (c : ContextRef) : (n.context c).source = (m.context c).source := by
  rw [h.context]
  split
  · rfl
  · rfl

theorem evaluated (h : m.Links n) (c : ContextRef) :
    (n.context c).evaluated = (m.context c).evaluated := by
  rw [h.context]
  split
  · rfl
  · rfl

/-- Linking changes nothing about which source is found under a name. -/
theorem context? (h : m.Links n) (name : String) :
    Lookup.context? n name = Lookup.context? m name := by
  unfold Lookup.context?
  rw [h.loaded]
  simp only [h.source]

/-- Assumes: no import has been linked before. Then each is linked to the module found under its
name. -/
theorem linked (h : m.Links n)
    (hunlinked : ∀ c ∈ m.loaded, ∀ i ∈ (m.context c).imports, i.target = none) :
    ∀ c ∈ n.loaded, ∀ i ∈ (n.context c).imports,
      i.target.isSome ∧ i.target = Lookup.module? n i.name := by
  intro c hc i hi
  rw [h.loaded] at hc
  rw [h.context, if_pos hc] at hi
  obtain ⟨j, hj, rfl⟩ := Array.mem_map.mp hi
  refine ⟨h.found c hc j hj, ?_⟩
  unfold resolved
  rw [h.module?, hunlinked c hc j hj]
  rfl

end Links

end Machine

namespace Session

open Machine

variable {m n : Machine} {c : ContextRef} {i : Import}

theorem linked_ok (h : (m.resolved i).target.isSome) : linked i m = .ok (m.resolved i) m := by
  unfold linked resolved at *
  by_cases hlinked : i.target.isSome = true
  · rw [if_pos hlinked, if_pos hlinked]
    rfl
  · rw [if_neg hlinked] at h ⊢
    rw [if_neg hlinked, Run.get_bind]
    obtain ⟨ref, hfound⟩ := Option.isSome_iff_exists.mp h
    dsimp only at hfound
    rw [hfound]
    rfl

/-- The imports of a source that are left to be linked are linked behind those that have been. -/
theorem linkRest_ok (done left : List Import) (hexists : c.index < m.contexts.size)
    (himports : (m.context c).imports = (done ++ left).toArray)
    (hfound : ∀ i ∈ left, (m.resolved i).target.isSome) :
    (forIn (left.zipIdx done.length) PUnit.unit fun (i, k) _ => do
      let i ← linked i
      modifyContext c fun c => { c with imports := c.imports.setIfInBounds k i }
      pure (.yield PUnit.unit) : Run PUnit) m =
      .ok PUnit.unit (m.withContext c fun source =>
        { source with imports := (done ++ left.map m.resolved).toArray }) := by
  induction left generalizing m done with
  | nil =>
    rw [withContext_self]
    · rfl
    · rw [List.map_nil, ← himports]
  | cons i left ih =>
    let k := m.withContext c fun source =>
      { source with imports := source.imports.setIfInBounds done.length (m.resolved i) }
    have hpass : (do
        let i ← linked i
        modifyContext c fun c => { c with imports := c.imports.setIfInBounds done.length i }
        pure (.yield PUnit.unit) : Run (ForInStep PUnit)) m = .ok (.yield PUnit.unit) k := by
      rw [Run.bind_ok (linked_ok (hfound i (List.mem_cons_self ..)))]
      rfl
    have hresolved : k.resolved = m.resolved := resolved_withContext fun _ ↦ rfl
    have hset : (done ++ i :: left).toArray.setIfInBounds done.length (m.resolved i) =
        ((done ++ [m.resolved i]) ++ left).toArray := by
      simp
    have hk : (k.context c).imports = ((done ++ [m.resolved i]) ++ left).toArray := by
      rw [context_withContext hexists, if_pos rfl, ← hset, ← himports]
    rw [List.zipIdx_cons, List.forIn_cons, Run.bind_ok hpass]
    have hrest := ih (m := k) (done ++ [m.resolved i])
      (by rw [size_withContext]; exact hexists) hk
      (by rw [hresolved]; exact fun j hj ↦ hfound j (List.mem_cons_of_mem i hj))
    rw [List.length_append, List.length_singleton] at hrest
    dsimp only
    rw [hrest, hresolved, withContext_withContext]
    simp only [List.append_assoc, List.singleton_append, List.map_cons]

/-- Assumes: a source that exists, all imports of which can be linked. -/
theorem linkContext_ok (hexists : c.index < m.contexts.size)
    (hfound : ∀ i ∈ (m.context c).imports, (m.resolved i).target.isSome) :
    linkContext c m = .ok () (m.withContext c fun source =>
      { source with imports := source.imports.map m.resolved }) := by
  have hloop := linkRest_ok [] (m.context c).imports.toList hexists rfl
    fun i hi ↦ hfound i (Array.mem_def.mpr hi)
  refine (Run.bind_ok hloop).trans ?_
  rw [withContext_congr]
  · rfl
  · rw [List.nil_append, ← Array.toList_map]

/-- Assumes: sources that exist, all imports of which can be linked. -/
theorem linkEach_ok {cs : List ContextRef} (hexists : ∀ c ∈ cs, c.index < m.contexts.size)
    (hfound : ∀ c ∈ cs, ∀ i ∈ (m.context c).imports, (m.resolved i).target.isSome) :
    (forIn cs PUnit.unit fun c _ => do
      linkContext c
      pure (.yield PUnit.unit) : Run PUnit) m = .ok PUnit.unit (m.relinking m.resolved cs) := by
  induction cs generalizing m with
  | nil => rfl
  | cons c cs ih =>
    let k := m.withContext c fun source =>
      { source with imports := source.imports.map m.resolved }
    have hexistsc : c.index < m.contexts.size := hexists c (List.mem_cons_self ..)
    have hpass : (do
        linkContext c
        pure (.yield PUnit.unit) : Run (ForInStep PUnit)) m = .ok (.yield PUnit.unit) k := by
      rw [Run.bind_ok (linkContext_ok hexistsc (hfound c (List.mem_cons_self ..)))]
      rfl
    have hresolved : k.resolved = m.resolved := resolved_withContext fun _ ↦ rfl
    have hrest := ih (m := k)
      (by rw [size_withContext]; exact fun d hd ↦ hexists d (List.mem_cons_of_mem c hd))
      (by
        intro d hd i hi
        rw [context_withContext hexistsc] at hi
        rw [hresolved]
        have hformer := hfound d (List.mem_cons_of_mem c hd)
        split at hi
        · rename_i hsame
          subst hsame
          obtain ⟨j, hj, rfl⟩ := Array.mem_map.mp hi
          rw [resolved_resolved]
          exact hformer j hj
        · exact hformer i hi)
    rw [hresolved] at hrest
    rw [List.forIn_cons, Run.bind_ok hpass]
    exact hrest

/-- Assumes: a machine all of whose loaded sources exist. Linking succeeds exactly if for
each import of a loaded source there is the module that it is linked to or one that it can be linked
to. -/
theorem link_ok_iff (hm : m.Consistent) : (∃ n, link m = .ok () n) ↔
    ∀ c ∈ m.loaded, ∀ i ∈ (m.context c).imports, (m.resolved i).target.isSome := by
  constructor
  · rintro ⟨n, hlinked⟩ c hc i hi
    refine Decidable.byContradiction fun hnone ↦ ?_
    unfold resolved at hnone
    split at hnone
    · rename_i hlinked
      exact hnone hlinked
    · rename_i hunlinked
      rw [Option.not_isSome_iff_eq_none] at hnone hunlinked
      obtain ⟨place, hplace⟩ := Array.mem_iff_getElem?.mp hi
      obtain ⟨e, k, hfails, -⟩ := Dangling.link.apply
        (⟨hc, hplace, hunlinked, module?_eq_none_iff.mp hnone⟩ : Dangling m c place i)
      rw [hlinked] at hfails
      cases hfails
  · intro hfound
    have hloop := linkEach_ok (fun c hc ↦ hm.loaded c (Array.mem_def.mpr hc))
      fun c hc ↦ hfound c (Array.mem_def.mpr hc)
    refine ⟨m.relinking m.resolved m.loaded.toList, ?_⟩
    unfold link
    rw [Run.get_bind, ← Array.forIn_toList, Run.bind_ok hloop]
    rfl

/-- Assumes: a machine all of whose loaded sources exist, and that can be linked. -/
theorem links_of_link (hm : m.Consistent) (h : link m = .ok () n) : m.Links n := by
  have hfound := (link_ok_iff hm).mp ⟨n, h⟩
  have hloop := linkEach_ok (fun c hc ↦ hm.loaded c (Array.mem_def.mpr hc))
    fun c hc ↦ hfound c (Array.mem_def.mpr hc)
  unfold link at h
  rw [Run.get_bind, ← Array.forIn_toList, Run.bind_ok hloop] at h
  cases h
  refine ⟨same_relinking .., size_relinking .., fun c ↦ ?_, hfound⟩
  rw [context_relinking resolved_resolved fun c hc ↦ hm.loaded c (Array.mem_def.mpr hc)]
  simp only [Array.mem_def]

end Session

end TreeScript
