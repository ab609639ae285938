import Mathlib.Logic.Relation
import TreeScript.Proofs.DanglingImports
import TreeScript.Proofs.Sessions.Evaluating

/-!
# What happens to the sources before they are run

Loading and linking sources, adding imports to them and registering types changes the sources in few
ways: a source is made or listed, its imports and modules are revised, or a source is made for the
module of a host type. `Machine.Amends` is one such change and `Machine.Amended` any number of them.
Whether these actions succeed or fail, they leave an amended machine behind
(`Amending.loadSource`, `Amending.addImport`, `Amending.link`, `Amending.registerType`).

So what holds of amended machines need only be checked for each change: the sources that are led to
exist (`Amends.consistent`), no source begins to be evaluated, and none comes to count as evaluated
but those made for host types (`Amends.same`, `Amends.made`). The imports of a source go by
different names (`Amends.distinctKeys`), and its modules have different names unless a source that
there was comes to export more (`Amends.distinctNames`).
-/

set_option autoImplicit false

namespace TreeScript

open Session Lookup

/-- The names of modules are told apart when they are collected. -/
theorem Declarations.distinctNames_of_collect {source : String} {forbidden : List String}
    {statements : List Node} {declared : Declarations}
    (h : collect source forbidden statements = .ok declared) :
    (declared.modules.toList.map (·.name)).Nodup := by
  refine collect_induction (P := fun d ↦ (d.modules.toList.map (·.name)).Nodup) h .nil
    fun node _ before after hbefore hadd ↦ ?_
  unfold add at hadd
  split at hadd
  · dsimp only at hadd
    split at hadd
    · cases hadd
    · split at hadd
      · cases hadd
      · cases hadd
        exact hbefore
  · split at hadd
    · cases hadd
    · rename_i hnew
      cases hadd
      rw [Array.toList_push, List.map_append, List.nodup_append]
      refine ⟨hbefore, List.nodup_singleton _, fun a ha b hb hsame ↦ hnew ?_⟩
      obtain ⟨module, hmodule, rfl⟩ := List.mem_map.mp ha
      rw [List.mem_singleton.mp hb] at hsame
      rw [Array.any_eq_true']
      exact ⟨module, Array.mem_def.mpr hmodule, beq_iff_eq.mpr hsame⟩
  · cases hadd
    exact hbefore

namespace Context

/-- No two imports of a source go by one name. -/
def DistinctKeys (c : Context) : Prop := c.imports.toList.Pairwise fun i j ↦ i.key ≠ j.key

/-- The names of the modules of a source. -/
def exported (c : Context) : List String := c.modules.toList.map (·.name)

/-- No two modules of a source have one name. -/
def DistinctNames (c : Context) : Prop := c.exported.Nodup

/-- What a change of the imports and modules of a source makes of it, where there are so many
sources. The name and the body stay, and so does whether it counts as evaluated. Modules are only
added where it exports more. -/
structure Revises (exports : Bool) (count : Nat) (before after : Context) : Prop where
  same : { after with imports := before.imports, modules := before.modules } = before
  targets : ∀ i ∈ after.imports, i ∈ before.imports ∨
    ∀ module, i.target = some module → module.context.index < count
  keys : before.DistinctKeys → after.DistinctKeys
  names : exports = false →
    after.exported = before.exported

variable {exports : Bool} {count : Nat} {c : Context}

/-- One import more, under a new name. -/
theorem revises_import {i : Import} (hunlinked : i.target = none)
    (hnew : Declarations.hasImport c.imports i.key = false) :
    c.Revises exports count { c with imports := c.imports.push i } where
  same := rfl
  targets j hj := by
    rcases Array.mem_push.mp hj with hj | rfl
    · exact .inl hj
    · simp [hunlinked]
  keys h := by
    unfold DistinctKeys
    rw [Array.toList_push, List.pairwise_append]
    refine ⟨h, List.pairwise_singleton .., fun j hj other hother hsame ↦ ?_⟩
    rw [List.mem_singleton.mp hother] at hsame
    have hknown : Declarations.hasImport c.imports i.key = true := by
      unfold Declarations.hasImport
      rw [Array.any_eq_true']
      exact ⟨j, Array.mem_def.mpr hj, beq_iff_eq.mpr hsame⟩
    simp [hnew] at hknown
  names _ := rfl

/-- Imports go by the same names when one of them is replaced by one of its name. -/
theorem keys_setIfInBounds {imports : Array Import} {place : Nat} {i : Import}
    (hkey : ∀ j, imports[place]? = some j → j.key = i.key) :
    (imports.setIfInBounds place i).toList.map (·.key) = imports.toList.map (·.key) := by
  rw [Array.toList_setIfInBounds, List.map_set]
  refine List.ext_getElem? fun k ↦ ?_
  rw [List.getElem?_set]
  by_cases hplace : place = k
  · subst hplace
    by_cases hbound : place < imports.size
    · have hsame := hkey _ (Array.getElem?_eq_getElem hbound)
      simp [hbound, hsame]
    · simp [hbound]
  · rw [if_neg hplace]

/-- An import in the place of another that goes by the same name. -/
theorem revises_link {place : Nat} {i : Import}
    (hkey : ∀ j, c.imports[place]? = some j → j.key = i.key)
    (htarget : ∀ module, i.target = some module → module.context.index < count) :
    c.Revises exports count { c with imports := c.imports.setIfInBounds place i } where
  same := rfl
  targets j hj := by
    rcases Array.mem_or_eq_of_mem_setIfInBounds hj with hj | rfl
    · exact .inl hj
    · exact .inr htarget
  keys h := by
    unfold DistinctKeys at h ⊢
    rw [← List.pairwise_map] at h ⊢
    rwa [keys_setIfInBounds hkey]
  names _ := rfl

/-- One symbol more in the first module. -/
theorem revises_symbol (symbol : String) :
    c.Revises exports count { c with
      modules := c.modules.modify 0 fun module =>
        if module.symbols.contains symbol then module
        else { module with symbols := module.symbols ++ [symbol] } } where
  same := rfl
  targets i hi := .inl hi
  keys h := h
  names _ := by
    unfold exported
    rw [Array.toList_modify]
    cases c.modules.toList with
    | nil => rfl
    | cons module modules =>
      rw [List.modify_zero_cons, List.map_cons, List.map_cons]
      split
      · rfl
      · rfl

/-- More modules, for a source that exports more. -/
theorem revises_exports (modules : Array Module) :
    c.Revises true count { c with modules := c.modules ++ modules } where
  same := rfl
  targets _ hi := .inl hi
  keys h := h
  names h := nomatch h

end Context

namespace Machine

/-- A source that was made for the module of a host type. -/
def Hosts (m : Machine) (c : ContextRef) : Prop := ∃ module, (module, c) ∈ m.hostModules

/-- The source that is made for the module of a host type. It counts as evaluated. -/
def hostSource (m : Machine) (module : String) : Context where
  source := module
  globals := ⟨m.scopes.size⟩
  trace := ⟨m.traces.size⟩
  modules := #[{ name := module, symbols := [] }]
  evaluated := true

/-- A machine on which that source has been made. -/
def hosting (m : Machine) (module : String) : Machine :=
  { m.withSource {} (m.hostSource module) with
    hostModules := (module, ⟨m.contexts.size⟩) :: m.hostModules
    loaded := m.loaded.push ⟨m.contexts.size⟩ }

/-- A change of the sources that is not due to running them. It may make a source that there was
export more or not. -/
inductive Amends (exports : Bool) (m : Machine) : Machine → Prop
  | elsewhere {n : Machine} (h : m.SameSources n) : Amends exports m n
  | source {trace : StackTrace} {source : Context} (hpending : source.evaluated = false)
      (hunlinked : ∀ i ∈ source.imports, i.target = none) (hkeys : source.DistinctKeys)
      (hnames : source.DistinctNames) : Amends exports m (m.withSource trace source)
  | revised {target : ContextRef} {change : Context → Context}
      (h : (m.context target).Revises exports m.contexts.size (change (m.context target))) :
      Amends exports m (m.withContext target change)
  | listed {c : ContextRef} (hexists : c.index < m.contexts.size) : Amends exports m (m.listing c)
  | hosted {module : String} : Amends exports m (m.hosting module)

/-- Any number of such changes. -/
def Amended (exports : Bool) : Machine → Machine → Prop := Relation.ReflTransGen (Amends exports)

variable {exports : Bool} {m n k : Machine} {c target : ContextRef}

/-! ### One source among the others -/

/-- Changing a source that does not exist changes nothing. -/
theorem withContext_of_missing (hmissing : m.contexts.size ≤ target.index)
    (change : Context → Context) : m.withContext target change = m := by
  have hcontexts : m.contexts.modify target.index change = m.contexts := by
    refine Array.ext_getElem? fun i ↦ ?_
    rw [Array.getElem?_modify]
    split
    · rename_i hi
      rw [← hi, Array.getElem?_eq_none hmissing]
      rfl
    · rfl
  unfold withContext
  rw [hcontexts]

/-- What holds of all sources, and of one when it has been changed, holds of all afterwards. -/
theorem forall_withContext {P : ContextRef → Context → Prop} {change : Context → Context}
    (h : ∀ c, P c (m.context c)) (hchange : P target (change (m.context target))) (c : ContextRef) :
    P c ((m.withContext target change).context c) := by
  by_cases hexists : target.index < m.contexts.size
  · rw [context_withContext hexists]
    split
    · rename_i hsame
      rwa [hsame]
    · exact h c
  · rw [withContext_of_missing (Nat.le_of_not_lt hexists)]
    exact h c

theorem size_withContext (m : Machine) (target : ContextRef) (change : Context → Context) :
    (m.withContext target change).contexts.size = m.contexts.size := by
  unfold withContext
  rw [Array.size_modify]

/-- What holds of all sources and of a new one holds of all afterwards. -/
theorem forall_withSource {P : ContextRef → Context → Prop} {trace : StackTrace} {source : Context}
    (h : ∀ c, P c (m.context c)) (hnew : P ⟨m.contexts.size⟩ source) (c : ContextRef) :
    P c ((m.withSource trace source).context c) := by
  rw [context_withSource]
  split
  · rename_i hsame
    obtain rfl : c = ⟨m.contexts.size⟩ := congrArg ContextRef.mk hsame
    exact hnew
  · exact h c

theorem size_withSource (m : Machine) (trace : StackTrace) (source : Context) :
    (m.withSource trace source).contexts.size = m.contexts.size + 1 :=
  Array.size_push _

theorem context_hosting (m : Machine) (module : String) (c : ContextRef) :
    (m.hosting module).context c =
      if c.index = m.contexts.size then m.hostSource module else m.context c :=
  context_withSource {} (m.hostSource module) c

theorem size_hosting (m : Machine) (module : String) :
    (m.hosting module).contexts.size = m.contexts.size + 1 :=
  size_withSource m {} (m.hostSource module)

/-! ### What the changes keep -/

theorem Amends.size (h : m.Amends exports n) : m.contexts.size ≤ n.contexts.size := by
  cases h with
  | elsewhere h => exact Nat.le_of_eq (by rw [h.contexts])
  | source => exact Nat.le_trans (Nat.le_succ _) (Nat.le_of_eq (size_withSource ..).symm)
  | hosted => exact Nat.le_trans (Nat.le_succ _) (Nat.le_of_eq (size_hosting ..).symm)
  | revised => exact Nat.le_of_eq (size_withContext ..).symm
  | listed => exact Nat.le_refl _

/-- No source begins to be evaluated. -/
theorem Amends.evaluating (h : m.Amends exports n) : n.evaluating = m.evaluating := by
  cases h with
  | elsewhere h => exact h.evaluating
  | _ => rfl

/-- No source is taken from the list of those that are loaded. -/
theorem Amends.loaded (h : m.Amends exports n) (hc : c ∈ m.loaded) : c ∈ n.loaded := by
  cases h with
  | elsewhere h => rwa [h.loaded]
  | listed | hosted => exact Array.mem_push_of_mem _ hc
  | source | revised => exact hc

/-- A source made for a host type stays one. -/
theorem Amends.hosts (h : m.Amends exports n) (hc : m.Hosts c) : n.Hosts c := by
  obtain ⟨module, hc⟩ := hc
  refine ⟨module, ?_⟩
  cases h with
  | elsewhere h => rwa [h.hostModules]
  | hosted => exact List.mem_cons_of_mem _ hc
  | source | revised | listed => exact hc

/-- A source that there was has the name and the body that it had, and counts as evaluated if it
did. -/
theorem Amends.same (h : m.Amends exports n) (hold : c.index < m.contexts.size) :
    { n.context c with
      imports := (m.context c).imports, modules := (m.context c).modules } = m.context c := by
  cases h with
  | elsewhere h => rw [h.context]
  | source => rw [context_withSource, if_neg (Nat.ne_of_lt hold)]
  | hosted => rw [context_hosting, if_neg (Nat.ne_of_lt hold)]
  | @revised target change h =>
    refine forall_withContext
      (P := fun c x ↦ { x with
        imports := (m.context c).imports, modules := (m.context c).modules } = m.context c)
      (fun _ ↦ rfl) h.same c
  | listed => rfl

/-- Where no source exports more, those that there were export under the names that they did. -/
theorem Amends.names (h : m.Amends false n) (hold : c.index < m.contexts.size) :
    (n.context c).exported = (m.context c).exported := by
  cases h with
  | elsewhere h => rw [h.context]
  | source => rw [context_withSource, if_neg (Nat.ne_of_lt hold)]
  | hosted => rw [context_hosting, if_neg (Nat.ne_of_lt hold)]
  | @revised target change h =>
    exact forall_withContext
      (P := fun c x ↦ x.exported = (m.context c).exported)
      (fun _ ↦ rfl) (h.names rfl) c
  | listed => rfl

/-- Of the sources that there were not, those count as evaluated that were made for host types, and
they have no body. -/
theorem Amends.made (h : m.Amends exports n) (hnew : m.contexts.size ≤ c.index)
    (hevaluated : (n.context c).evaluated = true) : n.Hosts c ∧ (n.context c).body = [] := by
  have hpending : (m.context c).evaluated ≠ true := by
    rw [context_of_missing hnew]
    exact Bool.false_ne_true
  cases h with
  | elsewhere h =>
    rw [h.context] at hevaluated
    exact absurd hevaluated hpending
  | @source trace source hsource =>
    rw [context_withSource] at hevaluated
    split at hevaluated
    · simp [hsource] at hevaluated
    · exact absurd hevaluated hpending
  | @hosted module =>
    rw [context_hosting] at hevaluated ⊢
    split at hevaluated
    · rename_i hlast
      obtain rfl : c = ⟨m.contexts.size⟩ := congrArg ContextRef.mk hlast
      exact ⟨⟨module, List.mem_cons_self ..⟩, by rw [if_pos rfl]; rfl⟩
    · exact absurd hevaluated hpending
  | @revised target change h =>
    by_cases hexists : target.index < m.contexts.size
    · have hother : c ≠ target := by
        rintro rfl
        exact Nat.not_lt.mpr hnew hexists
      rw [context_withContext hexists, if_neg hother] at hevaluated
      exact absurd hevaluated hpending
    · rw [withContext_of_missing (Nat.le_of_not_lt hexists)] at hevaluated
      exact absurd hevaluated hpending
  | listed => exact absurd hevaluated hpending

/-- All imports are linked to sources that there were, if at all. -/
theorem Amends.targets (h : m.Amends exports n) (hm : m.Consistent) (c : ContextRef) :
    ∀ i ∈ (n.context c).imports, ∀ module, i.target = some module →
      module.context.index < m.contexts.size := by
  let P : ContextRef → Context → Prop := fun _ source ↦
    ∀ i ∈ source.imports, ∀ module, i.target = some module →
      module.context.index < m.contexts.size
  cases h with
  | elsewhere h =>
    rw [h.context]
    exact hm.targets c
  | source _ hunlinked =>
    refine forall_withSource (P := P) hm.targets (fun i hi module htarget ↦ ?_) c
    simp [hunlinked i hi] at htarget
  | hosted =>
    rw [context_hosting]
    split
    · exact fun i hi ↦ absurd hi (Array.not_mem_empty i)
    · exact hm.targets c
  | revised h =>
    refine forall_withContext (P := P) hm.targets (fun i hi ↦ ?_) c
    rcases h.targets i hi with hi | hi
    · exact hm.targets _ i hi
    · exact hi
  | listed => exact hm.targets c

/-- The sources that are led to exist. -/
theorem Amends.consistent (h : m.Amends exports n) (hm : m.Consistent) : n.Consistent where
  loaded c hc := by
    have hold (hc : c ∈ m.loaded) : c.index < n.contexts.size :=
      Nat.lt_of_lt_of_le (hm.loaded c hc) h.size
    cases h with
    | elsewhere h => exact hold (h.loaded ▸ hc)
    | listed hexists =>
      rcases Array.mem_push.mp hc with hc | rfl
      · exact hold hc
      · exact hexists
    | hosted =>
      rcases Array.mem_push.mp hc with hc | rfl
      · exact hold hc
      · exact Nat.lt_of_lt_of_le (Nat.lt_succ_self _) (Nat.le_of_eq (size_hosting ..).symm)
    | source | revised => exact hold hc
  targets c i hi module htarget := Nat.lt_of_lt_of_le (h.targets hm c i hi module htarget) h.size
  evaluating c hc := by
    rw [h.evaluating] at hc
    exact Nat.lt_of_lt_of_le (hm.evaluating c hc) h.size
  distinct := by
    rw [h.evaluating]
    exact hm.distinct

/-- Imports of one source go by different names. -/
theorem Amends.distinctKeys (h : m.Amends exports n) (hm : ∀ c, (m.context c).DistinctKeys)
    (c : ContextRef) : (n.context c).DistinctKeys := by
  cases h with
  | elsewhere h =>
    rw [h.context]
    exact hm c
  | source _ _ hkeys => exact forall_withSource (P := fun _ c ↦ c.DistinctKeys) hm hkeys c
  | hosted =>
    rw [context_hosting]
    split
    · exact .nil
    · exact hm c
  | revised h => exact forall_withContext (P := fun _ c ↦ c.DistinctKeys) hm (h.keys (hm _)) c
  | listed => exact hm c

/-- Where no source exports more, modules of one source have different names. -/
theorem Amends.distinctNames (h : m.Amends false n) (hm : ∀ c, (m.context c).DistinctNames)
    (c : ContextRef) : (n.context c).DistinctNames := by
  cases h with
  | elsewhere h =>
    rw [h.context]
    exact hm c
  | source _ _ _ hnames => exact forall_withSource (P := fun _ c ↦ c.DistinctNames) hm hnames c
  | hosted =>
    rw [context_hosting]
    split
    · exact List.pairwise_singleton ..
    · exact hm c
  | revised h =>
    refine forall_withContext (P := fun _ c ↦ c.DistinctNames) hm ?_ c
    unfold Context.DistinctNames
    rw [h.names rfl]
    exact hm _
  | listed => exact hm c

/-! ### What any number of changes keeps -/

namespace Amended

theorem refl (m : Machine) : m.Amended exports m := Relation.ReflTransGen.refl

theorem of_amends (h : m.Amends exports n) : m.Amended exports n := .single h

theorem size (h : m.Amended exports n) : m.contexts.size ≤ n.contexts.size := by
  induction h with
  | refl => exact Nat.le_refl _
  | tail _ h ih => exact Nat.le_trans ih h.size

theorem evaluating (h : m.Amended exports n) : n.evaluating = m.evaluating := by
  induction h with
  | refl => rfl
  | tail _ h ih => exact h.evaluating.trans ih

theorem loaded (h : m.Amended exports n) (hc : c ∈ m.loaded) : c ∈ n.loaded := by
  induction h with
  | refl => exact hc
  | tail _ h ih => exact h.loaded ih

theorem hosts (h : m.Amended exports n) (hc : m.Hosts c) : n.Hosts c := by
  induction h with
  | refl => exact hc
  | tail _ h ih => exact h.hosts ih

theorem consistent (h : m.Amended exports n) (hm : m.Consistent) : n.Consistent := by
  induction h with
  | refl => exact hm
  | tail _ h ih => exact h.consistent ih

theorem same (h : m.Amended exports n) (hold : c.index < m.contexts.size) :
    { n.context c with
      imports := (m.context c).imports, modules := (m.context c).modules } = m.context c := by
  induction h with
  | refl => rfl
  | tail hformer h ih =>
    have hlast := h.same (Nat.lt_of_lt_of_le hold (size hformer))
    rw [← hlast] at ih
    exact ih

theorem body (h : m.Amended exports n) (hold : c.index < m.contexts.size) :
    (n.context c).body = (m.context c).body := by
  rw [← h.same hold]

theorem evaluated (h : m.Amended exports n) (hold : c.index < m.contexts.size) :
    (n.context c).evaluated = (m.context c).evaluated := by
  rw [← h.same hold]

theorem made (h : m.Amended exports n) (hnew : m.contexts.size ≤ c.index)
    (hevaluated : (n.context c).evaluated = true) : n.Hosts c ∧ (n.context c).body = [] := by
  induction h with
  | refl =>
    rw [context_of_missing hnew] at hevaluated
    exact absurd hevaluated Bool.false_ne_true
  | @tail k n _ h ih =>
    by_cases hold : c.index < k.contexts.size
    · have hsame := of_amends h
      rw [hsame.evaluated hold] at hevaluated
      obtain ⟨hhosts, hbody⟩ := ih hevaluated
      exact ⟨h.hosts hhosts, (hsame.body hold).trans hbody⟩
    · exact h.made (Nat.le_of_not_lt hold) hevaluated

theorem names (h : m.Amended false n) (hold : c.index < m.contexts.size) :
    (n.context c).exported = (m.context c).exported := by
  induction h with
  | refl => rfl
  | tail hformer h ih => exact (h.names (Nat.lt_of_lt_of_le hold (size hformer))).trans ih

theorem distinctKeys (h : m.Amended exports n) (hm : ∀ c, (m.context c).DistinctKeys) :
    ∀ c, (n.context c).DistinctKeys := by
  induction h with
  | refl => exact hm
  | tail _ h ih => exact h.distinctKeys ih

theorem distinctNames (h : m.Amended false n) (hm : ∀ c, (m.context c).DistinctNames) :
    ∀ c, (n.context c).DistinctNames := by
  induction h with
  | refl => exact hm
  | tail _ h ih => exact h.distinctNames ih

end Amended

end Machine

/-! ### What amends the sources -/

namespace Session

open Machine

variable {α : Type} {exports : Bool} {m n : Machine} {c : ContextRef}

/-- A computation amends the sources if it leaves an amended machine behind wherever it is run on an
amended one. -/
def Amending (exports : Bool) (x : Run α) : Prop :=
  ∀ m : Machine, m.Consistent → Spares (m.Amended exports) x

namespace Amending

theorem final {x : Run α} (h : Amending exports x) (hm : m.Consistent) :
    m.Amended exports (Outcome.final (x m)) :=
  (h m hm).final (.refl m)

/-- What amends the sources of any machine that it is run on does so further on, too. -/
theorem of_final {x : Run α}
    (h : ∀ m : Machine, m.Consistent → m.Amended exports (Outcome.final (x m))) :
    Amending exports x :=
  fun _ hm _ hn ↦ .of_final (hn.trans (h _ (hn.consistent hm)))

/-- What does nothing to the sources. -/
theorem elsewhere {x : Run α} (h : ∀ m : Machine, m.SameSources (Outcome.final (x m))) :
    Amending exports x :=
  of_final fun m _ ↦ .of_amends (.elsewhere (h m))

theorem logVerbose (text : String) : Amending exports (logVerbose text) :=
  elsewhere (sameSources_logVerbose text)

/-- An import that is not linked is added. -/
theorem addImport (c : ContextRef) {i : Import} (hunlinked : i.target = none) :
    Amending exports (addImport c i) := by
  refine of_final fun m _ ↦ ?_
  rw [addImport_apply]
  by_cases hknown : Declarations.hasImport (m.context c).imports i.key = true
  · rw [if_pos hknown]
    exact .refl m
  · rw [if_neg hknown]
    exact .of_amends (.revised (Context.revises_import hunlinked (Bool.not_eq_true _ ▸ hknown)))

/-- Assumes: a source that exists. It is entered in the list of loaded sources. -/
theorem enlist (hexists : c.index < m.contexts.size) (automatic : List String)
    (message : Nat → String) (hm : m.Consistent) :
    Spares (m.Amended exports) (enlist c automatic message) := by
  have hlisted : Spares (m.Amended exports)
      (modify fun m : Machine ↦ { m with loaded := m.loaded.push c } : Run Unit) :=
    .of_modify fun n hn ↦ hn.tail (.listed (Nat.lt_of_lt_of_le hexists hn.size))
  refine Spares.bind (Spares.forIn (fun text _ _ ↦ ?_) _) fun _ ↦ hlisted.bind fun _ ↦
    .get_bind fun _ _ ↦ (logVerbose _ m hm).bind fun _ ↦ .pure trivial
  refine (Maintains.ofSource _).bind fun i hparse ↦ ?_
  exact (addImport c (Import.target_of_parse hparse) m hm).bind fun _ ↦ .pure trivial

theorem loadSource (source : String) (statements : List Node) (isUser : Bool) :
    Amending exports (loadSource source statements isUser) := by
  refine of_final fun m hm ↦ ?_
  cases hcollect : Declarations.collect source (if isUser then m.options.forbiddenImports else [])
      statements with
  | error e =>
    rw [loadSource_error hcollect]
    exact .refl m
  | ok declared =>
    rw [loadSource_ok hcollect]
    have hmade : m.Amends exports (m.withSource { debugValues := m.options.traceValues }
        (sourceOf m source declared)) :=
      .source rfl (fun i hi ↦ ((Declarations.of_collect hcollect).imports i hi).1)
        (Declarations.distinct_of_collect hcollect) (Declarations.distinctNames_of_collect hcollect)
    have hexists : m.contexts.size < (m.withSource { debugValues := m.options.traceValues }
        (sourceOf m source declared)).contexts.size := by
      rw [size_withSource]
      exact Nat.lt_succ_self _
    exact .head hmade ((enlist hexists _ _ (hmade.consistent hm)).final (.refl _))

/-! ### Linking -/

/-- A machine on which some imports of a source have been linked. The source has imports of the same
names in the same order, and no source has been loaded. -/
structure Relinks (exports : Bool) (c : ContextRef) (m n : Machine) : Prop where
  amended : m.Amended exports n
  size : n.contexts.size = m.contexts.size
  loaded : n.loaded = m.loaded
  keys : (n.context c).imports.toList.map (·.key) = (m.context c).imports.toList.map (·.key)

/-- An import goes by its name at its place. -/
theorem Relinks.key (h : Relinks exports c m n) {place : Nat} {i j : Import}
    (hi : (m.context c).imports[place]? = some i) (hj : (n.context c).imports[place]? = some j) :
    j.key = i.key := by
  have hsame := congrArg (·[place]?) h.keys
  rw [List.getElem?_map, List.getElem?_map, Array.getElem?_toList, Array.getElem?_toList, hi, hj]
    at hsame
  exact Option.some.inj hsame

/-- An import is linked to a module of a source that exists. -/
theorem Relinks.setImport (h : Relinks exports c m n) {place : Nat} {i j : Import}
    (hi : (m.context c).imports[place]? = some i) (hkey : j.key = i.key)
    (htarget : ∀ module, j.target = some module → module.context.index < m.contexts.size) :
    Relinks exports c m (n.withContext c fun source ↦
      { source with imports := source.imports.setIfInBounds place j }) := by
  have hsame (k : Import) (hk : (n.context c).imports[place]? = some k) : k.key = j.key :=
    (h.key hi hk).trans hkey.symm
  have hrevised : (n.context c).Revises exports n.contexts.size
      { n.context c with imports := (n.context c).imports.setIfInBounds place j } :=
    Context.revises_link hsame (h.size ▸ htarget)
  refine ⟨h.amended.tail (.revised hrevised), (size_withContext ..).trans h.size, h.loaded, ?_⟩
  exact forall_withContext
    (P := fun d source ↦ d = c →
      source.imports.toList.map (·.key) = (m.context c).imports.toList.map (·.key))
    (fun d hd ↦ hd ▸ h.keys) (fun _ ↦ (Context.keys_setIfInBounds hsame).trans h.keys) c rfl

/-- The module that an import is linked to is found among the loaded sources. -/
theorem maintains_linked (hm : m.Consistent) {place : Nat} {i : Import}
    (hi : (m.context c).imports[place]? = some i) :
    Maintains (Relinks exports c m) (fun j ↦ j.key = i.key ∧
      ∀ module, j.target = some module → module.context.index < m.contexts.size) (linked i) := by
  refine .ite (fun _ ↦ .pure ⟨rfl, ?_⟩) fun _ ↦ .get_bind fun n hn ↦ ?_
  · exact hm.targets c i (Array.mem_of_getElem? hi)
  · split
    · rename_i ref hfound
      refine .pure ⟨rfl, fun module htarget ↦ ?_⟩
      obtain rfl : ref = module := Option.some.inj htarget
      exact hm.loaded _ (hn.loaded ▸ (of_module? hfound).1)
    · exact .throw _

theorem linkContext (c : ContextRef) : Amending exports (linkContext c) := by
  refine of_final fun m hm ↦ ?_
  have hpass {i : Import} {place : Nat} (hi : (m.context c).imports[place]? = some i) :
      Spares (Relinks exports c m) (do
        let i ← linked i
        modifyContext c fun c => { c with imports := c.imports.setIfInBounds place i }) :=
    (maintains_linked hm hi).bind fun _ hlinked ↦
      .of_modify fun _ hn ↦ hn.setImport hi hlinked.1 hlinked.2
  have hloop : Spares (Relinks exports c m) (do
      for listed in (m.context c).imports.toList.zipIdx do
        let i ← linked listed.1
        modifyContext c fun c => { c with imports := c.imports.setIfInBounds listed.2 i }) := by
    refine Spares.bind (Spares.forIn (fun listed hmem _ ↦ ?_) _) fun _ ↦ .pure trivial
    have hi := List.mem_zipIdx_iff_getElem?.mp hmem
    rw [Array.getElem?_toList] at hi
    have hlink := (hpass hi).bind fun _ ↦ Spares.pure (ForInStep.yield PUnit.unit)
    rwa [bind_assoc] at hlink
  exact (hloop.final (m := m) ⟨.refl m, rfl, rfl, rfl⟩).amended

theorem link : Amending exports link := fun m hm ↦ .get_bind fun _ _ ↦
  Spares.bind (Spares.forInArray (fun c _ _ ↦
    (linkContext c m hm).bind fun _ ↦ .pure trivial) _) fun _ ↦ .pure trivial

/-! ### Registering types -/

/-- A host type becomes a symbol of a source. -/
theorem registerSymbol (c : ContextRef) (module name : String) (shape : HostShape) :
    Amending exports (do
      let type : HostType := { stamp := ← newStamp, module, name, shape }
      setVariable c name (← alloc (.hostType type))
      modifyContext c fun c =>
        { c with modules := c.modules.modify 0 fun module =>
            if module.symbols.contains name then module
            else { module with symbols := module.symbols ++ [name] } }) := by
  have hstamp : Amending exports newStamp := elsewhere fun _ ↦ rfl
  have hcell (content : Content) : Amending exports (alloc content) := elsewhere fun _ ↦ rfl
  have hbound (cell : CellRef) : Amending exports (setVariable c name cell) := elsewhere fun _ ↦ rfl
  intro m hm
  refine (hstamp m hm).bind fun _ ↦ (hcell _ m hm).bind fun cell ↦
    (hbound cell m hm).bind fun _ ↦ ?_
  exact .of_modify fun n hn ↦ hn.tail (.revised (Context.revises_symbol name))

/-- A source is made for the module of a host type, and what comes next goes on with it. -/
theorem hosting_bind (module : String) (rest : ContextRef → Run α) (m : Machine) : (do
    let context ← newContext module []
    modifyContext context fun c =>
      { c with modules := #[{ name := module, symbols := [] }], evaluated := true }
    modify fun m =>
      { m with
        hostModules := (module, context) :: m.hostModules, loaded := m.loaded.push context }
    let context ← pure context
    rest context : Run α) m = rest ⟨m.contexts.size⟩ (m.hosting module) := by
  rw [Run.bind_ok (newContext_apply module [] m), Run.bind_ok (modifyContext_apply _ _ _),
    withContext_withSource]
  rfl

theorem registerType (module name : String) (shape : HostShape) :
    Amending exports (registerType module name shape) := by
  intro m hm
  unfold Session.registerType
  refine Spares.check (.fail _) ?_
  refine Spares.check (.fail _) ?_
  refine .get_bind fun k hk ↦ ?_
  dsimp only
  split
  · rw [pure_bind]
    exact registerSymbol _ module name shape m hm
  · intro n hn
    rw [hosting_bind]
    exact registerSymbol _ module name shape m hm _ (hn.tail .hosted)

end Amending

end Session

end TreeScript
