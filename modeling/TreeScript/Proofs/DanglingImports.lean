import TreeScript.Proofs.ClosedModules

/-!
# Refused imports

A step whose declarations are refused while they are collected leaves the session as it is
(`collecting_changes_nothing`). Later refusals come too late: by then an import has been entered in
a loaded source, or its source in the list, and an import of a module that no source exports stays
there (`evaluateIn_leaves_import`, `evaluate_leaves_import`). All sources are linked at once, so
from then on every step that links fails (`Machine.Dangling`, `link`), until a source is loaded that
exports the module. `refused_import_stays` puts this together.

Linking and loading fail in one way, with a fault of a source. `Attempts I Q x` is `Maintains I Q x`
for computations that fail in no other way, and `Refuses I x` says that `x` does fail.
-/

set_option autoImplicit false

namespace TreeScript

/-- A machine in which a source has one import more. -/
def Machine.withImport (m : Machine) (target : ContextRef) (i : Import) : Machine :=
  m.withContext target fun c ↦ { c with imports := c.imports.push i }

/-- A machine on which one more source is listed as loaded. -/
def Machine.listing (m : Machine) (target : ContextRef) : Machine :=
  { m with loaded := m.loaded.push target }

/-- No loaded source has a module of a name. -/
def Machine.Unexported (m : Machine) (name : String) : Prop :=
  ∀ ref ∈ m.loaded, ∀ module ∈ (m.context ref).modules, module.name ≠ name

namespace Machine

variable {m : Machine} {context : ContextRef}

/-- A source that exists has one import more. -/
theorem imports_withImport (m : Machine) (hexists : context.index < m.contexts.size) (j : Import) :
    ((m.withImport context j).context context).imports = (m.context context).imports.push j := by
  unfold withImport
  rw [context_withContext hexists, if_pos rfl]

/-- One import more exports nothing. -/
theorem Unexported.withImport {name : String} (h : m.Unexported name)
    (hexists : context.index < m.contexts.size) (j : Import) :
    (m.withImport context j).Unexported name := by
  intro ref href module hmodule
  unfold Machine.withImport at hmodule
  rw [context_withContext hexists] at hmodule
  split at hmodule
  · rename_i hsame
    exact h ref href module (hsame ▸ hmodule)
  · exact h ref href module hmodule

end Machine

namespace Session

open Lookup Enclosure

/-- What holds after a computation that keeps an invariant and fails only with a fault of a
source. -/
inductive Attempted {α : Type} (I : Machine → Prop) (Q : α → Prop) : Outcome α → Prop
  | ok {a : α} {m : Machine} (hm : I m) (ha : Q a) : Attempted I Q (.ok a m)
  | refused {m : Machine} (e : SourceError) (hm : I m) : Attempted I Q (.error e.failure m)

/-- A computation keeps an invariant, gives only values with a property, and fails only with a fault
of a source. -/
def Attempts {α : Type} (I : Machine → Prop) (Q : α → Prop) (x : Run α) : Prop :=
  ∀ m, I m → Attempted I Q (x m)

/-- A computation keeps an invariant and fails with a fault of a source. -/
def Refuses {α : Type} (I : Machine → Prop) (x : Run α) : Prop := Attempts I (fun _ ↦ False) x

namespace Attempted

variable {α β : Type} {I : Machine → Prop} {Q : α → Prop} {R : β → Prop}

/-- What comes behind a computation that was attempted is attempted where it gave a value. -/
theorem bind {x : Run α} {f : α → Run β} {m : Machine} (hfirst : Attempted I Q (x m))
    (hrest : ∀ a, Q a → Attempts I R (f a)) : Attempted I R ((x >>= f) m) := by
  cases hx : x m with
  | ok a n =>
    rw [Run.bind_ok hx]
    rw [hx] at hfirst
    cases hfirst with
    | ok hn ha => exact hrest a ha n hn
  | error e n =>
    rw [Run.bind_error hx]
    rw [hx] at hfirst
    cases hfirst with
    | refused fault hn => exact .refused fault hn

/-- What gives no value has failed. -/
theorem refusal {o : Outcome α} (h : Attempted I (fun _ ↦ False) o) :
    ∃ (e : SourceError) (n : Machine), o = .error e.failure n ∧ I n := by
  cases h with
  | ok _ hnever => exact hnever.elim
  | refused e hn => exact ⟨e, _, rfl, hn⟩

/-- The invariant holds on the machine that is left behind. -/
theorem final {o : Outcome α} (h : Attempted I Q o) : I o.final := by
  cases h with
  | ok hn _ => exact hn
  | refused _ hn => exact hn

end Attempted

namespace Attempts

variable {α β : Type} {I : Machine → Prop} {Q : α → Prop} {R : β → Prop} {x : Run α}

theorem pure {a : α} (h : Q a) : Attempts I Q (Pure.pure a) := fun _ hm ↦ .ok hm h

theorem refuse (e : SourceError) : Attempts I Q (throw e.failure) := fun _ hm ↦ .refused e hm

theorem bind {f : α → Run β} (hfirst : Attempts I Q x) (hrest : ∀ a, Q a → Attempts I R (f a)) :
    Attempts I R (x >>= f) :=
  fun m hm ↦ (hfirst m hm).bind hrest

theorem get_bind {f : Machine → Run α} (h : ∀ m, I m → Attempts I Q (f m)) :
    Attempts I Q (get >>= f) :=
  fun m hm ↦ h m hm m hm

theorem of_modify {change : Machine → Machine} (h : ∀ m, I m → I (change m)) :
    Attempts I (fun _ ↦ True) (modify change) :=
  fun m hm ↦ .ok (h m hm) trivial

theorem mono {Q' : α → Prop} (h : Attempts I Q x) (hQ : ∀ a, Q a → Q' a) : Attempts I Q' x := by
  have hrest : Attempts I Q' (x >>= Pure.pure) := h.bind fun a ha ↦ pure (hQ a ha)
  rwa [bind_pure] at hrest

theorem ofSource (result : Except SourceError α) :
    Attempts I (fun a ↦ result = .ok a) (Run.ofSource result) := by
  cases result with
  | ok a => exact pure rfl
  | error e => exact refuse e

/-- A loop over all elements keeps what every pass keeps. -/
theorem each {body : β → PUnit → Run (ForInStep PUnit)} {xs : List β}
    (h : ∀ b ∈ xs, Attempts I (· = .yield ⟨⟩) (body b ⟨⟩)) :
    Attempts I (fun _ ↦ True) (forIn xs ⟨⟩ body) := by
  induction xs with
  | nil => exact pure trivial
  | cons b bs ih =>
    rw [List.forIn_cons]
    refine (h b (List.mem_cons_self ..)).bind fun step hstep ↦ ?_
    rw [hstep]
    exact ih fun c hc ↦ h c (List.mem_cons_of_mem _ hc)

/-- A loop over all elements fails if one of its passes does. -/
theorem each_refuses {body : β → PUnit → Run (ForInStep PUnit)} {xs : List β}
    (h : ∀ b ∈ xs, Attempts I (· = .yield ⟨⟩) (body b ⟨⟩)) {b : β} (hb : b ∈ xs)
    (hrefuses : Refuses I (body b ⟨⟩)) : Refuses I (forIn xs ⟨⟩ body) := by
  induction xs with
  | nil => cases hb
  | cons c cs ih =>
    rw [List.forIn_cons]
    rcases List.mem_cons.mp hb with rfl | hmem
    · exact Attempts.bind hrefuses fun _ hnever ↦ hnever.elim
    · refine (h c (List.mem_cons_self ..)).bind fun step hstep ↦ ?_
      rw [hstep]
      exact ih (fun d hd ↦ h d (List.mem_cons_of_mem _ hd)) hmem

end Attempts

namespace Refuses

variable {α β : Type} {I : Machine → Prop} {x : Run α}

/-- What comes behind a failure does not matter. -/
theorem bind (h : Refuses I x) (f : α → Run β) : Refuses I (x >>= f) :=
  Attempts.bind h fun _ hnever ↦ hnever.elim

theorem apply (h : Refuses I x) {m : Machine} (hm : I m) :
    ∃ (e : SourceError) (n : Machine), x m = .error e.failure n ∧ I n :=
  (h m hm).refusal

end Refuses

/-! ### An import that cannot be linked -/

/-- A loaded source has, at a place among its imports, one that is not linked, and no loaded source
has a module of that name. -/
structure Dangling (m : Machine) (context : ContextRef) (place : Nat) (i : Import) : Prop where
  loaded : context ∈ m.loaded
  imported : (m.context context).imports[place]? = some i
  unlinked : i.target = none
  missing : m.Unexported i.name

variable {m : Machine} {context : ContextRef} {place : Nat} {i : Import}

namespace Dangling

theorem module?_eq_none (h : Dangling m context place i) : module? m i.name = none := by
  cases hfound : module? m i.name with
  | none => rfl
  | some ref =>
    obtain ⟨hloaded, module, hmodule, hnamed⟩ := of_module? hfound
    exact absurd hnamed (h.missing _ hloaded module hmodule)

/-- A source that has an import exists. -/
theorem exists_context (h : Dangling m context place i) : context.index < m.contexts.size := by
  refine Nat.lt_of_not_le fun hnone ↦ ?_
  have himported := h.imported
  rw [Machine.context_of_missing hnone] at himported
  cases himported

/-- A change of a source that leaves this import where it is, and makes no module of that name, is
nothing to it. -/
theorem withContext (h : Dangling m context place i) {target : ContextRef}
    {change : Context → Context}
    (himports : target = context → ∀ c : Context, c.imports[place]? = some i →
      (change c).imports[place]? = some i)
    (hmodules : ∀ c : Context, ∀ module ∈ (change c).modules, module ∈ c.modules ∨
      module.name ≠ i.name) :
    Dangling (m.withContext target change) context place i := by
  by_cases hexists : target.index < m.contexts.size
  · refine ⟨h.loaded, ?_, h.unlinked, fun ref href module hmodule ↦ ?_⟩
    · rw [Machine.context_withContext hexists]
      split
      · rename_i hsame
        subst hsame
        exact himports rfl _ h.imported
      · exact h.imported
    · rw [Machine.context_withContext hexists] at hmodule
      split at hmodule
      · rename_i hsame
        subst hsame
        rcases hmodules _ module hmodule with hformer | hother
        · exact h.missing ref href module hformer
        · exact hother
      · exact h.missing ref href module hmodule
  · have hsame : m.withContext target change = m := by
      unfold Machine.withContext
      have hcontexts : m.contexts.modify target.index change = m.contexts := by
        refine Array.ext_getElem? fun k ↦ ?_
        rw [Array.getElem?_modify]
        split
        · rename_i hk
          rw [← hk, Array.getElem?_eq_none (Nat.le_of_not_lt hexists)]
          rfl
        · rfl
      rw [hcontexts]
    rw [hsame]
    exact h

/-! ### Linking -/

/-- Linking the import itself fails, and the link of another one is entered elsewhere. -/
theorem linkAt {target : ContextRef} {j : Import} {k : Nat}
    (hplace : target = context → k = place → j = i) :
    Attempts (Dangling · context place i)
      (fun step ↦ step = .yield ⟨⟩ ∧ ¬(target = context ∧ k = place)) (do
        let j ← linked j
        modifyContext target fun c => { c with imports := c.imports.setIfInBounds k j }
        return ForInStep.yield PUnit.unit) := by
  by_cases hsame : target = context ∧ k = place
  · obtain rfl := hplace hsame.1 hsame.2
    intro m hm
    have hlinked : linked j m =
        .error (SourceError.missingModule j.name (moduleNames m)).failure m := by
      unfold linked
      rw [if_neg (by rw [hm.unlinked]; exact Bool.false_ne_true), Run.get_bind, hm.module?_eq_none]
      rfl
    rw [Run.bind_error hlinked]
    exact .refused _ hm
  · have hlinked : Attempts (Dangling · context place i) (fun _ ↦ True) (linked j) := by
      unfold linked
      split
      · exact .pure trivial
      · refine .get_bind fun m _ ↦ ?_
        split
        · exact .pure trivial
        · exact .refuse _
    refine hlinked.bind fun j' _ ↦ (Attempts.of_modify fun m hm ↦ ?_).bind fun _ _ ↦
      .pure ⟨rfl, hsame⟩
    refine hm.withContext (fun htarget c hc ↦ ?_) fun c module hmodule ↦ .inl hmodule
    have hk : k ≠ place := fun hk ↦ hsame ⟨htarget, hk⟩
    change (c.imports.setIfInBounds k j')[place]? = some i
    rw [Array.getElem?_setIfInBounds_ne hk]
    exact hc

/-- Linking the source of the import fails, and linking another source changes nothing about it. -/
theorem linkContext (target : ContextRef) :
    Attempts (Dangling · context place i) (fun _ ↦ target ≠ context) (linkContext target) := by
  refine .get_bind fun m hm ↦ ?_
  have hplace : ∀ jk ∈ (m.context target).imports.toList.zipIdx, target = context →
      jk.2 = place → jk.1 = i := by
    rintro ⟨j, k⟩ hmem rfl rfl
    have hj := List.mem_zipIdx_iff_getElem?.mp hmem
    rw [Array.getElem?_toList, hm.imported] at hj
    exact (Option.some.inj hj).symm
  by_cases hsame : target = context
  · subst hsame
    have hmem : (i, place) ∈ (m.context target).imports.toList.zipIdx := by
      rw [List.mem_zipIdx_iff_getElem?, Array.getElem?_toList]
      exact hm.imported
    refine Attempts.mono (Refuses.bind (Attempts.each_refuses
      (fun jk hjk ↦ (linkAt (hplace jk hjk)).mono fun _ h ↦ h.1) hmem ?_) _)
      fun _ hnever ↦ hnever.elim
    exact (linkAt fun _ _ ↦ rfl).mono fun _ h ↦ h.2 ⟨rfl, rfl⟩
  · exact (Attempts.each fun jk hjk ↦ (linkAt (hplace jk hjk)).mono fun _ h ↦ h.1).bind
      fun _ _ ↦ .pure hsame

/-- Linking fails. -/
theorem link : Refuses (Dangling · context place i) link := by
  refine .get_bind fun m hm ↦ ?_
  rw [← Array.forIn_toList]
  refine Refuses.bind (Attempts.each_refuses (fun target _ ↦ ?_)
    (Array.mem_def.mp hm.loaded) ?_) _
  · exact (linkContext target).bind fun _ _ ↦ .pure rfl
  · exact (linkContext context).bind fun _ hother ↦ (hother rfl).elim

/-! ### Steps -/

/-- What does not change the sources is nothing to the import. -/
theorem sameWork (h : Dangling m context place i) {n : Machine} (hsame : m.SameWork n) :
    Dangling n context place i := by
  rw [← hsame.same]
  exact ⟨h.loaded, h.imported, h.unlinked, h.missing⟩

theorem logVerbose (text : String) :
    Attempts (Dangling · context place i) (fun _ ↦ True) (logVerbose text) := by
  intro m hm
  obtain ⟨n, hlogged, hsame⟩ := logVerbose_apply text m
  rw [hlogged]
  exact .ok (hm.sameWork hsame) trivial

theorem requireContext (source : String) :
    Attempts (Dangling · context place i) (fun _ ↦ True) (requireContext source) := by
  refine .get_bind fun m _ ↦ ?_
  split
  · exact .pure trivial
  · exact .refuse _

theorem run (source : String) : Refuses (Dangling · context place i) (run source) :=
  (requireContext source).bind fun _ _ ↦ link.bind _

theorem runAll : Refuses (Dangling · context place i) runAll := link.bind _

/-- Another import behind the others is nothing to the import. -/
theorem withImport (h : Dangling m context place i) (target : ContextRef) (j : Import) :
    Dangling (m.withImport target j) context place i := by
  refine h.withContext (fun _ c hc ↦ ?_) fun c module hmodule ↦ .inl hmodule
  have hplace : place ≠ c.imports.size := Nat.ne_of_lt (Array.getElem?_eq_some_iff.mp hc).1
  change (c.imports.push j)[place]? = some i
  rw [Array.getElem?_push, if_neg hplace]
  exact hc

/-- A new source that does not export the module is nothing to the import. -/
theorem withSource (h : Dangling m context place i) (trace : StackTrace) {source : Context}
    (hmodules : ∀ module ∈ source.modules, module.name ≠ i.name) :
    Dangling (m.withSource trace source) context place i := by
  refine ⟨h.loaded, ?_, h.unlinked, fun ref href module hmodule ↦ ?_⟩
  · rw [Machine.context_withSource, if_neg (Nat.ne_of_lt h.exists_context)]
    exact h.imported
  · rw [Machine.context_withSource] at hmodule
    split at hmodule
    · exact hmodules module hmodule
    · exact h.missing ref href module hmodule

/-- Listing a source that does not export the module is nothing to the import. -/
theorem listing (h : Dangling m context place i) {target : ContextRef}
    (hmodules : ∀ module ∈ (m.context target).modules, module.name ≠ i.name) :
    Dangling (m.listing target) context place i := by
  refine ⟨Array.mem_push_of_mem _ h.loaded, h.imported, h.unlinked,
    fun ref href module hmodule ↦ ?_⟩
  rcases Array.mem_push.mp href with href | rfl
  · exact h.missing ref href module hmodule
  · exact hmodules module hmodule

end Dangling

/-! ### Adding imports -/

/-- An import is added unless another one goes by the name. -/
theorem addImport_apply (target : ContextRef) (j : Import) (m : Machine) :
    addImport target j m =
      if Declarations.hasImport (m.context target).imports j.key then .ok false m
      else .ok true (m.withImport target j) := by
  unfold addImport
  rw [Run.get_bind]
  split <;> rfl

/-- Assumes: something that further imports of a source do not change. The automatic imports are
added, or one of them is refused, and it is as before. -/
theorem automatic_apply {J : Machine → Prop} {target : ContextRef}
    (hJ : ∀ m j, J m → J (m.withImport target j)) (automatic : List String) {m : Machine}
    (hm : J m) :
    (∃ n, (forIn automatic PUnit.unit fun text _ ↦ do
        let i ← Run.ofSource (Import.parse text)
        let _ ← addImport target i
        return .yield PUnit.unit) m = .ok PUnit.unit n ∧ J n) ∨
      ∃ text ∈ automatic, ∃ e n, Import.parse text = .error e ∧
        (forIn automatic PUnit.unit fun text _ ↦ do
          let i ← Run.ofSource (Import.parse text)
          let _ ← addImport target i
          return .yield PUnit.unit) m = .error e.failure n ∧ J n := by
  induction automatic generalizing m with
  | nil => exact .inl ⟨m, rfl, hm⟩
  | cons text texts ih =>
    rw [List.forIn_cons]
    cases hparse : Import.parse text with
    | error e => exact .inr ⟨text, List.mem_cons_self .., e, m, hparse, rfl, hm⟩
    | ok j =>
      obtain ⟨added, k, hadded, hk⟩ : ∃ added k, addImport target j m = .ok added k ∧ J k := by
        rw [addImport_apply]
        split
        · exact ⟨false, m, rfl, hm⟩
        · exact ⟨true, m.withImport target j, rfl, hJ m j hm⟩
      have hpass : (do
          let i ← Run.ofSource (.ok j)
          let _ ← addImport target i
          return ForInStep.yield PUnit.unit : Run (ForInStep PUnit)) m = .ok (.yield ⟨⟩) k := by
        have hgiven : Run.ofSource (.ok j) m = .ok j m := rfl
        rw [Run.bind_ok hgiven, Run.bind_ok hadded]
        rfl
      rw [Run.bind_ok hpass]
      rcases ih hk with ⟨n, hrest, hn⟩ | ⟨other, hmem, e, n, hother, hrest, hn⟩
      · exact .inl ⟨n, hrest, hn⟩
      · exact .inr ⟨other, List.mem_cons_of_mem _ hmem, e, n, hother, hrest, hn⟩

/-- What statements declare exports no module that they do not export. -/
theorem name_ne_of_exportsNothing {statements : List Node} {forbidden : List String}
    {declared : Declarations} (h : declared.Among statements forbidden) {name : String}
    (hexports : ExportsNothing name statements) :
    ∀ module ∈ declared.modules, module.name ≠ name := by
  rintro module hmem rfl
  exact hexports module.symbols (h.modules module hmem)

/-! ### Steps on a session with such an import -/

namespace Dangling

/-- A source that is made, and does not export the module, is listed or refused. -/
theorem enlist (h : Dangling m context place i) {target : ContextRef}
    (hlisting : Dangling (m.listing target) context place i) (automatic : List String)
    (message : Nat → String) :
    Attempted (Dangling · context place i) (fun _ ↦ True) (enlist target automatic message m) := by
  unfold Session.enlist
  have hkept (n : Machine) (j : Import)
      (hn : Dangling n context place i ∧ Dangling (n.listing target) context place i) :
      Dangling (n.withImport target j) context place i ∧
        Dangling ((n.withImport target j).listing target) context place i :=
    ⟨hn.1.withImport target j, hn.2.withImport target j⟩
  rcases automatic_apply hkept automatic ⟨h, hlisting⟩ with
    ⟨n, hadded, -, hn⟩ | ⟨-, -, e, n, -, hrefused, hn, -⟩
  · rw [Run.bind_ok hadded]
    have hlisted :
        (modify fun m : Machine ↦ { m with loaded := m.loaded.push target } : Run Unit) n =
        .ok () (n.listing target) := rfl
    rw [Run.bind_ok hlisted]
    exact Attempts.get_bind (fun _ _ ↦ (logVerbose _).bind fun _ _ ↦ .pure trivial) _ hn
  · rw [Run.bind_error hrefused]
    exact .refused e hn

/-- Assumes: a source that does not export the module. It is loaded, or it is refused. -/
theorem load {source : String} {statements : List Node}
    (hexports : ExportsNothing i.name statements) :
    Attempts (Dangling · context place i) (fun _ ↦ True) (load source statements) := by
  intro m hm
  unfold Session.load
  cases hcollect : Declarations.collect source m.options.forbiddenImports statements with
  | error e =>
    rw [loadSource_error hcollect]
    exact .refused e hm
  | ok declared =>
    rw [loadSource_ok hcollect]
    have hmodules := name_ne_of_exportsNothing (Declarations.of_collect hcollect) hexports
    have hmade : Dangling (m.withSource { debugValues := m.options.traceValues }
        (sourceOf m source declared)) context place i := hm.withSource _ hmodules
    refine hmade.enlist (hmade.listing fun module hmodule ↦ ?_) _ _
    rw [Machine.context_withSource, if_pos rfl] at hmodule
    exact hmodules module hmodule

/-- Assumes: a source that does not export the module. Evaluating it fails. -/
theorem evaluate {source : String} {statements : List Node}
    (hexports : ExportsNothing i.name statements) :
    Refuses (Dangling · context place i) (evaluate source statements) :=
  (load hexports).bind fun _ _ ↦ run source

/-- One more import of a source is entered, or refused for its name. -/
theorem mergeImport (target : ContextRef) (source : String) (j : Import) :
    Attempts (Dangling · context place i) (· = .yield ⟨⟩) (do
      if !(← addImport target j) then
        throw (SourceError.duplicateImport j.key source).failure
      return ForInStep.yield PUnit.unit) := by
  intro m hm
  cases hknown : Declarations.hasImport (m.context target).imports j.key with
  | false =>
    have hadded : addImport target j m = .ok true (m.withImport target j) := by
      rw [addImport_apply, hknown]
      rfl
    rw [Run.bind_ok hadded]
    exact .ok (hm.withImport target j) rfl
  | true =>
    have hadded : addImport target j m = .ok false m := by
      rw [addImport_apply, hknown]
      rfl
    rw [Run.bind_ok hadded]
    exact .refused (.duplicateImport j.key source) hm

/-- Assumes: modules none of which goes by the name of the import. What is left of evaluating
statements in a source, once their imports have been entered, fails. -/
theorem linkMore (target : ContextRef) {modules : Array Module}
    (hmodules : ∀ module ∈ modules, module.name ≠ i.name) (body : List Node) :
    Refuses (Dangling · context place i) (do
      modifyContext target fun c => { c with modules := c.modules ++ modules }
      Session.runAll
      evaluateStatements target body) := by
  refine Attempts.bind (Attempts.of_modify fun m hm ↦ ?_) fun _ _ ↦ runAll.bind _
  refine hm.withContext (fun _ _ hc ↦ hc) fun c module hmodule ↦ ?_
  exact (Array.mem_append.mp hmodule).imp_right (hmodules module)

/-- Assumes: statements that do not export the module. Evaluating them in a source fails. -/
theorem evaluateIn {source : String} {statements : List Node}
    (hexports : ExportsNothing i.name statements) :
    Refuses (Dangling · context place i) (evaluateIn source statements) := by
  refine (requireContext source).bind fun target _ ↦ .get_bind fun m _ ↦ ?_
  refine (Attempts.ofSource _).bind fun declared hcollect ↦ ?_
  have hmodules := name_ne_of_exportsNothing (Declarations.of_collect hcollect) hexports
  rw [← Array.forIn_toList]
  refine (Attempts.each fun j _ ↦ ?_).bind fun _ _ ↦ linkMore target hmodules _
  exact mergeImport target source j

/-- Assumes: sources none of which exports the module. Running them as a program fails. -/
theorem runProgram (name : String) {entry : Option SourceText} {sources : List SourceText}
    (hexports : ∀ source ∈ entry.toList ++ sources, ExportsNothing i.name source.statements) :
    Refuses (Dangling · context place i) (runProgram name entry sources) := by
  unfold Session.runProgram
  cases entry with
  | none => exact .refuse _
  | some entry =>
    refine (Attempts.each fun source hmem ↦ ?_).bind fun _ _ ↦ .get_bind fun m _ ↦ ?_
    · exact (load (hexports source (List.mem_append_right _ hmem))).bind fun _ _ ↦ .pure rfl
    · have hrun : Refuses (Dangling · context place i) (do
          TreeScript.logVerbose
            s!"program {name}: running {entry.name} with {sources.length} source(s)"
          Session.run entry.name) :=
        (logVerbose _).bind fun _ _ ↦ run entry.name
      split
      · exact (load (hexports entry (List.mem_cons_self ..))).bind fun _ _ ↦ hrun
      · exact hrun

end Dangling

/-! ### Steps that leave such an import behind -/

/-- Assumes: imports that are entered one by one in a source that exists, up to one of them none
under a name that is known there or that another one of them goes by, and the name of that one is
not exported. It is entered, and stays behind if another one is refused. -/
theorem mergeImports (source : String) {imports : List Import}
    (hdistinct : imports.Pairwise fun i j ↦ i.key ≠ j.key) (hplace : imports[place]? = some i)
    (hfresh : ∀ j ∈ imports.take (place + 1),
      Declarations.hasImport (m.context context).imports j.key = false)
    (hunlinked : i.target = none) (hloaded : context ∈ m.loaded)
    (hexists : context.index < m.contexts.size) (hmissing : m.Unexported i.name) :
    Attempted (Dangling · context ((m.context context).imports.size + place) i) (fun _ ↦ True)
      ((forIn imports PUnit.unit fun j _ ↦ do
        if !(← addImport context j) then
          throw (SourceError.duplicateImport j.key source).failure
        return .yield PUnit.unit) m) := by
  induction imports generalizing m place with
  | nil => cases hplace
  | cons x xs ih =>
    have hx : Declarations.hasImport (m.context context).imports x.key = false :=
      hfresh x (by rw [List.take_succ_cons]; exact List.mem_cons_self ..)
    have hadded : addImport context x m = .ok true (m.withImport context x) := by
      rw [addImport_apply, hx]
      rfl
    have hpass : (do
        if !(← addImport context x) then
          throw (SourceError.duplicateImport x.key source).failure
        return ForInStep.yield PUnit.unit : Run (ForInStep PUnit)) m =
          .ok (.yield ⟨⟩) (m.withImport context x) := by
      rw [Run.bind_ok hadded]
      rfl
    have himports := m.imports_withImport hexists x
    have hlater := hmissing.withImport hexists x
    rw [List.forIn_cons, Run.bind_ok hpass]
    cases place with
    | zero =>
      obtain rfl : x = i := Option.some.inj hplace
      refine Attempts.each (fun j _ ↦ Dangling.mergeImport context source j) _
        ⟨hloaded, ?_, hunlinked, hlater⟩
      rw [himports, Nat.add_zero, Array.getElem?_push_size]
    | succ place =>
      obtain ⟨hothers, hdistinct⟩ := List.pairwise_cons.mp hdistinct
      have hbound : context.index < (m.withImport context x).contexts.size := by
        unfold Machine.withImport Machine.withContext
        rw [Array.size_modify]
        exact hexists
      have hrest := ih (m := m.withImport context x) hdistinct hplace (fun j hj ↦ ?_) hloaded
        hbound hlater
      · rw [himports, Array.size_push, Nat.add_assoc, Nat.add_comm 1] at hrest
        exact hrest
      · have hformer := hfresh j (by rw [List.take_succ_cons]; exact List.mem_cons_of_mem _ hj)
        have hother : (x.key == j.key) = false :=
          beq_eq_false_iff_ne.mpr (hothers j (List.mem_of_mem_take hj))
        unfold Declarations.hasImport at hformer ⊢
        rw [himports, Array.any_push, hformer, hother]
        rfl

/-- Assumes: statements with an import of a module that neither they nor a loaded source export, and
up to it no import under a name that the source knows. Evaluating them in the source fails, and it
keeps the import. -/
theorem evaluateIn_leaves_import {source : String} {statements : List Node}
    {declared : Declarations} (hfound : context? m source = some context)
    (hexists : context.index < m.contexts.size)
    (hcollect : Declarations.collect source m.options.forbiddenImports statements = .ok declared)
    (hplace : declared.imports[place]? = some i)
    (hfresh : ∀ j ∈ declared.imports.toList.take (place + 1),
      Declarations.hasImport (m.context context).imports j.key = false)
    (hmissing : m.Unexported i.name)
    (hmodules : ∀ module ∈ declared.modules, module.name ≠ i.name) :
    ∃ (e : SourceError) (n : Machine), evaluateIn source statements m = .error e.failure n ∧
      Dangling n context ((m.context context).imports.size + place) i := by
  have hrequired : requireContext source m = .ok context m := by
    unfold requireContext
    rw [Run.get_bind, hfound]
    rfl
  have hgiven : Run.ofSource (.ok declared) m = .ok declared m := rfl
  have hunlinked : i.target = none :=
    ((Declarations.of_collect hcollect).imports i (Array.mem_of_getElem? hplace)).1
  have hentered := mergeImports source (Declarations.distinct_of_collect hcollect)
    (Array.getElem?_toList.trans hplace) hfresh hunlinked (of_context? hfound).1 hexists hmissing
  unfold evaluateIn
  rw [Run.bind_ok hrequired, Run.get_bind, hcollect, Run.bind_ok hgiven, ← Array.forIn_toList]
  exact (hentered.bind fun _ _ ↦ Dangling.linkMore context hmodules _).refusal

/-- Assumes: a source that is made, and has an import that cannot be linked, and automatic imports
that can be read. The source is listed with the import. -/
theorem enlist_apply {target : ContextRef} (hlisting : Dangling (m.listing target) context place i)
    {automatic : List String} (hautomatic : ∀ text ∈ automatic, ∃ j, Import.parse text = .ok j)
    (message : Nat → String) :
    ∃ n, enlist target automatic message m = .ok target n ∧ Dangling n context place i := by
  have hkept (n : Machine) (j : Import) (hn : Dangling (n.listing target) context place i) :
      Dangling ((n.withImport target j).listing target) context place i := hn.withImport target j
  rcases automatic_apply hkept automatic hlisting with
    ⟨k, hadded, hk⟩ | ⟨text, hmem, e, -, hrefused, -⟩
  · have hlisted :
        (modify fun m : Machine ↦ { m with loaded := m.loaded.push target } : Run Unit) k =
        .ok () (k.listing target) := rfl
    obtain ⟨n, hlogged, hsame⟩ :=
      logVerbose_apply (message ((k.listing target).context target).imports.size) (k.listing target)
    refine ⟨n, ?_, hk.sameWork hsame⟩
    unfold enlist
    rw [Run.bind_ok hadded, Run.bind_ok hlisted, Run.get_bind, Run.bind_ok hlogged]
    rfl
  · obtain ⟨j, hparse⟩ := hautomatic text hmem
    rw [hparse] at hrefused
    cases hrefused

/-- Assumes: automatic imports that can be read, and a source with an import of a module that
neither it nor a loaded source exports. Evaluating it fails, and it stays in the list. -/
theorem evaluate_leaves_import {source : String} {statements : List Node} {declared : Declarations}
    (hautomatic : ∀ text ∈ m.options.autoImports, ∃ j, Import.parse text = .ok j)
    (hcollect : Declarations.collect source m.options.forbiddenImports statements = .ok declared)
    (hplace : declared.imports[place]? = some i) (hmissing : m.Unexported i.name)
    (hmodules : ∀ module ∈ declared.modules, module.name ≠ i.name) :
    ∃ (e : SourceError) (n : Machine), evaluate source statements m = .error e.failure n ∧
      Dangling n ⟨m.contexts.size⟩ place i := by
  let made := m.withSource { debugValues := m.options.traceValues } (sourceOf m source declared)
  have hunlinked : i.target = none :=
    ((Declarations.of_collect hcollect).imports i (Array.mem_of_getElem? hplace)).1
  have hcontext (ref : ContextRef) : made.context ref =
      if ref.index = m.contexts.size then sourceOf m source declared else m.context ref :=
    Machine.context_withSource ..
  have hlisting : Dangling (made.listing ⟨m.contexts.size⟩) ⟨m.contexts.size⟩ place i := by
    refine ⟨Array.mem_push_self, ?_, hunlinked, fun ref href module hmodule ↦ ?_⟩
    · change (made.context ⟨m.contexts.size⟩).imports[place]? = some i
      rw [hcontext, if_pos rfl]
      exact hplace
    · change module ∈ (made.context ref).modules at hmodule
      rw [hcontext] at hmodule
      split at hmodule
      · exact hmodules module hmodule
      · rename_i hother
        rcases Array.mem_push.mp href with href | rfl
        · exact hmissing ref href module hmodule
        · exact absurd rfl hother
  obtain ⟨k, hloaded, hk⟩ : ∃ k, load source statements m = .ok ⟨m.contexts.size⟩ k ∧
      Dangling k ⟨m.contexts.size⟩ place i := by
    unfold load
    rw [loadSource_ok hcollect]
    exact enlist_apply hlisting hautomatic _
  obtain ⟨e, n, hrun, hn⟩ := (Dangling.run source).apply hk
  refine ⟨e, n, ?_, hn⟩
  unfold evaluate
  rw [Run.bind_ok hloaded]
  exact hrun

/-! ### Sessions -/

/-- The sources a step brings. -/
def Step.sources : Step → List SourceText
  | .load source | .evaluate source | .evaluateIn source => [source]
  | .run _ => []
  | .program _ entry sources => entry.toList ++ sources

/-- Whether a step links the loaded sources. -/
def Step.links : Step → Bool
  | .load _ => false
  | _ => true

/-- A step none of whose sources exports a module. -/
def Step.Withholds (module : String) (step : Step) : Prop :=
  ∀ source ∈ step.sources, ExportsNothing module source.statements

/-- The machines that steps lead to which do not bring a module, whether they fail or not. -/
inductive Withheld (module : String) (m : Machine) : Machine → Prop
  | start : Withheld module m m
  | step {n : Machine} {step : Step} (h : Withheld module m n) (hstep : step.Withholds module) :
      Withheld module m (Outcome.final (step.act n))

namespace Dangling

/-- A step that does not bring the module leaves the import, and fails if it links. -/
theorem act {step : Step} (hstep : step.Withholds i.name) :
    Attempts (Dangling · context place i) (fun _ ↦ step.links = false) step.act := by
  have hrefused {α : Type} {x : Run α} (h : Refuses (Dangling · context place i) x) :
      Attempts (Dangling · context place i) (fun _ ↦ step.links = false) (do let _ ← x) :=
    (h.bind _).mono fun _ hnever ↦ hnever.elim
  cases step with
  | load source =>
    exact (load (hstep source (List.mem_singleton.mpr rfl))).bind fun _ _ ↦ .pure rfl
  | run source => exact hrefused (run source)
  | evaluate source => exact hrefused (evaluate (hstep source (List.mem_singleton.mpr rfl)))
  | evaluateIn source => exact hrefused (evaluateIn (hstep source (List.mem_singleton.mpr rfl)))
  | program name entry sources => exact hrefused (runProgram name hstep)

/-- The import stays as long as no step brings the module. -/
theorem withheld (h : Dangling m context place i) {n : Machine} (hsteps : Withheld i.name m n) :
    Dangling n context place i := by
  induction hsteps with
  | start => exact h
  | @step n step _ hstep ih => exact (act hstep n ih).final

end Dangling

/-- A source that is refused while its declarations are collected leaves everything as it is. -/
theorem collecting_changes_nothing {source : String} {statements : List Node} {e : SourceError}
    (hcollect : Declarations.collect source m.options.forbiddenImports statements = .error e) :
    load source statements m = .error e.failure m ∧
      evaluate source statements m = .error e.failure m ∧
      ∃ fault : SourceError, evaluateIn source statements m = .error fault.failure m := by
  have hload : load source statements m = .error e.failure m := loadSource_error hcollect
  refine ⟨hload, Run.bind_error hload, ?_⟩
  unfold evaluateIn requireContext
  rw [bind_assoc, Run.get_bind]
  cases hfound : context? m source with
  | none => exact ⟨.notLoaded source, rfl⟩
  | some context =>
    refine ⟨e, ?_⟩
    rw [pure_bind, Run.get_bind, hcollect]
    rfl

/-- A step that is refused while its declarations are collected, for an import that is forbidden or
for names that are given twice, leaves the session as it is. But where they can be collected, and
there is an import among them of a module that neither they nor a loaded source export, the import
is entered before the step fails: with its source when the source was to be evaluated, and in a
source that was loaded before when the statements were to be evaluated there, unless it or an import
before it goes by a name that is known there. From then on, as long as no step brings the module,
every step that links fails, on whatever source, and leaves the import where it is. -/
theorem refused_import_stays (m : Machine) :
    (∀ (source : String) (statements : List Node) (e : SourceError),
      Declarations.collect source m.options.forbiddenImports statements = .error e →
        load source statements m = .error e.failure m ∧
        evaluate source statements m = .error e.failure m ∧
        ∃ fault : SourceError, evaluateIn source statements m = .error fault.failure m) ∧
    (∀ (source : String) (statements : List Node) (declared : Declarations) (place : Nat)
        (i : Import),
      Declarations.collect source m.options.forbiddenImports statements = .ok declared →
      declared.imports[place]? = some i → m.Unexported i.name →
      (∀ module ∈ declared.modules, module.name ≠ i.name) →
        ((∀ text ∈ m.options.autoImports, ∃ j, Import.parse text = .ok j) →
          ∃ (e : SourceError) (n : Machine), evaluate source statements m = .error e.failure n ∧
            Dangling n ⟨m.contexts.size⟩ place i) ∧
        ∀ context : ContextRef, context? m source = some context →
          context.index < m.contexts.size →
          (∀ j ∈ declared.imports.toList.take (place + 1),
            Declarations.hasImport (m.context context).imports j.key = false) →
          ∃ (e : SourceError) (n : Machine), evaluateIn source statements m = .error e.failure n ∧
            Dangling n context ((m.context context).imports.size + place) i) ∧
    ∀ (context : ContextRef) (place : Nat) (i : Import), Dangling m context place i →
      ∀ n : Machine, Withheld i.name m n → Dangling n context place i ∧
        ∀ step : Step, step.Withholds i.name → step.links = true →
          ∃ (e : SourceError) (n' : Machine), step.act n = .error e.failure n' ∧
            Dangling n' context place i := by
  refine ⟨fun source statements e ↦ collecting_changes_nothing, ?_, ?_⟩
  · intro source statements declared place i hcollect hplace hmissing hmodules
    refine ⟨fun hautomatic ↦
      evaluate_leaves_import hautomatic hcollect hplace hmissing hmodules, ?_⟩
    intro context hfound hexists hfresh
    exact evaluateIn_leaves_import hfound hexists hcollect hplace hfresh hmissing hmodules
  · intro context place i hm n hsteps
    have hn := hm.withheld hsteps
    refine ⟨hn, fun step hstep hlinks ↦ ?_⟩
    have hrefuses : Refuses (Dangling · context place i) step.act :=
      (Dangling.act hstep).mono fun _ hnone ↦ by
        rw [hlinks] at hnone
        cases hnone
    exact hrefuses.apply hn

/-- A session in which a source has set a variable. -/
def usedSession : Machine :=
  let source : SourceText := ⟨"main", [.assignment "=" (.identifier "x") (.boolean true)]⟩
  Outcome.final ((Step.evaluate source).act restrictedSession)

/-- Reading that variable. -/
def readingStep : Step := .evaluateIn ⟨"main", [.identifier "x"]⟩

/-- The variable can be read, but no longer once an import of a module that there is not has been
refused. -/
theorem misspelt_import_stays :
    (Outcome.value? (readingStep.act usedSession)).isSome = true ∧
      ∃ (e : SourceError) (n : Machine),
        evaluateIn "main" [.importStatement "nosuch" "" false] usedSession = .error e.failure n ∧
        ∃ (e' : SourceError) (n' : Machine), readingStep.act n = .error e'.failure n' := by
  have hstate : (Outcome.value? (readingStep.act usedSession)).isSome = true ∧
      context? usedSession "main" = some ⟨4⟩ ∧ 4 < usedSession.contexts.size ∧
      usedSession.options.forbiddenImports = ["system"] ∧ usedSession.Unexported "nosuch" ∧
      Declarations.hasImport (usedSession.context ⟨4⟩).imports "nosuch" = false := by
    unfold Machine.Unexported
    decide +kernel
  obtain ⟨hreads, hfound, hexists, hforbids, hmissing, hfresh⟩ := hstate
  have hcollect : Declarations.collect "main" usedSession.options.forbiddenImports
      [.importStatement "nosuch" "" false] =
        .ok { imports := #[{ name := "nosuch", asName := "", inline := false }] } := by
    rw [hforbids]
    simp [Declarations.collect, Declarations.add, Declarations.hasImport]
  obtain ⟨-, hleaves, -⟩ := refused_import_stays usedSession
  obtain ⟨e, n, hrefused, hn⟩ := (hleaves "main" _ _ 0 _ hcollect rfl hmissing nofun).2 ⟨4⟩ hfound
    hexists fun j hj ↦ by rw [List.mem_singleton.mp hj]; exact hfresh
  obtain ⟨-, hlater⟩ := (refused_import_stays n).2.2 _ _ _ hn n .start
  have hwithholds : readingStep.Withholds "nosuch" := by
    intro source hmem symbols
    rw [List.mem_singleton.mp hmem]
    simp
  obtain ⟨e', n', hfails, -⟩ := hlater readingStep hwithholds rfl
  exact ⟨hreads, e, n, hrefused, e', n', hfails⟩

end Session

end TreeScript
