import Mathlib.Data.List.Find
import Mathlib.Data.List.Nodup
import Mathlib.Data.List.Pairwise
import TreeScript.Proofs.Sessions.RunOrder

/-!
# The order in which sources are loaded

Sources whose names differ, and that export no two modules of one name and none of a core module,
can be loaded in any order (`load_order_is_nothing`). They can be linked in both orders or in
neither. What is imported in one order is the same module of the same source in the other, and the
bodies that are run for a source are those of the same sources, one after the other.

A source that was loaded in one order has a counterpart in the other (`Counterpart`). What is found
under a name in one is the counterpart of what is found under it in the other
(`Reordered.context?_some`, `Reordered.module?_some`), so counterparts depend on counterparts
(`LinkedAlike.dependingAlike`). A tour through sources therefore runs alongside the tour through
their counterparts (`Tour.alongside`).
-/

set_option autoImplicit false

namespace TreeScript.Session

open Lookup

/-! ### Two tours -/

section Alongside

variable {R : ContextRef → ContextRef → Prop} {m n k : Machine} {c d : ContextRef}

theorem entered_passing_iff (listed : Bool) : (passing listed m).Entered d ↔ m.Entered d := by
  unfold Machine.Entered
  rw [(sameSources_passing listed m).context, (sameSources_passing listed m).evaluating]

theorem entered_opening_iff : (m.opening c).Entered d ↔ m.Entered d ∨ d = c := by
  unfold Machine.Entered
  change _ ∨ d ∈ c :: m.evaluating ↔ _
  rw [List.mem_cons]
  tauto

/-- Where the body of a source has come to its end or failed, the source has been entered and so
have those that had been where it began. -/
theorem entered_ended_iff {statements : List Node} {ended : Outcome CellRef}
    (hexists : c.index < m.contexts.size) (hnew : ¬m.Entered c)
    (hbefore : (m.opening c).Advances n) (hopen : n.evaluating = c :: m.evaluating)
    (hbody : evaluateStatements c statements (n.starting c) = ended) :
    ((Outcome.final ended).closing c).Entered d ↔ n.Entered d := by
  unfold Machine.Entered
  rw [Tour.evaluated_ended_iff hexists hbefore hbody, Tour.evaluating_ended hbody hnew hopen, hopen,
    List.mem_cons, or_assoc]

/-- Two machines on which related sources have been entered, or not, alike. -/
def EnteredAlike (R : ContextRef → ContextRef → Prop) (m m' : Machine) : Prop :=
  ∀ c d, R c d → (m.Entered c ↔ m'.Entered d)

/-- Two machines on which related sources depend on related ones. -/
def DependingAlike (R : ContextRef → ContextRef → Prop) (m m' : Machine) : Prop :=
  ∀ c d, R c d → List.Forall₂ R (dependencies m c) (dependencies m' d)

theorem DependingAlike.advances {m' n' : Machine} (h : DependingAlike R m m') (hm : m.Advances n)
    (hm' : m'.Advances n') : DependingAlike R n n' := by
  intro c d hcd
  rw [hm.dependencies, hm'.dependencies]
  exact h c d hcd

/-- Assumes: a relation of sources that pairs each with one other, and two machines on which related
sources depend on related ones and have been entered alike. Two tours through related sources that
come to their ends run the bodies of related sources. -/
theorem Tour.alongside {listed : Bool} {cs cs' : List ContextRef} {m' n' : Machine}
    {runs runs' : List BodyRun} {o : Outcome Unit} (hpairs : Relator.BiUnique R)
    (htour : Tour listed cs m runs o) (hok : o = .ok () n)
    (htour' : Tour listed cs' m' runs' (.ok () n')) (hcs : List.Forall₂ R cs cs')
    (hdepending : DependingAlike R m m') (hentered : EnteredAlike R m m') :
    List.Forall₂ R (runs.map (·.context)) (runs'.map (·.context)) ∧ EnteredAlike R n n' := by
  induction htour generalizing cs' m' n' runs' n with
  | nil =>
    cases hok
    cases hcs
    cases htour'
    exact ⟨.nil, hentered⟩
  | @pass listed c cs m runs o hpassed _ ih =>
    cases hcs with
    | @cons _ d _ ds hcd hcs =>
      cases htour' with
      | pass _ hrest' =>
        have hsame := Machine.Advances.of_sameSources (sameSources_passing listed m)
        have hsame' := Machine.Advances.of_sameSources (sameSources_passing listed m')
        refine ih hok hrest' hcs (hdepending.advances hsame hsame') fun x y hxy ↦ ?_
        rw [entered_passing_iff, entered_passing_iff]
        exact hentered x y hxy
      | run _ hnew => exact absurd ((hentered c d hcd).mp hpassed) hnew
  | @run listed c cs m base k runs later cell o hexists hnew hbefore hbody hrest ihbefore ihrest =>
    cases hcs with
    | @cons _ d _ ds hcd hcs =>
      cases htour' with
      | pass hpassed => exact absurd ((hentered c d hcd).mpr hpassed) hnew
      | @run _ _ _ _ base' k' _ _ _ _ hexists' hnew' hbefore' hbody' hrest' =>
        have hopened : EnteredAlike R (m.opening c) (m'.opening d) := by
          intro x y hxy
          have hsame : x = c ↔ y = d := Relator.rel_eq hpairs hxy hcd
          rw [entered_opening_iff, entered_opening_iff, hentered x y hxy, hsame]
        obtain ⟨hruns, hbegun⟩ := ihbefore rfl hbefore' (hdepending c d hcd)
          (hdepending.advances (advances_opening m c) (advances_opening m' d)) hopened
        have hended : EnteredAlike R (k.closing c) (k'.closing d) := by
          intro x y hxy
          have hx : (k.closing c).Entered x ↔ base.Entered x :=
            entered_ended_iff hexists hnew hbefore.advances hbefore.evaluating hbody
          have hy : (k'.closing d).Entered y ↔ base'.Entered y :=
            entered_ended_iff hexists' hnew' hbefore'.advances hbefore'.evaluating hbody'
          rw [hx, hy]
          exact hbegun x y hxy
        have hadvances : m.Advances (k.closing c) := advances_ended hexists hbefore.advances hbody
        have hadvances' : m'.Advances (k'.closing d) :=
          advances_ended hexists' hbefore'.advances hbody'
        obtain ⟨hlater, hlast⟩ := ihrest hok hrest' hcs (hdepending.advances hadvances hadvances')
          hended
        rw [List.map_append, List.map_append]
        exact ⟨List.rel_append hruns (.cons hcd hlater), hlast⟩
  | failBefore => cases hok
  | fail => cases hok

end Alongside

/-! ### What is found under a name -/

section Finding

variable {m₀ m : Machine} {sources : List SourceText} {news : List ContextRef} {name : String}

theorem SourceText.mem_exports {options : Options} {source : SourceText} {declared : Declarations}
    (h : manifest options source = .ok declared) {module : Module}
    (hmodule : module ∈ declared.modules) : module.name ∈ source.exports := by
  obtain ⟨own, hcollect, automatic, -, rfl⟩ := of_manifest h
  rw [← SourceText.exports_of_collect hcollect]
  exact List.mem_map_of_mem (Array.mem_def.mp hmodule)

/-- No two modules that a source is loaded with have one name. -/
theorem eq_of_manifest {options : Options} {source : SourceText} {declared : Declarations}
    (h : manifest options source = .ok declared) {i j : Nat} {a b : Module}
    (ha : declared.modules[i]? = some a) (hb : declared.modules[j]? = some b)
    (hname : a.name = b.name) : i = j := by
  obtain ⟨own, hcollect, automatic, -, rfl⟩ := of_manifest h
  let names := own.modules.toList.map (·.name)
  have hdistinct : names.Nodup := Declarations.distinctNames_of_collect hcollect
  have hfound {i : Nat} {a : Module} (ha : own.modules[i]? = some a) : names[i]? = some a.name := by
    rw [List.getElem?_map, Array.getElem?_toList, ha]
    rfl
  obtain ⟨hi, hai⟩ := List.getElem?_eq_some_iff.mp (hfound ha)
  obtain ⟨hj, hbj⟩ := List.getElem?_eq_some_iff.mp (hfound hb)
  exact hdistinct.getElem_inj_iff.mp (hai.trans (hname.trans hbj.symm))

/-- What is found first is the same if the same is found in each place. -/
theorem findSome?_congr {α β : Type} {f g : α → Option β} {as : List α} (h : ∀ a ∈ as, f a = g a) :
    as.findSome? f = as.findSome? g := by
  induction as with
  | nil => rfl
  | cons a as ih =>
    rw [List.forall_mem_cons] at h
    rw [List.findSome?_cons, List.findSome?_cons, h.1, ih h.2]

/-- What is found somewhere is found first if nothing else is found. -/
theorem findSome?_of_unique {α β : Type} {f : α → Option β} {as : List α} {a : α} {b : β}
    (ha : a ∈ as) (hb : f a = some b) (hunique : ∀ x ∈ as, ∀ c, f x = some c → c = b) :
    as.findSome? f = some b := by
  cases hfound : as.findSome? f with
  | none =>
    rw [List.findSome?_eq_none_iff.mp hfound a ha] at hb
    cases hb
  | some c =>
    obtain ⟨x, hx, hc⟩ := List.exists_of_findSome?_eq_some hfound
    rw [hunique x hx c hc]

theorem of_moduleIn? {c : ContextRef} {ref : ModuleRef} (h : moduleIn? m name c = some ref) :
    ref.context = c ∧ ∃ module, (m.context c).modules[ref.index]? = some module ∧
      module.name = name := by
  obtain ⟨⟨module, i⟩, hfind, rfl⟩ := Option.map_eq_some_iff.mp h
  have hindexed := List.mem_reverse.mp (List.mem_of_find?_eq_some hfind)
  have hnamed := List.find?_some hfind
  refine ⟨rfl, module, ?_, beq_iff_eq.mp hnamed⟩
  rw [← Array.getElem?_toList]
  exact List.mem_zipIdx_iff_getElem?.mp hindexed

theorem moduleIn?_isSome {c : ContextRef} {i : Nat} {module : Module}
    (h : (m.context c).modules[i]? = some module) : (moduleIn? m module.name c).isSome := by
  unfold moduleIn?
  rw [Option.isSome_map, List.find?_isSome]
  refine ⟨(module, i), List.mem_reverse.mpr (List.mem_zipIdx_iff_getElem?.mpr ?_), ?_⟩
  · rw [Array.getElem?_toList]
    exact h
  · exact beq_iff_eq.mpr rfl

/-- A source that is found under a name is a new one, or the one that was found before. -/
theorem Stocked.context?_eq (h : Stocked m₀ sources news m)
    (hexists : ∀ c ∈ m₀.loaded, c.index < m₀.contexts.size) (name : String) :
    context? m name =
      (news.reverse.findSome? (Option.guard fun c ↦ (m.context c).source == name)).or
        (context? m₀ name) := by
  unfold context?
  rw [h.loaded, List.reverse_append, List.find?_append, List.find?_eq_findSome?_guard]
  congr 1
  refine List.find?_congr fun c hc ↦ ?_
  rw [h.former c (hexists c (Array.mem_def.mpr (List.mem_reverse.mp hc)))]

/-- A module that is found under a name is one of a new source, or the one that was found before. -/
theorem Stocked.module?_eq (h : Stocked m₀ sources news m)
    (hexists : ∀ c ∈ m₀.loaded, c.index < m₀.contexts.size) (name : String) :
    Lookup.module? m name = (news.reverse.findSome? (moduleIn? m name)).or
      (Lookup.module? m₀ name) := by
  unfold Lookup.module?
  rw [h.loaded, List.reverse_append, List.findSome?_append]
  congr 1
  refine findSome?_congr fun c hc ↦ ?_
  unfold moduleIn?
  rw [h.former c (hexists c (Array.mem_def.mpr (List.mem_reverse.mp hc)))]

end Finding

/-! ### Two orders -/

/-- Where a source is on two machines that come from one: a source that there was before is where it
was, and one that has been loaded since is the one of its name. -/
inductive Counterpart (m₀ m m' : Machine) : ContextRef → ContextRef → Prop
  | former {c : ContextRef} (hc : c ∈ m₀.loaded) : Counterpart m₀ m m' c c
  | new {c d : ContextRef} (hc : c ∈ m.loaded) (hd : d ∈ m'.loaded)
      (hcnew : m₀.contexts.size ≤ c.index) (hdnew : m₀.contexts.size ≤ d.index)
      (hname : (m'.context d).source = (m.context c).source) : Counterpart m₀ m m' c d

/-- Where a module is: in the same place of the counterpart of its source. -/
structure CounterpartModule (m₀ m m' : Machine) (ref ref' : ModuleRef) : Prop where
  source : Counterpart m₀ m m' ref.context ref'.context
  place : ref'.index = ref.index

/-- Two machines that come from one by loading the same sources in two orders. The names of the
sources differ, and so do those of the modules, which are none of those that there were before. -/
structure Reordered (m₀ : Machine) (sources sources' : List SourceText)
    (news news' : List ContextRef) (m m' : Machine) : Prop where
  stocked : Stocked m₀ sources news m
  stocked' : Stocked m₀ sources' news' m'
  perm : sources.Perm sources'
  names : (sources.map (·.name)).Nodup
  exports : (sources.flatMap SourceText.exports).Nodup
  apart : ∀ c ∈ m₀.loaded, ∀ module ∈ (m₀.context c).modules,
    module.name ∉ sources.flatMap SourceText.exports
  exists_former : ∀ c ∈ m₀.loaded, c.index < m₀.contexts.size

namespace Reordered

variable {m₀ m m' n n' : Machine} {sources sources' : List SourceText}
  {news news' : List ContextRef} {c d : ContextRef}

theorem symm (h : Reordered m₀ sources sources' news news' m m') :
    Reordered m₀ sources' sources news' news m' m where
  stocked := h.stocked'
  stocked' := h.stocked
  perm := h.perm.symm
  names := (h.perm.map _).nodup_iff.mp h.names
  exports := (h.perm.flatMap_right _).nodup_iff.mp h.exports
  apart c hc module hmodule hmem :=
    h.apart c hc module hmodule ((h.perm.flatMap_right _).mem_iff.mpr hmem)
  exists_former := h.exists_former

/-- A source that is loaded and was not there before is a new one. -/
theorem new_of_loaded (h : Reordered m₀ sources sources' news news' m m') (hc : c ∈ m.loaded)
    (hnew : m₀.contexts.size ≤ c.index) : c ∈ news := by
  rw [Array.mem_def, h.stocked.loaded, List.mem_append] at hc
  exact hc.resolve_left fun hformer ↦
    absurd (h.exists_former c (Array.mem_def.mpr hformer)) (Nat.not_lt.mpr hnew)

/-- There is one new source of a name. -/
theorem eq_of_source (h : Reordered m₀ sources sources' news news' m m') (hc : c ∈ news)
    (hd : d ∈ news) (hname : (m.context c).source = (m.context d).source) : c = d :=
  List.inj_on_of_nodup_map (h.names.sublist h.stocked.names) hc hd hname

/-- A new source has a counterpart, which was loaded with the same manifest. -/
theorem counterpart_new (h : Reordered m₀ sources sources' news news' m m') (hc : c ∈ news) :
    ∃ d ∈ news', Counterpart m₀ m m' c d ∧
      ∃ source ∈ sources, ∃ declared, manifest m₀.options source = .ok declared ∧
        (m.context c).Declares source declared ∧ (m'.context d).Declares source declared := by
  obtain ⟨hlow, -, source, hsource, declared, hdeclared, hcsource⟩ := h.stocked.new c hc
  obtain ⟨d, hd, hdsource⟩ :=
    h.stocked'.listed source (h.perm.mem_iff.mp hsource) declared hdeclared
  have hcloaded : c ∈ m.loaded := by
    rw [Array.mem_def, h.stocked.loaded]
    exact List.mem_append_right _ hc
  have hdloaded : d ∈ m'.loaded := by
    rw [Array.mem_def, h.stocked'.loaded]
    exact List.mem_append_right _ hd
  refine ⟨d, hd, .new hcloaded hdloaded hlow (h.stocked'.new d hd).1 ?_, source, hsource, declared,
    hdeclared, hcsource, hdsource⟩
  rw [hcsource.name, hdsource.name]

theorem counterpart_symm (h : Counterpart m₀ m m' c d) : Counterpart m₀ m' m d c := by
  cases h with
  | former hc => exact .former hc
  | new hc hd hcnew hdnew hname => exact .new hd hc hdnew hcnew hname.symm

theorem rightUnique (h : Reordered m₀ sources sources' news news' m m') :
    Relator.RightUnique (Counterpart m₀ m m') := by
  intro c d e hd he
  cases hd with
  | former hc =>
    cases he with
    | former => rfl
    | new _ _ hcnew => exact absurd (h.exists_former c hc) (Nat.not_lt.mpr hcnew)
  | new _ hdloaded hcnew hdnew hdname =>
    cases he with
    | former hc => exact absurd (h.exists_former c hc) (Nat.not_lt.mpr hcnew)
    | new _ heloaded _ henew hename =>
      exact h.symm.eq_of_source (h.symm.new_of_loaded hdloaded hdnew)
        (h.symm.new_of_loaded heloaded henew) (hdname.trans hename.symm)

theorem biUnique (h : Reordered m₀ sources sources' news news' m m') :
    Relator.BiUnique (Counterpart m₀ m m') :=
  ⟨fun _ _ _ hc hd ↦ h.symm.rightUnique (counterpart_symm hc) (counterpart_symm hd), h.rightUnique⟩

/-- Every source that is loaded has a counterpart. -/
theorem exists_counterpart (h : Reordered m₀ sources sources' news news' m m') (hc : c ∈ m.loaded) :
    ∃ d ∈ m'.loaded, Counterpart m₀ m m' c d := by
  rw [Array.mem_def, h.stocked.loaded, List.mem_append] at hc
  rcases hc with hc | hc
  · refine ⟨c, ?_, .former (Array.mem_def.mpr hc)⟩
    rw [Array.mem_def, h.stocked'.loaded]
    exact List.mem_append_left _ hc
  · obtain ⟨d, hd, hcd, -⟩ := h.counterpart_new hc
    refine ⟨d, ?_, hcd⟩
    rw [Array.mem_def, h.stocked'.loaded]
    exact List.mem_append_right _ hd

/-- Counterparts are alike but for where their variables are. -/
theorem alike (h : Reordered m₀ sources sources' news news' m m') (hcd : Counterpart m₀ m m' c d) :
    { m'.context d with globals := (m.context c).globals, trace := (m.context c).trace } =
      m.context c := by
  cases hcd with
  | former hc =>
    have hexists := h.exists_former c hc
    rw [h.stocked.former c hexists, h.stocked'.former c hexists]
  | new hc hd hcnew hdnew hname =>
    have hcpending := h.stocked.pending c hcnew
    have hdpending := h.stocked'.pending d hdnew
    obtain ⟨e, he, hce, source, -, declared, -, hcsource, hdsource⟩ :=
      h.counterpart_new (h.new_of_loaded hc hcnew)
    obtain rfl : d = e := h.rightUnique (.new hc hd hcnew hdnew hname) hce
    rw [hcsource.eq hcpending, hdsource.eq hdpending]

/-- Assumes: what is found in a new source has a like in the new sources of the other order,
whichever of the two orders that is, and what there was before is its own like. What is found first
in the new sources or else before has a like that is found in the other order. -/
theorem found {α : Type} {former : Option α} {a : α}
    (h : Reordered m₀ sources sources' news news' m m') (look : Machine → ContextRef → Option α)
    (Like : Machine → Machine → α → α → Prop)
    (hnew : ∀ {sources sources' news news' m m'}, Reordered m₀ sources sources' news news' m m' →
      ∀ x ∈ news, ∀ a, look m x = some a →
        ∃ b, news'.reverse.findSome? (look m') = some b ∧ Like m m' a b)
    (hformer : ∀ a, former = some a → Like m m' a a)
    (hfound : (news.reverse.findSome? (look m)).or former = some a) :
    ∃ b, (news'.reverse.findSome? (look m')).or former = some b ∧ Like m m' a b := by
  cases hfirst : news.reverse.findSome? (look m) with
  | some b =>
    obtain ⟨x, hx, hlook⟩ := List.exists_of_findSome?_eq_some hfirst
    obtain ⟨c, hc, hlike⟩ := hnew h x (List.mem_reverse.mp hx) b hlook
    rw [hfirst, Option.some_or] at hfound
    cases hfound
    rw [hc]
    exact ⟨c, rfl, hlike⟩
  | none =>
    rw [hfirst, Option.none_or] at hfound
    cases hother : news'.reverse.findSome? (look m') with
    | none => exact ⟨a, hfound, hformer a hfound⟩
    | some b =>
      -- What is found in the other order has a like that would have been found in this one.
      obtain ⟨x, hx, hlook⟩ := List.exists_of_findSome?_eq_some hother
      obtain ⟨c, hc, -⟩ := hnew h.symm x (List.mem_reverse.mp hx) b hlook
      rw [hfirst] at hc
      cases hc

/-- What is found as a source in one order is found as its counterpart in the other. -/
theorem context?_some (h : Reordered m₀ sources sources' news news' m m') {name : String}
    (hfound : context? m name = some c) :
    ∃ d, context? m' name = some d ∧ Counterpart m₀ m m' c d := by
  rw [h.stocked.context?_eq h.exists_former] at hfound
  rw [h.stocked'.context?_eq h.exists_former]
  refine h.found (fun m ↦ Option.guard fun c ↦ (m.context c).source == name)
    (fun m m' ↦ Counterpart m₀ m m') ?_ (fun c hc ↦ .former (of_context? hc).1) hfound
  intro sources sources' news news' m m' h x hx c hc
  obtain ⟨rfl, hname⟩ := Option.guard_eq_some_iff.mp hc
  obtain ⟨d, hd, hcd, source, -, declared, -, hxsource, hdsource⟩ := h.counterpart_new hx
  have hdname : (m'.context d).source = name := by
    rw [hdsource.name, ← hxsource.name, beq_iff_eq.mp hname]
  refine ⟨d, findSome?_of_unique (List.mem_reverse.mpr hd) ?_ fun y hy e he ↦ ?_, hcd⟩
  · exact Option.guard_eq_some_iff.mpr ⟨rfl, beq_iff_eq.mpr hdname⟩
  · obtain ⟨rfl, hename⟩ := Option.guard_eq_some_iff.mp he
    exact h.symm.eq_of_source (List.mem_reverse.mp hy) hd ((beq_iff_eq.mp hename).trans hdname.symm)

/-- One source exports under a name. -/
theorem eq_of_exports (h : Reordered m₀ sources sources' news news' m m')
    {source other : SourceText} {name : String} (hsource : source ∈ sources)
    (hother : other ∈ sources) (hname : name ∈ source.exports) (hname' : name ∈ other.exports) : source = other := by
  have : Std.Symm (Function.onFun List.Disjoint SourceText.exports) :=
    ⟨fun _ _ h _ hfirst hsecond ↦ h hsecond hfirst⟩
  refine Classical.byContradiction fun hdiffers ↦ ?_
  exact (List.nodup_flatMap.mp h.exports).2.forall hsource hother hdiffers hname hname'

/-- What is found as a module in one order is found as its counterpart in the other. -/
theorem module?_some (h : Reordered m₀ sources sources' news news' m m') {name : String}
    {ref : ModuleRef} (hfound : Lookup.module? m name = some ref) :
    ∃ ref', Lookup.module? m' name = some ref' ∧ CounterpartModule m₀ m m' ref ref' := by
  rw [h.stocked.module?_eq h.exists_former] at hfound
  rw [h.stocked'.module?_eq h.exists_former]
  refine h.found (fun m ↦ moduleIn? m name) (CounterpartModule m₀) ?_
    (fun ref href ↦ ⟨.former (of_module? href).1, rfl⟩) hfound
  intro sources sources' news news' m m' h x hx ref href
  obtain ⟨rfl, module, hmodule, rfl⟩ := of_moduleIn? href
  obtain ⟨d, hd, hcd, source, hsource, declared, hdeclared, hxsource, hdsource⟩ :=
    h.counterpart_new hx
  -- The counterpart has the same modules, and no other new source has one of the name.
  rw [hxsource.modules] at hmodule
  have hdmodule : (m'.context d).modules[ref.index]? = some module := by
    rw [hdsource.modules, hmodule]
  obtain ⟨ref', href'⟩ := Option.isSome_iff_exists.mp (moduleIn?_isSome hdmodule)
  obtain ⟨rfl, module', hmodule', hname⟩ := of_moduleIn? href'
  rw [hdsource.modules] at hmodule'
  refine ⟨ref', findSome?_of_unique (List.mem_reverse.mpr hd) href' fun y hy other hother ↦ ?_,
    hcd, eq_of_manifest hdeclared hmodule' hmodule hname⟩
  obtain ⟨rfl, module'', hmodule'', hname''⟩ := of_moduleIn? hother
  obtain ⟨-, -, source', hsource', declared', hdeclared', hysource⟩ :=
    h.stocked'.new _ (List.mem_reverse.mp hy)
  rw [hysource.modules] at hmodule''
  have hexports : module.name ∈ source.exports :=
    SourceText.mem_exports hdeclared (Array.mem_of_getElem? hmodule)
  have hexports' : module.name ∈ source'.exports :=
    hname'' ▸ SourceText.mem_exports hdeclared' (Array.mem_of_getElem? hmodule'')
  obtain rfl : source = source' :=
    h.eq_of_exports hsource (h.perm.mem_iff.mpr hsource') hexports hexports'
  have hsame : other.context = ref'.context :=
    h.symm.eq_of_source (List.mem_reverse.mp hy) hd (hysource.name.trans hdsource.name.symm)
  rw [hsame, href'] at hother
  exact (Option.some_inj.mp hother).symm

theorem loaded_of_counterpart (h : Reordered m₀ sources sources' news news' m m')
    (hcd : Counterpart m₀ m m' c d) : c ∈ m.loaded ∧ d ∈ m'.loaded := by
  cases hcd with
  | new hc hd => exact ⟨hc, hd⟩
  | former hc =>
    rw [Array.mem_def, Array.mem_def, h.stocked.loaded, h.stocked'.loaded]
    have hformer : c ∈ m₀.loaded.toList := Array.mem_def.mp hc
    exact ⟨List.mem_append_left _ hformer, List.mem_append_left _ hformer⟩

end Reordered

/-! ### What is linked in two orders -/

/-- An import that stands for one module in two orders. -/
structure ImportAlike (m₀ m m' : Machine) (i j : Import) : Prop where
  same : { j with target := i.target } = i
  target : ∃ ref ref', i.target = some ref ∧ j.target = some ref' ∧
    CounterpartModule m₀ m m' ref ref'

/-- Two machines on which sources have been linked that were loaded in two orders. Each source has
one counterpart, which has the same modules, and imports that stand for the counterparts of the
modules for which the imports of the source do. -/
structure LinkedAlike (m₀ m m' n n' : Machine) : Prop where
  pairs : Relator.BiUnique (Counterpart m₀ m m')
  covered : ∀ c ∈ n.loaded, ∃ d ∈ n'.loaded, Counterpart m₀ m m' c d
  covering : ∀ d ∈ n'.loaded, ∃ c ∈ n.loaded, Counterpart m₀ m m' c d
  names : ∀ c d, Counterpart m₀ m m' c d → (n'.context d).source = (n.context c).source
  modules : ∀ c d, Counterpart m₀ m m' c d → (n'.context d).modules = (n.context c).modules
  imports : ∀ c d, Counterpart m₀ m m' c d → List.Forall₂ (ImportAlike m₀ m m')
    (n.context c).imports.toList (n'.context d).imports.toList

namespace LinkedAlike

variable {m₀ m m' n n' : Machine}

/-- Counterparts depend on counterparts. -/
theorem dependingAlike (h : LinkedAlike m₀ m m' n n') :
    DependingAlike (Counterpart m₀ m m') n n' := by
  intro c d hcd
  unfold dependencies
  refine List.rel_filterMap (R := ImportAlike m₀ m m') ?_ (h.imports c d hcd)
  rintro i j ⟨-, ref, ref', hi, hj, hsource, -⟩
  have hsame : ref.context = c ↔ ref'.context = d := Relator.rel_eq h.pairs hsource hcd
  dsimp only
  rw [hi, hj, Option.map_some, Option.map_some]
  by_cases hself : ref.context = c
  · have hself' : ref'.context = d := hsame.mp hself
    simp [hself, hself', Option.filter]
  · have hself' : ref'.context ≠ d := fun h ↦ hself (hsame.mpr h)
    simpa [hself, hself', Option.filter] using hsource

end LinkedAlike

namespace Reordered

variable {m₀ m m' n n' : Machine} {sources sources' : List SourceText}
  {news news' : List ContextRef}

/-- Sources can be linked in the other order, too. -/
theorem link_ok (h : Reordered m₀ sources sources' news news' m m')
    (hfurnished : Furnished CoreModule.all.length m₀) (hm : m.Consistent) (hm' : m'.Consistent)
    (hlinked : ∃ n, link m = .ok () n) : ∃ n', link m' = .ok () n' := by
  rw [link_ok_iff hm] at hlinked
  rw [link_ok_iff hm']
  intro d hd i hi
  obtain ⟨c, hc, hdc⟩ := h.symm.exists_counterpart hd
  have hsame := h.symm.alike hdc
  rw [← hsame] at hi
  have hunlinked : i.target = none := h.stocked.unlinked hfurnished hc i hi
  have hfound := hlinked c hc i hi
  unfold Machine.resolved at hfound ⊢
  rw [hunlinked] at hfound ⊢
  obtain ⟨ref, href⟩ := Option.isSome_iff_exists.mp hfound
  obtain ⟨ref', href', -⟩ := h.module?_some href
  exact Option.isSome_of_mem href'

/-- What has been linked in one order has been linked alike in the other. -/
theorem linkedAlike (h : Reordered m₀ sources sources' news news' m m')
    (hfurnished : Furnished CoreModule.all.length m₀) (hlinks : m.Links n) (hlinks' : m'.Links n') :
    LinkedAlike m₀ m m' n n' where
  pairs := h.biUnique
  covered c hc := by
    rw [hlinks.loaded] at hc
    rw [hlinks'.loaded]
    exact h.exists_counterpart hc
  covering d hd := by
    rw [hlinks'.loaded] at hd
    rw [hlinks.loaded]
    obtain ⟨c, hc, hdc⟩ := h.symm.exists_counterpart hd
    exact ⟨c, hc, counterpart_symm hdc⟩
  names c d hcd := by
    rw [hlinks.source, hlinks'.source, ← h.alike hcd]
  modules c d hcd := by
    rw [hlinks.modules, hlinks'.modules, ← h.alike hcd]
  imports c d hcd := by
    obtain ⟨hc, hd⟩ := h.loaded_of_counterpart hcd
    have hsame : (m'.context d).imports = (m.context c).imports := by rw [← h.alike hcd]
    rw [hlinks.context, hlinks'.context, if_pos hc, if_pos hd]
    dsimp only
    rw [hsame, Array.toList_map, Array.toList_map, List.forall₂_map_left_iff,
      List.forall₂_map_right_iff, List.forall₂_same]
    intro i hi
    have hunlinked : i.target = none := h.stocked.unlinked hfurnished hc i (Array.mem_def.mpr hi)
    have hfound := hlinks.found c hc i (Array.mem_def.mpr hi)
    unfold Machine.resolved at hfound ⊢
    rw [hunlinked] at hfound ⊢
    obtain ⟨ref, href⟩ := Option.isSome_iff_exists.mp hfound
    obtain ⟨ref', href', hcounterpart⟩ := h.module?_some href
    exact ⟨rfl, ref, ref', href, href', hcounterpart⟩

/-- A source can be found and all can be linked in the other order, too. -/
theorem prepareRun_ok (h : Reordered m₀ sources sources' news news' m m')
    (hfurnished : Furnished CoreModule.all.length m₀) (hm : m.Consistent) (hm' : m'.Consistent)
    {entry : String} (hprepared : ∃ plan n, prepareRun entry m = .ok plan n) :
    ∃ plan n, prepareRun entry m' = .ok plan n := by
  obtain ⟨plan, n, hprepared⟩ := hprepared
  obtain ⟨c, hfound, hlinked, -⟩ := of_prepareRun hprepared
  obtain ⟨d, hfound', -⟩ := h.context?_some hfound
  obtain ⟨n', hlinked'⟩ := h.link_ok hfurnished hm hm' ⟨n, hlinked⟩
  exact ⟨_, n', prepareRun_found hfound' hlinked'⟩

/-- Before anything is run, counterparts have been entered or not alike. -/
theorem enteredAlike (h : Reordered m₀ sources sources' news news' m m') (hlinks : m.Links n)
    (hlinks' : m'.Links n') (hidle : m₀.evaluating = []) :
    EnteredAlike (Counterpart m₀ m m') n n' := by
  intro c d hcd
  have hevaluated : (m'.context d).evaluated = (m.context c).evaluated := by rw [← h.alike hcd]
  unfold Machine.Entered
  rw [hlinks.evaluated, hlinks'.evaluated, hlinks.evaluating, hlinks'.evaluating,
    h.stocked.evaluating, h.stocked'.evaluating, hidle, hevaluated]
  simp

end Reordered

/-! ### What is run in two orders -/

/-- Assumes: a session that has been started, and sources whose names differ, that export no two
modules of one name and none of a core module. It does not matter in which order they are loaded. A
source can be found and all can be linked in both orders or in neither. If they can be, then what is
imported is the same module of the same source, and the bodies that are run for the source, if none
of them fails, are those of the same sources, one after the other. -/
theorem load_order_is_nothing {options : Options} {level : LogLevel} {m₀ : Machine}
    (hstart : start options { logLevel := level } = .ok () m₀) {sources sources' : List SourceText}
    (hperm : sources.Perm sources') (hnames : (sources.map (·.name)).Nodup)
    (hexports : (sources.flatMap SourceText.exports).Nodup)
    (hcores : ∀ core ∈ CoreModule.all, core.name ∉ sources.flatMap SourceText.exports)
    (entry : String) :
    let m := after m₀ (loading sources)
    let m' := after m₀ (loading sources')
    ((∃ plan n, prepareRun entry m = .ok plan n) ↔ ∃ plan n, prepareRun entry m' = .ok plan n) ∧
    ∀ plan plan' n n', prepareRun entry m = .ok plan n → prepareRun entry m' = .ok plan' n' →
      LinkedAlike m₀ m m' n n' ∧
      ∀ runs runs', (Request.user (.run entry)).Runs m runs →
        (Request.user (.run entry)).Runs m' runs' →
        (∀ run ∈ runs, run.Completed) → (∀ run ∈ runs', run.Completed) →
          runs.map (fun run ↦ (n.context run.context).source) =
            runs'.map fun run ↦ (n'.context run.context).source := by
  intro m m'
  obtain ⟨hfurnished, -, -⟩ := Furnished.of_start hstart
  have hrest : m₀.AtRest := atRest_start hstart
  have hm : m.AtRest := atRest_after hrest _
  have hm' : m'.AtRest := atRest_after hrest _
  obtain ⟨news, hstocked⟩ := stocked_after m₀ sources
  obtain ⟨news', hstocked'⟩ := stocked_after m₀ sources'
  have h : Reordered m₀ sources sources' news news' m m' :=
    { stocked := hstocked
      stocked' := hstocked'
      perm := hperm
      names := hnames
      exports := hexports
      apart := fun c hc module hmodule ↦ by
        have hc := hfurnished.loaded c hc
        have hsource := hfurnished.source c _ hc (List.getElem?_eq_getElem hc)
        rw [hsource.modules module hmodule]
        exact hcores _ (List.getElem_mem hc)
      exists_former := fun c hc ↦ hrest.consistent.loaded c hc }
  refine ⟨⟨h.prepareRun_ok hfurnished hm.consistent hm'.consistent,
    h.symm.prepareRun_ok hfurnished hm'.consistent hm.consistent⟩, ?_⟩
  intro plan plan' n n' hplan hplan'
  obtain ⟨c, hfound, hlinked, rfl⟩ := of_prepareRun hplan
  obtain ⟨d, hfound', hlinked', rfl⟩ := of_prepareRun hplan'
  have hlinks := links_of_link hm.consistent hlinked
  have hlinks' := links_of_link hm'.consistent hlinked'
  have halike := h.linkedAlike hfurnished hlinks hlinks'
  refine ⟨halike, fun runs runs' hruns hruns' hcompleted hcompleted' ↦ ?_⟩
  obtain ⟨_, htour⟩ := hruns.tour_of_prepare hplan
  obtain ⟨_, htour'⟩ := hruns'.tour_of_prepare hplan'
  obtain ⟨k, rfl⟩ := htour.ok_of_completed hcompleted
  obtain ⟨k', rfl⟩ := htour'.ok_of_completed hcompleted'
  have hentry : Counterpart m₀ m m' c d := by
    obtain ⟨d', hfound'', hcd⟩ := h.context?_some hfound
    rw [hfound'] at hfound''
    cases hfound''
    exact hcd
  have hentered := h.enteredAlike hlinks hlinks' hrest.idle
  obtain ⟨hbodies, -⟩ := htour.alongside h.biUnique rfl htour' (.cons hentry .nil)
    halike.dependingAlike hentered
  rw [List.forall₂_map_left_iff, List.forall₂_map_right_iff] at hbodies
  rw [← List.forall₂_eq_eq_eq, List.forall₂_map_left_iff, List.forall₂_map_right_iff]
  exact hbodies.imp fun run run' hpair ↦ (halike.names _ _ hpair).symm

/-- The sources of the circle are loaded in two orders. The last of them can be run in both, and the
bodies of the same sources are run for it. -/
theorem circle_in_two_orders :
    let m := after plainSession (loading circle)
    let m' := after plainSession (loading circle.reverse)
    ∃ n n' runs runs', prepareRun "main" m = .ok { sources := [⟨8⟩] } n ∧
      prepareRun "main" m' = .ok { sources := [⟨4⟩] } n' ∧ LinkedAlike plainSession m m' n n' ∧
      (Request.user (.run "main")).Runs m runs ∧ (Request.user (.run "main")).Runs m' runs' ∧
      runs.map (fun run ↦ (n.context run.context).source) =
        runs'.map fun run ↦ (n'.context run.context).source := by
  intro m m'
  have hrest : plainSession.AtRest := atRest_start start_plainSession
  obtain ⟨hboth, halike⟩ := load_order_is_nothing start_plainSession (List.reverse_perm circle).symm
    (by decide) (by decide) (by decide) "main"
  let request : Request := .user (.run "main")
  have hstates : (context? m "main" = some ⟨8⟩ ∧ Outcome.value? (link m) = some () ∧
        Outcome.value? (request.act m) = some ()) ∧
      context? m' "main" = some ⟨4⟩ ∧ Outcome.value? (request.act m') = some () := by
    decide +kernel
  obtain ⟨⟨hfound, hlinked, hact⟩, hfound', hact'⟩ := hstates
  have hprepared := prepareRun_found hfound (Outcome.eq_ok hlinked)
  obtain ⟨plan', n', hprepared'⟩ := hboth.mp ⟨_, _, hprepared⟩
  obtain ⟨c, hc, -, rfl⟩ := of_prepareRun hprepared'
  obtain rfl : ⟨4⟩ = c := Option.some_inj.mp (hfound'.symm.trans hc)
  obtain ⟨hlinkedAlike, hnames⟩ := halike _ _ _ _ hprepared hprepared'
  have hm : m.AtRest := atRest_after hrest _
  have hm' : m'.AtRest := atRest_after hrest _
  obtain ⟨runs, hruns⟩ := request.exists_runs hm
  obtain ⟨runs', hruns'⟩ := request.exists_runs hm'
  exact ⟨_, n', runs, runs', hprepared, hprepared', hlinkedAlike, hruns, hruns',
    hnames runs runs' hruns hruns' (hruns.completed hm (Outcome.eq_ok hact))
      (hruns'.completed hm' (Outcome.eq_ok hact'))⟩

end TreeScript.Session
