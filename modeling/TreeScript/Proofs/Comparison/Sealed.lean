import TreeScript.Proofs.Comparison.Twins

/-!
# Sealed scopes

Some of the scopes of a machine are sealed: they are to bind the same names to the same cells
forever. Code may run at sites outside of them (`Site.Outside`): no scope of the frame is sealed, so
all names that the frame binds are bound elsewhere. The one other way to bind a name is to bind a
variable of the source anew because the frame does not know its name. So if the variables of the
source are sealed, the frame has to know the names of all of them. That is how the frame of a call
starts, and it never loses a name (`Machine.Keeps.names`). Only natives that remove names, and calls
that a host makes at the root of a source, could get around that (`Native.rebindsAnywhere`).
`Tracking.sealing` follows all other runs.
-/

set_option autoImplicit false

namespace TreeScript

/-- A machine has become another without a change to the sealed scopes, and without another scope
losing a name. -/
structure Machine.Keeps (sealed : ScopeRef → Prop) (m n : Machine) : Prop where
  size : m.scopes.size ≤ n.scopes.size
  contexts : n.contexts = m.contexts
  scope : ∀ ref : ScopeRef, sealed ref → n.scope ref = m.scope ref
  names : ∀ (ref : ScopeRef) (name : String), ¬sealed ref →
    (m.scope ref).contains name → (n.scope ref).contains name

/-- A site no scope of which is sealed, and which sees all variables of its source if these are. -/
structure Site.Outside (sealed : ScopeRef → Prop) (m : Machine) (site : Site) : Prop where
  scopes : ∀ ref ∈ site.frame.scopes, ¬sealed ref
  visible : sealed (m.context site.context).globals →
    ∀ name, (m.global? site.context name).isSome → (m.lookUpName site.frame name).isSome

/-- A name is visible exactly if a scope of the frame has it. -/
theorem Machine.isSome_lookUpName (m : Machine) (frame : Frame) (name : String) :
    (m.lookUpName frame name).isSome ↔ ∃ ref ∈ frame.scopes, (m.scope ref).contains name := by
  unfold Machine.lookUpName
  rw [List.findSome?_isSome_iff]
  simp only [Std.TreeMap.contains_eq_isSome_getElem?]

variable {sealed : ScopeRef → Prop} {m n k : Machine}

namespace Machine.Keeps

theorem refl (m : Machine) : Keeps sealed m m :=
  ⟨Nat.le_refl _, rfl, fun _ _ ↦ rfl, fun _ _ _ h ↦ h⟩

theorem trans (hmn : Keeps sealed m n) (hnk : Keeps sealed n k) : Keeps sealed m k where
  size := Nat.le_trans hmn.size hnk.size
  contexts := hnk.contexts.trans hmn.contexts
  scope ref h := (hnk.scope ref h).trans (hmn.scope ref h)
  names ref name h hname := hnk.names ref name h (hmn.names ref name h hname)

/-- Machines with the same scopes and sources. -/
theorem of_untouched (hscopes : n.scopes = m.scopes) (hcontexts : n.contexts = m.contexts) :
    Keeps sealed m n := by
  have hscope (ref : ScopeRef) : n.scope ref = m.scope ref := Machine.scope_congr hscopes ref
  exact ⟨Nat.le_of_eq (by rw [hscopes]), hcontexts, fun ref _ ↦ hscope ref,
    fun ref name _ h ↦ by rwa [hscope]⟩

theorem context (h : Keeps sealed m n) (ref : ContextRef) : n.context ref = m.context ref :=
  Machine.context_congr h.contexts ref

/-- Assumes: a source whose variables are sealed. They stay as they are. -/
theorem global? (h : Keeps sealed m n) {ref : ContextRef} (name : String)
    (hsealed : sealed (m.context ref).globals) : n.global? ref name = m.global? ref name := by
  unfold Machine.global?
  rw [h.context, h.scope _ hsealed]

/-- Assumes: sealed scopes that exist. A new scope is none of them. -/
theorem withScope (scope : Scope) (hexist : ∀ ref, sealed ref → ref.index < m.scopes.size) :
    Keeps sealed m (m.withScope scope) where
  size := by
    unfold Machine.withScope
    rw [Array.size_push]
    exact Nat.le_succ _
  contexts := rfl
  scope ref h := by
    have hexists := hexist ref h
    rw [scope_withScope, if_neg (by omega)]
  names ref name h hname := by
    rw [scope_withScope]
    split
    · have hsize : m.scopes.size ≤ ref.index := by omega
      rw [Machine.scope_of_missing hsize] at hname
      simp at hname
    · exact hname

/-- Assumes: a scope that is not sealed. A name may be bound there. -/
theorem bound {ref : ScopeRef} (name : String) (cell : CellRef) (hopen : ¬sealed ref) :
    Keeps sealed m (m.bound ref name cell) where
  size := by
    unfold Machine.bound
    exact Nat.le_of_eq Array.size_modify.symm
  contexts := rfl
  scope other h := by
    have hother : ref.index ≠ other.index := by
      rintro hsame
      have : ref = other := by
        cases ref
        cases other
        exact congrArg _ hsame
      exact hopen (this ▸ h)
    rw [scope_bound, if_neg fun hboth ↦ hother hboth.1]
  names other former h hname := by
    rw [scope_bound]
    split
    · rw [Std.TreeMap.contains_insert, hname, Bool.or_true]
    · exact hname

end Machine.Keeps

namespace Site.Outside

variable {s : Site}

/-- A site that is outside stays so while its machine keeps the sealed scopes. -/
theorem later (h : s.Outside sealed m) (hkeeps : m.Keeps sealed n) : s.Outside sealed n where
  scopes := h.scopes
  visible hsealed name hglobal := by
    rw [hkeeps.context] at hsealed
    rw [hkeeps.global? name hsealed] at hglobal
    obtain ⟨ref, hmem, hname⟩ := (m.isSome_lookUpName _ _).mp (h.visible hsealed name hglobal)
    exact (n.isSome_lookUpName _ _).mpr ⟨ref, hmem, hkeeps.names ref name (h.scopes ref hmem) hname⟩

variable (hexist : ∀ ref, sealed ref → ref.index < n.scopes.size)
include hexist

/-- The scope made next is not sealed. -/
theorem not_sealed_next : ¬sealed ⟨n.scopes.size⟩ :=
  fun h ↦ Nat.lt_irrefl _ (hexist _ h)

/-- A fork sees what the site sees, and has a new scope more. -/
theorem fork (h : s.Outside sealed n) :
    Site.Outside sealed (n.withScope {})
      { s with
        frame := { top := ⟨n.scopes.size⟩, outer := s.frame.scopes, trace := s.frame.trace } } := by
  have hlater := h.later (.withScope {} hexist)
  constructor
  · intro ref hmem
    rcases List.mem_cons.mp hmem with rfl | hmem
    · exact not_sealed_next hexist
    · exact h.scopes ref hmem
  · intro hsealed name hglobal
    obtain ⟨ref, hmem, hname⟩ :=
      (Machine.isSome_lookUpName ..).mp (hlater.visible hsealed name hglobal)
    exact (Machine.isSome_lookUpName ..).mpr ⟨ref, List.mem_cons_of_mem _ hmem, hname⟩

/-- Assumes: a scope with a name for each variable a source had. Code of the source may run in a
frame with nothing but this scope. -/
theorem opened {context : ContextRef} {scope : Scope} (hkeeps : m.Keeps sealed n)
    (hscope : ∀ name, (m.global? context name).isSome → scope.contains name) (trace : TraceRef) :
    Site.Outside sealed (n.withScope scope)
      ⟨context, { top := ⟨n.scopes.size⟩, outer := [], trace }⟩ := by
  have hopened := hkeeps.trans (.withScope scope hexist)
  constructor
  · intro ref hmem
    cases List.mem_singleton.mp hmem
    exact not_sealed_next hexist
  · intro hsealed name hglobal
    rw [hopened.context] at hsealed
    rw [hopened.global? name hsealed] at hglobal
    refine (Machine.isSome_lookUpName ..).mpr ⟨_, List.mem_cons_self .., ?_⟩
    rw [Machine.scope_withScope, if_pos rfl]
    exact hscope name hglobal

end Site.Outside

/-- The natives that can change bindings anywhere: removing names, and calls at the root of a
source. -/
def Native.rebindsAnywhere : Native → Bool
  | .removeVariable => true
  | .host .bare => true
  | _ => false

/-- Runs at sites outside of sealed scopes. -/
def Tracking.sealing (sealed : ScopeRef → Prop) : Tracking where
  Inv m := ∀ ref, sealed ref → ref.index < m.scopes.size
  Later := Machine.Keeps sealed
  Sites m s s' := s.Alike s' ∧ s.Outside sealed m
  avoided := Native.rebindsAnywhere
  later_refl := .refl
  later_trans := .trans
  inv_later hkeeps hexist ref h := Nat.lt_of_lt_of_le (hexist ref h) hkeeps.size
  sites_later hkeeps hsites := ⟨hsites.1, hsites.2.later hkeeps⟩
  sites_alike hsites := hsites.1
  untouched hscopes hsources _ := .of_untouched hscopes hsources.contexts
  withScope := .withScope
  sites_fork hexist hsites := by
    refine ⟨?_, hsites.2.fork hexist⟩
    obtain ⟨trace⟩ := hsites.1
    exact .retraced trace
  sites_open trace trace' hkeeps hexist hscope :=
    ⟨.retraced trace', .opened hexist hkeeps hscope trace⟩
  bound name hsites hmem _ hnew := .trans (.of_untouched hnew.scopes hnew.sources.contexts)
    (.bound name _ (hsites.2.scopes _ hmem))
  boundReceiver {_ _ _ name} cell _ hsites :=
    .bound name cell (hsites.2.scopes _ (List.mem_cons_self ..))
  rebound {m n k s _ name cell} hsites hfree hglobal hkeeps hnew := by
    refine .trans (.of_untouched hnew.scopes hnew.sources.contexts) (.bound name cell ?_)
    rw [hkeeps.context]
    intro hsealed
    have hseen := hsites.2.visible hsealed name hglobal
    rw [hfree] at hseen
    cases hseen
  unbound _ havoided := nomatch havoided
  lastSite havoided := nomatch havoided

end TreeScript
