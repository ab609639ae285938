import TreeScript.Proofs.Objects.Storage

/-!
# Activations

A body runs in a frame of its own, and branches, loops and literal objects within it run in forks of
that frame. These are the frames of an activation, and each function that is defined in one of them
captures it. When such a function is called, its body gets what the captured frame binds, and so
belongs to the same activation as far as a name is concerned that it does not bind itself.
`Machine.Activations` follows a run with the frames of its activations.

Whatever is evaluated, a name is only ever bound to a cell that is made for it
(`Machine.Unfolds.named`), unless it stands for a receiver; and nothing but the scope of a body
takes over what names are bound to elsewhere. So if a body does not get the cell of a name from
elsewhere when it starts, the frames of its activation never share that cell with those of another
one (`Machine.Activations.eq_of_lookUpName`).
-/

set_option autoImplicit false

namespace TreeScript

/-! ### What evaluation does to scopes -/

namespace Machine

/-- A machine has become another one by steps that leave its scopes alone, add one, bind a name to a
new cell, bind a receiver, or remove a name. -/
inductive Unfolds : Machine → Machine → Prop
  | elsewhere {m n : Machine} (hscopes : n.scopes = m.scopes)
    (hcells : m.cells.size ≤ n.cells.size) : Unfolds m n
  | opened (m : Machine) (scope : Scope) : Unfolds m (m.withScope scope)
  | named {m n : Machine} {cell : CellRef} (hnew : m.Introduces n cell) (ref : ScopeRef)
    (name : String) : Unfolds m (n.bound ref name cell)
  | receiver (m : Machine) (ref : ScopeRef) {name : String} (hname : name ∈ receiverNames)
    (cell : CellRef) : Unfolds m (m.bound ref name cell)
  | removed (m : Machine) (ref : ScopeRef) (name : String) : Unfolds m (m.unbound ref name)
  | trans {m n k : Machine} (hfirst : Unfolds m n) (hsecond : Unfolds n k) : Unfolds m k

theorem Unfolds.refl (m : Machine) : m.Unfolds m := .elsewhere rfl (Nat.le_refl _)

/-- No cell gets lost. -/
theorem Unfolds.size {m n : Machine} (h : m.Unfolds n) : m.cells.size ≤ n.cells.size := by
  induction h with
  | elsewhere _ hcells => exact hcells
  | opened | receiver | removed => exact Nat.le_refl _
  | named hnew => exact Nat.le_of_lt (Nat.lt_of_le_of_lt hnew.fresh hnew.made)
  | trans _ _ ihfirst ihsecond => exact Nat.le_trans ihfirst ihsecond

end Machine

/-- Runs of which the scopes are followed. -/
def Tracking.unfolding : Tracking where
  Inv _ := True
  Later := Machine.Unfolds
  Sites _ s s' := s.Alike s'
  avoided _ := false
  later_refl := .refl
  later_trans := .trans
  inv_later _ _ := trivial
  sites_later _ h := h
  sites_alike h := h
  untouched hscopes _ hevolved := by
    obtain ⟨history, hevolved⟩ := hevolved
    exact .elsewhere hscopes hevolved.size
  withScope scope _ := .opened _ scope
  sites_fork := Tracking.nothing.sites_fork
  sites_open _ trace' _ _ _ := .retraced trace'
  bound name _ _ _ hnew := .named hnew _ name
  boundReceiver cell hname _ := .receiver _ _ hname cell
  rebound _ _ _ _ hnew := .named hnew _ _
  unbound name _ _ _ := .removed _ _ name
  lastSite := Tracking.nothing.lastSite

theorem evaluates_unfolding (n : Nat) : Tracking.unfolding.comparison.Evaluates (interp n) := by
  rw [← interpAvoiding_nothing n]
  exact Tracking.unfolding.comparison.evaluates_interpAvoiding n

/-- However an evaluation ends, what it has done to the scopes are such steps. -/
theorem evaluation_unfolds (n : Nat) (site : Site) (mode : Mode) (node : Node) (m : Machine) :
    m.Unfolds (Outcome.final ((interp n).eval site mode node m)) := by
  have hsites : Tracking.unfolding.comparison.Sites m site site := .retraced site.frame.trace
  have hsame := (evaluates_unfolding n).eval mode node hsites
  exact (hsame.now ⟨.refl m, trivial⟩).later

/-- However a call ends, what it has done to the scopes are such steps. -/
theorem call_unfolds (n : Nat) (site : Site) (name : String) (preparation : Preparation)
    (function : CellRef) (args : List CellRef) (m : Machine) :
    m.Unfolds (Outcome.final ((interp n).call site name preparation function args m)) := by
  have hsites : Tracking.unfolding.comparison.Sites m site site := .retraced site.frame.trace
  have hsame := (evaluates_unfolding n).call name preparation function args hsites
  exact (hsame.now ⟨.refl m, trivial⟩).later

/-! ### Scopes that share no cell -/

namespace Machine

variable {m n : Machine} {name : String} {own : ScopeRef → Nat → Prop}

/-- What a scope binds a name to once some scope binds some name. -/
theorem getElem?_scope_bound (m : Machine) (target ref : ScopeRef) (other name : String)
    (cell : CellRef) :
    ((m.bound target other cell).scope ref)[name]? =
      if other = name ∧ target = ref ∧ ref.index < m.scopes.size then some cell
      else (m.scope ref)[name]? := by
  rw [scope_bound]
  by_cases hplace : target.index = ref.index ∧ ref.index < m.scopes.size
  · have hsame : target = ref := by
      cases target
      cases ref
      exact congrArg ScopeRef.mk hplace.1
    rw [if_pos hplace, Std.TreeMap.getElem?_insert]
    by_cases hname : other = name
    · rw [if_pos (Std.LawfulEqCmp.compare_eq_iff_eq.mpr hname), if_pos ⟨hname, hsame, hplace.2⟩]
    · rw [if_neg fun h ↦ hname (Std.LawfulEqCmp.compare_eq_iff_eq.mp h), if_neg fun h ↦ hname h.1]
  · rw [if_neg hplace, if_neg fun h ↦ hplace ⟨congrArg ScopeRef.index h.2.1, h.2.2⟩]

/-- To remove a name binds nothing. -/
theorem getElem?_of_unbound {target ref : ScopeRef} {other : String} {cell : CellRef}
    (h : ((m.unbound target other).scope ref)[name]? = some cell) :
    (m.scope ref)[name]? = some cell := by
  rw [scope_unbound] at h
  split at h
  · rw [Std.TreeMap.getElem?_erase] at h
    split at h
    · cases h
    · exact h
  · exact h

/-- Scopes are numbered, those that belong together with the same number. They exist, and so do the
cells they bind a name to. Each scope and each of these cells has one number only. -/
structure Numbered (m : Machine) (name : String) (own : ScopeRef → Nat → Prop) : Prop where
  scopes : ∀ {ref : ScopeRef} {a : Nat}, own ref a → ref.index < m.scopes.size
  cells : ∀ {ref : ScopeRef} {a : Nat} {cell : CellRef}, own ref a →
    (m.scope ref)[name]? = some cell → cell.index < m.cells.size
  scope : ∀ {ref : ScopeRef} {a b : Nat}, own ref a → own ref b → a = b
  cell : ∀ {ref other : ScopeRef} {a b : Nat} {cell : CellRef}, own ref a → own other b →
    (m.scope ref)[name]? = some cell → (m.scope other)[name]? = some cell → a = b

/-- Scopes stay numbered while they bind the name to nothing more. -/
theorem Numbered.mono (h : m.Numbered name own) (hscopes : m.scopes.size ≤ n.scopes.size)
    (hcells : m.cells.size ≤ n.cells.size)
    (hbinds : ∀ {ref : ScopeRef} {a : Nat} {cell : CellRef}, own ref a →
      (n.scope ref)[name]? = some cell → (m.scope ref)[name]? = some cell) :
    n.Numbered name own where
  scopes href := Nat.lt_of_lt_of_le (h.scopes href) hscopes
  cells href hcell := Nat.lt_of_lt_of_le (h.cells href (hbinds href hcell)) hcells
  scope := h.scope
  cell href hother hcell hshared := h.cell href hother (hbinds href hcell) (hbinds hother hshared)

theorem Numbered.subset (h : m.Numbered name own) {fewer : ScopeRef → Nat → Prop}
    (hsubset : ∀ {ref : ScopeRef} {a : Nat}, fewer ref a → own ref a) : m.Numbered name fewer where
  scopes href := h.scopes (hsubset href)
  cells href := h.cells (hsubset href)
  scope href href' := h.scope (hsubset href) (hsubset href')
  cell href hother := h.cell (hsubset href) (hsubset hother)

/-- A name is bound to a new cell in one scope. -/
theorem Numbered.named (h : m.Numbered name own) {cell : CellRef} (hnew : m.Introduces n cell)
    (target : ScopeRef) (other : String) : (n.bound target other cell).Numbered name own := by
  have hgrown : m.cells.size ≤ n.cells.size :=
    Nat.le_of_lt (Nat.lt_of_le_of_lt hnew.fresh hnew.made)
  have hscope (ref : ScopeRef) : n.scope ref = m.scope ref := scope_congr hnew.scopes ref
  have hsize : (n.bound target other cell).scopes.size = m.scopes.size := by
    rw [← hnew.scopes]
    exact Array.size_modify
  -- What a scope binds the name to is the new cell, or what it was before.
  have hbinds {ref : ScopeRef} {found : CellRef}
      (hfound : ((n.bound target other cell).scope ref)[name]? = some found) :
      found = cell ∧ target = ref ∨ (m.scope ref)[name]? = some found := by
    rw [getElem?_scope_bound] at hfound
    split at hfound
    · rename_i hplace
      exact .inl ⟨(Option.some.inj hfound).symm, hplace.2.1⟩
    · rw [hscope] at hfound
      exact .inr hfound
  have hold {ref : ScopeRef} {a : Nat} (href : own ref a) : (m.scope ref)[name]? ≠ some cell :=
    fun hfound ↦ Nat.not_lt_of_le hnew.fresh (h.cells href hfound)
  refine ⟨fun href ↦ ?_, fun {ref a found} href hfound ↦ ?_, h.scope,
    fun {ref ref' a b found} href href' hfound hshared ↦ ?_⟩
  · rw [hsize]
    exact h.scopes href
  · rcases hbinds hfound with ⟨rfl, -⟩ | hformer
    · exact hnew.made
    · exact Nat.lt_of_lt_of_le (h.cells href hformer) hgrown
  · rcases hbinds hfound with ⟨rfl, rfl⟩ | hformer
    · rcases hbinds hshared with ⟨-, rfl⟩ | hformer'
      · exact h.scope href href'
      · exact absurd hformer' (hold href')
    · rcases hbinds hshared with ⟨rfl, -⟩ | hformer'
      · exact absurd hformer (hold href)
      · exact h.cell href href' hformer hformer'

/-- Assumes: a name that stands for no receiver. Scopes that share no cell for it never come to. -/
theorem Numbered.unfolds (h : m.Numbered name own) (hname : name ∉ receiverNames)
    (hunfolds : m.Unfolds n) : n.Numbered name own := by
  induction hunfolds with
  | @elsewhere m n hscopes hcells =>
    refine h.mono (Nat.le_of_eq (congrArg Array.size hscopes.symm)) hcells fun _ hcell ↦ ?_
    rwa [scope_congr hscopes] at hcell
  | opened m scope =>
    refine h.mono (Nat.le_of_lt (size_lt_push _ _)) (Nat.le_refl _) fun href hcell ↦ ?_
    rwa [scope_withScope, if_neg (Nat.ne_of_lt (h.scopes href))] at hcell
  | named hnew target other => exact h.named hnew target other
  | @receiver m target other hother cell =>
    refine h.mono (Nat.le_of_eq Array.size_modify.symm) (Nat.le_refl _) fun _ hfound ↦ ?_
    rwa [getElem?_scope_bound, if_neg] at hfound
    rintro ⟨rfl, -⟩
    exact hname hother
  | removed m target other =>
    exact h.mono (Nat.le_of_eq Array.size_modify.symm) (Nat.le_refl _) fun _ ↦ getElem?_of_unbound
  | trans _ _ ihfirst ihsecond => exact ihsecond (ihfirst h)

/-- A scope is added that gets a number. If it binds the name, it is to a new cell, or to a cell
that a scope with this number binds it to. -/
theorem Numbered.opened (h : m.Numbered name own) {scope : Scope} {number : Nat}
    (hscopes : n.scopes = m.scopes.push scope) (hcells : m.cells.size ≤ n.cells.size)
    (hscope : ∀ {cell : CellRef}, scope[name]? = some cell →
      m.cells.size ≤ cell.index ∧ cell.index < n.cells.size ∨
        ∃ ref, own ref number ∧ (m.scope ref)[name]? = some cell) :
    n.Numbered name fun ref a ↦ ref = ⟨m.scopes.size⟩ ∧ a = number ∨ own ref a := by
  have hnew : n.scope ⟨m.scopes.size⟩ = scope := by
    unfold Machine.scope
    rw [hscopes, getD_push, if_pos rfl]
  have hkept {ref : ScopeRef} {a : Nat} (href : own ref a) : n.scope ref = m.scope ref := by
    unfold Machine.scope
    rw [hscopes, getD_push, if_neg (Nat.ne_of_lt (h.scopes href))]
  have hsize : n.scopes.size = m.scopes.size + 1 := by
    rw [hscopes]
    exact Array.size_push _
  have hnumber {other : ScopeRef} {a : Nat} {cell : CellRef} (hother : own other a)
      (hcell : scope[name]? = some cell) (hshared : (m.scope other)[name]? = some cell) :
      number = a := by
    rcases hscope hcell with hfresh | ⟨ref, href, hbinds⟩
    · exact absurd (h.cells hother hshared) (Nat.not_lt_of_le hfresh.1)
    · exact h.cell href hother hbinds hshared
  constructor
  · rintro ref a (⟨rfl, -⟩ | href)
    · exact Nat.lt_of_lt_of_eq (Nat.lt_succ_self _) hsize.symm
    · exact Nat.lt_of_lt_of_le (h.scopes href) (hsize ▸ Nat.le_succ _)
  · rintro ref a cell (⟨rfl, -⟩ | href) hcell
    · rw [hnew] at hcell
      rcases hscope hcell with hfresh | ⟨other, hother, hbinds⟩
      · exact hfresh.2
      · exact Nat.lt_of_lt_of_le (h.cells hother hbinds) hcells
    · rw [hkept href] at hcell
      exact Nat.lt_of_lt_of_le (h.cells href hcell) hcells
  · rintro ref a b (⟨rfl, rfl⟩ | href) (⟨hsame, rfl⟩ | href')
    · rfl
    · exact absurd (h.scopes href') (Nat.lt_irrefl _)
    · exact absurd (hsame ▸ h.scopes href) (Nat.lt_irrefl _)
    · exact h.scope href href'
  · rintro ref other a b cell (⟨rfl, rfl⟩ | href) (⟨rfl, rfl⟩ | hother) hcell hshared
    · rfl
    · rw [hnew] at hcell
      rw [hkept hother] at hshared
      exact hnumber hother hcell hshared
    · rw [hnew] at hshared
      rw [hkept href] at hcell
      exact (hnumber href hshared hcell).symm
    · rw [hkept href] at hcell
      rw [hkept hother] at hshared
      exact h.cell href hother hcell hshared

end Machine

/-! ### What a body starts with -/

/-- Names that are bound one after the other are bound to one of the cells, and all other names to
what they were bound to before. -/
theorem Scope.bindAll_cases (names : List String) (cells : List CellRef) (scope : Scope)
    (name : String) :
    (∃ (i : Nat) (cell : CellRef), names[i]? = some name ∧ cells[i]? = some cell ∧
      (scope.bindAll names cells)[name]? = some cell) ∨
    (name ∉ names.take cells.length ∧ (scope.bindAll names cells)[name]? = scope[name]?) := by
  induction names generalizing cells scope with
  | nil => exact .inr ⟨by rw [List.take_nil]; exact List.not_mem_nil, rfl⟩
  | cons first names ih =>
    cases cells with
    | nil => exact .inr ⟨List.not_mem_nil, rfl⟩
    | cons cell cells =>
      rcases ih cells (scope.insert first cell) with
        ⟨i, found, hname, hcell, hbinds⟩ | ⟨hno, hbinds⟩
      · exact .inl ⟨i + 1, found, hname, hcell, hbinds⟩
      · by_cases hsame : first = name
        · refine .inl ⟨0, cell, congrArg some hsame, rfl, hbinds.trans ?_⟩
          rw [hsame]
          exact Std.TreeMap.getElem?_insert_self
        · refine .inr ⟨fun hmem ↦ ?_, hbinds.trans ?_⟩
          · rcases List.mem_cons.mp hmem with heq | hmem
            · exact hsame heq.symm
            · exact hno hmem
          · rw [Std.TreeMap.getElem?_insert,
              if_neg fun h ↦ hsame (Std.LawfulEqCmp.compare_eq_iff_eq.mp h)]

/-- What a name stands for in the frame of a body that starts: a copy of the argument, or the cell
that it stands for where the function was defined, a variable of the source if need be. -/
structure Closure.Resolves (closure : Closure) (args : List CellRef) (name : String) (m : Machine)
    (frame : Frame) (start : Machine) : Prop where
  parameter : name ∈ closure.params → ∃ (i : Nat) (arg cell : CellRef),
    closure.params[i]? = some name ∧ args[i]? = some arg ∧ m.Stores arg cell start ∧
      start.lookUpName frame name = some cell
  captured : name ∉ closure.params → start.lookUpName frame name =
    (m.lookUpName closure.frame name).or (m.global? closure.context name)
  /-- What the cells hold is as it was. -/
  kept : m.KeepsCells start

/-- The names that a body may have got before all others. -/
def preparedNames : List String := ["self", "args"]

theorem Preparation.getElem?_scope_of_not_mem (preparation : Preparation) {name : String}
    (hname : name ∉ preparedNames) : preparation.scope[name]? = .none := by
  have habsent {other : String} (hother : other ∈ preparedNames) (cell : CellRef) :
      (Std.TreeMap.insert {} other cell : Scope)[name]? = .none := by
    rw [Std.TreeMap.getElem?_insert, if_neg, Std.TreeMap.getElem?_emptyc]
    intro hsame
    exact hname (Std.LawfulEqCmp.compare_eq_iff_eq.mp hsame ▸ hother)
  cases preparation with
  | none => exact Std.TreeMap.getElem?_emptyc
  | args object => exact habsent (.tail _ (.head _)) object
  | self receiver => exact habsent (.head _) receiver

section Start

variable {site inner : Site} {label name : String} {preparation : Preparation} {function : CellRef}
  {closure : Closure} {args : List CellRef} {m start : Machine}

/-- A name stands for what the only scope of the frame of a body binds it to. -/
theorem lookUpName_start {scope : Scope} (hscopes : start.scopes = m.scopes.push scope)
    (trace : TraceRef) (name : String) :
    start.lookUpName { top := ⟨m.scopes.size⟩, outer := [], trace } name = scope[name]? := by
  unfold Machine.lookUpName Machine.scope Frame.scopes
  rw [List.findSome?_cons, List.findSome?_nil, hscopes, Array.getElem?_push_size, Option.getD_some]
  cases scope[name]? <;> rfl

/-- Assumes: a body that is opened. A parameter stands for a copy of an argument. -/
theorem openBody_parameter
    (h : openBody site label preparation function closure args m = .ok inner start)
    (hparam : name ∈ closure.params) : ∃ (i : Nat) (arg cell : CellRef),
      closure.params[i]? = some name ∧ args[i]? = some arg ∧ m.Stores arg cell start ∧
        start.lookUpName inner.frame name = some cell := by
  obtain ⟨cells, hall, hlength, rfl, hscopes⟩ := openBody_parts h
  have hcount : cells.length = closure.params.length := hall.each.length_eq.symm.trans hlength
  rcases Scope.bindAll_cases closure.params cells _ name with
    ⟨i, cell, hi, hcell, hbinds⟩ | ⟨hno, -⟩
  · obtain ⟨hbound, rfl⟩ := List.getElem?_eq_some_iff.mp hcell
    have hargs : i < args.length := hall.each.length_eq ▸ hbound
    exact ⟨i, args[i], cells[i], hi, List.getElem?_eq_getElem hargs,
      hall.each.get hargs hbound, (lookUpName_start hscopes _ name).trans hbinds⟩
  · rw [hcount, List.take_length] at hno
    exact absurd hparam hno

/-- Assumes: a body that is opened. A parameter stands for a copy of the argument, and any other
name for what it stands for where the function was defined. -/
theorem openBody_resolves
    (h : openBody site label preparation function closure args m = .ok inner start)
    (hname : name ∉ preparedNames) : closure.Resolves args name m inner.frame start where
  parameter := openBody_parameter h
  captured hparam := by
    obtain ⟨cells, -, -, rfl, hscopes⟩ := openBody_parts h
    rw [lookUpName_start hscopes, closure.getElem?_bodyScope m preparation cells hparam,
      preparation.getElem?_scope_of_not_mem hname, Option.or_none]
    rfl
  kept := by
    obtain ⟨cells, hall, -⟩ := openBody_parts h
    exact hall.kept

end Start

/-! ### Frames of activations -/

namespace Machine

/-- A machine with the frames of activations, which are numbered. A body begins an activation if it
does not get the cell of the name from elsewhere when it starts: the name is a parameter, or does
not stand for anything yet. The forks of a frame belong to its activation, and so do the bodies of
functions that were defined in it and get the cell of the name from it. -/
inductive Activations (name : String) : Machine → List (Frame × Nat) → Prop
  | none (m : Machine) : Activations name m []
  | enter {m start : Machine} {frames : List (Frame × Nat)} {site inner : Site} {label : String}
    {preparation : Preparation} {function : CellRef} {closure : Closure} {args : List CellRef}
    {number : Nat} (hformer : Activations name m frames)
    (hnew : ∀ frame, (frame, number) ∉ frames)
    (hopen : openBody site label preparation function closure args m = .ok inner start)
    (howns : name ∈ closure.params ∨ start.lookUpName inner.frame name = .none) :
    Activations name start ((inner.frame, number) :: frames)
  | nested {m start : Machine} {frames : List (Frame × Nat)} {site inner : Site} {label : String}
    {preparation : Preparation} {function : CellRef} {closure : Closure} {args : List CellRef}
    {number : Nat} (hformer : Activations name m frames)
    (hopen : openBody site label preparation function closure args m = .ok inner start)
    (hframe : (closure.frame, number) ∈ frames) (hparam : name ∉ closure.params)
    (hcaptured : (m.lookUpName closure.frame name).isSome) :
    Activations name start ((inner.frame, number) :: frames)
  | fork {m n : Machine} {frames : List (Frame × Nat)} {frame inner : Frame} {number : Nat}
    (hformer : Activations name m frames) (hframe : (frame, number) ∈ frames)
    (hfork : frame.fork m = .ok inner n) : Activations name n ((inner, number) :: frames)
  | later {m n : Machine} {frames : List (Frame × Nat)} (hformer : Activations name m frames)
    (hunfolds : m.Unfolds n) : Activations name n frames

namespace Activations

variable {m n start : Machine} {name label : String} {frames : List (Frame × Nat)} {number : Nat}
  {site inner : Site} {preparation : Preparation} {function : CellRef} {closure : Closure}
  {args : List CellRef}

/-- The scopes of frames, with the numbers of the frames. -/
def Has (frames : List (Frame × Nat)) (ref : ScopeRef) (number : Nat) : Prop :=
  ∃ frame, (frame, number) ∈ frames ∧ ref ∈ frame.scopes

/-- The scopes of one more frame. -/
theorem Has.of_cons {frame : Frame} {ref : ScopeRef} {a : Nat}
    (h : Has ((frame, number) :: frames) ref a) :
    ref ∈ frame.scopes ∧ a = number ∨ Has frames ref a := by
  obtain ⟨found, hfound, href⟩ := h
  rcases List.mem_cons.mp hfound with hsame | hfound
  · cases hsame
    exact .inl ⟨href, rfl⟩
  · exact .inr ⟨found, hfound, href⟩

/-- Assumes: a body that is opened. If it gets the cell of the name from elsewhere, it is from a
frame with the number that it gets. -/
theorem numbered_body (h : m.Numbered name (Has frames))
    (hopen : openBody site label preparation function closure args m = .ok inner start)
    (howns : ∀ {cell : CellRef}, start.lookUpName inner.frame name = some cell →
      name ∈ closure.params ∨
        ∃ ref, Has frames ref number ∧ (m.scope ref)[name]? = some cell) :
    start.Numbered name (Has ((inner.frame, number) :: frames)) := by
  have hparameter (hparam : name ∈ closure.params) := openBody_parameter hopen hparam
  obtain ⟨cells, hall, -, rfl, hscopes⟩ := openBody_parts hopen
  have hlook := lookUpName_start hscopes site.frame.trace name
  refine (h.opened hscopes hall.kept.size fun hcell ↦ ?_).subset fun hhas ↦
    hhas.of_cons.imp_left fun hnew ↦ ⟨List.mem_singleton.mp hnew.1, hnew.2⟩
  rcases howns (hlook.trans hcell) with hparam | hshared
  · obtain ⟨_, _, found, -, -, hstores, hfound⟩ := hparameter hparam
    cases (hlook.trans hcell).symm.trans hfound
    exact .inl ⟨hstores.fresh, hstores.bound⟩
  · exact .inr hshared

/-- A fork gets the number of its frame. -/
theorem numbered_fork {frame inner : Frame} (h : m.Numbered name (Has frames))
    (hframe : (frame, number) ∈ frames) (hfork : frame.fork m = .ok inner n) :
    n.Numbered name (Has ((inner, number) :: frames)) := by
  cases hfork
  have hopened : (m.withScope {}).Numbered name fun ref a ↦
      ref = ⟨m.scopes.size⟩ ∧ a = number ∨ Has frames ref a :=
    h.opened rfl (Nat.le_refl _) fun hcell ↦ by
      rw [Std.TreeMap.getElem?_emptyc] at hcell
      cases hcell
  refine hopened.subset fun hhas ↦ ?_
  rcases hhas.of_cons with ⟨href, rfl⟩ | hhas
  · exact (List.mem_cons.mp href).imp (⟨·, rfl⟩) fun href ↦ ⟨frame, hframe, href⟩
  · exact .inr hhas

/-- Assumes: a name that stands for no receiver. -/
theorem numbered (h : m.Activations name frames) (hname : name ∉ receiverNames) :
    m.Numbered name (Has frames) := by
  induction h with
  | none m =>
    have hempty {ref : ScopeRef} {a : Nat} : ¬Has [] ref a := fun h ↦ by
      obtain ⟨_, hmem, -⟩ := h
      cases hmem
    exact ⟨fun h ↦ absurd h hempty, fun h ↦ absurd h hempty, fun h ↦ absurd h hempty,
      fun h ↦ absurd h hempty⟩
  | enter _ _ hopen howns ih =>
    exact numbered_body ih hopen fun hcell ↦ howns.imp_right fun hfree ↦ by
      rw [hfree] at hcell
      cases hcell
  | @nested m start frames site inner _ preparation _ closure _ number _ hopen hframe hparam
      hcaptured ih =>
    refine numbered_body ih hopen fun {cell} hcell ↦ .inr ?_
    obtain ⟨cells, -, -, rfl, hscopes⟩ := openBody_parts hopen
    obtain ⟨found, hfound⟩ := Option.isSome_iff_exists.mp hcaptured
    have hvisible : m.visible? closure.home name = some found := by
      change (m.lookUpName closure.frame name).or _ = _
      rw [hfound, Option.some_or]
    rw [lookUpName_start hscopes, closure.getElem?_bodyScope m preparation cells hparam, hvisible]
      at hcell
    cases hcell
    obtain ⟨ref, href, hbinds⟩ := List.exists_of_findSome?_eq_some hfound
    exact ⟨ref, ⟨closure.frame, hframe, href⟩, hbinds⟩
  | fork _ hframe hfork ih => exact numbered_fork ih hframe hfork
  | later _ hunfolds ih => exact ih.unfolds hname hunfolds

/-- Assumes: a name that stands for no receiver. If it stands for the same cell in two frames, they
belong to the same activation. -/
theorem eq_of_lookUpName (h : m.Activations name frames) (hname : name ∉ receiverNames)
    {frame other : Frame} {a b : Nat} {cell : CellRef} (hframe : (frame, a) ∈ frames)
    (hother : (other, b) ∈ frames) (hcell : m.lookUpName frame name = some cell)
    (hshared : m.lookUpName other name = some cell) : a = b := by
  obtain ⟨ref, href, hbinds⟩ := List.exists_of_findSome?_eq_some hcell
  obtain ⟨ref', href', hbinds'⟩ := List.exists_of_findSome?_eq_some hshared
  exact (h.numbered hname).cell ⟨frame, hframe, href⟩ ⟨other, hother, href'⟩ hbinds hbinds'

end Activations

end Machine

end TreeScript
