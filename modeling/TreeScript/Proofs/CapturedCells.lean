import TreeScript.Proofs.Activations
import TreeScript.Proofs.BlockScopes
import TreeScript.Proofs.CallEffects
import TreeScript.Proofs.ControlFlow

/-!
# Captured cells

A function captures the frame it is defined in, and at every call its body finds the cells that
names stand for there at that time (`call_resolves`). So whatever an assignment writes to such a
cell is what later calls find, and what other functions find that were defined in the same
activation. For no call changes what names stand for in the frame of an activation
(`call_retains`); only variables of a source can be removed or bound anew from elsewhere.
`functions_share_captured_cells` puts this together, and says that different activations share
nothing.

All this is about the cells. A call may bind a captured name to another cell in its own frame, as
`++n` does, and what it then assigns to the name is not seen by others
(`later_call_misses_assignment`).
-/

set_option autoImplicit false

namespace TreeScript

/-! ### Scopes that no source has its variables in -/

/-- A scope that there is, and that is not the one of the variables of a source. -/
def Machine.IsInner (m : Machine) (ref : ScopeRef) : Prop :=
  ref.index < m.scopes.size ∧ ∀ context : ContextRef, (m.context context).globals ≠ ref

/-- A machine has become another with the same sources, and without a change to sealed scopes. -/
structure Machine.Retains (sealed : ScopeRef → Prop) (m n : Machine) : Prop where
  size : m.scopes.size ≤ n.scopes.size
  contexts : n.contexts = m.contexts
  scope : ∀ ref : ScopeRef, sealed ref → n.scope ref = m.scope ref

variable {sealed : ScopeRef → Prop} {m n k : Machine}

theorem Machine.Keeps.retains (h : m.Keeps sealed n) : m.Retains sealed n :=
  ⟨h.size, h.contexts, h.scope⟩

namespace Machine.Retains

theorem refl (m : Machine) : Retains sealed m m := ⟨Nat.le_refl _, rfl, fun _ _ ↦ rfl⟩

theorem trans (hmn : Retains sealed m n) (hnk : Retains sealed n k) : Retains sealed m k where
  size := Nat.le_trans hmn.size hnk.size
  contexts := hnk.contexts.trans hmn.contexts
  scope ref h := (hnk.scope ref h).trans (hmn.scope ref h)

theorem context (h : Retains sealed m n) (ref : ContextRef) : n.context ref = m.context ref :=
  Machine.context_congr h.contexts ref

/-- Inner scopes stay so. -/
theorem isInner (h : Retains sealed m n) {ref : ScopeRef} (href : m.IsInner ref) :
    n.IsInner ref := by
  refine ⟨Nat.lt_of_lt_of_le href.1 h.size, fun context ↦ ?_⟩
  rw [h.context]
  exact href.2 context

/-- Assumes: a scope that is not sealed. A name may be bound there to a cell that was made. -/
theorem named {ref : ScopeRef} {cell : CellRef} (hnew : m.Introduces n cell) (name : String)
    (hopen : ¬sealed ref) : Retains sealed m (n.bound ref name cell) :=
  .trans (Keeps.of_untouched hnew.scopes hnew.sources.contexts).retains
    (Keeps.bound name cell hopen).retains

/-- Assumes: a scope that is not sealed. A name may be removed there. -/
theorem unbound {ref : ScopeRef} (name : String) (hopen : ¬sealed ref) :
    Retains sealed m (m.unbound ref name) where
  size := Nat.le_of_eq Array.size_modify.symm
  contexts := rfl
  scope other h := by
    rw [Machine.scope_unbound, if_neg]
    rintro ⟨hsame, -⟩
    obtain rfl : ref = other := congrArg ScopeRef.mk hsame
    exact hopen h

end Machine.Retains

/-- Runs at sites outside of sealed scopes, none of which is the one of the variables of a source.
-/
def Tracking.retaining (sealed : ScopeRef → Prop) : Tracking where
  Inv m := ∀ ref, sealed ref → m.IsInner ref
  Later := Machine.Retains sealed
  Sites m s s' := s.Alike s' ∧ (∀ ref ∈ s.frame.scopes, ¬sealed ref) ∧
    ∀ context, ¬sealed (m.context context).globals
  avoided _ := false
  later_refl := .refl
  later_trans := .trans
  inv_later hlater hinner ref h := hlater.isInner (hinner ref h)
  sites_later hlater hsites := by
    refine ⟨hsites.1, hsites.2.1, fun context ↦ ?_⟩
    rw [hlater.context]
    exact hsites.2.2 context
  sites_alike hsites := hsites.1
  untouched hscopes hsources _ := (Machine.Keeps.of_untouched hscopes hsources.contexts).retains
  withScope scope hinner := (Machine.Keeps.withScope scope fun ref h ↦ (hinner ref h).1).retains
  sites_fork hinner hsites := by
    obtain ⟨⟨trace⟩, hscopes, hglobals⟩ := hsites
    refine ⟨.retraced trace, List.forall_mem_cons.mpr ⟨?_, hscopes⟩, hglobals⟩
    exact Site.Outside.not_sealed_next fun ref h ↦ (hinner ref h).1
  sites_open trace trace' _ hinner _ := by
    refine ⟨.retraced trace', List.forall_mem_singleton.mpr ?_, fun context h ↦ ?_⟩
    · exact Site.Outside.not_sealed_next fun ref h ↦ (hinner ref h).1
    · exact (hinner _ h).2 context rfl
  bound name hsites hmem _ hnew := .named hnew name (hsites.2.1 _ hmem)
  boundReceiver cell _ hsites :=
    (Machine.Keeps.bound _ cell (hsites.2.1 _ (List.mem_cons_self ..))).retains
  rebound hsites _ _ hlater hnew := by
    refine .named hnew _ ?_
    rw [hlater.context]
    exact hsites.2.2 _
  unbound name _ hsites hplace := by
    refine .unbound name ?_
    rcases hplace with hmem | rfl
    · exact hsites.2.1 _ hmem
    · exact hsites.2.2 _
  lastSite {m site} _ hinner hsite := by
    have hglobals (context : ContextRef) : ¬sealed (m.context context).globals :=
      fun h ↦ (hinner _ h).2 context rfl
    obtain ⟨context, -, rfl⟩ := Option.map_eq_some_iff.mp hsite
    exact ⟨.retraced _, List.forall_mem_singleton.mpr (hglobals context), hglobals⟩

theorem evaluates_retaining (sealed : ScopeRef → Prop) (n : Nat) :
    (Tracking.retaining sealed).comparison.Evaluates (interp n) := by
  rw [← interpAvoiding_nothing n]
  exact (Tracking.retaining sealed).comparison.evaluates_interpAvoiding n

/-- Assumes: scopes that no source has its variables in, and that the frame of a site does not have.
However an evaluation at that site ends, they bind the same names to the same cells as before. -/
theorem evaluation_retains (n : Nat) {site : Site} (mode : Mode) (node : Node)
    (hinner : ∀ ref, sealed ref → m.IsInner ref) (hsite : ∀ ref ∈ site.frame.scopes, ¬sealed ref) :
    m.Retains sealed (Outcome.final ((interp n).eval site mode node m)) := by
  have hsites : (Tracking.retaining sealed).comparison.Sites m site site :=
    ⟨.retraced site.frame.trace, hsite, fun context h ↦ (hinner _ h).2 context rfl⟩
  exact (((evaluates_retaining sealed n).eval mode node hsites).now ⟨.refl m, hinner⟩).later

/-- Assumes: a callee that holds a closure. However the call ends, all scopes there were bind the
same names to the same cells as before, but for those of the variables of sources. -/
theorem call_retains {function : CellRef} {stamp : Stamp} {closure : Closure} (n : Nat)
    (site : Site) (label : String) (preparation : Preparation) (args : List CellRef)
    (hclosure : m.content function = .function stamp closure) :
    m.Retains m.IsInner
      (Outcome.final ((interp n).call site label preparation function args m)) := by
  cases n with
  | zero => exact .refl m
  | succ n =>
    have hcallers : (Tracking.retaining m.IsInner).comparison.Callers m site site := trivial
    exact (Comparison.callValue_closure (evaluates_retaining m.IsInner n) hcallers
      ⟨.refl m, fun _ h ↦ h⟩ label preparation args hclosure).later

/-! ### What a name stands for -/

namespace Machine

/-- What a name stands for in a frame is up to the scopes of the frame. -/
theorem lookUpName_congr {frame : Frame} (h : ∀ ref ∈ frame.scopes, n.scope ref = m.scope ref)
    (name : String) : n.lookUpName frame name = m.lookUpName frame name := by
  unfold lookUpName
  generalize frame.scopes = refs at h
  induction refs with
  | nil => rfl
  | cons ref refs ih =>
    obtain ⟨hfirst, hrest⟩ := List.forall_mem_cons.mp h
    rw [List.findSome?_cons, List.findSome?_cons, hfirst, ih hrest]

/-- A name that is not shadowed stands for what it stands for outside. -/
theorem Unshadowed.lookUpName {inner outer : Frame} {name : String}
    (h : m.Unshadowed inner outer name) : m.lookUpName inner name = m.lookUpName outer name := by
  obtain ⟨own, hscopes, hfree⟩ := h
  have hown : own.findSome? (fun ref ↦ (m.scope ref)[name]?) = none := by
    refine List.findSome?_eq_none_iff.mpr fun ref hmem ↦ ?_
    have hnot := hfree ref hmem
    rwa [Std.TreeMap.contains_eq_isSome_getElem?, Option.isSome_eq_false_iff,
      Option.isNone_iff_eq_none] at hnot
  unfold Machine.lookUpName
  rw [hscopes, List.findSome?_append, hown, Option.none_or]

end Machine

/-- Assumes: a callee that holds a closure. However the call ends, the name stands for what it stood
for in the frame of an activation that was there before. -/
theorem lookUpName_called {function : CellRef} {stamp : Stamp} {closure : Closure} {frame : Frame}
    (n : Nat) (site : Site) (label : String) (preparation : Preparation) (args : List CellRef)
    (hclosure : m.content function = .function stamp closure)
    (hframe : ∀ ref ∈ frame.scopes, m.IsInner ref) (name : String) :
    (Outcome.final ((interp n).call site label preparation function args m)).lookUpName frame name =
      m.lookUpName frame name := by
  have hretains := call_retains n site label preparation args hclosure
  exact Machine.lookUpName_congr (fun ref hmem ↦ hretains.scope ref (hframe ref hmem)) name

/-- Assumes: a function literal that gives a value. The function captures the frame it is defined
in. -/
theorem Interp.function_captures {n : Nat} {site : Site} {params : List String} {body : Node}
    {mode : Mode} {last : Machine} {function : CellRef}
    (h : (interp (n + 1)).value site (.function params body) mode m = .ok function last) :
    ∃ stamp, last.content function =
      .function stamp { params, body, context := site.context, frame := site.frame } := by
  change ((interp n).evalNode site mode (.function params body) >>= _) m = _ at h
  obtain ⟨result, ended, heval, hvalue⟩ := Run.bind_eq_ok_iff.mp h
  cases hvalue
  obtain ⟨_, _, _, announced, done, hrecord, hannounce, hnode⟩ := Visit.evalNode_parts heval
  obtain ⟨last', heval', hunwound⟩ := Visit.evalNode_ok hrecord hannounce hnode
  cases heval.symm.trans heval'
  let closure : Closure := { params, body, context := site.context, frame := site.frame }
  have hmade : (interp n).node site mode (.function params body) announced =
      .ok { value := ⟨announced.cells.size⟩ }
        { announced.withCell (.function ⟨announced.stamps⟩ closure) with
          stamps := announced.stamps + 1 } := rfl
  cases hnode.symm.trans hmade
  exact ⟨_, (hunwound.content _).trans (announced.content_new _)⟩

open ControlFlow in
/-- Assumes: a callee that holds a closure, and as many arguments as it has parameters. The call
comes to its body, where the name stands for a copy of an argument, or for what it stands for where
the function was defined. -/
theorem call_resolves {function : CellRef} {stamp : Stamp} {closure : Closure} {name : String}
    (n : Nat) (site : Site) (label : String) (preparation : Preparation) {args : List CellRef}
    (hname : name ∉ preparedNames) (hclosure : m.content function = .function stamp closure)
    (harity : args.length = closure.params.length) :
    ∃ inner start, BodyStarts site label preparation function args m
        ⟨n, inner, .required, closure.body, start⟩ ∧
      closure.Resolves args name m inner.frame start := by
  obtain ⟨announced, hannounce, hannounced⟩ := announceCall_apply label args m
  obtain ⟨inner, start, hopen, -⟩ :=
    openBody_apply site label preparation function announced harity
  have hresolves := openBody_resolves hopen hname
  have hkept := Machine.keepsCells_of_eq hannounced.cells
  refine ⟨inner, start, .intro hclosure hannounce hopen, fun hparam ↦ ?_, fun hparam ↦ ?_,
    hkept.trans hresolves.kept⟩
  · obtain ⟨i, arg, cell, hi, harg, hstores, hcell⟩ := hresolves.parameter hparam
    exact ⟨i, arg, cell, hi, harg, .of_kept hkept hstores, hcell⟩
  · exact (hresolves.captured hparam).trans (hannounced.visible? closure.home name)

/-! ### Functions and their activations -/

open ControlFlow in
/-- Functions capture frames, and what they do to the cell of a name is done for all functions that
find this cell in the frames they have captured. -/
structure SharesCaptured (n : Nat) (name : String) : Prop where
  /-- A function captures the frame it is defined in. -/
  captures : ∀ {site : Site} {params : List String} {body : Node} {mode : Mode} {m last : Machine}
    {function : CellRef},
    (interp (n + 1)).value site (.function params body) mode m = .ok function last →
      ∃ stamp, last.content function =
        .function stamp { params, body, context := site.context, frame := site.frame }
  /-- Every call with as many arguments as parameters comes to its body. A parameter stands there
  for a copy of an argument, and any other name for what it stands for in the captured frame at the
  time of the call, or else as a variable of the source. -/
  resolves : ∀ {m : Machine} {function : CellRef} {stamp : Stamp} {closure : Closure}
    {args : List CellRef} (site : Site) (label : String) (preparation : Preparation),
    m.content function = .function stamp closure → args.length = closure.params.length →
      ∃ inner start, BodyStarts site label preparation function args m
          ⟨n, inner, .required, closure.body, start⟩ ∧
        closure.Resolves args name m inner.frame start
  /-- In frames within another one that do not shadow the name it stands for the same cell. -/
  within : ∀ {m : Machine} {inner outer : Frame}, m.Unshadowed inner outer name →
    m.lookUpName inner name = m.lookUpName outer name
  /-- An assignment that succeeds writes to the cell that the name stands for once the value has
  been evaluated: the value, unless that is combined with the former one. -/
  writes : ∀ {site : Site} {operator : String} {value : Node} {m evaluated last : Machine}
    {cell new result : CellRef}, evaluated.visible? site name = some cell →
    (interp (n + 1)).value site value .required m = .ok new evaluated →
    (interp (n + 1)).assign site operator (.identifier name) value m = .ok result last →
      result = cell ∧ ∃ source done,
        (done.after (.overwrite cell (done.content source))).SameWork last ∧
          (operator = "" ∨ operator = "=" → source = new ∧ done = evaluated)
  /-- Nothing that is evaluated elsewhere changes what the name stands for in the frame of an
  activation. -/
  elsewhere : ∀ {site : Site} {mode : Mode} {node : Node} {m : Machine} {frame : Frame},
    (∀ ref ∈ frame.scopes, m.IsInner ref ∧ ref ∉ site.frame.scopes) →
      (Outcome.final ((interp n).eval site mode node m)).lookUpName frame name =
        m.lookUpName frame name
  /-- No call of a function of the language does either. -/
  called : ∀ {m : Machine} {function : CellRef} {stamp : Stamp} {closure : Closure} {frame : Frame}
    (site : Site) (label : String) (preparation : Preparation) (args : List CellRef),
    m.content function = .function stamp closure → (∀ ref ∈ frame.scopes, m.IsInner ref) →
      (Outcome.final ((interp n).call site label preparation function args m)).lookUpName frame
        name = m.lookUpName frame name
  /-- So the body of a later call finds the cell that the name stood for in the captured frame
  before an earlier one, with what the cell holds since then. -/
  seen : ∀ {m : Machine} {function other : CellRef} {stamp stamp' : Stamp}
    {closure closure' : Closure} {args args' : List CellRef} {site : Site} {label : String}
    {preparation : Preparation} {cell : CellRef} (site' : Site) (label' : String)
    (preparation' : Preparation),
    let after := Outcome.final ((interp n).call site label preparation function args m)
    m.content function = .function stamp closure → after.content other = .function stamp' closure' →
      args'.length = closure'.params.length → name ∉ closure'.params →
      (∀ ref ∈ closure'.frame.scopes, m.IsInner ref) → cell.index < m.cells.size →
      m.lookUpName closure'.frame name = some cell →
        ∃ inner start, BodyStarts site' label' preparation' other args' after
            ⟨n, inner, .required, closure'.body, start⟩ ∧
          start.lookUpName inner.frame name = some cell ∧
          start.content cell = after.content cell
  /-- A call that neither removes names nor makes a host call back at the root of a source changes
  nothing at any site that was there before, where the name may stand for a variable of the
  source. -/
  sources : ∀ {m : Machine} {function : CellRef} {stamp : Stamp} {closure : Closure}
    {site home : Site} {label : String} {preparation : Preparation} {args : List CellRef},
    m.content function = .function stamp closure →
    CallAvoids Native.rebindsAnywhere n site label preparation function args m →
    (∀ ref ∈ (m.context home.context).globals :: home.frame.scopes, ref.index < m.scopes.size) →
      (Outcome.final ((interp n).call site label preparation function args m)).visible? home name =
        m.visible? home name

/-- Frames of different activations do not have the name stand for the same cell, if it is a
parameter or did not stand for anything when the activation began. -/
structure SeparatesActivations (n : Nat) (name : String) : Prop where
  /-- Evaluations go on with the frames of all activations. -/
  evaluation : ∀ {m : Machine} {frames : List (Frame × Nat)} (site : Site) (mode : Mode)
    (node : Node), m.Activations name frames →
      (Outcome.final ((interp n).eval site mode node m)).Activations name frames
  /-- Calls do so, too. -/
  call : ∀ {m : Machine} {frames : List (Frame × Nat)} (site : Site) (label : String)
    (preparation : Preparation) (function : CellRef) (args : List CellRef),
    m.Activations name frames →
      (Outcome.final ((interp n).call site label preparation function args m)).Activations name
        frames
  /-- Frames that have the name stand for the same cell belong to the same activation. -/
  apart : ∀ {m : Machine} {frames : List (Frame × Nat)}, m.Activations name frames →
    ∀ {frame other : Frame} {a b : Nat} {cell : CellRef}, (frame, a) ∈ frames →
      (other, b) ∈ frames → m.lookUpName frame name = some cell →
      m.lookUpName other name = some cell → a = b

theorem sharesCaptured (n : Nat) {name : String} (hname : name ∉ preparedNames) :
    SharesCaptured n name where
  captures := Interp.function_captures
  resolves site label preparation := call_resolves n site label preparation hname
  within h := h.lookUpName
  writes hvisible hvalue h := Interp.assign_eq_ok hvisible hvalue h
  elsewhere {site mode node m frame} hframe := by
    have hretains : m.Retains (· ∈ frame.scopes)
        (Outcome.final ((interp n).eval site mode node m)) :=
      evaluation_retains n mode node (fun ref hmem ↦ (hframe ref hmem).1)
        fun ref hsite hmem ↦ (hframe ref hmem).2 hsite
    exact Machine.lookUpName_congr hretains.scope name
  called site label preparation args hclosure hframe :=
    lookUpName_called n site label preparation args hclosure hframe name
  seen {m function other stamp stamp' closure closure' args args' site label preparation cell} site'
      label' preparation' := by
    intro after hclosure hlater harity hparam hframe hcell hcaptured
    have hkept : after.lookUpName closure'.frame name = some cell :=
      (lookUpName_called n site label preparation args hclosure hframe name).trans hcaptured
    have hexists : cell.index < after.cells.size :=
      Nat.lt_of_lt_of_le hcell (call_unfolds n site label preparation function args m).size
    obtain ⟨inner, start, hstarts, hresolves⟩ :=
      call_resolves n site' label' preparation' hname hlater harity
    refine ⟨inner, start, hstarts, ?_, hresolves.kept.content cell hexists⟩
    rw [hresolves.captured hparam, hkept, Option.some_or]
  sources hclosure havoids hhome := by
    have hkeeps := havoids.keeps hclosure
    obtain ⟨hglobals, hframe⟩ := List.forall_mem_cons.mp hhome
    unfold Machine.visible?
    rw [hkeeps.global? name hglobals,
      Machine.lookUpName_congr (fun ref hmem ↦ hkeeps.scope ref (hframe ref hmem)) name]

theorem separatesActivations (n : Nat) {name : String} (hname : name ∉ receiverNames) :
    SeparatesActivations n name where
  evaluation site mode node h := h.later (evaluation_unfolds n site mode node _)
  call site label preparation function args h :=
    h.later (call_unfolds n site label preparation function args _)
  apart h := h.eq_of_lookUpName hname

/-- Assumes: a name that is given no meaning by calls as such. Functions share the cell of the name
exactly as far as the frames they have captured do, whatever is called; and frames of different
activations of a function do not, if the name is a parameter or was unknown at first. -/
theorem functions_share_captured_cells (n : Nat) {name : String}
    (hname : name ∉ ["self", "super", "args"]) :
    SharesCaptured n name ∧ SeparatesActivations n name := by
  refine ⟨sharesCaptured n fun hmem ↦ hname ?_, separatesActivations n fun hmem ↦ hname ?_⟩
  · rcases List.mem_cons.mp hmem with rfl | hmem
    · exact List.mem_cons_self ..
    · exact List.mem_cons_of_mem _ (List.mem_cons_of_mem _ hmem)
  · rcases List.mem_cons.mp hmem with rfl | hmem
    · exact List.mem_cons_self ..
    · exact List.mem_cons_of_mem _ (List.mem_append_left ["args"] hmem)

namespace CapturedNames

/-- A function that steps `n` and then assigns to it. -/
def counter : Closure where
  params := []
  body := .block [.operation "++" .prefixOp [.identifier "n"],
    .assignment "=" (.identifier "n") (.boolean true)]
  context := ⟨0⟩
  frame := { top := ⟨1⟩, outer := [], trace := ⟨0⟩ }

/-- A function with `n` as its parameter. -/
def maker : Closure where
  params := ["n"]
  body := .function [] counter.body
  context := ⟨0⟩
  frame := { top := ⟨0⟩, outer := [], trace := ⟨0⟩ }

/-- A machine with both functions. The first one has captured a frame where `n` is 1. -/
def machine : Machine where
  cells := #[.number (Decimal.ofInt 1), .function ⟨0⟩ counter, .function ⟨1⟩ maker]
  scopes := #[{}, Std.TreeMap.insert {} "n" ⟨0⟩]
  traces := #[{}]
  contexts := #[{ source := "main", globals := ⟨0⟩, trace := ⟨0⟩ }]

def site : Site := ⟨⟨0⟩, (machine.context ⟨0⟩).frame⟩

/-- Two activations of the same function have cells of their own for its parameter. -/
theorem two_activations_share_no_parameter : ∃ first start second ready,
    "n" ∉ ["self", "super", "args"] ∧
      openBody site "make" .none ⟨2⟩ maker [⟨0⟩] machine = .ok first start ∧
      openBody site "make" .none ⟨2⟩ maker [⟨0⟩] start = .ok second ready ∧
      ∃ cell other, ready.lookUpName first.frame "n" = some cell ∧
        ready.lookUpName second.frame "n" = some other ∧ cell ≠ other := by
  have hname : "n" ∉ ["self", "super", "args"] := by decide
  let start := Outcome.final (openBody site "make" .none ⟨2⟩ maker [⟨0⟩] machine)
  let ready := Outcome.final (openBody site "make" .none ⟨2⟩ maker [⟨0⟩] start)
  let first : Site := ⟨⟨0⟩, { top := ⟨2⟩, outer := [], trace := ⟨0⟩ }⟩
  let second : Site := ⟨⟨0⟩, { top := ⟨3⟩, outer := [], trace := ⟨0⟩ }⟩
  have hfirst : openBody site "make" .none ⟨2⟩ maker [⟨0⟩] machine = .ok first start := rfl
  have hsecond : openBody site "make" .none ⟨2⟩ maker [⟨0⟩] start = .ok second ready := rfl
  have hparam : "n" ∈ maker.params := List.mem_singleton_self _
  have hactivations : ready.Activations "n" [(second.frame, 1), (first.frame, 0)] := by
    refine .enter (.enter (.none machine) (fun _ ↦ List.not_mem_nil) hfirst (.inl hparam))
      (fun frame hmem ↦ ?_) hsecond (.inl hparam)
    cases List.mem_singleton.mp hmem
  have hone : ready.lookUpName first.frame "n" = some ⟨3⟩ := by decide
  have hother : ready.lookUpName second.frame "n" = some ⟨4⟩ := by decide
  refine ⟨first, start, second, ready, hname, hfirst, hsecond, _, _, hone, hother, fun hsame ↦ ?_⟩
  rw [← hsame] at hother
  have hnumbers := (functions_share_captured_cells 1 hname).2.apart hactivations
    (List.mem_cons_of_mem _ (List.mem_singleton_self _)) (List.mem_cons_self ..) hone hother
  cases hnumbers

/-- The frame of the next body. -/
def frame : Frame := { top := ⟨2⟩, outer := [], trace := ⟨0⟩ }

def inner : Site := ⟨⟨0⟩, frame⟩

/-- No debugger is at work, all cells hold what they held, and `n` stands for a cell in the frame of
the body. -/
structure Standing (cell : CellRef) (k : Machine) : Prop where
  debugger : k.options.debugger = none
  cells : machine.KeepsCells k
  scopes : 2 < k.scopes.size
  name : (k.scope ⟨2⟩)["n"]? = some cell
  bound : cell.index < k.cells.size

namespace Standing

variable {cell : CellRef} {k l : Machine}

theorem lookUpName (h : Standing cell k) : k.lookUpName frame "n" = some cell := by
  change [(⟨2⟩ : ScopeRef)].findSome? (fun ref ↦ (k.scope ref)["n"]?) = some cell
  rw [List.findSome?_singleton]
  exact h.name

theorem binderOf? (h : Standing cell k) : k.binderOf? frame "n" = some ⟨2⟩ := by
  have hbinds : (k.scope ⟨2⟩).contains "n" = true := by
    rw [Std.TreeMap.contains_eq_isSome_getElem?, h.name, Option.isSome_some]
  exact List.find?_cons_of_pos (p := fun ref ↦ (k.scope ref).contains "n") hbinds

theorem visible? (h : Standing cell k) : k.visible? inner "n" = some cell := by
  change (k.lookUpName frame "n").or _ = _
  rw [h.lookUpName, Option.some_or]

theorem unwound (h : Standing cell k) (hl : k.Unwound l) : Standing cell l := by
  refine ⟨hl.options ▸ h.debugger, h.cells.trans (Machine.keepsCells_of_eq hl.cells), ?_, ?_,
    hl.cells ▸ h.bound⟩
  · rw [← hl]
    exact h.scopes
  · rw [← hl]
    exact h.name

theorem withCell (h : Standing cell k) (content : Content) :
    Standing cell (k.withCell content) where
  debugger := h.debugger
  cells := h.cells.trans (Machine.keepsCells_withCell k content)
  scopes := h.scopes
  name := h.name
  bound := Nat.lt_of_lt_of_le h.bound (Machine.keepsCells_withCell k content).size

/-- A cell that the machine did not have at first may be overwritten. -/
theorem overwrite (h : Standing cell k) {target : CellRef} (content : Content)
    (hnew : machine.cells.size ≤ target.index) :
    Standing cell (k.after (.overwrite target content)) := by
  have hsize := (Machine.size_after k (.overwrite target content)).1
  refine ⟨h.debugger, ⟨hsize ▸ h.cells.size, fun old hold ↦ ?_⟩, h.scopes, h.name, hsize ▸ h.bound⟩
  have hkept : (k.after (.overwrite target content)).content old = k.content old :=
    Machine.content_after fun hsame ↦ by
      cases (hsame : target = old)
      exact Nat.not_le_of_lt hold hnew
  exact hkept.trans (h.cells.content old hold)

/-- The name may be bound to another cell. -/
theorem renewed (h : Standing cell k) {other : CellRef} (hother : other.index < k.cells.size) :
    Standing other (k.bound ⟨2⟩ "n" other) := by
  refine ⟨h.debugger, ⟨h.cells.size, h.cells.content⟩,
    Nat.lt_of_lt_of_eq h.scopes Array.size_modify.symm, ?_, hother⟩
  rw [Machine.getElem?_scope_bound, if_pos ⟨rfl, rfl, h.scopes⟩]

end Standing

/-- `++n` leaves `n` standing for a new cell. -/
theorem eval_step {cell : CellRef} {k : Machine} (h : Standing cell k) {d : Decimal}
    (hnumber : k.content cell = .number d) :
    ∃ result other stepped, (interp 4).eval inner .required
        (.operation "++" .prefixOp [.identifier "n"]) k = .ok { value := result } stepped ∧
      machine.cells.size ≤ other.index ∧ Standing other stepped := by
  obtain ⟨_, _, _, announced, hrecord, hannounce, hentered⟩ := Visit.record_announce_apply inner
    (.operation "++" .prefixOp [.identifier "n"]) h.debugger
  have hstanding := h.unwound hentered
  have hbinder : announced.binderOf? inner.frame "n" = some ⟨2⟩ := hstanding.binderOf?
  obtain ⟨found, hoperand, hfound⟩ :=
    Interp.value_renewed 2 hstanding.debugger hbinder hstanding.lookUpName
  let other : CellRef := ⟨announced.cells.size⟩
  have hnew : machine.cells.size ≤ other.index := hstanding.cells.size
  have hmade : other.index < (announced.withCell (announced.content cell)).cells.size :=
    size_lt_push _ _
  have hready : Standing other found := ((hstanding.withCell _).renewed hmade).unwound hfound
  have hheld : found.content other = .number d := by
    rw [hfound.content]
    exact (announced.content_new _).trans ((hentered.content cell).trans hnumber)
  have hplusplus : "++" ∈ Operator.stepping := List.mem_cons_self ..
  have hfuel : 1 ≤ (interp 3).fuel := by decide
  have hoperation := Interp.operation_raises_number hplusplus
    (by decide : Fixity.prefixOp ∈ Operator.beside) hfuel hoperand hheld
  let stepped := (found.withCell (.number d)).after
    (.overwrite other (.number (d + Decimal.ofInt (Operator.delta "++"))))
  have hnode : (interp 3).node inner .required
      (.operation "++" .prefixOp [.identifier "n"]) announced =
        .ok { value := other } stepped := by
    change ((interp 3).operation inner "++" .prefixOp [.identifier "n"] >>= _) announced = _
    rw [Run.bind_ok hoperation]
    rfl
  obtain ⟨last, heval, hlast⟩ := Visit.evalNode_ok hrecord hannounce hnode
  exact ⟨other, other, last, heval, hnew, ((hready.withCell _).overwrite _ hnew).unwound hlast⟩

/-- `n = true` overwrites the cell that `n` stands for. -/
theorem eval_assignment {cell : CellRef} {k : Machine} (h : Standing cell k)
    (hnew : machine.cells.size ≤ cell.index) :
    ∃ assigned, (interp 4).eval inner .required
        (.assignment "=" (.identifier "n") (.boolean true)) k =
          .ok { value := cell } assigned ∧
      Standing cell assigned ∧ assigned.content cell = .boolean true := by
  obtain ⟨_, _, _, announced, hrecord, hannounce, hentered⟩ := Visit.record_announce_apply inner
    (.assignment "=" (.identifier "n") (.boolean true)) h.debugger
  have hstanding := h.unwound hentered
  obtain ⟨evaluated, hvalue, hevaluated⟩ :=
    Interp.value_boolean 2 inner true hstanding.debugger
  have hready := (hstanding.withCell (.boolean true)).unwound hevaluated
  obtain ⟨found, htarget, hfound⟩ := Interp.value_variable 2
    (nofun : Mode.createIfMissing ≠ .createNew) hready.debugger hready.visible?
  obtain ⟨assigned, hassigned, hunwound⟩ :=
    Interp.assign_ok (.inr (rfl : "=" = "=")) rfl hvalue htarget
  have hnode : (interp 3).node inner .required
      (.assignment "=" (.identifier "n") (.boolean true)) announced =
        .ok { value := cell } assigned := by
    change ((interp 3).assign inner "=" (.identifier "n") (.boolean true) >>= _) announced = _
    rw [Run.bind_ok hassigned]
    rfl
  obtain ⟨last, heval, hlast⟩ := Visit.evalNode_ok hrecord hannounce hnode
  have hfinal := hunwound.trans hlast
  have hwritten : found.content ⟨announced.cells.size⟩ = .boolean true := by
    rw [hfound.content, hevaluated.content]
    exact announced.content_new _
  refine ⟨last, heval, ((hready.unwound hfound).overwrite _ hnew).unwound hfinal, ?_⟩
  rw [hfinal.content, Machine.content_overwrite,
    if_pos ⟨rfl, (hready.unwound hfound).bound⟩, hwritten]

/-- If `n` stands for the captured cell at first, the body leaves that cell as it is, and gives the
cell it has assigned to. -/
theorem eval_body {k : Machine} (h : Standing ⟨0⟩ k) : ∃ cell last,
    (interp 5).eval inner .required counter.body k = .ok { value := cell } last ∧
      Standing cell last ∧ last.content cell = .boolean true := by
  obtain ⟨_, _, _, announced, hrecord, hannounce, hentered⟩ :=
    Visit.record_announce_apply inner counter.body h.debugger
  have hempty : newEmpty announced =
      .ok ⟨announced.cells.size⟩ (announced.withCell .empty) := rfl
  have hready := (h.unwound hentered).withCell .empty
  obtain ⟨result, cell, stepped, hstep, hnew, hstepped⟩ :=
    eval_step hready (hready.cells.content ⟨0⟩ (by decide))
  obtain ⟨assigned, hassigned, hstanding, htrue⟩ := eval_assignment hstepped hnew
  have hnode : (interp 4).node inner .required counter.body announced =
      .ok { value := cell } assigned := by
    change (newEmpty >>= fun empty ↦
      (interp 4).sequenceFrom inner .required ⟨empty, .normal⟩ _) announced = _
    rw [Run.bind_ok hempty, Interp.sequenceFrom, Run.bind_ok hstep, if_pos rfl,
      Interp.sequenceFrom, Run.bind_ok hassigned, if_pos rfl]
    rfl
  obtain ⟨last, heval, hlast⟩ := Visit.evalNode_ok hrecord hannounce hnode
  exact ⟨cell, last, heval, hstanding.unwound hlast, (hlast.content cell).trans htrue⟩

/-- The function can be called, and its body begins with `n` standing for the captured cell. -/
theorem exists_start : ∃ start,
    openBody site "f" .none ⟨1⟩ counter [] machine = .ok inner start ∧ Standing ⟨0⟩ start := by
  have hopen : openBody site "f" .none ⟨1⟩ counter [] machine =
      .ok inner (Outcome.final (openBody site "f" .none ⟨1⟩ counter [] machine)) := rfl
  obtain ⟨cells, hall, -, -, hscopes⟩ := openBody_parts hopen
  refine ⟨_, hopen, rfl, hall.kept, ?_, by decide,
    Nat.lt_of_lt_of_le (by decide) hall.kept.size⟩
  rw [hscopes]
  exact Nat.lt_of_lt_of_eq (by decide) (Array.size_push _).symm

/-- No source has its variables in the frame that the function has captured. -/
theorem isInner_captured : ∀ ref ∈ counter.frame.scopes, machine.IsInner ref := by
  refine List.forall_mem_singleton.mpr ⟨by decide, fun context ↦ ?_⟩
  obtain ⟨i⟩ := context
  cases i with
  | zero => decide
  | succ i =>
    have hmissing : machine.contexts.size ≤ (⟨i + 1⟩ : ContextRef).index := Nat.le_add_left 1 i
    rw [Machine.context_of_missing hmissing]
    decide

end CapturedNames

open CapturedNames ControlFlow in
/-- A call that assigns to `n` leaves alone the cell that the frame captured by the function binds
`n` to, because `++n` has bound it to another one before. The next call starts with the former
cell, and does not see the assignment. -/
theorem later_call_misses_assignment : ∃ result last inner start,
    (interp 6).call site "f" .none ⟨1⟩ [] machine = .ok result last ∧
      last.content result = .boolean true ∧
      machine.lookUpName counter.frame "n" = some ⟨0⟩ ∧
      BodyStarts site "f" .none ⟨1⟩ [] last ⟨5, inner, .required, counter.body, start⟩ ∧
      start.lookUpName inner.frame "n" = some ⟨0⟩ ∧
      start.content ⟨0⟩ = .number (Decimal.ofInt 1) := by
  have hcaptured : machine.lookUpName counter.frame "n" = some ⟨0⟩ := by decide
  obtain ⟨start, hopen, hstanding⟩ := exists_start
  obtain ⟨cell, ended, hbody, hended, htrue⟩ := eval_body hstanding
  have hstarts : BodyStarts site "f" .none ⟨1⟩ [] machine
      ⟨5, inner, .required, counter.body, start⟩ := .intro rfl rfl hopen
  obtain ⟨closure, hcall⟩ := hstarts.call_eq
  let last := ended.withCell (ended.content cell)
  have hresult : (interp 6).call site "f" .none ⟨1⟩ [] machine =
      .ok ⟨ended.cells.size⟩ last := by
    have houtcome : Spot.eval ⟨5, inner, .required, counter.body, start⟩ start =
        .ok { value := cell } ended := hbody
    rw [hcall, Run.bind_ok houtcome]
    rfl
  have hlast := hended.withCell (ended.content cell)
  -- The captured frame is as it was, and so is what it binds the name to.
  have hkept : last.lookUpName counter.frame "n" = some ⟨0⟩ := by
    have hcalled := lookUpName_called 6 site "f" .none [] (rfl : machine.content ⟨1⟩ = _)
      isInner_captured "n"
    rw [hresult] at hcalled
    exact hcalled.trans hcaptured
  have hfunction : last.content ⟨1⟩ = .function ⟨0⟩ counter := hlast.cells.content ⟨1⟩ (by decide)
  obtain ⟨again, later, hlater, hresolves⟩ :=
    call_resolves 5 site "f" .none (by decide : "n" ∉ preparedNames) hfunction
      (rfl : ([] : List CellRef).length = _)
  refine ⟨_, last, again, later, hresult, (ended.content_new _).trans htrue, hcaptured, hlater,
    ?_, ?_⟩
  · rw [hresolves.captured (by decide), hkept, Option.some_or]
  · have hbound : 0 < last.cells.size := Nat.lt_of_lt_of_le (by decide) hlast.cells.size
    exact (hresolves.kept.content ⟨0⟩ hbound).trans (hlast.cells.content ⟨0⟩ (by decide))

end TreeScript
