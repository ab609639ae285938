import Mathlib.Data.List.Find
import TreeScript.Proofs.Comparison.Sealed
import TreeScript.Proofs.Objects.Variables

/-!
# Blocks keep their names to themselves

Branches and loops run in forks of the frame they stand in. So the scopes that there are when one of
them begins have the same names when it has ended, however it ended (`block_keeps_names`). The
reason is that code only ever names something new in the innermost scope of its own frame, which is
a scope that the block has made; in all other scopes it binds names anew that are bound there
already. `Tracking.naming` follows runs at sites whose innermost scope is not among those that are
to get no name. The site a block begins at is none of these, so the rules of the three constructs
are followed by hand up to their forks. Of a loop over elements, the expression it passes over is
evaluated in the frame itself, and has to create no name there (`CreatesNoName`).

In the frames within, a name that the frame has is assigned to in the scope that binds it, unless a
scope within shadows it (`Machine.Unshadowed.assignsIn`).
-/

set_option autoImplicit false

namespace TreeScript

/-! ### Scopes that get no names -/

/-- A machine has become another without a scope losing a name, and without the sealed scopes
getting one. What names are bound to may have changed. -/
structure Machine.Names (sealed : ScopeRef → Prop) (m n : Machine) : Prop where
  size : m.scopes.size ≤ n.scopes.size
  contexts : n.contexts = m.contexts
  kept : ∀ (ref : ScopeRef) (name : String),
    (m.scope ref).contains name → (n.scope ref).contains name
  none : ∀ ref : ScopeRef, sealed ref → ∀ name : String,
    (n.scope ref).contains name → (m.scope ref).contains name

variable {sealed : ScopeRef → Prop} {m n k : Machine}

namespace Machine.Names

theorem refl (m : Machine) : Names sealed m m :=
  ⟨Nat.le_refl _, rfl, fun _ _ h ↦ h, fun _ _ _ h ↦ h⟩

theorem trans (hmn : Names sealed m n) (hnk : Names sealed n k) : Names sealed m k where
  size := Nat.le_trans hmn.size hnk.size
  contexts := hnk.contexts.trans hmn.contexts
  kept ref name h := hnk.kept ref name (hmn.kept ref name h)
  none ref hsealed name h := hmn.none ref hsealed name (hnk.none ref hsealed name h)

/-- Machines with the same scopes and sources. -/
theorem of_untouched (hscopes : n.scopes = m.scopes) (hcontexts : n.contexts = m.contexts) :
    Names sealed m n := by
  have hscope (ref : ScopeRef) : n.scope ref = m.scope ref := Machine.scope_congr hscopes ref
  refine ⟨Nat.le_of_eq (by rw [hscopes]), hcontexts, fun ref name h ↦ ?_, fun ref _ name h ↦ ?_⟩
  · rwa [hscope]
  · rwa [hscope] at h

/-- A sealed scope has the same names. -/
theorem contains_eq (h : Names sealed m n) {ref : ScopeRef} (hsealed : sealed ref)
    (name : String) : (n.scope ref).contains name = (m.scope ref).contains name :=
  Bool.eq_iff_iff.mpr ⟨h.none ref hsealed name, h.kept ref name⟩

/-- Assumes: a frame all scopes of which are sealed. The scope that binds a name stays the same. -/
theorem binderOf? (h : Names sealed m n) {frame : Frame}
    (hframe : ∀ ref ∈ frame.scopes, sealed ref) (name : String) :
    n.binderOf? frame name = m.binderOf? frame name :=
  List.find?_congr fun ref hmem ↦ h.contains_eq (hframe ref hmem) name

/-- Assumes: sealed scopes that exist. A new scope is none of them. -/
theorem withScope (scope : Scope) (hexist : ∀ ref, sealed ref → ref.index < m.scopes.size) :
    Names sealed m (m.withScope scope) where
  size := (Machine.Keeps.withScope scope hexist).size
  contexts := rfl
  kept ref name h := by
    by_cases hsealed : sealed ref
    · rwa [(Machine.Keeps.withScope scope hexist).scope ref hsealed]
    · exact (Machine.Keeps.withScope scope hexist).names ref name hsealed h
  none ref hsealed name h := by
    rwa [(Machine.Keeps.withScope scope hexist).scope ref hsealed] at h

/-- Assumes: a scope that has a name if it is sealed. It may bind the name to another cell. -/
theorem bound {ref : ScopeRef} (name : String) (cell : CellRef)
    (hplace : sealed ref → (m.scope ref).contains name) :
    Names sealed m (m.bound ref name cell) where
  size := by
    unfold Machine.bound
    exact Nat.le_of_eq Array.size_modify.symm
  contexts := rfl
  kept other former h := by
    rw [scope_bound]
    split
    · rw [Std.TreeMap.contains_insert, h, Bool.or_true]
    · exact h
  none other hsealed former h := by
    rw [scope_bound] at h
    split at h
    · rename_i hsame
      have : ref = other := by
        cases ref
        cases other
        exact congrArg _ hsame.1
      subst this
      rw [Std.TreeMap.contains_insert, Bool.or_eq_true, beq_iff_eq,
        Std.LawfulEqCmp.compare_eq_iff_eq] at h
      rcases h with rfl | h
      · exact hplace hsealed
      · exact h
    · exact h

end Machine.Names

/-- Runs at sites whose innermost scope is not sealed. -/
def Tracking.naming (sealed : ScopeRef → Prop) : Tracking where
  Inv m := ∀ ref, sealed ref → ref.index < m.scopes.size
  Later := Machine.Names sealed
  Sites _ s s' := s.Alike s' ∧ ¬sealed s.frame.top
  avoided := Native.rebindsAnywhere
  later_refl := .refl
  later_trans := .trans
  inv_later hnames hexist ref h := Nat.lt_of_lt_of_le (hexist ref h) hnames.size
  sites_later _ hsites := hsites
  sites_alike hsites := hsites.1
  untouched hscopes hsources _ := .of_untouched hscopes hsources.contexts
  withScope := .withScope
  sites_fork hexist hsites := by
    refine ⟨?_, Site.Outside.not_sealed_next hexist⟩
    obtain ⟨trace⟩ := hsites.1
    exact .retraced trace
  sites_open trace trace' _ hexist _ := ⟨.retraced trace', Site.Outside.not_sealed_next hexist⟩
  bound {m n s _ ref cell} name hsites _ hplace hnew := by
    have hmade : Machine.Names sealed m n := .of_untouched hnew.scopes hnew.sources.contexts
    refine hmade.trans (.bound name cell fun hsealed ↦ ?_)
    rcases hplace with rfl | hplace
    · exact absurd hsealed hsites.2
    · exact hmade.kept ref name hplace
  boundReceiver cell _ hsites := .bound _ cell fun hsealed ↦ absurd hsealed hsites.2
  rebound {m n k s _ name cell} _ _ hglobal hnames hnew := by
    have hmade : Machine.Names sealed n k := .of_untouched hnew.scopes hnew.sources.contexts
    refine hmade.trans (.bound name cell fun _ ↦ hmade.kept _ name (hnames.kept _ name ?_))
    rw [Machine.context_congr hnames.contexts, Std.TreeMap.contains_eq_isSome_getElem?]
    exact hglobal
  unbound _ havoided := nomatch havoided
  lastSite havoided := nomatch havoided

/-! ### Blocks -/

namespace Interp

/-- What a loop does with the value it is to pass over. -/
def passOver (interp : Interp) (site : Site) (names : List String) (body : Node) (cell : CellRef) :
    Run Completion := do
  let iterator ← site.traced .invalidControl (makeIterator cell)
  match ← content iterator with
  | .iterator ref =>
    let count := ((← get).remaining ref).length
    interp.forElements site names body ref count { value := ← newEmpty }
  | _ => site.raise .invalidControl "Iterator element did not provide iterable"

/-- A loop evaluates what it is to pass over, and passes over it. -/
theorem forLoop_eq (interp : Interp) (site : Site) (names : List String) (iterable body : Node) :
    interp.forLoop site names iterable body = (do
      let result ← interp.eval site .required iterable
      interp.passOver site names body result.value) := by
  change (interp.eval site .required iterable >>= _) >>= _ = _
  simp only [bind_assoc, pure_bind]
  rfl

end Interp

namespace Tracking

open Relations Comparison

/-- A fork is made at any site, and code may run at it. -/
theorem forkAnywhere (m : Machine) (site : Site) :
    (naming sealed).relations.Runs m (naming sealed).Sites site.fork site.fork := by
  refine runs_of_ok fun n n' _ htwin hinv ↦ ⟨_, _, _, _, rfl, rfl, .withScope {} hinv, ?_, ?_⟩
  · exact htwin.rescoped (by rw [htwin.scopes])
  · refine ⟨?_, Site.Outside.not_sealed_next hinv⟩
    rw [htwin.scopes]
    exact .retraced _

variable {interp : Interp} (hinterp : (naming sealed).comparison.Evaluates interp)
include hinterp

/-- The branches run in a fork, wherever they stand. -/
theorem conditional (m : Machine) (site : Site) (list : List (Option Node × Node)) :
    (naming sealed).relations.Same m (site.fork >>= (interp.branches · list))
      (site.fork >>= (interp.branches · list)) :=
  Runs.bind (forkAnywhere m site) fun _ _ _ _ hinner ↦ branches hinterp hinner list

/-- The passes of a loop with a condition run in a fork, wherever it stands. -/
theorem whileLoop (m : Machine) (site : Site) (condition body : Node) :
    (naming sealed).relations.Same m (interp.whileLoop site condition body)
      (interp.whileLoop site condition body) :=
  Runs.bind (forkAnywhere m site) fun _ _ _ _ hinner ↦
    (steady (K := (naming sealed).comparison) .newEmpty).bind fun _ ↦
      whileHolds hinterp hinner condition body interp.fuel _

/-- Each pass over an element runs in a fork of its own, wherever the loop stands. -/
theorem forElements (site : Site) (names : List String) (body : Node) (ref : IteratorRef)
    (count : Nat) : ∀ (m : Machine) (last : Completion),
    (naming sealed).relations.Same m (interp.forElements site names body ref count last)
      (interp.forElements site names body ref count last) := by
  induction count with
  | zero => exact fun _ last ↦ Same.refl_pure last
  | succ count ih =>
    intro m last
    refine Same.bind (steady (K := (naming sealed).comparison) (.next? ref)) fun found ↦ ?_
    cases found with
    | none => exact Same.refl_pure last
    | some element =>
      refine Runs.bind (forkAnywhere m site) fun n inner inner' _ hinner ↦ ?_
      have hbound : (naming sealed).relations.Same n (Interp.bindElement names element inner.frame)
          (Interp.bindElement names element inner'.frame) :=
        bindElement (K := (naming sealed).comparison) hinner names element
      refine Same.bind (traced .invalidControl hbound site site) fun _ ↦ ?_
      refine Same.bind (pass hinterp hinner body) fun (ended, result) ↦ ?_
      dsimp only
      split
      · exact Same.refl_pure result
      · exact ih n result

/-- Passing over a value runs in forks, wherever the loop stands. -/
theorem passOver (m : Machine) (site : Site) (names : List String) (body : Node) (cell : CellRef) :
    (naming sealed).relations.Same m (interp.passOver site names body cell)
      (interp.passOver site names body cell) := by
  have hmade := steady (K := (naming sealed).comparison) (m := m) (.makeIterator cell)
  refine Same.bind (traced .invalidControl hmade site site) fun iterator ↦
    Runs.content_bind fun c c' hc ↦ ?_
  cases hc with
  | same =>
    split
    · refine Runs.get_bind fun n n' halike ↦ ?_
      rw [halike.remaining]
      exact Same.bind (steady (K := (naming sealed).comparison) .newEmpty) fun _ ↦
        forElements hinterp site names body _ _ m _
    · exact raise _ _ _ _ _ _
  | closure => exact raise _ _ _ _ _ _

end Tracking

/-- An evaluation goes as it would if some natives were refused, as every evaluation does that calls
none of them. -/
def EvaluationAvoids (avoided : Native → Bool) (n : Nat) (site : Site) (mode : Mode) (node : Node)
    (m : Machine) : Prop :=
  (interpAvoiding avoided n).eval site mode node m = (interp n).eval site mode node m

/-- The expression a loop passes over creates no name in the frame of the loop. It is evaluated when
the loop has been recorded and announced. -/
def CreatesNoName (n : Nat) (site : Site) (loop iterable : Node) (m : Machine) : Prop :=
  ∀ depth recorded style announced, Visit.record site loop m = .ok depth recorded →
    Visit.announce site loop recorded = .ok style announced →
    EvaluationAvoids Native.rebindsAnywhere n site .required iterable announced ∧
      ∀ name, ((Outcome.final ((interp n).eval site .required iterable announced)).scope
        site.frame.top).contains name → (announced.scope site.frame.top).contains name

/-- Nodes that run all code within them in forks of their frame, but for what a loop passes over,
which creates no name there. -/
inductive Node.Block (n : Nat) (site : Site) (m : Machine) : Node → Prop
  | conditional (branches : List (Option Node × Node)) : Block n site m (.conditional branches)
  | whileLoop (condition body : Node) : Block n site m (.whileLoop condition body)
  | forLoop (names : List String) (iterable body : Node)
    (hiterable : CreatesNoName n site (.forLoop names iterable body) iterable m) :
    Block n site m (.forLoop names iterable body)

/-- Assumes: an expression that gives the innermost scope of its frame no name. Then no scope gets
one. -/
theorem names_of_top {interp : Interp} {site : Site} {node : Node}
    (hinterp : ∀ other, (Tracking.naming other).comparison.Evaluates interp)
    (hexist : ∀ ref, sealed ref → ref.index < m.scopes.size)
    (htop : ∀ name,
      ((Outcome.final (interp.eval site .required node m)).scope site.frame.top).contains name →
        (m.scope site.frame.top).contains name) :
    m.Names sealed (Outcome.final (interp.eval site .required node m)) := by
  -- Code may run at this site only if its innermost scope is not sealed, so that one is left out.
  let other (ref : ScopeRef) : Prop := sealed ref ∧ ref ≠ site.frame.top
  have hrun : (Tracking.naming other).comparison.Same m (interp.eval site .required node)
      (interp.eval site .required node) :=
    (hinterp other).eval .required node ⟨.retraced _, fun h ↦ h.2 rfl⟩
  have hnames : m.Names other (Outcome.final (interp.eval site .required node m)) :=
    (hrun.now ⟨.refl m, fun ref h ↦ hexist ref h.1⟩).later
  refine { hnames with none := fun ref hsealed name h ↦ ?_ }
  by_cases hsame : ref = site.frame.top
  · rw [hsame] at h ⊢
    exact htop name h
  · exact hnames.none ref ⟨hsealed, hsame⟩ name h

/-- Assumes: a block that has been recorded and announced. Its rule gives no name to a scope that
there is. -/
theorem Node.Block.names {n : Nat} {site : Site} {node : Node} {announced recorded : Machine}
    {depth : Option Nat} {style : Int} (hblock : Node.Block n site m node) (mode : Mode)
    (hrecord : Visit.record site node m = .ok depth recorded)
    (hannounce : Visit.announce site node recorded = .ok style announced)
    (hexist : ∀ ref, sealed ref → ref.index < announced.scopes.size) :
    announced.Names sealed (Outcome.final
      ((interpAvoiding Native.rebindsAnywhere n).node site mode node announced)) := by
  have hinterp (other : ScopeRef → Prop) : (Tracking.naming other).comparison.Evaluates
      (interpAvoiding Native.rebindsAnywhere n) :=
    Comparison.evaluates_interpAvoiding n
  have hlike : (Tracking.naming sealed).relations.Like announced announced := ⟨.refl _, hexist⟩
  cases hblock with
  | conditional branches =>
    exact ((Tracking.conditional (hinterp sealed) announced site branches).now hlike).later
  | whileLoop condition body =>
    exact ((Tracking.whileLoop (hinterp sealed) announced site condition body).now hlike).later
  | forLoop names iterable body hiterable =>
    -- The iterable is evaluated in the frame of the loop, and all that follows in forks of it.
    obtain ⟨havoids, htop⟩ := hiterable depth recorded style announced hrecord hannounce
    rw [← havoids] at htop
    have hfirst := names_of_top hinterp hexist htop
    change announced.Names sealed (Outcome.final
      ((interpAvoiding Native.rebindsAnywhere n).forLoop site names iterable body announced))
    rw [Interp.forLoop_eq]
    cases hvalue : (interpAvoiding Native.rebindsAnywhere n).eval site .required iterable
        announced with
    | error e k =>
      rw [hvalue] at hfirst
      rw [Run.bind_error hvalue]
      exact hfirst
    | ok result k =>
      rw [hvalue] at hfirst
      rw [Run.bind_ok hvalue]
      have hrest := (Tracking.passOver (hinterp sealed) k site names body result.value).now
        ⟨.refl k, fun ref h ↦ Nat.lt_of_lt_of_le (hexist ref h) hfirst.size⟩
      exact hfirst.trans hrest.later

/-- Assumes: what does not look at the stack traces and the log, and is established by the rule for
a node on the machine it comes to. It holds when the node has been evaluated. -/
theorem Indifferent.final_evalNode {I : Machine → Prop} (hI : Indifferent I) (hm : I m)
    {interp : Interp} {site : Site} {mode : Mode} {node : Node}
    (hnode : ∀ depth recorded style announced, Visit.record site node m = .ok depth recorded →
      Visit.announce site node recorded = .ok style announced → I announced →
      I (Outcome.final (interp.node site mode node announced))) :
    I (Outcome.final (interp.evalNode site mode node m)) := by
  have hunwound {n k : Machine} (hn : I n) (h : n.Unwound k) : I k :=
    hI n k (.of_unwound h) hn
  obtain ⟨depth, recorded, hrecord, hrecorded⟩ := Visit.record_apply site node m
  replace hrecorded := hunwound hm hrecorded
  rw [Visit.evalNode_eq, Run.bind_ok hrecord, Visit.final_within]
  refine Maintains.final (Q := fun _ ↦ True) (x := Visit.goBack site depth) ?_ ?_
  · cases depth with
    | none => exact Spares.pure ()
    | some depth => exact hI.popTo site.frame depth
  cases hannounce : Visit.announce site node recorded with
  | error e k =>
    have hk := (hI.announce site node).final hrecorded
    rw [hannounce] at hk
    rwa [Run.bind_error hannounce]
  | ok style announced =>
    have hannounced := ((hI.announce site node).of_ok hrecorded hannounce).1
    have hdone := hnode depth recorded style announced hrecord hannounce hannounced
    rw [Run.bind_ok hannounce]
    cases hresult : interp.node site mode node announced with
    | error e k =>
      rw [hresult] at hdone
      rwa [Run.bind_error hresult]
    | ok result done =>
      rw [hresult] at hdone
      obtain ⟨noted, hnote, hnoted⟩ := Visit.note_apply site node style result done
      rw [Run.bind_ok hresult, hnote]
      exact hunwound hdone hnoted

/-! ### Assignments inside -/

/-- A frame lies within another one, and the scopes it has before those of the other do not bind a
name. -/
def Machine.Unshadowed (m : Machine) (inner outer : Frame) (name : String) : Prop :=
  ∃ own, inner.scopes = own ++ outer.scopes ∧ ∀ ref ∈ own, (m.scope ref).contains name = false

namespace Machine

/-- A name that is not shadowed is bound where it is bound outside. -/
theorem Unshadowed.binderOf? {inner outer : Frame} {name : String}
    (h : m.Unshadowed inner outer name) : m.binderOf? inner name = m.binderOf? outer name := by
  obtain ⟨own, hscopes, hfree⟩ := h
  unfold Machine.binderOf?
  rw [hscopes, List.find?_append, List.find?_eq_none.mpr, Option.none_or]
  intro ref hmem
  rw [hfree ref hmem]
  exact Bool.false_ne_true

/-- A name stands for what the scope that binds it says. -/
theorem lookUpName_of_binder {frame : Frame} {name : String} {ref : ScopeRef}
    (h : m.binderOf? frame name = some ref) : m.lookUpName frame name = (m.scope ref)[name]? := by
  obtain ⟨hbinds, before, behind, hscopes, hfree⟩ := List.find?_eq_some_iff_append.mp h
  have hbefore : (before.findSome? fun ref ↦ (m.scope ref)[name]?) = none := by
    refine List.findSome?_eq_none_iff.mpr fun other hmem ↦ ?_
    have hother := hfree other hmem
    rwa [Std.TreeMap.contains_eq_isSome_getElem?, Bool.not_eq_true', Option.isSome_eq_false_iff,
      Option.isNone_iff_eq_none] at hother
  rw [Std.TreeMap.contains_eq_isSome_getElem?] at hbinds
  obtain ⟨cell, hcell⟩ := Option.isSome_iff_exists.mp hbinds
  unfold lookUpName
  rw [hscopes, List.findSome?_append, hbefore, Option.none_or, List.findSome?_cons, hcell]

end Machine

/-- A name is assigned to in a scope: what is put under the name is bound there, and an assignment
to the name that succeeds overwrites the cell that it is bound to there. What it is overwritten
with, and on which machine, is said of assignments that do not combine the value with the former
one. -/
structure AssignsIn (ref : ScopeRef) (site : Site) (name : String) (m : Machine) : Prop where
  put : ∀ cell, site.frame.put name cell m = .ok () (m.bound ref name cell)
  assign : ∀ cell, (m.scope ref)[name]? = some cell →
    ∀ (n : Nat) (operator : String) (value : Node) (before : Machine) (new result : CellRef)
      (last : Machine),
      (interp (n + 1)).value site value .required before = .ok new m →
      (interp (n + 1)).assign site operator (.identifier name) value before = .ok result last →
      result = cell ∧ ∃ source done,
        (done.after (.overwrite cell (done.content source))).SameWork last ∧
          (operator = "" ∨ operator = "=" → source = new ∧ done = m)

namespace Interp

variable {site : Site} {name : String} {cell : CellRef}

/-- Assumes: a mode that does not renew names, and a visible name that gives a value. It gives its
own cell, and changes nothing that the work depends on. -/
theorem value_variable_eq_ok {n : Nat} {mode : Mode} {found : CellRef} (hmode : mode ≠ .createNew)
    (hvisible : m.visible? site name = some cell)
    (h : (interp (n + 1)).value site (.identifier name) mode m = .ok found k) :
    found = cell ∧ m.SameWork k := by
  have hkept {a b : Machine} (hab : a.SameWork b) :
      b.visible? site name = a.visible? site name := by
    rw [← hab.same]
    rfl
  change ((interp n).evalNode site mode (.identifier name) >>= _) m = _ at h
  obtain ⟨result, last, heval, hvalue⟩ := Run.bind_eq_ok_iff.mp h
  cases hvalue
  constructor
  · obtain ⟨depth, recorded, style, announced, done, hrecord, hannounce, hnode⟩ :=
      Visit.evalNode_parts heval
    obtain ⟨done', hgives, -⟩ := node_variable n hmode
      (Visit.visible?_announced hrecord hannounce hvisible)
    cases hnode.symm.trans hgives
    rfl
  · have hfinal :
        m.SameWork (Outcome.final ((interp n).evalNode site mode (.identifier name) m)) := by
      refine Indifferent.final_evalNode (fun _ _ hab hma ↦ hma.trans hab) (.refl m)
        fun _ _ _ announced _ _ hannounced ↦ ?_
      obtain ⟨done, hnode, hdone⟩ := node_variable n hmode ((hkept hannounced).trans hvisible)
      rw [hnode]
      exact hannounced.trans (.of_unwound hdone)
    rwa [heval] at hfinal

/-- Assumes: an assignment to a visible name that succeeds. It overwrites the cell of the name. -/
theorem assign_eq_ok {n : Nat} {operator : String} {value : Node} {evaluated last : Machine}
    {new result : CellRef} (hvisible : evaluated.visible? site name = some cell)
    (hvalue : (interp (n + 1)).value site value .required m = .ok new evaluated)
    (h : (interp (n + 1)).assign site operator (.identifier name) value m = .ok result last) :
    result = cell ∧ ∃ source done,
      (done.after (.overwrite cell (done.content source))).SameWork last ∧
        (operator = "" ∨ operator = "=" → source = new ∧ done = evaluated) := by
  rw [assign_eq] at h
  change (interp (n + 1)).assignTo site operator (.identifier name) value m = _ at h
  unfold assignTo at h
  rw [Run.bind_ok hvalue] at h
  obtain ⟨written, found, htarget, h⟩ := Run.bind_eq_ok_iff.mp h
  obtain ⟨rfl, hfound⟩ :=
    value_variable_eq_ok (nofun : Mode.createIfMissing ≠ .createNew) hvisible htarget
  have hended {source : CellRef} {done : Machine}
      (hrest : (inherit written source >>= fun _ ↦ noteAssignment (.identifier name) written) done =
        .ok result last) :
      result = written ∧
        (done.after (.overwrite written (done.content source))).SameWork last := by
    obtain ⟨m', hnoted, hunwound⟩ := noteAssignment_apply (.identifier name) written
      (done.after (.overwrite written (done.content source)))
    change noteAssignment (.identifier name) written
      (done.after (.overwrite written (done.content source))) = _ at hrest
    cases hnoted.symm.trans hrest
    exact ⟨rfl, .of_unwound hunwound⟩
  have hcontent : content written found = .ok (found.content written) found := rfl
  rw [Run.bind_ok hcontent] at h
  dsimp only at h
  split at h
  · rename_i hcombines
    obtain ⟨combined, done, -, hrest⟩ := Run.bind_eq_ok_iff.mp h
    obtain ⟨hresult, hlast⟩ := hended hrest
    refine ⟨hresult, combined, done, hlast, fun hplain ↦ ?_⟩
    rcases hplain with rfl | rfl <;> simp at hcombines
  · obtain ⟨hresult, hlast⟩ := hended h
    refine ⟨hresult, new, evaluated, .trans ?_ hlast, fun _ ↦ ⟨rfl, rfl⟩⟩
    refine { hfound with same := ?_ }
    rw [← hfound.same]
    rfl

end Interp

/-- Assumes: a name that a scope of a frame binds. In frames within that do not shadow it, it is
assigned to in that scope. -/
theorem Machine.Unshadowed.assignsIn {site : Site} {outer : Frame} {name : String} {ref : ScopeRef}
    (h : m.Unshadowed site.frame outer name) (hbinder : m.binderOf? outer name = some ref) :
    AssignsIn ref site name m := by
  have hinner : m.binderOf? site.frame name = some ref := h.binderOf?.trans hbinder
  constructor
  · intro cell
    unfold Frame.put
    rw [Run.get_bind, hinner]
    rfl
  · intro cell hcell n operator value before new result last hvalue hassigned
    refine Interp.assign_eq_ok ?_ hvalue hassigned
    unfold Machine.visible?
    rw [Machine.lookUpName_of_binder hinner, hcell, Option.some_or]

/-- Assumes: a branching or a loop, evaluated in a frame whose scopes exist, without a call of a
native that removes names or lets a host run code at the root of a source. A loop over elements
passes over something that creates no name. Then, however the evaluation ends, every scope that
there was has the names it had. So each name that the frame sees is bound in the same scope as
before, and no other name is seen. A name that the frame sees is assigned to in the scope that binds
it, at every site within the frame that does not shadow it. -/
theorem block_keeps_names {n : Nat} {site : Site} {node : Node} {m : Machine} (mode : Mode)
    (hblock : Node.Block n site m node)
    (hframe : ∀ ref ∈ site.frame.scopes, ref.index < m.scopes.size)
    (havoids : EvaluationAvoids Native.rebindsAnywhere (n + 1) site mode node m) :
    let final := Outcome.final ((interp (n + 1)).eval site mode node m)
    (∀ ref : ScopeRef, ref.index < m.scopes.size →
      ∀ name, (final.scope ref).contains name = (m.scope ref).contains name) ∧
    (∀ name, final.binderOf? site.frame name = m.binderOf? site.frame name ∧
      (final.lookUpName site.frame name).isSome = (m.lookUpName site.frame name).isSome) ∧
    ∀ (inner : Site) (name : String) (ref : ScopeRef) (k : Machine),
      k.binderOf? site.frame name = some ref → k.Unshadowed inner.frame site.frame name →
        AssignsIn ref inner name k := by
  intro final
  let before (ref : ScopeRef) : Prop := ref.index < m.scopes.size
  have hnames : m.Names before final := by
    unfold final
    rw [← havoids]
    have hindifferent : Indifferent (m.Names before) := by
      intro a b hsame ha
      refine ha.trans (.of_untouched ?_ ?_) <;> rw [← hsame.same]
    refine hindifferent.final_evalNode (.refl m)
      fun depth recorded style announced hrecord hannounce hannounced ↦ ?_
    refine hannounced.trans (hblock.names mode hrecord hannounce fun ref hexists ↦ ?_)
    exact Nat.lt_of_lt_of_le hexists hannounced.size
  refine ⟨fun ref hexists ↦ hnames.contains_eq hexists, fun name ↦ ⟨?_, ?_⟩,
    fun inner name ref k hbinder hunshadowed ↦ hunshadowed.assignsIn hbinder⟩
  · exact hnames.binderOf? hframe name
  · rw [Bool.eq_iff_iff, Machine.isSome_lookUpName, Machine.isSome_lookUpName]
    refine exists_congr fun ref ↦ and_congr_right fun hmem ↦ ?_
    rw [hnames.contains_eq (hframe ref hmem)]

/-! ### A loop that declares a function -/

/-- A loop asks for evaluations only. -/
theorem Interp.forLoop_congr {I J : Interp} (heval : I.eval = J.eval) (site : Site)
    (names : List String) (iterable body : Node) :
    I.forLoop site names iterable body = J.forLoop site names iterable body := by
  have hpass (inner : Site) : I.pass inner body = J.pass inner body := by
    unfold pass
    rw [heval]
  have helements (ref : IteratorRef) (count : Nat) (last : Completion) :
      I.forElements site names body ref count last =
        J.forElements site names body ref count last := by
    induction count generalizing last with
    | zero => rfl
    | succ count ih =>
      unfold forElements
      simp only [hpass, ih]
  rw [forLoop_eq, forLoop_eq, heval]
  unfold passOver
  simp only [helements]

namespace DeclaringLoop

/-- A loop that declares a function in each pass. -/
def loop : Node := .forLoop ["i"] (.string "a") (.declaration "g" [] none false)

/-- A machine with a source that has one variable. -/
def machine : Machine where
  cells := #[.boolean true]
  scopes := #[Std.TreeMap.insert {} "x" ⟨0⟩]
  traces := #[{}]
  contexts := #[{ source := "main", globals := ⟨0⟩, trace := ⟨0⟩ }]

def site : Site := ⟨⟨0⟩, (machine.context ⟨0⟩).frame⟩

end DeclaringLoop

open DeclaringLoop in
/-- The function is bound in the frame of the pass, and not in that of the loop. -/
theorem declaring_loop_keeps_names :
    let final := Outcome.final ((interp 2).eval site .required loop machine)
    Node.Block 1 site machine loop ∧
      (∀ ref ∈ site.frame.scopes, ref.index < machine.scopes.size) ∧
      EvaluationAvoids Native.rebindsAnywhere 2 site .required loop machine ∧
      (final.scope ⟨1⟩).contains "g" ∧
      (final.scope ⟨0⟩).contains "g" = (machine.scope ⟨0⟩).contains "g" := by
  intro final
  have hblock : Node.Block 1 site machine loop := by
    refine .forLoop ["i"] (.string "a") (.declaration "g" [] none false) ?_
    intro depth recorded style announced hrecord hannounce
    refine ⟨rfl, ?_⟩
    cases hrecord
    cases hannounce
    exact fun _ h ↦ h
  have hframe : ∀ ref ∈ site.frame.scopes, ref.index < machine.scopes.size := by decide
  have havoids : EvaluationAvoids Native.rebindsAnywhere 2 site .required loop machine := by
    have heval : (interpAvoiding Native.rebindsAnywhere 1).eval = (interp 1).eval := rfl
    have hnode : (interpAvoiding Native.rebindsAnywhere 1).node site .required loop =
        (interp 1).node site .required loop :=
      Interp.forLoop_congr heval site ["i"] (.string "a") (.declaration "g" [] none false)
    change (interpAvoiding Native.rebindsAnywhere 1).evalNode site .required loop machine =
      (interp 1).evalNode site .required loop machine
    rw [Visit.evalNode_eq, Visit.evalNode_eq, hnode]
  refine ⟨hblock, hframe, havoids, ?_, ?_⟩
  · decide +kernel
  · exact (block_keeps_names .required hblock hframe havoids).1 ⟨0⟩ (by decide) "g"

end TreeScript
