import TreeScript.Proofs.Walk
import TreeScript.Proofs.Comparison.Statements
import TreeScript.Proofs.Evolution
import TreeScript.Proofs.Invariant

/-!
# Variables

A name that is visible at a site stands for a cell. The name evaluates to this very cell
(`value_variable`), and an assignment to the name overwrites it (`assign_variable`). So whatever has
got hold of the cell by evaluating the name takes part in every later assignment.
-/

set_option autoImplicit false

namespace TreeScript

/-- The cell a name stands for at a site: a local one, or a variable of the source. -/
def Machine.visible? (m : Machine) (site : Site) (name : String) : Option CellRef :=
  (m.lookUpName site.frame name).or (m.global? site.context name)

/-- What a name stands for depends neither on the stack traces nor on the log. -/
theorem Machine.Unwound.visible? {m n : Machine} (h : m.Unwound n) (site : Site) (name : String) :
    n.visible? site name = m.visible? site name := by
  rw [← h]
  rfl

/-- Announcing a node keeps what does not look at the stack traces, the output, the log and the
options. -/
theorem Indifferent.announce {I : Machine → Prop} (hI : Indifferent I) (site : Site) (node : Node) :
    Spares I (Visit.announce site node) := by
  refine (hI.haltAt site node).bind fun _ ↦ .get_bind fun n _ ↦ ?_
  have hshown : Spares I (Visit.showNode site node n.options.trace) :=
    .ite (fun _ ↦ .get_bind fun _ _ ↦ hI.logInfo _) fun _ ↦ .pure trivial
  exact hshown.bind fun _ ↦ .pure trivial

/-- What is visible at a site stays so while a node is recorded and announced. -/
theorem Visit.visible?_announced {site spot : Site} {node : Node} {name : String} {cell : CellRef}
    {m recorded announced : Machine} {depth : Option Nat} {style : Int}
    (hrecord : record spot node m = .ok depth recorded)
    (hannounce : announce spot node recorded = .ok style announced)
    (hvisible : m.visible? site name = some cell) :
    announced.visible? site name = some cell := by
  have hindifferent : Indifferent fun n ↦ n.visible? site name = some cell := by
    intro n k hsame hn
    rw [← hsame.same]
    exact hn
  obtain ⟨depth', m', hrecord', hunwound⟩ := record_apply spot node m
  cases hrecord.symm.trans hrecord'
  have hrecorded := (hunwound.visible? site name).trans hvisible
  exact ((hindifferent.announce spot node).of_ok hrecorded hannounce).1

/-! ### Reading -/

namespace Chain

variable {chain : Chain} {name : String} {m : Machine} {value : CellRef}

/-- A chain that has taken no step yet. -/
def start (chain : Chain) : Resolution :=
  { context := chain.site.context, frame := chain.site.frame }

/-- Resolves the name a chain begins with, which may be all of it. -/
def head (chain : Chain) (interp : Interp) (isFinal : Bool) (name : String) : Run Resolution := do
  if (← get).options.logResolve then
    logInfo ("resolve start: " ++ chain.origin.code)
  chain.advance interp 0 isFinal chain.origin (.identifier name) chain.start

/-- A chain resolves the name it begins with and takes the other steps. -/
theorem resolve_cons (interp : Interp) (site : Site) (origin : Node) (mode : Mode) (name : String)
    (steps : List Node) :
    resolve interp site origin mode (.identifier name :: steps) = (do
      let chain : Chain := { origin, site, mode }
      let r ← chain.head interp steps.isEmpty name
      chain.resolveSteps interp 1 (.identifier name) steps r) := by
  unfold resolve head
  rw [if_neg (by simp), bind_assoc]
  refine bind_congr fun m ↦ ?_
  dsimp only
  split
  · rw [bind_assoc]
    exact bind_congr fun _ ↦ resolveSteps_cons ..
  · exact resolveSteps_cons ..

/-- Outside of a mode that renews names, a visible name resolves to its own cell. -/
theorem resolveName_of_visible (hmode : chain.mode ≠ .createNew) (i : Nat) (isFinal : Bool)
    (hvisible : m.visible? chain.site name = some value) :
    ∃ m', chain.resolveName i isFinal name chain.start m =
      .ok { chain.start with value := some value } m' ∧ m.Unwound m' := by
  have hkept (rebind : CellRef → Run Unit) : chain.refresh value rebind m = .ok value m := by
    unfold refresh
    rw [if_neg hmode]
    rfl
  unfold Machine.visible? at hvisible
  unfold resolveName
  rw [Run.get_bind]
  dsimp only [start]
  cases hlocal : m.lookUpName chain.site.frame name with
  | some cell =>
    rw [hlocal, Option.some_or] at hvisible
    cases hvisible
    obtain ⟨m', hlog, hm'⟩ := logStep_apply i name "local symbols" m
    refine ⟨m', ?_, hm'⟩
    dsimp only
    rw [Run.bind_ok (hkept _), Run.bind_ok hlog]
    rfl
  | none =>
    rw [hlocal, Option.none_or] at hvisible
    obtain ⟨m', hlog, hm'⟩ := logStep_apply i name "global variables" m
    refine ⟨m', ?_, hm'⟩
    dsimp only
    rw [Run.get_bind, hvisible]
    dsimp only
    rw [Run.bind_ok (hkept _), Run.bind_ok hlog]
    rfl

/-- In a mode that renews names, a name that a scope of the frame binds resolves to a copy of its
cell, which the scope binds it to from now on. -/
theorem resolveName_renews {ref : ScopeRef} (hmode : chain.mode = .createNew) (i : Nat)
    (isFinal : Bool) (hbinder : m.binderOf? chain.site.frame name = some ref)
    (hlocal : m.lookUpName chain.site.frame name = some value) :
    ∃ m', chain.resolveName i isFinal name chain.start m =
        .ok { chain.start with value := some ⟨m.cells.size⟩ } m' ∧
      ((m.withCell (m.content value)).bound ref name ⟨m.cells.size⟩).Unwound m' := by
  have hput : chain.site.frame.put name ⟨m.cells.size⟩ (m.withCell (m.content value)) =
      .ok () ((m.withCell (m.content value)).bound ref name ⟨m.cells.size⟩) := by
    have hplace : (m.withCell (m.content value)).binderOf? chain.site.frame name = some ref :=
      hbinder
    unfold Frame.put
    rw [Run.get_bind, hplace]
    rfl
  have hcopied : copy value m = .ok ⟨m.cells.size⟩ (m.withCell (m.content value)) := rfl
  have hrenewed : chain.refresh value (chain.site.frame.put name) m = .ok ⟨m.cells.size⟩
      ((m.withCell (m.content value)).bound ref name ⟨m.cells.size⟩) := by
    unfold refresh
    rw [if_pos hmode, Run.bind_ok hcopied, Run.bind_ok hput]
    rfl
  obtain ⟨m', hlog, hm'⟩ := logStep_apply i name "local symbols"
    ((m.withCell (m.content value)).bound ref name ⟨m.cells.size⟩)
  refine ⟨m', ?_, hm'⟩
  unfold resolveName
  rw [Run.get_bind]
  dsimp only [start]
  rw [hlocal]
  dsimp only
  rw [Run.bind_ok hrenewed, Run.bind_ok hlog]
  rfl

/-- A chain begins with what the name resolves to. -/
theorem head_ok (interp : Interp) (isFinal : Bool) {r : Resolution} {base : Machine}
    (hname : ∀ k, m.Unwound k →
      ∃ done, chain.resolveName 0 isFinal name chain.start k = .ok r done ∧ base.Unwound done) :
    ∃ m', chain.head interp isFinal name m = .ok r m' ∧ base.Unwound m' := by
  unfold head
  rw [Run.get_bind]
  split
  · obtain ⟨n, hlog, hn⟩ := logInfo_apply ("resolve start: " ++ chain.origin.code) m
    obtain ⟨m', hresolved, hm'⟩ := hname n hn
    refine ⟨m', ?_, hm'⟩
    rw [Run.bind_ok hlog]
    exact hresolved
  · exact hname m (.refl m)

/-- A visible name is where a chain begins with it. -/
theorem head_of_visible (interp : Interp) (hmode : chain.mode ≠ .createNew) (isFinal : Bool)
    (hvisible : m.visible? chain.site name = some value) :
    ∃ m', chain.head interp isFinal name m = .ok { chain.start with value := some value } m' ∧
      m.Unwound m' := by
  refine head_ok interp isFinal fun k hk ↦ ?_
  obtain ⟨m', hresolved, hm'⟩ :=
    resolveName_of_visible hmode 0 isFinal ((hk.visible? _ name).trans hvisible)
  exact ⟨m', hresolved, hk.trans hm'⟩

end Chain

namespace Interp

variable {site : Site} {mode : Mode} {name : String} {m : Machine} {cell : CellRef}

/-- Assumes: no debugger, and a construct that gives a result. So does the evaluation of the node,
and it leaves behind what the construct does, up to the stack traces and the log. -/
theorem eval_of_node {n : Nat} {node : Node} {Q : Completion → Machine → Prop}
    (hdebugger : m.options.debugger = none)
    (hnode : ∀ k, m.Unwound k →
      ∃ result done, (interp n).node site mode node k = .ok result done ∧ Q result done) :
    ∃ result done last, (interp (n + 1)).eval site mode node m = .ok result last ∧
      done.Unwound last ∧ Q result done := by
  obtain ⟨depth, recorded, style, announced, hrecord, hannounce, hentered⟩ :=
    Visit.record_announce_apply site node hdebugger
  obtain ⟨result, done, hresult, hQ⟩ := hnode announced hentered
  obtain ⟨last, heval, hlast⟩ := Visit.evalNode_ok hrecord hannounce hresult
  exact ⟨result, done, last, heval, hlast, hQ⟩

/-- Assumes: no debugger, and a construct that gives a cell. So does the evaluation of the node, and
it leaves behind what the construct does, up to the stack traces and the log. -/
theorem value_of_node {n : Nat} {node : Node} {Q : CellRef → Machine → Prop}
    (hdebugger : m.options.debugger = none)
    (hnode : ∀ k, m.Unwound k →
      ∃ cell done, (interp n).node site mode node k = .ok { value := cell } done ∧ Q cell done) :
    ∃ cell done last, (interp (n + 1)).value site node mode m = .ok cell last ∧
      done.Unwound last ∧ Q cell done := by
  obtain ⟨result, done, last, heval, hlast, cell, rfl, hQ⟩ :=
    eval_of_node (Q := fun result done ↦ ∃ cell, result = { value := cell } ∧ Q cell done)
      hdebugger fun k hk ↦ by
        obtain ⟨cell, done, hresult, hQ⟩ := hnode k hk
        exact ⟨_, done, hresult, cell, rfl, hQ⟩
  refine ⟨cell, done, last, ?_, hlast, hQ⟩
  change ((interp (n + 1)).eval site mode node >>= _) m = _
  rw [Run.bind_ok heval]
  rfl

/-- Assumes: no debugger, and a construct that gives a certain cell and leaves behind a certain
machine, up to the stack traces and the log. So does the evaluation of the node. -/
theorem value_of_construct {n : Nat} {node : Node} {base : Machine}
    (hdebugger : m.options.debugger = none)
    (hconstruct : ∀ k, m.Unwound k →
      ∃ done, (interp n).node site mode node k = .ok { value := cell } done ∧ base.Unwound done) :
    ∃ last, (interp (n + 1)).value site node mode m = .ok cell last ∧ base.Unwound last := by
  obtain ⟨_, done, last, hvalue, hlast, rfl, hdone⟩ :=
    value_of_node (Q := fun found done ↦ found = cell ∧ base.Unwound done) hdebugger fun k hk ↦ by
      obtain ⟨done, hnode, hdone⟩ := hconstruct k hk
      exact ⟨cell, done, hnode, rfl, hdone⟩
  exact ⟨last, hvalue, hdone.trans hlast⟩

/-- Assumes: no debugger. A truth value evaluates to a new cell. -/
theorem value_boolean (n : Nat) (site : Site) (b : Bool) (hdebugger : m.options.debugger = none) :
    ∃ m', (interp (n + 1)).value site (.boolean b) .required m = .ok ⟨m.cells.size⟩ m' ∧
      (m.withCell (.boolean b)).Unwound m' := by
  refine value_of_construct hdebugger fun k hk ↦ ⟨k.withCell (.boolean b), ?_, hk.withCell _⟩
  rw [← hk.cells]
  rfl

/-- The rule for a name gives the cell that a chain of nothing else begins with. -/
theorem node_of_head (n : Nat) {base : Machine}
    (hhead : ∃ m', Chain.head { origin := .identifier name, site, mode } (interp n) true name m =
      .ok { context := site.context, frame := site.frame, value := some cell } m' ∧
        base.Unwound m') :
    ∃ m', (interp n).node site mode (.identifier name) m = .ok { value := cell } m' ∧
      base.Unwound m' := by
  obtain ⟨m', hhead, hm'⟩ := hhead
  have hresolved : resolve (interp n) site (.identifier name) mode [.identifier name] m =
      .ok cell m' := by
    rw [Chain.resolve_cons]
    dsimp only
    rw [List.isEmpty_nil, Run.bind_ok hhead]
    rfl
  refine ⟨m', ?_, hm'⟩
  change (resolve (interp n) site (.identifier name) mode [.identifier name] >>= _) m = _
  rw [Run.bind_ok hresolved]
  rfl

/-- Assumes: a mode that does not renew names. The rule for a visible name gives its own cell. -/
theorem node_variable (n : Nat) (hmode : mode ≠ .createNew)
    (hvisible : m.visible? site name = some cell) :
    ∃ m', (interp n).node site mode (.identifier name) m = .ok { value := cell } m' ∧
      m.Unwound m' :=
  node_of_head n (Chain.head_of_visible (interp n) hmode true hvisible)

/-- Assumes: no debugger, and a mode that does not renew names. A visible name evaluates to its own
cell. -/
theorem value_variable (n : Nat) (hmode : mode ≠ .createNew) (hdebugger : m.options.debugger = none)
    (hvisible : m.visible? site name = some cell) :
    ∃ m', (interp (n + 1)).value site (.identifier name) mode m = .ok cell m' ∧ m.Unwound m' := by
  refine value_of_construct hdebugger fun k hk ↦ ?_
  obtain ⟨done, hnode, hdone⟩ := node_variable n hmode ((hk.visible? site name).trans hvisible)
  exact ⟨done, hnode, hk.trans hdone⟩

/-- Where names are renewed, the rule for a name that a scope of the frame binds gives a copy of its
cell, which the scope binds it to from now on. -/
theorem node_renewed (n : Nat) {ref : ScopeRef} (hbinder : m.binderOf? site.frame name = some ref)
    (hlocal : m.lookUpName site.frame name = some cell) :
    ∃ m', (interp n).node site .createNew (.identifier name) m =
        .ok { value := ⟨m.cells.size⟩ } m' ∧
      ((m.withCell (m.content cell)).bound ref name ⟨m.cells.size⟩).Unwound m' := by
  let chain : Chain := { origin := .identifier name, site, mode := .createNew }
  refine node_of_head n (chain.head_ok (interp n) true fun l hunwound ↦ ?_)
  have hbinder' : l.binderOf? site.frame name = some ref := by rwa [← hunwound]
  have hlocal' : l.lookUpName site.frame name = some cell := by rwa [← hunwound]
  obtain ⟨m', hresolved, hm'⟩ := chain.resolveName_renews rfl 0 true hbinder' hlocal'
  refine ⟨m', ?_, .trans ?_ hm'⟩
  · rw [hresolved, hunwound.cells]
    rfl
  · rw [hunwound.cells, hunwound.content, ← hunwound]
    rfl

/-- Assumes: no debugger, and a name that a scope of the frame binds. Where names are renewed, it
evaluates to a copy of its cell, which the scope binds it to from now on. -/
theorem value_renewed (n : Nat) {ref : ScopeRef} (hdebugger : m.options.debugger = none)
    (hbinder : m.binderOf? site.frame name = some ref)
    (hlocal : m.lookUpName site.frame name = some cell) :
    ∃ m', (interp (n + 1)).value site (.identifier name) .createNew m = .ok ⟨m.cells.size⟩ m' ∧
      ((m.withCell (m.content cell)).bound ref name ⟨m.cells.size⟩).Unwound m' := by
  refine value_of_construct hdebugger fun k hunwound ↦ ?_
  have hbinder' : k.binderOf? site.frame name = some ref := by rwa [← hunwound]
  have hlocal' : k.lookUpName site.frame name = some cell := by rwa [← hunwound]
  obtain ⟨done, hnode, hdone⟩ := node_renewed n hbinder' hlocal'
  rw [hunwound.cells] at hnode hdone
  refine ⟨done, hnode, .trans ?_ hdone⟩
  rw [hunwound.content, ← hunwound]
  rfl

/-! ### Assigning -/

/-- Noting an assignment changes the log at most. -/
theorem noteAssignment_apply (target : Node) (cell : CellRef) (m : Machine) :
    ∃ m', noteAssignment target cell m = .ok cell m' ∧ m.Unwound m' := by
  unfold noteAssignment
  rw [Run.get_bind]
  split
  · obtain ⟨m', hlog, hunwound⟩ :=
      logInfo_apply ("assignment: [" ++ target.code ++ "] = [" ++ m.display cell ++ "]") m
    refine ⟨m', ?_, hunwound⟩
    have hshown : display cell m = .ok (m.display cell) m := rfl
    rw [Run.bind_ok hshown, Run.bind_ok hlog]
    rfl
  · exact ⟨m, rfl, .refl m⟩

/-- A plain assignment has evaluated its value, and is to go on where no debugger is at work. -/
structure Assigning (interp : Interp) (site : Site) (operator : String) (value : Node) (m : Machine)
    (new : CellRef) (evaluated : Machine) : Prop where
  plain : operator = "" ∨ operator = "="
  value : interp.value site value .required m = .ok new evaluated
  debugger : evaluated.options.debugger = none

/-- Assumes: an assignment that has come to the cell of its target. It overwrites the cell with what
the value holds. -/
theorem assign_ok {interp : Interp} {operator : String} {target value : Node}
    {evaluated found : Machine} {new : CellRef} (hoperator : operator = "" ∨ operator = "=")
    (hhint : assignmentHint? target = none)
    (hvalue : interp.value site value .required m = .ok new evaluated)
    (htarget : interp.value site target .createIfMissing evaluated = .ok cell found) :
    ∃ m', interp.assign site operator target value m = .ok cell m' ∧
      (found.after (.overwrite cell (found.content new))).Unwound m' := by
  have hcontent : content cell found = .ok (found.content cell) found := rfl
  have hplainly : (operator ≠ "" && operator ≠ "=" && !(found.content cell).isEmpty) = false := by
    rcases hoperator with rfl | rfl <;> simp
  have hinherit : inherit cell new found =
      .ok () (found.after (.overwrite cell (found.content new))) := rfl
  obtain ⟨m', hnoted, hunwound⟩ := noteAssignment_apply target cell
    (found.after (.overwrite cell (found.content new)))
  refine ⟨m', ?_, hunwound⟩
  rw [assign_eq, hhint]
  change interp.assignTo site operator target value m = _
  unfold assignTo
  rw [Run.bind_ok hvalue, Run.bind_ok htarget, Run.bind_ok hcontent]
  dsimp only
  rw [if_neg (by rw [hplainly]; exact Bool.false_ne_true), Run.bind_ok hinherit, hnoted]

/-- Assumes: an assignment that has succeeded. It has evaluated its value, and then its target. -/
theorem assign_parts {interp : Interp} {operator : String} {target value : Node} {m' : Machine}
    (hhint : assignmentHint? target = none)
    (h : interp.assign site operator target value m = .ok cell m') :
    ∃ new evaluated written found,
      interp.value site value .required m = .ok new evaluated ∧
      interp.value site target .createIfMissing evaluated = .ok written found := by
  rw [assign_eq, hhint] at h
  change interp.assignTo site operator target value m = _ at h
  unfold assignTo at h
  rw [Run.bind_eq_ok_iff] at h
  obtain ⟨new, evaluated, hvalue, hrest⟩ := h
  rw [Run.bind_eq_ok_iff] at hrest
  obtain ⟨written, found, htarget, -⟩ := hrest
  exact ⟨new, evaluated, written, found, hvalue, htarget⟩

/-- Assumes: an assignment to a name that is visible. It overwrites the cell of the name with what
the value holds. -/
theorem assign_variable {n : Nat} {operator : String} {value : Node} {evaluated : Machine}
    {new : CellRef} (h : (interp (n + 1)).Assigning site operator value m new evaluated)
    (hvisible : evaluated.visible? site name = some cell) :
    ∃ m', (interp (n + 1)).assign site operator (.identifier name) value m = .ok cell m' ∧
      (evaluated.after (.overwrite cell (evaluated.content new))).Unwound m' := by
  obtain ⟨found, htarget, hfound⟩ := value_variable n
    (nofun : Mode.createIfMissing ≠ .createNew) h.debugger hvisible
  obtain ⟨m', hassigned, hm'⟩ := assign_ok h.plain rfl h.value htarget
  refine ⟨m', hassigned, Machine.Unwound.trans ?_ hm'⟩
  rw [hfound.content]
  unfold Machine.Unwound
  rw [← hfound]
  rfl

end Interp

end TreeScript
