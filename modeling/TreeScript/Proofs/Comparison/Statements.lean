import TreeScript.Proofs.Comparison.Resolve
import TreeScript.Eval.Expression

/-!
# Statements under comparison

Every kind of statement, run at sites that are compared by an interpreter that respects the
comparison, compares. Branches and loops run in forks of their site, which are compared again.
-/

set_option autoImplicit false

namespace TreeScript

theorem Steady.argsObject (callee : CellRef) (args : List CellRef) :
    Steady (Interp.argsObject callee args) := by
  refine .content_bind (fun _ _ _ ↦ rfl) fun c ↦ ?_
  split
  · refine Steady.newTable.bind fun ref ↦ Steady.bind (.forIn _ _ fun _ _ ↦ ?_) fun _ ↦
      .newObject ref
    exact (Steady.setText ref _ _).bind fun _ ↦ .pure _
  · exact .newArray args

namespace Interp

/-- Logs an assignment where assignments are logged, and answers the cell that was assigned to. -/
def noteAssignment (target : Node) (cell : CellRef) : Run CellRef := do
  if (← get).options.logAssignments then
    let shown ← display cell
    logInfo ("assignment: [" ++ target.code ++ "] = [" ++ shown ++ "]")
  return cell

/-- An assignment to a target that may be assigned to. -/
def assignTo (interp : Interp) (site : Site) (operator : String) (target value : Node) :
    Run CellRef := do
  let new ← interp.value site value
  let cell ← interp.value site target .createIfMissing
  if operator ≠ "" && operator ≠ "=" && !(← content cell).isEmpty then
    let combined ← interp.applyOperator site operator .infixOp [cell, new]
    inherit cell combined
  else inherit cell new
  noteAssignment target cell

/-- An assignment first makes sure that its target may be assigned to. -/
theorem assign_eq (interp : Interp) (site : Site) (operator : String) (target value : Node) :
    interp.assign site operator target value = (do
      if let some hint := assignmentHint? target then
        site.raise .invalidControl ("Cannot assign to " ++ target.code ++ "\n" ++ hint)
      interp.assignTo site operator target value) := by
  unfold assign
  cases assignmentHint? target <;> rfl

end Interp

namespace Comparison

open Relations

variable {K : Comparison} {m : Machine} {s s' : Site} {interp : Interp}

/-- A function defined at sites that are compared differs at most in its stack trace. -/
theorem newFunction (hsites : K.Sites m s s') (params : List String) (body : Node) :
    K.Same m (newFunction s params body) (newFunction s' params body) := by
  obtain ⟨trace⟩ := K.sites_alike hsites
  exact (steady .newStamp).bind fun stamp ↦
    K.confined m (Confined.alloc (.closure stamp ⟨params, body, s.context, s.frame⟩ trace))

theorem declaredNative (hsites : K.Sites m s s') (name : String) :
    K.Same m (declaredNative s name) (declaredNative s' name) := by
  have halike := K.sites_alike hsites
  unfold TreeScript.declaredNative
  rw [halike.isRoot, halike.context]
  refine Same.check (raiseAt hsites _ _) ?_
  refine Runs.get_bind fun n n' hn ↦ ?_
  rw [hn.context]
  refine Runs.get_bind fun k k' hk ↦ ?_
  rw [hk.native?]
  split
  · exact (steady .newStamp).bind fun stamp ↦ steady (.alloc _)
  · exact raiseAt hsites _ _

theorem bindElement (hsites : K.Sites m s s') (names : List String) (element : CellRef) :
    K.Same m (Interp.bindElement names element s.frame)
      (Interp.bindElement names element s'.frame) := by
  have hnew {α : Type} (name : String) (cell : CellRef) (a : α) : K.Same m
      (do s.frame.putOnTop name (← copy cell); return a)
      (do s'.frame.putOnTop name (← copy cell); return a) := by
    rw [← bindNew_bind, ← bindNew_bind]
    exact (K.putOnTop name (.copy cell) hsites).bind fun _ ↦ Same.refl_pure a
  have hput (name : String) (cell : CellRef) : K.Same m (do s.frame.putOnTop name (← copy cell))
      (do s'.frame.putOnTop name (← copy cell)) := by
    have hlast (frame : Frame) : (do frame.putOnTop name (← copy cell)) =
        (do frame.putOnTop name (← copy cell); return ()) :=
      bind_congr fun c ↦ (bind_pure (frame.putOnTop name c)).symm
    rw [hlast, hlast]
    exact hnew name cell ()
  refine Runs.get_bind fun n n' halike ↦ ?_
  rw [halike.isArray, halike.tableOf?, halike.table, halike.display, halike.typeName]
  dsimp only
  split
  · split
    · refine Same.bind (Same.forIn _ (fun (name, item) _ ↦ ?_) _) fun _ ↦ Same.refl_pure ()
      exact hnew name item _
    · split
      · exact hput _ _
      · exact steady (.fail _)
  · split
    · exact hput _ _
    · exact steady (.fail _)

variable (hinterp : K.Evaluates interp)
include hinterp

theorem sequenceFrom (hsites : K.Sites m s s') (mode : Mode) (nodes : List Node) :
    ∀ last : Completion, K.Same m (interp.sequenceFrom s mode last nodes)
      (interp.sequenceFrom s' mode last nodes) := by
  induction nodes with
  | nil => exact fun last ↦ Same.refl_pure last
  | cons node nodes ih =>
    intro last
    refine (hinterp.eval mode node hsites).bind fun result ↦ ?_
    split
    · exact ih result
    · exact Same.refl_pure result

theorem sequence (hsites : K.Sites m s s') (mode : Mode) (nodes : List Node) :
    K.Same m (interp.sequence s mode nodes) (interp.sequence s' mode nodes) :=
  (steady .newEmpty).bind fun _ ↦ sequenceFrom hinterp hsites mode nodes _

theorem branches (hsites : K.Sites m s s') (list : List (Option Node × Node)) :
    K.Same m (interp.branches s list) (interp.branches s' list) := by
  induction list with
  | nil => exact (steady .newEmpty).bind fun _ ↦ Same.refl_pure _
  | cons branch rest ih =>
    obtain ⟨condition, body⟩ := branch
    cases condition with
    | none => exact hinterp.eval .required body hsites
    | some condition =>
      refine (hinterp.value hsites condition .required).bind fun test ↦
        (steady (.isTrue test)).bind fun holds ↦ ?_
      split
      · exact hinterp.eval .required body hsites
      · exact ih

theorem returned (hsites : K.Sites m s s') (argument : Option Node) :
    K.Same m (interp.returned s argument) (interp.returned s' argument) := by
  cases argument with
  | none => exact (steady .newEmpty).bind fun _ ↦ Same.refl_pure _
  | some node =>
    exact (hinterp.value hsites node .required).bind fun _ ↦ Same.refl_pure _

theorem pass (hsites : K.Sites m s s') (body : Node) :
    K.Same m (interp.pass s body) (interp.pass s' body) := by
  refine (hinterp.eval .required body hsites).bind fun result ↦ ?_
  split
  · exact Same.refl_pure _
  · exact Same.refl_pure _
  · exact (steady .newEmpty).bind fun _ ↦ Same.refl_pure _
  · exact (steady .newEmpty).bind fun _ ↦ Same.refl_pure _

theorem loopElements (hsites : K.Sites m s s') (names : List String) (body : Node)
    (ref : IteratorRef) (count : Nat) : ∀ last : Completion,
    K.Same m (interp.forElements s names body ref count last)
      (interp.forElements s' names body ref count last) := by
  induction count with
  | zero => exact fun last ↦ Same.refl_pure last
  | succ count ih =>
    intro last
    refine (steady (.next? ref)).bind fun found ↦ ?_
    cases found with
    | none => exact Same.refl_pure last
    | some element =>
      refine Runs.bind (K.fork hsites) fun n inner inner' hlater hinner ↦ ?_
      refine (K.traced .invalidControl (K.sites_later hlater hsites)
        (bindElement hinner names element)).bind fun _ ↦ ?_
      refine (pass hinterp hinner body).bind fun (ended, result) ↦ ?_
      dsimp only
      split
      · exact Same.refl_pure result
      · exact (ih result).mono hlater

theorem forLoop (hsites : K.Sites m s s') (names : List String) (iterable body : Node) :
    K.Same m (interp.forLoop s names iterable body) (interp.forLoop s' names iterable body) := by
  refine (hinterp.value hsites iterable .required).bind fun cell ↦
    (K.traced .invalidControl hsites (steady (.makeIterator cell))).bind fun iterator ↦
      Runs.content_bind fun c c' hc ↦ ?_
  cases hc with
  | same =>
    split
    · refine Runs.get_bind fun n n' halike ↦ ?_
      rw [halike.remaining]
      exact (steady .newEmpty).bind fun _ ↦ loopElements hinterp hsites names body _ _ _
    · exact raiseAt hsites _ _
  | closure => exact raiseAt hsites _ _

theorem whileHolds (hsites : K.Sites m s s') (condition body : Node) (fuel : Nat) :
    ∀ last : Completion, K.Same m (interp.whileHolds s condition body fuel last)
      (interp.whileHolds s' condition body fuel last) := by
  have hrefused (test : CellRef) : K.Runs m (fun _ ↦ Eq)
      (do
        let shown ← display test
        s.raise .invalidControl ("While condition is not a boolean: " ++ shown) : Run Completion)
      (do
        let shown ← display test
        s'.raise .invalidControl ("While condition is not a boolean: " ++ shown)) :=
    (steady (.display test)).bind fun _ ↦ raiseAt hsites _ _
  induction fuel with
  | zero => exact fun last ↦ Runs.throw .outOfFuel
  | succ fuel ih =>
    intro last
    refine (hinterp.value hsites condition .required).bind fun test ↦
      Runs.content_bind fun c c' hc ↦ ?_
    cases hc with
    | same =>
      split
      · refine (pass hinterp hsites body).bind fun (ended, result) ↦ ?_
        dsimp only
        split
        · exact Same.refl_pure result
        · exact ih result
      · exact Same.refl_pure last
      · exact hrefused test
    | closure => exact hrefused test

theorem whileLoop (hsites : K.Sites m s s') (condition body : Node) :
    K.Same m (interp.whileLoop s condition body) (interp.whileLoop s' condition body) :=
  Runs.bind (K.fork hsites) fun _ _ _ _ hinner ↦ (steady .newEmpty).bind fun _ ↦
    whileHolds hinterp hinner condition body interp.fuel _

theorem applyOperator (hsites : K.Sites m s s') (symbol : String) (fixity : Fixity)
    (args : List CellRef) :
    K.Same m (interp.applyOperator s symbol fixity args)
      (interp.applyOperator s' symbol fixity args) :=
  Runs.bind (hinterp.callFrom hsites) fun _ _ _ hlater hcall ↦
    K.traced .typeMismatch (K.sites_later hlater hsites)
      (evaluateOperator hcall _ symbol fixity args)

theorem assign (hsites : K.Sites m s s') (operator : String) (target value : Node) :
    K.Same m (interp.assign s operator target value) (interp.assign s' operator target value) := by
  have hnoted (cell : CellRef) : K.Same m (Interp.noteAssignment target cell)
      (Interp.noteAssignment target cell) := by
    have hlog : Quiet (do
        let shown ← display cell
        logInfo ("assignment: [" ++ target.code ++ "] = [" ++ shown ++ "]")) :=
      .display_bind fun _ ↦ .logInfo _
    exact logged ⟨_, hlog, (bind_assoc _ _ _).symm⟩ ⟨_, hlog, (bind_assoc _ _ _).symm⟩
      (Same.refl_pure cell)
  have hassigned : K.Same m (interp.assignTo s operator target value)
      (interp.assignTo s' operator target value) := by
    refine (hinterp.value hsites value .required).bind fun new ↦
      (hinterp.value hsites target .createIfMissing).bind fun cell ↦
        Runs.content_bind fun c c' hc ↦ ?_
    rw [hc.isEmpty]
    dsimp only
    split
    · exact (applyOperator hinterp hsites operator .infixOp [cell, new]).bind fun combined ↦
        (steady (.inherit cell combined)).bind fun _ ↦ hnoted cell
    · exact (steady (.inherit cell new)).bind fun _ ↦ hnoted cell
  rw [Interp.assign_eq, Interp.assign_eq]
  cases Interp.assignmentHint? target with
  | none => exact hassigned
  | some hint => exact Same.bind (raiseAt hsites _ _) fun _ ↦ hassigned

theorem declare (hsites : K.Sites m s s') (origin : Node) (name : String) (params : List String)
    (body : Option Node) (native : Bool) :
    K.Same m (interp.declare s origin name params body native)
      (interp.declare s' origin name params body native) := by
  have hbound (function : CellRef) : K.Same m
      (do
        let cell ← TreeScript.resolve interp s origin .createIfMissing [.identifier name]
        inherit cell function
        return cell)
      (do
        let cell ← TreeScript.resolve interp s' origin .createIfMissing [.identifier name]
        inherit cell function
        return cell) :=
    (resolve hinterp hsites origin .createIfMissing [.identifier name]).bind fun cell ↦
      (steady (.inherit cell function)).bind fun _ ↦ Same.refl_pure cell
  unfold Interp.declare
  dsimp only
  split
  · exact (declaredNative hsites name).bind hbound
  · exact (newFunction hsites params _).bind hbound

end Comparison

end TreeScript
