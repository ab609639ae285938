import TreeScript.Proofs.Run
import TreeScript.Eval.Interp

/-!
# The visit to a node

Around the rule for its construct, the evaluation of a node does four things: it records the node on
the stack trace, announces it to the debugger and the evaluation trace, notes the result there, and
goes back on the stack trace. `evalNode_eq` takes an evaluation apart into these. None but the
announcement, where the debugger may interfere, changes anything besides the stack traces and the
log (`note_apply`, `goBack_apply`, `within_ok`).
-/

set_option autoImplicit false

namespace TreeScript.Visit

/-- Records a node on the stack trace unless it is a sequence, and answers the depth to go back
to. -/
def record (site : Site) (node : Node) : Run (Option Nat) := do
  if node.isSequence then
    return none
  let depth ← site.frame.push ((← get).context site.context).source node
  return some depth

/-- Writes a node to the evaluation trace. -/
def showNode (site : Site) (node : Node) (style : Int) : Run Unit := do
  if style = 1 ∨ style = 2 then
    logInfo ((← Interp.traceIndent site) ++ node.code)

/-- Lets the debugger and the evaluation trace see a node, and answers the style of the trace. -/
def announce (site : Site) (node : Node) : Run Int := do
  haltAt site node
  let style := (← get).options.trace
  showNode site node style
  return style

/-- Writes a node with its result to the evaluation trace. -/
def showResult (site : Site) (node : Node) (style : Int) (result : Completion) : Run Unit := do
  if 2 ≤ style then
    logInfo ((← Interp.traceIndent site) ++ node.code ++ " -> " ++ (← display result.value))

/-- Notes the result of a node. -/
def note (site : Site) (node : Node) (style : Int) (result : Completion) : Run Completion := do
  showResult site node style result
  return result

/-- Goes back to a depth of the stack trace. -/
def goBack (site : Site) : Option Nat → Run Unit
  | none => pure ()
  | some depth => site.frame.popTo depth

/-- Runs an action, and goes back to a depth of the stack trace however it ends. -/
def within (site : Site) (depth : Option Nat) (act : Run Completion) : Run Completion := do
  let result ← tryCatch act fun failure => do
    goBack site depth
    throw failure
  goBack site depth
  return result

/-- An observed evaluation announces the node, evaluates it and notes the result. -/
theorem observed_eq (interp : Interp) (site : Site) (mode : Mode) (node : Node) :
    interp.observed site mode node = (do
      let style ← announce site node
      let result ← interp.node site mode node
      note site node style result) := by
  have hnote (style : Int) (result : Completion) :
      (if 2 ≤ style then do
        logInfo ((← Interp.traceIndent site) ++ node.code ++ " -> " ++ (← display result.value))
        return result
      else pure result) = note site node style result := by
    unfold note showResult
    split
    · simp only [bind_assoc]
    · simp only [pure_bind]
  unfold Interp.observed announce showNode
  simp only [bind_assoc, pure_bind]
  refine bind_congr fun _ ↦ bind_congr fun m ↦ ?_
  split
  · simp only [bind_assoc, hnote]
  · simp only [pure_bind, hnote]

/-- Without a record there is nothing to go back to. -/
theorem within_none (site : Site) (act : Run Completion) : within site none act = act := by
  funext m
  unfold within goBack
  cases hact : act m with
  | ok result n =>
    rw [Run.bind_ok (Run.tryCatch_ok hact)]
    rfl
  | error failure n =>
    rw [Run.bind_error]
    rw [Run.tryCatch_error hact]
    rfl

/-- The evaluation of a node records it, and then runs its construct between announcing it and
noting its result. -/
theorem evalNode_eq (interp : Interp) (site : Site) (mode : Mode) (node : Node) :
    interp.evalNode site mode node = (do
      let depth ← record site node
      within site depth do
        let style ← announce site node
        let result ← interp.node site mode node
        note site node style result) := by
  unfold Interp.evalNode record
  rw [observed_eq]
  by_cases hsequence : node.isSequence = true
  · simp only [if_pos hsequence, pure_bind, within_none]
  · simp only [if_neg hsequence, bind_assoc, pure_bind]
    rfl

/-- Recording a node changes at most the stack traces. -/
theorem record_apply (site : Site) (node : Node) (m : Machine) :
    ∃ depth m', record site node m = .ok depth m' ∧ m.Unwound m' := by
  by_cases hsequence : node.isSequence = true
  · refine ⟨none, m, ?_, Machine.Unwound.refl m⟩
    unfold record
    rw [if_pos hsequence]
    rfl
  · obtain ⟨depth, m', hpushed, hunwound⟩ : ∃ depth m',
        site.frame.push (m.context site.context).source node m = .ok depth m' ∧ m.Unwound m' :=
      ⟨_, _, rfl, rfl⟩
    refine ⟨some depth, m', ?_, hunwound⟩
    unfold record
    rw [if_neg hsequence]
    change (site.frame.push (m.context site.context).source node >>= fun depth ↦
      pure (some depth)) m = _
    rw [Run.bind_ok hpushed]
    rfl

/-- Assumes: no debugger. Announcing a node changes at most the log. -/
theorem announce_apply (site : Site) (node : Node) {m : Machine}
    (hdebugger : m.options.debugger = none) :
    ∃ style m', announce site node m = .ok style m' ∧ m.Unwound m' := by
  have hhalt : haltAt site node m = .ok () m := by
    unfold haltAt
    rw [Run.get_bind, hdebugger]
    rfl
  have hshown : ∃ m', showNode site node m.options.trace m = .ok () m' ∧ m.Unwound m' := by
    unfold showNode
    split
    · exact logInfo_apply
        (Text.repeatText (m.trace site.frame.trace).depth "  " ++ node.code) m
    · exact ⟨m, rfl, Machine.Unwound.refl m⟩
  obtain ⟨m', hshown, hunwound⟩ := hshown
  refine ⟨m.options.trace, m', ?_, hunwound⟩
  unfold announce
  rw [Run.bind_ok hhalt]
  change (showNode site node m.options.trace >>= _) m = _
  rw [Run.bind_ok hshown]
  rfl

/-- Noting a result changes at most the log. -/
theorem note_apply (site : Site) (node : Node) (style : Int) (result : Completion) (m : Machine) :
    ∃ m', note site node style result m = .ok result m' ∧ m.Unwound m' := by
  have hshown : ∃ m', showResult site node style result m = .ok () m' ∧ m.Unwound m' := by
    unfold showResult
    by_cases hstyle : 2 ≤ style
    · simp only [if_pos hstyle]
      exact logInfo_apply
        (Text.repeatText (m.trace site.frame.trace).depth "  " ++ node.code ++ " -> " ++
          m.display result.value) m
    · simp only [if_neg hstyle]
      exact ⟨m, rfl, Machine.Unwound.refl m⟩
  obtain ⟨m', hshown, hunwound⟩ := hshown
  refine ⟨m', ?_, hunwound⟩
  unfold note
  rw [Run.bind_ok hshown]
  rfl

/-- Going back changes at most the stack traces. -/
theorem goBack_apply (site : Site) (depth : Option Nat) (m : Machine) :
    ∃ m', goBack site depth m = .ok () m' ∧ m.Unwound m' := by
  cases depth with
  | none => exact ⟨m, rfl, Machine.Unwound.refl m⟩
  | some depth => exact ⟨_, rfl, rfl⟩

/-- Assumes: an action that gives a result. Going back after it keeps the result, and changes at
most the stack traces. -/
theorem within_ok (site : Site) (depth : Option Nat) {act : Run Completion} {m n : Machine}
    {result : Completion} (hact : act m = .ok result n) :
    ∃ m', within site depth act m = .ok result m' ∧ n.Unwound m' := by
  obtain ⟨m', hback, hunwound⟩ := goBack_apply site depth n
  refine ⟨m', ?_, hunwound⟩
  unfold within
  rw [Run.bind_ok (Run.tryCatch_ok hact), Run.bind_ok hback]
  rfl

/-- Assumes: an action that fails. Going back on the stack trace keeps the failure. -/
theorem within_error (site : Site) (depth : Option Nat) {act : Run Completion}
    {m n : Machine} {e : Failure} (hact : act m = .error e n) :
    ∃ m', within site depth act m = .error e m' := by
  obtain ⟨m', hback, -⟩ := goBack_apply site depth n
  have hfails : (goBack site depth >>= fun _ ↦ throw e : Run Completion) n = .error e m' := by
    rw [Run.bind_ok hback]
    rfl
  refine ⟨m', ?_⟩
  unfold within
  exact Run.bind_error ((Run.tryCatch_error hact).trans hfails)

/-- However an action ends within a record, the machine it leaves behind is gone back on. -/
theorem final_within (site : Site) (depth : Option Nat) (act : Run Completion) (m : Machine) :
    Outcome.final (within site depth act m) =
      Outcome.final (goBack site depth (Outcome.final (act m))) := by
  unfold within
  cases hact : act m with
  | ok result n =>
    obtain ⟨m', hback, -⟩ := goBack_apply site depth n
    rw [Run.bind_ok (Run.tryCatch_ok hact), Run.bind_ok hback]
    exact (congrArg Outcome.final hback).symm
  | error failure n =>
    obtain ⟨m', hback, -⟩ := goBack_apply site depth n
    have hfails : (goBack site depth >>= fun _ ↦ throw failure : Run Completion) n =
        .error failure m' := by
      rw [Run.bind_ok hback]
      rfl
    rw [Run.bind_error ((Run.tryCatch_error hact).trans hfails)]
    exact (congrArg Outcome.final hback).symm

/-- Assumes: a node that is recorded and announced, and whose construct gives a result. The
evaluation gives that result, and changes at most the stack traces and the log after that. -/
theorem evalNode_ok {interp : Interp} {site : Site} {mode : Mode} {node : Node}
    {m recorded announced done : Machine} {depth : Option Nat} {style : Int} {result : Completion}
    (hrecord : record site node m = .ok depth recorded)
    (hannounce : announce site node recorded = .ok style announced)
    (hnode : interp.node site mode node announced = .ok result done) :
    ∃ last, interp.evalNode site mode node m = .ok result last ∧ done.Unwound last := by
  obtain ⟨noted, hnote, hnoted⟩ := note_apply site node style result done
  have hbody : (do
      let style ← announce site node
      let result ← interp.node site mode node
      note site node style result) recorded = .ok result noted := by
    rw [Run.bind_ok hannounce, Run.bind_ok hnode, hnote]
  obtain ⟨last, hwithin, hlast⟩ := within_ok site depth hbody
  refine ⟨last, ?_, hnoted.trans hlast⟩
  rw [evalNode_eq, Run.bind_ok hrecord, hwithin]

/-- Assumes: no debugger. A node is recorded and announced, which changes at most the stack traces
and the log. -/
theorem record_announce_apply (site : Site) (node : Node) {m : Machine}
    (hdebugger : m.options.debugger = none) :
    ∃ depth recorded style announced, record site node m = .ok depth recorded ∧
      announce site node recorded = .ok style announced ∧ m.Unwound announced := by
  obtain ⟨depth, recorded, hrecord, hrecorded⟩ := record_apply site node m
  have hhalts : recorded.options.debugger = none := by
    rw [hrecorded.options]
    exact hdebugger
  obtain ⟨style, announced, hannounce, hannounced⟩ := announce_apply site node hhalts
  exact ⟨depth, recorded, style, announced, hrecord, hannounce, hrecorded.trans hannounced⟩

/-- What happens within a record depends only on the outcome of the action. -/
theorem within_congr (site : Site) (depth : Option Nat) {x y : Run Completion} {m m' : Machine}
    (h : x m = y m') : within site depth x m = within site depth y m' := by
  unfold within
  exact Run.bind_congr_left (Run.tryCatch_congr h)

/-- Assumes: an action within a record that gave a result. The action itself gave that result. -/
theorem within_eq_ok {site : Site} {depth : Option Nat} {act : Run Completion} {m n : Machine}
    {result : Completion} (h : within site depth act m = .ok result n) :
    ∃ n', act m = .ok result n' := by
  cases hact : act m with
  | ok value n' =>
    obtain ⟨m', hwithin, -⟩ := within_ok site depth hact
    rw [hwithin] at h
    cases h
    exact ⟨n', rfl⟩
  | error failure n' =>
    obtain ⟨m', hback, -⟩ := goBack_apply site depth n'
    have hfails : (goBack site depth >>= fun _ ↦ throw failure : Run Completion) n' =
        .error failure m' := by
      rw [Run.bind_ok hback]
      rfl
    unfold within at h
    rw [Run.bind_error ((Run.tryCatch_error hact).trans hfails)] at h
    cases h

/-- Assumes: a node whose evaluation gave a result. The node was recorded and announced, and its
construct gave that result. -/
theorem evalNode_parts {interp : Interp} {site : Site} {mode : Mode} {node : Node} {m n : Machine}
    {result : Completion} (h : interp.evalNode site mode node m = .ok result n) :
    ∃ depth recorded style announced done, record site node m = .ok depth recorded ∧
      announce site node recorded = .ok style announced ∧
      interp.node site mode node announced = .ok result done := by
  rw [evalNode_eq, Run.bind_eq_ok_iff] at h
  obtain ⟨depth, recorded, hrecord, hwithin⟩ := h
  obtain ⟨n', hbody⟩ := within_eq_ok hwithin
  rw [Run.bind_eq_ok_iff] at hbody
  obtain ⟨style, announced, hannounce, hbody⟩ := hbody
  rw [Run.bind_eq_ok_iff] at hbody
  obtain ⟨value, done, hnode, hnote⟩ := hbody
  obtain ⟨noted, hnoted, -⟩ := note_apply site node style value done
  rw [hnoted] at hnote
  cases hnote
  exact ⟨depth, recorded, style, announced, done, hrecord, hannounce, hnode⟩

/-- Assumes: a node whose evaluation gave a result. Its construct gave that result. -/
theorem evalNode_eq_ok {interp : Interp} {site : Site} {mode : Mode} {node : Node} {m n : Machine}
    {result : Completion} (h : interp.evalNode site mode node m = .ok result n) :
    ∃ m₁ m₂, interp.node site mode node m₁ = .ok result m₂ := by
  obtain ⟨-, -, -, announced, done, -, -, hnode⟩ := evalNode_parts h
  exact ⟨announced, done, hnode⟩

end TreeScript.Visit
