import TreeScript.Proofs.Invariant
import TreeScript.Proofs.Tandem.Evaluation
import TreeScript.Proofs.Sessions.Keeping

/-!
# Stack traces are balanced

However an evaluation ends, the nodes on the stack traces are the ones that stood there before
(`traces_are_balanced`). A stack trace is shared by a frame, its forks and the frames of the
functions that are called, and a node that is done goes back to a depth of it that was read when the
node was recorded. That comes to the same as taking off the one node only if everything in between
left the trace as it found it (`balances_recorded`). So the rules are settled over an interpreter
that is balanced (`Interp.Balanced.of_tandem`), and the interpreters by their fuel
(`interp_balanced`).

Nothing else that a session does touches the nodes on a stack trace. What a host has a session do
finds empty stack traces at the start and leaves them empty.
-/

set_option autoImplicit false

namespace TreeScript

namespace StackTrace

/-- Going back to a depth keeps the nodes up to there. -/
theorem entries_popTo (trace : StackTrace) (depth : Nat) :
    (trace.popTo depth).entries = trace.entries.take depth := by
  unfold popTo
  split
  · exact Array.shrink_eq_take
  · rename_i hdeep
    exact (Array.extract_eq_self_of_le (Nat.le_of_not_lt hdeep)).symm

/-- Going back to the depth that recording a node answers takes the node off again. -/
theorem take_entries_push (trace : StackTrace) (source : String) (node : Node) :
    (trace.push source node).entries.take ((trace.push source node).depth - 1) =
      trace.entries := by
  unfold push depth
  simp only [Array.take_eq_extract, Array.size_push, Nat.add_one_sub_one, Array.extract_eq_pop,
    Array.pop_push]

end StackTrace

namespace Machine

/-- The nodes that stand on the stack traces are the same on two machines. -/
def Balances (m n : Machine) : Prop := ∀ ref, (n.trace ref).entries = (m.trace ref).entries

theorem Balances.refl (m : Machine) : m.Balances m := fun _ ↦ rfl

theorem Balances.trans {m n k : Machine} (hmn : m.Balances n) (hnk : n.Balances k) :
    m.Balances k :=
  fun ref ↦ (hnk ref).trans (hmn ref)

theorem Level.balances {m n : Machine} (h : m.Level n) : m.Balances n := fun ref ↦ (h ref).1

/-- Going back to a depth on one stack trace keeps its nodes up to there, and all of all others. -/
theorem entries_wentBack (m : Machine) (ref other : TraceRef) (depth : Nat) :
    ((m.retraced ref (·.popTo depth)).trace other).entries =
      if ref = other then (m.trace other).entries.take depth else (m.trace other).entries := by
  rw [trace_retraced]
  by_cases hsame : ref = other
  · subst hsame
    rw [if_pos rfl]
    split
    · exact StackTrace.entries_popTo _ depth
    · rename_i hmissing
      rw [trace_of_missing (Nat.le_of_not_lt fun h ↦ hmissing ⟨rfl, h⟩)]
      exact Array.extract_empty.symm
  · rw [if_neg hsame, if_neg fun h ↦ hsame h.1]

end Machine

/-- Sequences are not recorded. -/
theorem Visit.record_sequence (site : Site) {node : Node} (h : node.isSequence = true) :
    record site node = pure none := by
  unfold record
  rw [if_pos h]

/-- All other nodes are, and the depth to go back to is that below the node. -/
theorem Visit.record_other (site : Site) {node : Node} (h : node.isSequence = false) (m : Machine) :
    let pushed := m.retraced site.frame.trace (·.push (m.context site.context).source node)
    record site node m = .ok (some ((pushed.trace site.frame.trace).depth - 1)) pushed := by
  unfold record
  rw [if_neg (ne_true_of_eq_false h)]
  rfl

/-- Assumes: an action that leaves the nodes on the stack traces as they are. So does recording a
node, running the action and going back. -/
theorem balances_recorded (site : Site) (node : Node) {act : Run Completion}
    (hact : ∀ m : Machine, m.Balances (Outcome.final (act m))) (m : Machine) :
    m.Balances (Outcome.final
      ((Visit.record site node >>= fun depth ↦ Visit.within site depth act) m)) := by
  cases hsequence : node.isSequence with
  | true =>
    rw [Visit.record_sequence site hsequence, pure_bind, Visit.within_none]
    exact hact m
  | false =>
    let trace : TraceRef := site.frame.trace
    let pushed : Machine := m.retraced trace (·.push (m.context site.context).source node)
    let depth : Nat := (pushed.trace trace).depth - 1
    have hrecord : Visit.record site node m = .ok (some depth) pushed :=
      Visit.record_other site hsequence m
    rw [Run.bind_ok hrecord, Visit.final_within]
    have hbalances := hact pushed
    generalize Outcome.final (act pushed) = n at hbalances
    intro ref
    change ((n.retraced trace (·.popTo depth)).trace ref).entries = _
    rw [Machine.entries_wentBack, hbalances ref]
    have hpushed := m.trace_retraced trace ref (·.push (m.context site.context).source node)
    split at hpushed
    · rename_i hexists
      obtain ⟨rfl, -⟩ := hexists
      rw [if_pos rfl, show depth = (pushed.trace trace).depth - 1 from rfl, hpushed]
      exact StackTrace.take_entries_push ..
    · rename_i hmissing
      rw [hpushed]
      split
      · rename_i hsame
        subst hsame
        rw [Machine.trace_of_missing (Nat.le_of_not_lt fun h ↦ hmissing ⟨rfl, h⟩)]
        exact Array.extract_empty
      · rfl

/-- An interpreter that leaves the nodes on the stack traces as they are, however what it is asked
for ends. -/
def Interp.Balanced (I : Interp) : Prop :=
  ∀ (task : Task) (m : Machine), m.Balances (Outcome.final (I.perform task m))

/-- Assumes: a balanced interpreter. The rules of the language leave the nodes on the stack traces
as they are over it. -/
theorem Interp.Balanced.of_tandem {I J : Interp} (hI : I.Balanced) {enters : Node → Prop}
    {realm : Realm} {α : Type} {x y : Run α} (h : Tandem enters I J realm x y) :
    ∀ m : Machine, m.Balances (Outcome.final (x m)) := by
  induction h with
  | plain hplain => exact fun m ↦ (hplain.calm m).balances
  | calm hcalm => exact fun m ↦ (hcalm m).balances
  | throw => exact fun m ↦ .refl m
  | @bind _ _ _ x _ f _ _ _ ihfirst ihrest =>
    intro m
    have hfirst := ihfirst m
    cases hx : x m with
    | ok b n =>
      rw [hx] at hfirst
      rw [Run.bind_ok hx]
      exact hfirst.trans (ihrest b n)
    | error e n =>
      rw [hx] at hfirst
      rw [Run.bind_error hx]
      exact hfirst
  | @traced _ _ x _ site kind _ ih =>
    intro m
    have hact := ih m
    cases hx : x m with
    | ok a n =>
      rw [hx] at hact
      rw [Run.traced_ok site kind hx]
      exact hact
    | error e n =>
      rw [hx] at hact
      rw [Run.traced_error site kind hx]
      exact hact
  | recorded site node _ ih => exact balances_recorded site node ih
  | eval site mode node => exact hI (.eval site mode node)
  | call site name preparation function args =>
    exact hI (.call site name preparation function args)
  | @body site inner name node =>
    -- Naming the function that is entered records nothing.
    intro m
    have hentered : m.Balances (m.retraced site.frame.trace fun trace ↦
        { trace with pending := name }) := by
      intro ref
      rw [Machine.trace_retraced]
      split <;> rfl
    exact hentered.trans (hI (.eval inner .required node) _)

/-- The interpreter is balanced, whatever its fuel. -/
theorem interp_balanced (n : Nat) : (interp n).Balanced := by
  induction n with
  | zero =>
    intro task m
    cases task <;> exact .refl m
  | succ n ih =>
    intro task m
    rw [Interp.perform_succ]
    exact ih.of_tandem (.rule (J := interp n) rfl task) m

/-! ### Sessions -/

namespace Session

variable {m₀ : Machine} {α : Type}

/-- What leaves the nodes on the stack traces as they are keeps them as they were at the start. -/
theorem spares_of_balances {x : Run α} (h : ∀ m : Machine, m.Balances (Outcome.final (x m))) :
    Spares m₀.Balances x :=
  fun m hm ↦ .of_final (hm.trans (h m))

/-- Everything a session does keeps what stands on the stack traces as it was at the start. -/
theorem kept_balances (m₀ : Machine) : Kept m₀.Balances where
  books := fun _ _ _ htraces hm ref ↦ (htraces ref).trans (hm ref)
  eval := fun site mode node ↦ spares_of_balances (interp_balanced fuel (.eval site mode node))
  call := fun site name preparation function args ↦
    spares_of_balances (interp_balanced fuel (.call site name preparation function args))

/-- What a host has a session do: what it can be asked for, and calls of functions of a source. -/
inductive HostStep where
  | request (request : Request)
  | call (source : String) (function : CellRef) (args : List CellRef)

/-- The machine a step leaves behind, whether it succeeds or fails. -/
def HostStep.leaves (m : Machine) : HostStep → Machine
  | .request asked => Outcome.final (asked.act m)
  | .call source function args => Outcome.final (callFunction source function args m)

/-- No step of a host changes what stands on the stack traces. -/
theorem HostStep.balances (step : HostStep) (m : Machine) : m.Balances (step.leaves m) := by
  cases step with
  | request asked => exact ((kept_balances m).request asked fun _ _ _ hm ↦ hm).final (.refl m)
  | call source function args =>
    exact ((kept_balances m).callFunction source function args).final (.refl m)

end Session

/-- Whatever is evaluated or called, and however that ends, the nodes on every stack trace are the
ones that stood there before. In a session, the stack trace of every source is empty after every
step, whether the step succeeds or fails, those that start the session among them. -/
theorem traces_are_balanced :
    (∀ (n : Nat) (site : Site) (mode : Mode) (node : Node) (m : Machine) (ref : TraceRef),
      ((Outcome.final ((interp n).eval site mode node m)).trace ref).entries =
        (m.trace ref).entries) ∧
    (∀ (n : Nat) (site : Site) (name : String) (preparation : Preparation) (function : CellRef)
      (args : List CellRef) (m : Machine) (ref : TraceRef),
      ((Outcome.final ((interp n).call site name preparation function args m)).trace ref).entries =
        (m.trace ref).entries) ∧
    ∀ (level : LogLevel) (steps : List Session.HostStep) (context : ContextRef),
      let m := steps.foldl Session.HostStep.leaves { logLevel := level }
      (m.trace (m.context context).trace).entries = #[] := by
  refine ⟨fun n site mode node m ↦ interp_balanced n (.eval site mode node) m,
    fun n site name preparation function args m ↦
      interp_balanced n (.call site name preparation function args) m,
    fun level steps context ↦ ?_⟩
  have hsteps : ∀ m : Machine, m.Balances (steps.foldl Session.HostStep.leaves m) := by
    induction steps with
    | nil => exact .refl
    | cons step steps ih => exact fun m ↦ (step.balances m).trans (ih (step.leaves m))
  exact hsteps { logLevel := level } _

end TreeScript
