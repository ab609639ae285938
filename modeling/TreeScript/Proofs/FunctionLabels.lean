import TreeScript.Proofs.BalancedTraces

/-!
# Functions on the stack traces

A node on a stack trace is shown with the function it belongs to. The name of a function is noted
when its body begins, and used up by the first node that is recorded from then on: that one bears
it, together with what is recorded above it. All other nodes take the function of the node below.
So of the statements of a body, the first one that is recorded bears the name of the function, and
those behind it bear the name of the caller (`name_lasts_for_one_statement`).

To say so of every moment of a run, the evaluator is written down once more with the names that the
nodes are to bear (`inspected`). It fails at the first node that is to be recorded under another
name. It also refuses to call functions with a body of which nothing is ever recorded: after such a
call, the name is still there for the node that comes next.
-/

set_option autoImplicit false

namespace TreeScript

namespace StackTrace

/-- The function of the node that was recorded last. -/
def below (trace : StackTrace) : String := (trace.entries.back?.map (·.function)).getD ""

/-- The function under which a node would be recorded. -/
def upcoming (trace : StackTrace) : String :=
  if trace.pending ≠ "" then trace.pending else trace.below

/-- The function of a node is that under which it was recorded. -/
theorem below_push (trace : StackTrace) (source : String) (node : Node) :
    (trace.push source node).below = trace.upcoming := by
  unfold below push
  rw [Array.back?_push]
  rfl

theorem pending_popTo (trace : StackTrace) (depth : Nat) :
    (trace.popTo depth).pending = trace.pending := by
  unfold popTo
  split <;> rfl

end StackTrace

namespace Node

mutual

/-- Whether the evaluation of a node records anything, itself or a statement. -/
def records : Node → Bool
  | root body | block body => recordsAny body
  | _ => true

def recordsAny : List Node → Bool
  | [] => false
  | node :: nodes => node.records || recordsAny nodes

end

/-- The nodes that a sequence consists of. -/
def sequenced : Node → List Node
  | root body | block body => body
  | _ => []

end Node

/-! ### The inspected evaluator -/

/-- The functions of the nodes that were recorded last, for each stack trace. -/
abbrev Labels := TraceRef → String

/-- The name that is noted on a stack trace when a function is entered. -/
def Machine.noted (m : Machine) (ref : TraceRef) (name : String) : String :=
  if ref.index < m.traces.size then name else ""

/-- Runs statements in order by interpreters that depend on the name that has been noted and not
been used up. -/
def statementsBy (interps : String → Interp) (site : Site) (mode : Mode) :
    String → Completion → List Node → Run Completion
  | _, last, [] => return last
  | entered, _, node :: nodes => do
    let result ← (interps entered).eval site mode node
    if result.flow = .normal then
      statementsBy interps site mode (if node.records then "" else entered) result nodes
    else return result

/-- The evaluator with the functions that nodes are to be recorded under: `entered`, if it is not
empty, for what is recorded next, and else that of the node below. It fails with `mislabelled` where
a node would be recorded under another name, and with `silent` where a function is called that has a
body of which nothing is recorded. -/
def inspected (mislabelled silent : Failure) : Nat → Labels → String → Interp
  | 0, _, _ => interp 0
  | n + 1, labels, entered =>
    { eval := fun site mode node => do
        if node.isSequence then
          let style ← Visit.announce site node
          let last : Completion := ⟨← newEmpty, .normal⟩
          let result ← statementsBy (inspected mislabelled silent n labels) site mode entered last
            node.sequenced
          Visit.note site node style result
        else
          let label := if entered ≠ "" then entered else labels site.frame.trace
          if ((← get).trace site.frame.trace).upcoming ≠ label then
            throw mislabelled
          let labels := fun ref => if ref = site.frame.trace then label else labels ref
          (inspected mislabelled silent n labels "").evalNode site mode node
      call := fun site name preparation function args => do
        let m ← get
        match m.content function with
        | .function _ closure =>
          if !closure.body.records then
            throw silent
          (inspected mislabelled silent n labels (m.noted site.frame.trace name)).callValue site
            name preparation function args
        | _ =>
          (inspected mislabelled silent n labels "").callValue site name preparation function args
      fuel := n }

theorem fuel_inspected (mislabelled silent : Failure) (n : Nat) (labels : Labels)
    (entered : String) :
    (inspected mislabelled silent n labels entered).fuel = (interp n).fuel := by
  cases n <;> rfl

variable {α β : Type} {silent : Failure}

/-! ### What is noted on a machine -/

namespace Machine

/-- The nodes recorded last belong to functions, and no name is noted that has not been used up,
but perhaps one on a stack trace. -/
structure Notes (m : Machine) (labels : Labels) (ref : TraceRef) (entered : String) : Prop where
  below : ∀ other, (m.trace other).below = labels other
  pending : ∀ other, (m.trace other).pending = if other = ref then entered else ""

namespace Notes

variable {m n : Machine} {labels : Labels} {ref : TraceRef} {entered : String}

theorem level (h : m.Notes labels ref entered) (hlevel : m.Level n) :
    n.Notes labels ref entered where
  below other := by
    unfold StackTrace.below
    rw [(hlevel other).1]
    exact h.below other
  pending other := (hlevel other).2.trans (h.pending other)

/-- Where nothing is noted, it does not matter on which stack trace. -/
theorem quiet (h : m.Notes labels ref "") (other : TraceRef) : m.Notes labels other "" where
  below := h.below
  pending trace := by rw [h.pending trace, ite_self, ite_self]

theorem upcoming (h : m.Notes labels ref entered) :
    (m.trace ref).upcoming = if entered ≠ "" then entered else labels ref := by
  unfold StackTrace.upcoming
  rw [h.pending ref, if_pos rfl, h.below ref]

/-- Where nothing stands on the stack traces that did not stand there before, the nodes recorded
last are the same. -/
theorem of_balances (h : m.Notes labels ref entered) (hbalances : m.Balances n)
    (hpending : ∀ other, (n.trace other).pending = "") : n.Notes labels ref "" where
  below other := by
    unfold StackTrace.below
    rw [hbalances other]
    exact h.below other
  pending other := (hpending other).trans (ite_self _).symm

/-- Recording a node uses up what has been noted. -/
theorem push (h : m.Notes labels ref entered) (source : String) (node : Node) :
    (m.retraced ref (·.push source node)).Notes
      (fun other ↦ if other = ref then (if entered ≠ "" then entered else labels ref)
        else labels other) ref "" := by
  -- Where there is no stack trace, nothing can have been noted.
  have hmissing (hsize : ¬ref.index < m.traces.size) : entered = "" := by
    have hpending := h.pending ref
    rw [Machine.trace_of_missing (Nat.le_of_not_lt hsize), if_pos rfl] at hpending
    exact hpending.symm
  constructor
  · intro other
    rw [Machine.trace_retraced]
    split
    · rename_i hrecorded
      obtain ⟨rfl, -⟩ := hrecorded
      rw [StackTrace.below_push, if_pos rfl]
      exact h.upcoming
    · rename_i hkept
      rw [h.below other]
      split
      · rename_i hsame
        subst hsame
        rw [hmissing fun hsize ↦ hkept ⟨rfl, hsize⟩, if_neg (not_not_intro rfl)]
      · rfl
  · intro other
    rw [Machine.trace_retraced, ite_self]
    split
    · rfl
    · rename_i hkept
      rw [h.pending other]
      split
      · rename_i hsame
        subst hsame
        exact hmissing fun hsize ↦ hkept ⟨rfl, hsize⟩
      · rfl

/-- Entering a function notes its name, where there is a stack trace for it. -/
theorem enter (h : m.Notes labels ref "") (name : String) :
    (m.retraced ref fun trace ↦ { trace with pending := name }).Notes labels ref
      (m.noted ref name) := by
  constructor
  · intro other
    rw [Machine.trace_retraced]
    split <;> exact h.below other
  · intro other
    unfold Machine.noted
    rw [Machine.trace_retraced]
    split
    · rename_i hentered
      obtain ⟨rfl, hsize⟩ := hentered
      rw [if_pos rfl, if_pos hsize]
    · rename_i hkept
      rw [h.pending other, ite_self]
      split
      · rename_i hsame
        subst hsame
        rw [if_neg fun hsize ↦ hkept ⟨rfl, hsize⟩]
      · rfl

end Notes

end Machine

/-! ### Runs that go as they are inspected -/

/-- Two runs end in the same way, with a property of what they give, unless the second is refused.
-/
def Outcome.Agrees (silent : Failure) (post : α → Machine → Prop) (x y : Outcome α) : Prop :=
  (∃ k, y = .error silent k) ∨ (y = x ∧ ∀ a n, x = .ok a n → post a n)

namespace Outcome.Agrees

variable {x y : Run α} {f g : α → Run β} {post : α → Machine → Prop} {after : β → Machine → Prop}
  {m : Machine}

theorem pure {a : α} (h : post a m) : Agrees silent post ((Pure.pure a : Run α) m)
    ((Pure.pure a : Run α) m) := by
  refine .inr ⟨rfl, fun b n hb ↦ ?_⟩
  cases hb
  exact h

theorem error (e : Failure) : Agrees silent post (.error e m) (.error e m) :=
  .inr ⟨rfl, fun _ _ h ↦ nomatch h⟩

theorem mono {post' : α → Machine → Prop} (h : Agrees silent post (x m) (y m))
    (hpost : ∀ a n, post a n → post' a n) : Agrees silent post' (x m) (y m) := by
  rcases h with hrefused | ⟨hsame, hgives⟩
  · exact .inl hrefused
  · exact .inr ⟨hsame, fun a n hx ↦ hpost a n (hgives a n hx)⟩

theorem bind (hfirst : Agrees silent post (x m) (y m))
    (hrest : ∀ a n, post a n → Agrees silent after (f a n) (g a n)) :
    Agrees silent after ((x >>= f) m) ((y >>= g) m) := by
  rcases hfirst with ⟨k, hrefused⟩ | ⟨hsame, hgives⟩
  · exact .inl ⟨k, Run.bind_error hrefused⟩
  · cases hx : x m with
    | ok a n =>
      rw [Run.bind_ok hx, Run.bind_ok (hsame.trans hx)]
      exact hrest a n (hgives a n hx)
    | error e n =>
      rw [Run.bind_error hx, Run.bind_error (hsame.trans hx)]
      exact error e

/-- A step that leaves the stack traces alone leaves what is noted there. -/
theorem calm (hcalm : Calm x) {labels : Labels} {ref : TraceRef} {entered : String}
    (hm : m.Notes labels ref entered) :
    Agrees silent (fun _ n ↦ n.Notes labels ref entered) (x m) (x m) := by
  refine .inr ⟨rfl, fun a n hx ↦ hm.level ?_⟩
  have hlevel := hcalm m
  rwa [hx] at hlevel

/-- Assumes: an action that goes as inspected once a node has been recorded. So does recording the
node, running the action and going back, after which nothing is noted. -/
theorem recorded {x y : Run Completion} {labels : Labels} {site : Site} {entered : String}
    {node : Node} (hsequence : node.isSequence = false)
    (hm : m.Notes labels site.frame.trace entered)
    (hbalances : ∀ k : Machine, k.Balances (Outcome.final (x k)))
    (hact : ∀ k : Machine,
      let labels : Labels := fun other ↦ if other = site.frame.trace then
        (if entered ≠ "" then entered else labels site.frame.trace) else labels other
      k.Notes labels site.frame.trace "" →
        Agrees silent (fun _ n ↦ n.Notes labels site.frame.trace "") (x k) (y k)) :
    Agrees silent (fun _ n ↦ n.Notes labels site.frame.trace "")
      ((Visit.record site node >>= fun depth ↦ Visit.within site depth x) m)
      ((Visit.record site node >>= fun depth ↦ Visit.within site depth y) m) := by
  have hrecorded := balances_recorded site node hbalances m
  have hrecord := Visit.record_other site hsequence m
  rw [Run.bind_ok hrecord] at hrecorded ⊢
  rw [Run.bind_ok hrecord]
  have hpushed := hm.push (m.context site.context).source node
  generalize m.retraced site.frame.trace (·.push (m.context site.context).source node) = pushed
    at hrecorded hpushed ⊢
  generalize (pushed.trace site.frame.trace).depth - 1 = depth at hrecorded ⊢
  rcases hact pushed hpushed with ⟨k, hrefused⟩ | ⟨hsame, hgives⟩
  · exact .inl (Visit.within_error site depth hrefused)
  · refine .inr ⟨Visit.within_congr site depth hsame, fun result n hwithin ↦ ?_⟩
    rw [hwithin] at hrecorded
    refine hm.of_balances hrecorded fun other ↦ ?_
    obtain ⟨k, hx⟩ := Visit.within_eq_ok hwithin
    have hback := Visit.final_within site depth x pushed
    rw [hwithin, hx] at hback
    change n = k.retraced site.frame.trace (·.popTo depth) at hback
    have hquiet := (hgives result k hx).pending other
    rw [ite_self] at hquiet
    rw [hback, Machine.trace_retraced]
    split
    · rw [StackTrace.pending_popTo]
      exact hquiet
    · exact hquiet

end Outcome.Agrees

open Outcome (Agrees)

/-- Assumes: interpreters the second of which goes as the first one unless it is refused, where
nothing is noted. So do the rules of the language over them. -/
theorem agrees_of_tandem {I J : Interp} {labels : Labels} {ref : TraceRef} (hI : I.Balanced)
    (hsettled : silent.Settled)
    (hasked : ∀ (task : Task) (m : Machine), m.Notes labels ref "" →
      Agrees silent (fun _ n ↦ n.Notes labels ref "") (I.perform task m) (J.perform task m))
    {realm : Realm} {x y : Run α} (h : Tandem (fun _ ↦ False) I J realm x y) :
    ∀ m : Machine, m.Notes labels ref "" →
      Agrees silent (fun _ n ↦ n.Notes labels ref "") (x m) (y m) := by
  induction h with
  | plain hplain => exact fun m hm ↦ .calm hplain.calm hm
  | calm hcalm => exact fun m hm ↦ .calm hcalm hm
  | throw => exact fun m hm ↦ .error _
  | bind _ _ ihfirst ihrest => exact fun m hm ↦ (ihfirst m hm).bind ihrest
  | @traced _ _ x _ site kind _ ih =>
    intro m hm
    rcases ih m hm with ⟨k, hrefused⟩ | ⟨hsame, hgives⟩
    · refine .inl ⟨k, ?_⟩
      rw [Run.traced_error site kind hrefused, hsettled.attach]
    · refine .inr ⟨Run.tryCatch_congr hsame, fun a n htraced ↦ ?_⟩
      cases hx : x m with
      | ok b k =>
        rw [Run.traced_ok site kind hx] at htraced
        cases htraced
        exact hgives a n hx
      | error e k =>
        rw [Run.traced_error site kind hx] at htraced
        cases htraced
  | @recorded x y site node h ih =>
    intro m hm
    cases hsequence : node.isSequence with
    | true =>
      rw [Visit.record_sequence site hsequence, pure_bind, pure_bind, Visit.within_none,
        Visit.within_none]
      exact ih m hm
    | false =>
      have hlabels : (fun other ↦ if other = site.frame.trace then
          (if "" ≠ "" then "" else labels site.frame.trace) else labels other) = labels := by
        funext other
        split
        · rename_i hsame
          rw [hsame, if_neg (not_not_intro rfl)]
        · rfl
      refine (Agrees.recorded hsequence (hm.quiet site.frame.trace) (hI.of_tandem h)
        fun k hk ↦ ?_).mono fun _ n hn ↦ hn.quiet ref
      rw [hlabels] at hk ⊢
      exact (ih k (hk.quiet ref)).mono fun _ n hn ↦ hn.quiet site.frame.trace
  | eval site mode node => exact hasked (.eval site mode node)
  | call site name preparation function args =>
    exact hasked (.call site name preparation function args)
  | body _ _ _ henters => exact henters.elim

/-! ### Sequences -/

namespace Calm

theorem sayFromDebugger (text : String) : Calm (sayFromDebugger text) :=
  (Plain.sayFromDebugger text).calm

theorem followActions (site : Site) (count : Nat) : Calm (followActions site count) := by
  have hraise (kind : ErrorKind) (message : String) : Calm (site.raise kind message : Run Unit) :=
    get_bind fun _ ↦ throw _
  induction count with
  | zero => exact (Plain.modifyDebugger _).calm
  | succ count ih =>
    have hshown {read : Machine → String} : Calm (do
        TreeScript.sayFromDebugger (read (← get) ++ "\n")
        TreeScript.followActions site count) :=
      get_bind fun _ ↦ (sayFromDebugger _).bind fun _ ↦ ih
    refine Plain.nextDebugAction.calm.bind fun action ↦ ?_
    split
    · exact (Plain.modifyDebugger _).calm
    · exact hraise _ _
    · exact pure ()
    · exact (Plain.modifyDebugger _).calm
    · exact hshown
    · exact hshown
    · exact (sayFromDebugger _).bind fun _ ↦ ih

theorem announce (site : Site) (node : Node) : Calm (Visit.announce site node) := by
  have hquiet (style : Int) : Quiet (Visit.showNode site node style) :=
    .ite (.get_bind fun _ ↦ .logInfo _) .pure
  refine bind (get_bind fun n ↦ ?_) fun _ ↦ get_bind fun n ↦
    (Plain.quiet (hquiet _)).calm.bind fun _ ↦ pure _
  split
  · exact pure ()
  · exact ite ((sayFromDebugger _).bind fun _ ↦ followActions site _) (pure ())

theorem note (site : Site) (node : Node) (style : Int) (result : Completion) :
    Calm (Visit.note site node style result) := by
  have hquiet : Quiet (Visit.showResult site node style result) :=
    .ite (.get_bind fun _ ↦ .display_bind fun _ ↦ .logInfo _) .pure
  exact (Plain.quiet hquiet).calm.bind fun _ ↦ pure _

end Calm

/-- A sequence is announced, its statements are run, and its result is noted. -/
theorem Visit.evalNode_sequence (I : Interp) (site : Site) (mode : Mode) {node : Node}
    (h : node.isSequence = true) : I.evalNode site mode node = (do
      let style ← announce site node
      let result ← I.sequence site mode node.sequenced
      note site node style result) := by
  have hnode : I.node site mode node = I.sequence site mode node.sequenced := by
    cases node <;> first | rfl | cases h
  rw [evalNode_eq, record_sequence site h, pure_bind, within_none, hnode]

namespace Node

theorem records_of_sequence {node : Node} (h : node.isSequence = true) :
    node.records = recordsAny node.sequenced := by
  cases node <;> first | rfl | cases h

theorem records_of_other {node : Node} (h : node.isSequence = false) : node.records = true := by
  cases node <;> first | rfl | cases h

theorem recordsAny_cons (node : Node) (nodes : List Node) :
    recordsAny (node :: nodes) = (node.records || recordsAny nodes) :=
  rfl

end Node

/-- A computation that leaves the stack traces alone, and ends normally if it gives a value. -/
structure Uneventful (x : Run Completion) : Prop where
  calm : Calm x
  normal : ∀ m result n, x m = .ok result n → result.flow = .normal

/-- Assumes: an interpreter for which nodes are uneventful if nothing is recorded for them. So are
sequences of them. -/
theorem Uneventful.sequenceFrom {I : Interp} {site : Site} {mode : Mode}
    (hI : ∀ node : Node, node.records = false → Uneventful (I.eval site mode node))
    {nodes : List Node} (hnodes : Node.recordsAny nodes = false) {last : Completion}
    (hlast : last.flow = .normal) : Uneventful (I.sequenceFrom site mode last nodes) := by
  induction nodes generalizing last with
  | nil =>
    refine ⟨.pure last, fun m result n hx ↦ ?_⟩
    cases hx
    exact hlast
  | cons node nodes ih =>
    rw [Node.recordsAny_cons, Bool.or_eq_false_iff] at hnodes
    have hnode := hI node hnodes.1
    have hrest (result : Completion) (hresult : result.flow = .normal) :
        Uneventful (I.sequenceFrom site mode result nodes) :=
      ih hnodes.2 hresult
    unfold Interp.sequenceFrom
    refine ⟨?_, fun m result n hx ↦ ?_⟩
    · intro m
      have hcalm := hnode.calm m
      cases hx : I.eval site mode node m with
      | error e n =>
        rw [hx] at hcalm
        rw [Run.bind_error hx]
        exact hcalm
      | ok result n =>
        have hresult := hnode.normal m result n hx
        rw [hx] at hcalm
        rw [Run.bind_ok hx, if_pos hresult]
        exact hcalm.trans ((hrest result hresult).calm n)
    · obtain ⟨first, k, hfirst, hx⟩ := Run.bind_eq_ok_iff.mp hx
      have hflow := hnode.normal m first k hfirst
      rw [if_pos hflow] at hx
      exact (hrest first hflow).normal k result n hx

/-- Nodes are uneventful if nothing is recorded for them. -/
theorem uneventful_of_silent (n : Nat) (site : Site) (mode : Mode) {node : Node}
    (h : node.records = false) : Uneventful ((interp n).eval site mode node) := by
  induction n generalizing node with
  | zero => exact ⟨.throw _, fun _ _ _ hx ↦ nomatch hx⟩
  | succ n ih =>
    have hsequence : node.isSequence = true := by
      cases hsequence : node.isSequence with
      | true => rfl
      | false => exact absurd (Node.records_of_other hsequence) (ne_true_of_eq_false h)
    rw [Node.records_of_sequence hsequence] at h
    have hstatements (cell : CellRef) :
        Uneventful ((interp n).sequenceFrom site mode ⟨cell, .normal⟩ node.sequenced) :=
      .sequenceFrom (fun _ hnode ↦ ih hnode) h rfl
    change Uneventful ((interp n).evalNode site mode node)
    rw [Visit.evalNode_sequence _ _ _ hsequence]
    unfold Interp.sequence
    refine ⟨(Calm.announce site node).bind fun style ↦ (Plain.newEmpty.calm.bind fun cell ↦
      (hstatements cell).calm).bind fun result ↦ .note site node style result, ?_⟩
    intro m result k hx
    obtain ⟨style, announced, -, hx⟩ := Run.bind_eq_ok_iff.mp hx
    obtain ⟨last, done, hrun, hnote⟩ := Run.bind_eq_ok_iff.mp hx
    obtain ⟨cell, started, -, hrun⟩ := Run.bind_eq_ok_iff.mp hrun
    obtain ⟨noted, hnoted, -⟩ := Visit.note_apply site node style last done
    rw [hnoted] at hnote
    cases hnote
    exact (hstatements cell).normal started result done hrun

/-- Closing a body leaves the stack traces alone. -/
theorem calm_closeBody (site : Site) (name : String) (closure : Closure) (result : Completion) :
    Calm (closeBody site name closure result) :=
  .ite (.bind (.get_bind fun _ ↦ .throw _) fun _ ↦ (Plain.copy _).calm) (Plain.copy _).calm

/-! ### The evaluator goes as it is inspected -/

/-- What the inspected evaluator is to the evaluator, given as much fuel. -/
structure Inspects (mislabelled silent : Failure) (n : Nat) : Prop where
  eval : ∀ (labels : Labels) (entered : String) (site : Site) (mode : Mode) (node : Node)
    (m : Machine), m.Notes labels site.frame.trace entered →
      Agrees silent
        (fun _ k ↦ k.Notes labels site.frame.trace (if node.records then "" else entered))
        ((interp n).eval site mode node m)
        ((inspected mislabelled silent n labels entered).eval site mode node m)
  call : ∀ (labels : Labels) (entered : String) (site : Site) (name : String)
    (preparation : Preparation) (function : CellRef) (args : List CellRef) (m : Machine),
    m.Notes labels site.frame.trace "" →
      Agrees silent (fun _ k ↦ k.Notes labels site.frame.trace "")
        ((interp n).call site name preparation function args m)
        ((inspected mislabelled silent n labels entered).call site name preparation function args m)

namespace Inspects

variable {mislabelled : Failure} {n : Nat}

/-- Rules over the inspected evaluator go as they do over the evaluator, where nothing is noted. -/
theorem of_tandem (h : Inspects mislabelled silent n) (hsettled : silent.Settled) {labels : Labels}
    {ref : TraceRef} {realm : Realm} {x y : Run α}
    (hxy : Tandem (fun _ ↦ False) (interp n) (inspected mislabelled silent n labels "") realm x y)
    (m : Machine) (hm : m.Notes labels ref "") :
    Agrees silent (fun _ k ↦ k.Notes labels ref "") (x m) (y m) := by
  refine agrees_of_tandem (interp_balanced n) hsettled (fun task m hm ↦ ?_) hxy m hm
  cases task with
  | eval site mode node =>
    refine (h.eval labels "" site mode node m (hm.quiet _)).mono fun _ k hk ↦ ?_
    rw [ite_self] at hk
    exact hk.quiet ref
  | call site name preparation function args =>
    exact (h.call labels "" site name preparation function args m (hm.quiet _)).mono
      fun _ k hk ↦ hk.quiet ref

/-- The statements of a sequence go as inspected. What has been noted is used up by the first one
that is recorded. -/
theorem statements (h : Inspects mislabelled silent n) (labels : Labels) (site : Site) (mode : Mode)
    (nodes : List Node) : ∀ (entered : String) (last : Completion) (m : Machine),
    m.Notes labels site.frame.trace entered →
      Agrees silent
        (fun _ k ↦ k.Notes labels site.frame.trace (if Node.recordsAny nodes then "" else entered))
        ((interp n).sequenceFrom site mode last nodes m)
        (statementsBy (inspected mislabelled silent n labels) site mode entered last nodes m) := by
  induction nodes with
  | nil => exact fun entered last m hm ↦ .pure hm
  | cons node nodes ih =>
    intro entered last m hm
    rw [Node.recordsAny_cons]
    unfold Interp.sequenceFrom statementsBy
    have hnode := h.eval labels entered site mode node m hm
    -- A node for which nothing is recorded ends normally, so the flow need be known only of those.
    have hflow : Agrees silent
        (fun result k ↦ k.Notes labels site.frame.trace (if node.records then "" else entered) ∧
          (node.records = false → result.flow = .normal))
        ((interp n).eval site mode node m)
        ((inspected mislabelled silent n labels entered).eval site mode node m) := by
      rcases hnode with hrefused | ⟨hsame, hgives⟩
      · exact .inl hrefused
      · exact .inr ⟨hsame, fun result k hresult ↦ ⟨hgives result k hresult, fun hsilent ↦
          (uneventful_of_silent n site mode hsilent).normal m result k hresult⟩⟩
    refine hflow.bind fun result k hk ↦ ?_
    by_cases hnormal : result.flow = .normal
    · rw [if_pos hnormal, if_pos hnormal]
      refine (ih _ result k hk.1).mono fun _ j hj ↦ ?_
      cases hrecords : node.records with
      | true =>
        rw [hrecords, if_pos rfl, ite_self] at hj
        exact hj
      | false =>
        rw [hrecords] at hj
        exact hj
    · rw [if_neg hnormal, if_neg hnormal]
      cases hrecords : node.records with
      | true =>
        rw [hrecords] at hk
        exact .pure hk.1
      | false => exact absurd (hk.2 hrecords) hnormal

/-- A node goes as inspected if those within it do. -/
theorem succ_eval (h : Inspects mislabelled silent n) (hsettled : silent.Settled) (labels : Labels)
    (entered : String) (site : Site) (mode : Mode) (node : Node) (m : Machine)
    (hm : m.Notes labels site.frame.trace entered) :
    Agrees silent
      (fun _ k ↦ k.Notes labels site.frame.trace (if node.records then "" else entered))
      ((interp (n + 1)).eval site mode node m)
      ((inspected mislabelled silent (n + 1) labels entered).eval site mode node m) := by
  change Agrees silent _ ((interp n).evalNode site mode node m) _
  unfold inspected
  dsimp only
  cases hsequence : node.isSequence with
  | true =>
    rw [if_pos rfl, Visit.evalNode_sequence _ _ _ hsequence, Node.records_of_sequence hsequence]
    unfold Interp.sequence
    simp only [bind_assoc]
    refine (Agrees.calm (Calm.announce site node) hm).bind fun style k hk ↦
      (Agrees.calm Plain.newEmpty.calm hk).bind fun cell k hk ↦
        (h.statements labels site mode node.sequenced entered _ k hk).bind fun result k hk ↦ ?_
    exact .calm (.note site node style result) hk
  | false =>
    rw [if_neg Bool.false_ne_true, Run.get_bind, if_neg (not_not_intro hm.upcoming),
      Node.records_of_other hsequence, if_pos rfl, Visit.evalNode_eq, Visit.evalNode_eq]
    have hvisited {J : Interp} (hfuel : J.fuel = (interp n).fuel) :=
      @Tandem.visited (fun _ ↦ False) (interp n) J .language hfuel site mode node
    refine Agrees.recorded hsequence hm ((interp_balanced n).of_tandem (hvisited rfl))
      fun k hk ↦ ?_
    exact h.of_tandem hsettled (hvisited (fuel_inspected ..)) k hk

/-- Opening the body of a function notes its name on the stack trace the body will write to. -/
theorem notes_of_openBody {labels : Labels} {site inner : Site} {name : String}
    {preparation : Preparation} {function : CellRef} {closure : Closure} {args : List CellRef}
    {m k : Machine} (hm : m.Notes labels site.frame.trace "")
    (hopen : openBody site name preparation function closure args m = .ok inner k) :
    inner.frame.trace = site.frame.trace ∧
      k.Notes labels site.frame.trace (m.noted site.frame.trace name) := by
  unfold openBody at hopen
  obtain ⟨_, m₁, hchecked, hopen⟩ := Run.bind_eq_ok_iff.mp hopen
  obtain ⟨copies, m₂, hcopies, hopen⟩ := Run.bind_eq_ok_iff.mp hopen
  have hchecked : m₁ = m := by
    unfold checkArity at hchecked
    split at hchecked
    · obtain ⟨shown, m', -, hraised⟩ := Run.bind_eq_ok_iff.mp hchecked
      cases hraised
    · cases hchecked
      rfl
  have hcopied : m₂.traces = m.traces := by
    have hsame : m₁.SameOutside (Outcome.final (args.mapM copy m₁)) :=
      (Steady.mapM args fun cell ↦ .copy cell).sameOutside m₁
    rw [hcopies, hchecked] at hsame
    change m.SameOutside m₂ at hsame
    rw [← hsame]
  let frame : Frame := { top := ⟨m₂.scopes.size⟩, outer := [], trace := site.frame.trace }
  let forked : Machine := m₂.withScope (closure.bodyScope m₂ preparation copies)
  have hforked : forked.Notes labels site.frame.trace "" :=
    hm.level (.of_traces (n := forked) hcopied)
  have hentered := hforked.enter name
  have hsize : forked.noted site.frame.trace name = m.noted site.frame.trace name := by
    unfold Machine.noted
    rw [show forked.traces = m.traces from hcopied]
  rw [hsize] at hentered
  cases hopen
  exact ⟨rfl, hentered⟩

/-- Assumes: a callee that holds a closure in whose body something is recorded. The call goes as
inspected, with the name of the function noted at the start of its body. -/
theorem closure (h : Inspects mislabelled silent n) {labels : Labels} {site : Site} (name : String)
    (preparation : Preparation) {function : CellRef} (args : List CellRef) {m : Machine}
    (hm : m.Notes labels site.frame.trace "") {stamp : Stamp} {closure : Closure}
    (hclosure : m.content function = .function stamp closure)
    (hrecords : closure.body.records = true) :
    Agrees silent (fun _ k ↦ k.Notes labels site.frame.trace "")
      ((interp n).callValue site name preparation function args m)
      ((inspected mislabelled silent n labels (m.noted site.frame.trace name)).callValue site name
        preparation function args m) := by
  rw [Interp.callValue_closure hclosure, Interp.callValue_closure hclosure]
  obtain ⟨log, hannounced⟩ := Comparison.announceCall name args m
  rw [Run.bind_ok hannounced, Run.bind_ok hannounced]
  have hopened : Agrees silent
      (fun inner k ↦ inner.frame.trace = site.frame.trace ∧
        k.Notes labels site.frame.trace (m.noted site.frame.trace name))
      (openBody site name preparation function closure args { m with log })
      (openBody site name preparation function closure args { m with log }) :=
    .inr ⟨rfl, fun inner k hopen ↦ notes_of_openBody (m := { m with log })
      ⟨hm.below, hm.pending⟩ hopen⟩
  refine hopened.bind fun inner k hk ↦ ?_
  obtain ⟨htrace, hk⟩ := hk
  have hbody := h.eval labels (m.noted site.frame.trace name) inner .required closure.body k
    (htrace.symm ▸ hk)
  rw [hrecords, if_pos rfl, htrace] at hbody
  exact hbody.bind fun result k hk ↦ .calm (calm_closeBody site name closure result) hk

/-- A call goes as inspected if what it asks for does. -/
theorem succ_call (h : Inspects mislabelled silent n) (hsettled : silent.Settled) (labels : Labels)
    (entered : String) (site : Site) (name : String) (preparation : Preparation)
    (function : CellRef) (args : List CellRef) (m : Machine)
    (hm : m.Notes labels site.frame.trace "") :
    Agrees silent (fun _ k ↦ k.Notes labels site.frame.trace "")
      ((interp (n + 1)).call site name preparation function args m)
      ((inspected mislabelled silent (n + 1) labels entered).call site name preparation function
        args m) := by
  change Agrees silent _ ((interp n).callValue site name preparation function args m) _
  unfold inspected
  dsimp only
  rw [Run.get_bind]
  have hother (henters : ∀ stamp closure, m.content function ≠ .function stamp closure) :
      Agrees silent (fun _ k ↦ k.Notes labels site.frame.trace "")
        ((interp n).callValue site name preparation function args m)
        ((inspected mislabelled silent n labels "").callValue site name preparation function
          args m) := by
    have hread : content function m = .ok (m.content function) m := rfl
    rw [Interp.callValue_eq, Interp.callValue_eq, Run.bind_ok hread, Run.bind_ok hread]
    exact h.of_tandem hsettled (.callContent (fuel_inspected ..) site name preparation function args
      henters) m hm
  cases hcontent : m.content function with
  | function stamp closure =>
    cases hrecords : closure.body.records with
    | true =>
      dsimp only
      rw [hrecords]
      exact h.closure name preparation args hm hcontent hrecords
    | false =>
      refine .inl ⟨m, ?_⟩
      dsimp only
      rw [hrecords]
      rfl
  | _ => exact hother fun _ _ hclosure ↦ nomatch hcontent.symm.trans hclosure

/-- The evaluator goes as inspected, whatever its fuel. -/
theorem all (mislabelled : Failure) (hsettled : silent.Settled) (n : Nat) :
    Inspects mislabelled silent n := by
  induction n with
  | zero => exact ⟨fun _ _ _ _ _ _ _ ↦ .error _, fun _ _ _ _ _ _ _ _ _ ↦ .error _⟩
  | succ n ih => exact ⟨ih.succ_eval hsettled, ih.succ_call hsettled⟩

end Inspects

/-- Assumes: a machine on which no name has been noted. All nodes that are recorded in the course of
an evaluation or a call are recorded under the functions that the inspected evaluator expects, and a
value is given with no name noted, unless a function is called with a body of which nothing is
recorded. The name of such a function is still noted when it has been called. -/
theorem name_lasts_for_one_statement {mislabelled silent : Failure} (hsettled : silent.Settled)
    (n : Nat) {m : Machine} (hquiet : ∀ ref, (m.trace ref).pending = "") :
    (∀ task : Task,
      let run := (inspected mislabelled silent n (fun ref ↦ (m.trace ref).below) "").perform task m
      (∃ k, run = .error silent k) ∨
        run = (interp n).perform task m ∧
          ∀ a k, run = .ok a k → ∀ ref, (k.trace ref).pending = "") ∧
    ∀ (site : Site) (name : String) (preparation : Preparation) (function : CellRef)
      (args : List CellRef) (stamp : Stamp) (closure : Closure) (cell : CellRef) (k : Machine),
      m.content function = .function stamp closure → closure.body.records = false →
        site.frame.trace.index < m.traces.size →
          (interp n).call site name preparation function args m = .ok cell k →
            (k.trace site.frame.trace).pending = name := by
  have hnotes (ref : TraceRef) : m.Notes (fun ref ↦ (m.trace ref).below) ref "" :=
    ⟨fun _ ↦ rfl, fun other ↦ (hquiet other).trans (ite_self _).symm⟩
  have hinspects := Inspects.all mislabelled hsettled n
  constructor
  · intro task run
    -- What is noted on the machine that a value is given with.
    have hagrees {ref : TraceRef} {entered : String} (hentered : entered = "")
        (h : Agrees silent (fun _ k ↦ k.Notes (fun ref ↦ (m.trace ref).below) ref entered)
          ((interp n).perform task m) run) :
        (∃ k, run = .error silent k) ∨ run = (interp n).perform task m ∧
          ∀ a k, run = .ok a k → ∀ ref, (k.trace ref).pending = "" := by
      subst hentered
      rcases h with hrefused | ⟨hsame, hgives⟩
      · exact .inl hrefused
      · refine .inr ⟨hsame, fun a k hrun other ↦ ?_⟩
        have hpending := (hgives a k (hsame.symm.trans hrun)).pending other
        rwa [ite_self] at hpending
    cases task with
    | eval site mode node =>
      exact hagrees (ite_self _) (hinspects.eval _ "" site mode node m (hnotes _))
    | call site name preparation function args =>
      exact hagrees rfl (hinspects.call _ "" site name preparation function args m (hnotes _))
  · intro site name preparation function args stamp closure cell k hclosure hsilent hexists hcall
    cases n with
    | zero => cases hcall
    | succ n =>
      change (interp n).callValue site name preparation function args m = .ok cell k at hcall
      obtain ⟨log, hannounced⟩ := Comparison.announceCall name args m
      rw [Interp.callValue_closure hclosure, Run.bind_ok hannounced] at hcall
      obtain ⟨inner, opened, hopen, hcall⟩ := Run.bind_eq_ok_iff.mp hcall
      obtain ⟨result, done, hbody, hclose⟩ := Run.bind_eq_ok_iff.mp hcall
      obtain ⟨-, hopened⟩ := Inspects.notes_of_openBody (m := { m with log })
        ⟨(hnotes site.frame.trace).below, (hnotes site.frame.trace).pending⟩ hopen
      have hdone := (uneventful_of_silent n inner .required hsilent).calm opened
      rw [hbody] at hdone
      have hclosed := calm_closeBody site name closure result done
      rw [hclose] at hclosed
      have hpending := ((hopened.level hdone).level hclosed).pending site.frame.trace
      rwa [if_pos rfl, Machine.noted, if_pos hexists] at hpending

/-! ### A function with two statements -/

namespace TwoStatements

/-- A function that has a statement before the one that fails. -/
def closure : Closure where
  params := []
  body := .block [.number "1", .identifier "absent"]
  context := ⟨0⟩
  frame := { top := ⟨0⟩, outer := [], trace := ⟨0⟩ }

/-- A machine with a variable for that function. -/
def machine : Machine where
  cells := #[.function ⟨0⟩ closure]
  scopes := #[Std.TreeMap.insert {} "f" ⟨0⟩]
  traces := #[{}]
  contexts := #[{ source := "main", globals := ⟨0⟩, trace := ⟨0⟩ }]

/-- The call of the function at the top of its source. -/
def calling : Task :=
  .eval ⟨⟨0⟩, { closure.frame with isRoot := true }⟩ .required (.functionCall (.identifier "f") [])

/-- The second statement stands on the stack trace without the name of the function. -/
def fault : Fault where
  kind := .unresolvedSymbol
  message := "Cannot resolve symbol 'absent' on [absent]"
  trace := "\tin [main] at f()\n\tin [main] at absent\n" ++
    "\tLocal symbols:  \n\tGlobal symbols: f (function)"

end TwoStatements

open TwoStatements in
/-- The statement that fails is recorded as inspected: under the function of the node that calls,
which is none. -/
theorem second_statement_bears_no_name :
    (∀ ref, (machine.trace ref).pending = "") ∧
      (inspected (.plain "mislabelled") .outOfFuel 5 (fun ref ↦ (machine.trace ref).below)
        "").perform calling machine = (interp 5).perform calling machine ∧
      Outcome.failure? ((interp 5).perform calling machine) = some (.fault fault) := by
  have hquiet (ref : TraceRef) : (machine.trace ref).pending = "" := by
    obtain ⟨i⟩ := ref
    cases i <;> rfl
  have hfails : Outcome.failure? ((inspected (.plain "mislabelled") .outOfFuel 5
      (fun ref ↦ (machine.trace ref).below) "").perform calling machine) =
        some (.fault fault) := by
    decide +kernel
  rcases (@name_lasts_for_one_statement (.plain "mislabelled") .outOfFuel trivial 5 machine
    hquiet).1 calling with ⟨k, hrefused⟩ | ⟨hsame, -⟩
  · rw [hrefused] at hfails
    cases hfails
  · exact ⟨hquiet, hsame, hsame ▸ hfails⟩

end TreeScript
