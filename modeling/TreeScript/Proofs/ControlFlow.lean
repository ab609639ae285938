import TreeScript.Proofs.Call
import TreeScript.Proofs.Visit
import TreeScript.Session.Basic

/-!
# Control signals and the constructs that take them in

A return, break or continue travels outward as the flow of a completion. This module says where it
stops (`signals_stop_at_their_construct`).

A `Spot` is the evaluation of a node at a site on a machine. `Reaches` leads from the spot of a body
to the spot of a statement in it, through sequences, branches and passes of loops, nested to any
depth. Each construct on the way is a `Layer`, which knows what the construct has still to do
(`Pending`). The outcome of the body is the outcome of the statement, handed outward through the
layers (`Reaches.outcome_eq`). So what becomes of a signal is decided by what one layer makes of it
(`Pending.resume_returned`, `resume_signal`, `resume_broken`, `resume_continued`), by induction on
the layers. That no loop ever leaves a break or continue behind (`needsLoop_of_loop`) is an
induction on its passes.
-/

set_option autoImplicit false

namespace TreeScript.ControlFlow

open Visit

/-! ### What a construct has still to do -/

/-- What a construct has still to do when the statement it has come to is over: the statements
behind it in a sequence, nothing for a branch, and the passes to come of a loop. -/
inductive Pending where
  | sequence (site : Site) (mode : Mode) (rest : List Node)
  | branch
  | forLoop (site : Site) (names : List String) (body : Node) (ref : IteratorRef) (count : Nat)
  | whileLoop (site : Site) (condition body : Node) (fuel : Nat)

namespace Pending

def isLoop : Pending → Bool
  | forLoop .. | whileLoop .. => true
  | _ => false

/-- What comes next where the statement ended normally. -/
def goOn (interp : Interp) : Pending → Completion → Run Completion
  | sequence site mode rest, last => interp.sequenceFrom site mode last rest
  | branch, last => return last
  | forLoop site names body ref count, last => interp.forElements site names body ref count last
  | whileLoop site condition body fuel, last => interp.whileHolds site condition body fuel last

end Pending

/-- What a loop makes of the end of a pass: whether the loop is over, and how the pass ended. -/
def settle (result : Completion) : Run (Bool × Completion) := do
  match result.flow with
  | .normal => return (false, result)
  | .returned => return (true, result)
  | .broken => return (true, { value := ← newEmpty })
  | .continued => return (false, { value := ← newEmpty })

/-- What a construct does when the statement it has come to is over. -/
def Pending.resume (interp : Interp) (pending : Pending) (result : Completion) :
    Run Completion := do
  if pending.isLoop then
    let (ended, result) ← settle result
    if ended then return result else pending.goOn interp result
  else if result.flow = .normal then pending.goOn interp result
  else return result

/-- A pass evaluates the body and settles how it ended. -/
theorem pass_eq (interp : Interp) (site : Site) (body : Node) :
    interp.pass site body = interp.eval site .required body >>= settle :=
  rfl

/-- A loop that has come to a pass is that pass and what the loop does when it is over. -/
theorem pass_bind_eq (interp : Interp) (site : Site) (body : Node) {pending : Pending}
    (hloop : pending.isLoop = true) :
    (do
      let (ended, result) ← interp.pass site body
      if ended then return result else pending.goOn interp result) =
      interp.eval site .required body >>= pending.resume interp := by
  rw [pass_eq, bind_assoc]
  refine bind_congr fun result ↦ ?_
  unfold Pending.resume
  rw [if_pos hloop]

/-- Every construct goes on where the statement it has come to ended normally. -/
theorem Pending.resume_normal (interp : Interp) (pending : Pending) {result : Completion}
    (hflow : result.flow = .normal) :
    pending.resume interp result = pending.goOn interp result := by
  unfold Pending.resume settle
  rw [hflow]
  split <;> rfl

/-- Every construct hands a return on. -/
theorem Pending.resume_returned (interp : Interp) (pending : Pending) {result : Completion}
    (hflow : result.flow = .returned) : pending.resume interp result = pure result := by
  unfold Pending.resume settle
  rw [hflow]
  split <;> rfl

/-- Sequences and branches hand every signal on. -/
theorem Pending.resume_signal (interp : Interp) {pending : Pending} {result : Completion}
    (hloop : pending.isLoop = false) (hflow : result.flow ≠ .normal) :
    pending.resume interp result = pure result := by
  unfold Pending.resume
  rw [if_neg (by rw [hloop]; exact Bool.false_ne_true), if_neg hflow]

/-- A branch has nothing to do behind its body. -/
theorem Pending.resume_branch (interp : Interp) : Pending.branch.resume interp = pure := by
  funext result
  by_cases hflow : result.flow = .normal
  · exact resume_normal interp .branch hflow
  · exact resume_signal interp rfl hflow

/-- A loop ends at a break, with an empty value. -/
theorem Pending.resume_broken (interp : Interp) {pending : Pending} {result : Completion}
    (hloop : pending.isLoop = true) (hflow : result.flow = .broken) :
    pending.resume interp result = (do return { value := ← newEmpty }) := by
  unfold Pending.resume settle
  rw [if_pos hloop, hflow]
  rfl

/-- A loop goes on at a continue, as after a pass that ended normally with an empty value. -/
theorem Pending.resume_continued (interp : Interp) {pending : Pending} {result : Completion}
    (hloop : pending.isLoop = true) (hflow : result.flow = .continued) :
    pending.resume interp result = (do pending.goOn interp { value := ← newEmpty }) := by
  unfold Pending.resume settle
  rw [if_pos hloop, hflow]
  rfl

/-! ### Coming to a statement inside a construct -/

/-- The branch whose body runs, once the conditions before it have been evaluated. -/
inductive Chosen (interp : Interp) (site : Site) :
    List (Option Node × Node) → Machine → Node → Machine → Prop
  | otherwise {body : Node} {rest : List (Option Node × Node)} {m : Machine} :
    Chosen interp site ((none, body) :: rest) m body m
  | holds {condition body : Node} {rest : List (Option Node × Node)} {m n : Machine}
      {test : CellRef} (htest : interp.value site condition .required m = .ok test n)
      (hholds : n.isTrue test = true) :
    Chosen interp site ((some condition, body) :: rest) m body n
  | fails {condition former body : Node} {rest : List (Option Node × Node)} {m n m' : Machine}
      {test : CellRef} (htest : interp.value site condition .required m = .ok test n)
      (hfails : n.isTrue test = false) (hlater : Chosen interp site rest n body m') :
    Chosen interp site ((some condition, former) :: rest) m body m'

/-- A pass of a loop over elements that begins in the site `inner`, after any number of passes that
did not end the loop. At most `count` elements are to come before it and `left` after it. -/
inductive ForPass (interp : Interp) (site : Site) (names : List String) (body : Node)
    (ref : IteratorRef) : Nat → Machine → Nat → Site → Machine → Prop
  | begins {count : Nat} {m₀ m₁ m₂ m₃ : Machine} {element : CellRef} {inner : Site}
      (hnext : next? ref m₀ = .ok (some element) m₁) (hfork : site.fork m₁ = .ok inner m₂)
      (hbind : site.traced .invalidControl (Interp.bindElement names element inner.frame) m₂ =
        .ok () m₃) :
    ForPass interp site names body ref (count + 1) m₀ count inner m₃
  | passes {count left : Nat} {m₀ m₁ m₂ m₃ m₄ m' : Machine} {element : CellRef}
      {former inner : Site} {result : Completion}
      (hnext : next? ref m₀ = .ok (some element) m₁) (hfork : site.fork m₁ = .ok former m₂)
      (hbind : site.traced .invalidControl (Interp.bindElement names element former.frame) m₂ =
        .ok () m₃)
      (hpass : interp.pass former body m₃ = .ok (false, result) m₄)
      (hlater : ForPass interp site names body ref count m₄ left inner m') :
    ForPass interp site names body ref (count + 1) m₀ left inner m'

/-- A pass of a loop with a condition, after any number of passes that did not end the loop. -/
inductive WhilePass (interp : Interp) (site : Site) (condition body : Node) :
    Nat → Machine → Nat → Machine → Prop
  | begins {fuel : Nat} {m₀ m₁ : Machine} {test : CellRef}
      (htest : interp.value site condition .required m₀ = .ok test m₁)
      (hholds : m₁.content test = .boolean true) :
    WhilePass interp site condition body (fuel + 1) m₀ fuel m₁
  | passes {fuel left : Nat} {m₀ m₁ m₂ m' : Machine} {test : CellRef} {result : Completion}
      (htest : interp.value site condition .required m₀ = .ok test m₁)
      (hholds : m₁.content test = .boolean true)
      (hpass : interp.pass site body m₁ = .ok (false, result) m₂)
      (hlater : WhilePass interp site condition body fuel m₂ left m') :
    WhilePass interp site condition body (fuel + 1) m₀ left m'

/-- A construct comes to the evaluation of a statement inside it. `Opens interp site mode node m
pending inner mode' child m'` says that the construct `node`, started on `m`, evaluates `child` in
`inner` on `m'`, with `pending` to do after it. -/
inductive Opens (interp : Interp) (site : Site) (mode : Mode) :
    Node → Machine → Pending → Site → Mode → Node → Machine → Prop
  | root {done rest : List Node} {child : Node} {m m' : Machine} {last : Completion}
      (hdone : interp.sequence site mode done m = .ok last m') (hnormal : last.flow = .normal) :
    Opens interp site mode (.root (done ++ child :: rest)) m (.sequence site mode rest) site mode
      child m'
  | block {done rest : List Node} {child : Node} {m m' : Machine} {last : Completion}
      (hdone : interp.sequence site mode done m = .ok last m') (hnormal : last.flow = .normal) :
    Opens interp site mode (.block (done ++ child :: rest)) m (.sequence site mode rest) site mode
      child m'
  | conditional {branches : List (Option Node × Node)} {body : Node} {inner : Site}
      {m m₁ m' : Machine} (hfork : site.fork m = .ok inner m₁)
      (hchosen : Chosen interp inner branches m₁ body m') :
    Opens interp site mode (.conditional branches) m .branch inner .required body m'
  | forLoop {names : List String} {iterable body : Node} {cell iterator : CellRef}
      {ref : IteratorRef} {inner : Site} {left : Nat} {m m₁ m₂ m' : Machine}
      (hiterable : interp.value site iterable .required m = .ok cell m₁)
      (hiterator : site.traced .invalidControl (makeIterator cell) m₁ = .ok iterator m₂)
      (hcontent : m₂.content iterator = .iterator ref)
      (hpass : ForPass interp site names body ref (m₂.remaining ref).length (m₂.withCell .empty)
        left inner m') :
    Opens interp site mode (.forLoop names iterable body) m (.forLoop site names body ref left)
      inner .required body m'
  | whileLoop {condition body : Node} {inner : Site} {left : Nat} {m m₁ m' : Machine}
      (hfork : site.fork m = .ok inner m₁)
      (hpass : WhilePass interp inner condition body interp.fuel (m₁.withCell .empty) left m') :
    Opens interp site mode (.whileLoop condition body) m (.whileLoop inner condition body left)
      inner .required body m'

/-- Assumes: a statement list whose first part ended normally. The whole list goes on behind it. -/
theorem sequenceFrom_append {interp : Interp} {site : Site} {mode : Mode} {done : List Node} :
    ∀ {first last : Completion} {m m' : Machine} (later : List Node),
      interp.sequenceFrom site mode first done m = .ok last m' → last.flow = .normal →
        interp.sequenceFrom site mode first (done ++ later) m =
          interp.sequenceFrom site mode last later m' := by
  induction done with
  | nil =>
    intro first last m m' later hdone _
    cases hdone
    rfl
  | cons node done ih =>
    intro first last m m' later hdone hnormal
    rw [Interp.sequenceFrom, Run.bind_eq_ok_iff] at hdone
    obtain ⟨result, n, heval, hrest⟩ := hdone
    rw [List.cons_append, Interp.sequenceFrom, Run.bind_ok heval]
    by_cases hflow : result.flow = .normal
    · rw [if_pos hflow] at hrest ⊢
      exact ih later hrest hnormal
    · rw [if_neg hflow] at hrest
      cases hrest
      exact absurd hnormal hflow

/-- Assumes: a sequence whose first part ended normally. What remains is the next statement, and
then what is pending. -/
theorem sequence_append {interp : Interp} {site : Site} {mode : Mode} {done rest : List Node}
    {child : Node} {last : Completion} {m m' : Machine}
    (hdone : interp.sequence site mode done m = .ok last m') (hnormal : last.flow = .normal) :
    interp.sequence site mode (done ++ child :: rest) m =
      (interp.eval site mode child >>= (Pending.sequence site mode rest).resume interp) m' := by
  unfold Interp.sequence at hdone ⊢
  rw [Run.bind_ok (newEmpty_apply m)] at hdone ⊢
  rw [sequenceFrom_append _ hdone hnormal]
  rfl

/-- Assumes: a branch that is chosen. The conditional is the evaluation of its body. -/
theorem Chosen.branches_eq {interp : Interp} {site : Site} {branches : List (Option Node × Node)}
    {body : Node} {m m' : Machine} (hchosen : Chosen interp site branches m body m') :
    interp.branches site branches m = interp.eval site .required body m' := by
  induction hchosen with
  | otherwise => rfl
  | holds htest hholds =>
    rw [Interp.branches, Run.bind_ok htest]
    change (if Machine.isTrue _ _ = true then _ else _ : Run Completion) _ = _
    rw [if_pos hholds]
  | fails htest hfails _ ih =>
    rw [Interp.branches, Run.bind_ok htest]
    change (if Machine.isTrue _ _ = true then _ else _ : Run Completion) _ = _
    rw [if_neg (by rw [hfails]; exact Bool.false_ne_true), ih]

/-- Assumes: a pass that is come to. The loop is that pass, and then what is pending. -/
theorem ForPass.forElements_eq {interp : Interp} {site : Site} {names : List String} {body : Node}
    {ref : IteratorRef} {count left : Nat} {inner : Site} {m m' : Machine}
    (hpass : ForPass interp site names body ref count m left inner m') :
    ∀ last : Completion, interp.forElements site names body ref count last m =
      (interp.eval inner .required body >>=
        (Pending.forLoop site names body ref left).resume interp) m' := by
  induction hpass with
  | begins hnext hfork hbind =>
    intro last
    rw [Interp.forElements, Run.bind_ok hnext]
    change (site.fork >>= _) _ = _
    rw [Run.bind_ok hfork, Run.bind_ok hbind, ← pass_bind_eq interp _ body rfl]
    rfl
  | passes hnext hfork hbind hpass _ ih =>
    intro last
    rw [Interp.forElements, Run.bind_ok hnext]
    change (site.fork >>= _) _ = _
    rw [Run.bind_ok hfork, Run.bind_ok hbind, Run.bind_ok hpass]
    exact ih _

/-- Assumes: a pass that is come to. The loop is that pass, and then what is pending. -/
theorem WhilePass.whileHolds_eq {interp : Interp} {site : Site} {condition body : Node}
    {fuel left : Nat} {m m' : Machine}
    (hpass : WhilePass interp site condition body fuel m left m') :
    ∀ last : Completion, interp.whileHolds site condition body fuel last m =
      (interp.eval site .required body >>=
        (Pending.whileLoop site condition body left).resume interp) m' := by
  induction hpass with
  | @begins fuel m₀ m₁ test htest hholds =>
    intro last
    rw [Interp.whileHolds, Run.bind_ok htest,
      Run.bind_ok (show content test m₁ = .ok (m₁.content test) m₁ from rfl), hholds,
      ← pass_bind_eq interp _ body rfl]
    rfl
  | @passes fuel left m₀ m₁ m₂ m' test result htest hholds hpass _ ih =>
    intro last
    rw [Interp.whileHolds, Run.bind_ok htest,
      Run.bind_ok (show content test m₁ = .ok (m₁.content test) m₁ from rfl), hholds]
    change (interp.pass site body >>= _) _ = _
    rw [Run.bind_ok hpass]
    exact ih _

/-- Assumes: a construct that comes to a statement inside it. The construct is the evaluation of
that statement, and then what is pending. -/
theorem Opens.node_eq {interp : Interp} {site inner : Site} {mode mode' : Mode} {node child : Node}
    {pending : Pending} {m m' : Machine}
    (hopens : Opens interp site mode node m pending inner mode' child m') :
    interp.node site mode node m =
      (interp.eval inner mode' child >>= pending.resume interp) m' := by
  cases hopens with
  | root hdone hnormal => exact sequence_append hdone hnormal
  | block hdone hnormal => exact sequence_append hdone hnormal
  | conditional hfork hchosen =>
    change (site.fork >>= _) m = _
    rw [Run.bind_ok hfork, hchosen.branches_eq, Pending.resume_branch, bind_pure]
  | @forLoop names iterable _ cell iterator ref _ left _ m₁ m₂ _ hiterable hiterator hcontent
      hpass =>
    change interp.forLoop site names iterable child m = _
    unfold Interp.forLoop
    rw [Run.bind_ok hiterable, Run.bind_ok hiterator,
      Run.bind_ok (show content iterator m₂ = .ok (m₂.content iterator) m₂ from rfl), hcontent]
    exact hpass.forElements_eq _
  | whileLoop hfork hpass =>
    change interp.whileLoop site _ child m = _
    unfold Interp.whileLoop
    rw [Run.bind_ok hfork, Run.bind_ok (newEmpty_apply _)]
    exact hpass.whileHolds_eq _

/-! ### Statement position at any depth -/

/-- An evaluation about to start. -/
structure Spot where
  fuel : Nat
  site : Site
  mode : Mode
  node : Node
  machine : Machine

namespace Spot

def eval (spot : Spot) : Run Completion := (interp spot.fuel).eval spot.site spot.mode spot.node

/-- How the evaluation ends. -/
def outcome (spot : Spot) : Outcome Completion := spot.eval spot.machine

end Spot

/-- A construct around a statement that is being evaluated: what the construct has still to do, and
how its node is left. -/
structure Layer where
  fuel : Nat
  site : Site
  node : Node
  depth : Option Nat
  style : Int
  pending : Pending

namespace Layer

def isLoop (layer : Layer) : Bool := layer.pending.isLoop

/-- The evaluation of a construct, given that of the statement it has come to. -/
def around (layer : Layer) (act : Run Completion) : Run Completion :=
  within layer.site layer.depth do
    let result ← act >>= layer.pending.resume (interp layer.fuel)
    note layer.site layer.node layer.style result

end Layer

/-- An evaluation with constructs around it, the outermost first. -/
def unwind (layers : List Layer) (act : Run Completion) : Run Completion :=
  layers.foldr Layer.around act

/-- The evaluation of one spot comes to that of another one in statement position: through
sequences, branches of conditionals and bodies of loops only. The layers are the constructs in
between, the outermost first. -/
inductive Reaches : Spot → List Layer → Spot → Prop
  | here (spot : Spot) : Reaches spot [] spot
  | inside {fuel : Nat} {site site' : Site} {mode mode' : Mode} {node child : Node}
      {m m₁ m₂ m' : Machine} {depth : Option Nat} {style : Int} {pending : Pending}
      {layers : List Layer} {inner : Spot}
      (hrecord : record site node m = .ok depth m₁)
      (hannounce : announce site node m₁ = .ok style m₂)
      (hopens : Opens (interp fuel) site mode node m₂ pending site' mode' child m')
      (hreaches : Reaches ⟨fuel, site', mode', child, m'⟩ layers inner) :
    Reaches ⟨fuel + 1, site, mode, node, m⟩ (⟨fuel, site, node, depth, style, pending⟩ :: layers)
      inner

/-- What a construct does depends only on the outcome of the statement it has come to. -/
theorem Layer.around_congr (layer : Layer) {x y : Run Completion} {m m' : Machine}
    (h : x m = y m') : layer.around x m = layer.around y m' :=
  within_congr layer.site layer.depth (Run.bind_congr_left (Run.bind_congr_left h))

/-- What constructs do depends only on the outcome of the statement inside them. -/
theorem unwind_congr (layers : List Layer) {x y : Run Completion} {m m' : Machine}
    (h : x m = y m') : unwind layers x m = unwind layers y m' := by
  induction layers with
  | nil => exact h
  | cons layer layers ih => exact layer.around_congr ih

/-- Constructs around constructs. -/
theorem unwind_append (outer inner : List Layer) (act : Run Completion) :
    unwind (outer ++ inner) act = unwind outer (unwind inner act) :=
  List.foldr_append

/-- Assumes: an evaluation that comes to another one in statement position. It is that other
evaluation with the layers around it. -/
theorem Reaches.outcome_eq {outer inner : Spot} {layers : List Layer}
    (hreaches : Reaches outer layers inner) :
    outer.outcome = unwind layers inner.eval inner.machine := by
  induction hreaches with
  | here spot => rfl
  | @inside fuel site site' mode mode' node child m m₁ m₂ m' depth style pending layers inner
      hrecord hannounce hopens _ ih =>
    change (interp fuel).evalNode site mode node m = _
    rw [evalNode_eq, Run.bind_ok hrecord]
    refine within_congr site depth ?_
    rw [Run.bind_ok hannounce]
    refine Run.bind_congr_left ?_
    rw [hopens.node_eq]
    exact Run.bind_congr_left ih

/-- Assumes: a result that the construct hands on. It is the result of the construct, which changes
at most the stack traces and the log. -/
theorem Layer.around_of_handed_on (layer : Layer) {act : Run Completion} {m n : Machine}
    {result : Completion} (hact : act m = .ok result n)
    (hresume : layer.pending.resume (interp layer.fuel) result = pure result) :
    ∃ m', layer.around act m = .ok result m' ∧ n.Unwound m' := by
  obtain ⟨n', hnote, hnoted⟩ := note_apply layer.site layer.node layer.style result n
  have hbody : ((act >>= layer.pending.resume (interp layer.fuel)) >>=
      note layer.site layer.node layer.style) m = .ok result n' := by
    rw [bind_assoc, Run.bind_ok hact, hresume, pure_bind, hnote]
  obtain ⟨m', hwithin, hleft⟩ := within_ok layer.site layer.depth hbody
  exact ⟨m', hwithin, hnoted.trans hleft⟩

/-- Assumes: a result that every construct hands on. It is the result of them all, which change at
most the stack traces and the log. -/
theorem unwind_of_handed_on {act : Run Completion} {m n : Machine} {result : Completion}
    (hact : act m = .ok result n) :
    ∀ layers : List Layer,
      (∀ layer ∈ layers, layer.pending.resume (interp layer.fuel) result = pure result) →
        ∃ m', unwind layers act m = .ok result m' ∧ n.Unwound m' := by
  intro layers
  induction layers with
  | nil => exact fun _ ↦ ⟨n, hact, Machine.Unwound.refl n⟩
  | cons layer layers ih =>
    intro hlayers
    obtain ⟨n', hinner, hunwound⟩ := ih fun l hl ↦ hlayers l (List.mem_cons_of_mem layer hl)
    obtain ⟨m', houter, hleft⟩ :=
      layer.around_of_handed_on hinner (hlayers layer List.mem_cons_self)
    exact ⟨m', houter, hunwound.trans hleft⟩

/-! ### How statements end -/

/-- Assumes: a spot whose evaluation gave a result. Its construct gave that result. -/
theorem Spot.node_of_outcome {spot : Spot} {result : Completion} {n : Machine}
    (h : spot.outcome = .ok result n) :
    ∃ (fuel : Nat) (m₁ m₂ : Machine),
      (interp fuel).node spot.site spot.mode spot.node m₁ = .ok result m₂ := by
  obtain ⟨fuel, site, mode, node, m⟩ := spot
  cases fuel with
  | zero => cases h
  | succ fuel => exact ⟨fuel, evalNode_eq_ok h⟩

/-- The signal a statement gives. -/
def signal? : Node → Option Flow
  | .returnStatement _ => some .returned
  | .breakStatement => some .broken
  | .continueStatement => some .continued
  | _ => none

/-- Assumes: a return, break or continue that is executed without a failure. It ends with its
signal. -/
theorem flow_of_signal {spot : Spot} {flow : Flow} {result : Completion} {n : Machine}
    (hsignal : signal? spot.node = some flow) (houtcome : spot.outcome = .ok result n) :
    result.flow = flow := by
  obtain ⟨fuel, m₁, m₂, hnode⟩ := spot.node_of_outcome houtcome
  cases hspot : spot.node with
  | returnStatement argument =>
    rw [hspot] at hsignal hnode
    cases hsignal
    change (interp fuel).returned spot.site argument m₁ = _ at hnode
    cases argument with
    | none =>
      cases hnode
      rfl
    | some argument =>
      unfold Interp.returned at hnode
      rw [Run.bind_eq_ok_iff] at hnode
      obtain ⟨value, m', -, hvalue⟩ := hnode
      cases hvalue
      rfl
  | breakStatement =>
    rw [hspot] at hsignal hnode
    cases hsignal
    cases hnode
    rfl
  | continueStatement =>
    rw [hspot] at hsignal hnode
    cases hsignal
    cases hnode
    rfl
  | _ =>
    rw [hspot] at hsignal
    cases hsignal

/-- Assumes: a pass that is settled. What is left of it is no signal for a loop. -/
theorem needsLoop_of_settle {result last : Completion} {m n : Machine} {ended : Bool}
    (h : settle result m = .ok (ended, last) n) : last.flow.needsLoop = false := by
  unfold settle at h
  cases hflow : result.flow
  all_goals
    rw [hflow] at h
    cases h
  · exact congrArg Flow.needsLoop hflow
  · exact congrArg Flow.needsLoop hflow
  · rfl
  · rfl

/-- Assumes: a pass that ended. It leaves no signal for a loop. -/
theorem needsLoop_of_pass {interp : Interp} {site : Site} {body : Node} {last : Completion}
    {m n : Machine} {ended : Bool} (h : interp.pass site body m = .ok (ended, last) n) :
    last.flow.needsLoop = false := by
  rw [pass_eq, Run.bind_eq_ok_iff] at h
  obtain ⟨_, _, -, hsettle⟩ := h
  exact needsLoop_of_settle hsettle

/-- Assumes: a loop over elements that ended, and whose passes so far left no signal for a loop. The
loop leaves none. -/
theorem needsLoop_of_forElements {interp : Interp} {site : Site} {names : List String} {body : Node}
    {ref : IteratorRef} {count : Nat} :
    ∀ {last result : Completion} {m n : Machine},
      interp.forElements site names body ref count last m = .ok result n →
        last.flow.needsLoop = false → result.flow.needsLoop = false := by
  induction count with
  | zero =>
    intro last result m n h hlast
    cases h
    exact hlast
  | succ count ih =>
    intro last result m n h hlast
    rw [Interp.forElements, Run.bind_eq_ok_iff] at h
    obtain ⟨element, m₁, -, h⟩ := h
    cases element with
    | none =>
      cases h
      exact hlast
    | some element =>
      change (site.fork >>= _) m₁ = _ at h
      rw [Run.bind_eq_ok_iff] at h
      obtain ⟨inner, m₂, -, h⟩ := h
      rw [Run.bind_eq_ok_iff] at h
      obtain ⟨_, m₃, -, h⟩ := h
      rw [Run.bind_eq_ok_iff] at h
      obtain ⟨⟨ended, settled⟩, m₄, hpass, h⟩ := h
      have hsettled := needsLoop_of_pass hpass
      cases ended with
      | true =>
        cases h
        exact hsettled
      | false => exact ih h hsettled

/-- Assumes: a loop with a condition that ended, and whose passes so far left no signal for a loop.
The loop leaves none. -/
theorem needsLoop_of_whileHolds {interp : Interp} {site : Site} {condition body : Node}
    {fuel : Nat} :
    ∀ {last result : Completion} {m n : Machine},
      interp.whileHolds site condition body fuel last m = .ok result n →
        last.flow.needsLoop = false → result.flow.needsLoop = false := by
  induction fuel with
  | zero =>
    intro last result m n h _
    cases h
  | succ fuel ih =>
    intro last result m n h hlast
    rw [Interp.whileHolds, Run.bind_eq_ok_iff] at h
    obtain ⟨test, m₁, -, h⟩ := h
    rw [Run.bind_eq_ok_iff] at h
    obtain ⟨content, m₂, -, h⟩ := h
    split at h
    · rw [Run.bind_eq_ok_iff] at h
      obtain ⟨⟨ended, settled⟩, m₃, hpass, h⟩ := h
      have hsettled := needsLoop_of_pass hpass
      cases ended with
      | true =>
        cases h
        exact hsettled
      | false => exact ih h hsettled
    · cases h
      exact hlast
    · cases h

/-- Loops, as opposed to all other nodes. -/
def isLoopNode : Node → Bool
  | .forLoop .. | .whileLoop .. => true
  | _ => false

/-- Assumes: a loop that ended. It leaves no signal for a loop. -/
theorem needsLoop_of_loop {spot : Spot} {result : Completion} {n : Machine}
    (hloop : isLoopNode spot.node = true) (houtcome : spot.outcome = .ok result n) :
    result.flow.needsLoop = false := by
  obtain ⟨fuel, m₁, m₂, hnode⟩ := spot.node_of_outcome houtcome
  cases hspot : spot.node with
  | forLoop names iterable body =>
    rw [hspot] at hnode
    change (interp fuel).forLoop spot.site names iterable body m₁ = _ at hnode
    unfold Interp.forLoop at hnode
    rw [Run.bind_eq_ok_iff] at hnode
    obtain ⟨cell, _, -, hnode⟩ := hnode
    rw [Run.bind_eq_ok_iff] at hnode
    obtain ⟨iterator, _, -, hnode⟩ := hnode
    rw [Run.bind_eq_ok_iff] at hnode
    obtain ⟨content, _, -, hnode⟩ := hnode
    split at hnode
    · exact needsLoop_of_forElements hnode rfl
    · cases hnode
  | whileLoop condition body =>
    rw [hspot] at hnode
    change (interp fuel).whileLoop spot.site condition body m₁ = _ at hnode
    unfold Interp.whileLoop at hnode
    rw [Run.bind_eq_ok_iff] at hnode
    obtain ⟨inner, _, -, hnode⟩ := hnode
    exact needsLoop_of_whileHolds hnode rfl
  | _ =>
    rw [hspot] at hloop
    cases hloop

/-! ### Where signals stop -/

/-- No construct of a list is a loop. -/
def LoopFree (layers : List Layer) : Prop := ∀ layer ∈ layers, layer.isLoop = false

/-- Assumes: a return that is come to in statement position and gives a result. The whole evaluation
gives that result, and changes nothing any more but the stack traces and the log. -/
theorem Reaches.outcome_of_returned {outer inner : Spot} {layers : List Layer} {result : Completion}
    {n : Machine} (hreaches : Reaches outer layers inner) (houtcome : inner.outcome = .ok result n)
    (hflow : result.flow = .returned) :
    ∃ m', outer.outcome = .ok result m' ∧ n.Unwound m' := by
  rw [hreaches.outcome_eq]
  exact unwind_of_handed_on houtcome layers fun layer _ ↦
    Pending.resume_returned (interp layer.fuel) layer.pending hflow

/-- Assumes: a signal that is come to in statement position outside of all loops. The whole
evaluation ends with it. -/
theorem Reaches.outcome_of_signal {outer inner : Spot} {layers : List Layer} {result : Completion}
    {n : Machine} (hreaches : Reaches outer layers inner) (houtcome : inner.outcome = .ok result n)
    (hflow : result.flow ≠ .normal) (hlayers : LoopFree layers) :
    ∃ m', outer.outcome = .ok result m' ∧ n.Unwound m' := by
  rw [hreaches.outcome_eq]
  exact unwind_of_handed_on houtcome layers fun layer hlayer ↦
    Pending.resume_signal (interp layer.fuel) (hlayers layer hlayer) hflow

/-- Assumes: a loop whose pass comes to a break outside of all inner loops. The loop ends there,
normally and with an empty value. -/
theorem around_broken {loop : Layer} {after : List Layer} {act : Run Completion} {m n : Machine}
    {result : Completion} (hloop : loop.isLoop = true) (hafter : LoopFree after)
    (hact : act m = .ok result n) (hflow : result.flow = .broken) :
    ∃ m', loop.around (unwind after act) m = .ok { value := ⟨n.cells.size⟩ } m' ∧
      (n.withCell .empty).Unwound m' := by
  obtain ⟨n₁, hinner, hunwound⟩ := unwind_of_handed_on hact after fun layer hlayer ↦
    Pending.resume_signal (interp layer.fuel) (hafter layer hlayer) (by rw [hflow]; decide)
  have hresume : (unwind after act >>= loop.pending.resume (interp loop.fuel)) m =
      .ok { value := ⟨n.cells.size⟩ } (n₁.withCell .empty) := by
    rw [Run.bind_ok hinner, Pending.resume_broken (interp loop.fuel) hloop hflow,
      Run.bind_ok (newEmpty_apply n₁), hunwound.cells]
    rfl
  obtain ⟨n₂, hnote, hnoted⟩ :=
    note_apply loop.site loop.node loop.style { value := ⟨n.cells.size⟩ } (n₁.withCell .empty)
  obtain ⟨m', hwithin, hleft⟩ :=
    within_ok loop.site loop.depth ((Run.bind_ok hresume).trans hnote)
  exact ⟨m', hwithin, ((hunwound.withCell .empty).trans hnoted).trans hleft⟩

/-- Assumes: a loop whose pass comes to a continue outside of all inner loops. The loop goes on as
after a pass that ended normally with an empty value. -/
theorem around_continued {loop : Layer} {after : List Layer} {act : Run Completion} {m n : Machine}
    {result : Completion} (hloop : loop.isLoop = true) (hafter : LoopFree after)
    (hact : act m = .ok result n) (hflow : result.flow = .continued) :
    ∃ m', loop.around (unwind after act) m = loop.around (pure { value := ⟨n.cells.size⟩ }) m' ∧
      (n.withCell .empty).Unwound m' := by
  obtain ⟨n₁, hinner, hunwound⟩ := unwind_of_handed_on hact after fun layer hlayer ↦
    Pending.resume_signal (interp layer.fuel) (hafter layer hlayer) (by rw [hflow]; decide)
  refine ⟨n₁.withCell .empty, ?_, hunwound.withCell .empty⟩
  refine within_congr loop.site loop.depth (Run.bind_congr_left ?_)
  rw [Run.bind_ok hinner, Pending.resume_continued (interp loop.fuel) hloop hflow,
    Run.bind_ok (newEmpty_apply n₁), pure_bind, hunwound.cells,
    Pending.resume_normal (interp loop.fuel) loop.pending rfl]

/-- Assumes: a break that is come to in statement position, with `loop` the innermost loop around
it. That loop ends, and the constructs outside of it see a statement that ended normally. -/
theorem Reaches.outcome_of_broken {outer inner : Spot} {before after : List Layer} {loop : Layer}
    {result : Completion} {n : Machine} (hreaches : Reaches outer (before ++ loop :: after) inner)
    (hloop : loop.isLoop = true) (hafter : LoopFree after) (houtcome : inner.outcome = .ok result n)
    (hflow : result.flow = .broken) :
    ∃ m', outer.outcome = unwind before (pure { value := ⟨n.cells.size⟩ }) m' ∧
      (n.withCell .empty).Unwound m' := by
  obtain ⟨m', hends, hunwound⟩ := around_broken hloop hafter houtcome hflow
  refine ⟨m', ?_, hunwound⟩
  rw [hreaches.outcome_eq, unwind_append]
  exact unwind_congr before hends

/-- Assumes: a continue that is come to in statement position, with `loop` the innermost loop around
it. That loop goes on, as after a pass that ended normally. -/
theorem Reaches.outcome_of_continued {outer inner : Spot} {before after : List Layer} {loop : Layer}
    {result : Completion} {n : Machine} (hreaches : Reaches outer (before ++ loop :: after) inner)
    (hloop : loop.isLoop = true) (hafter : LoopFree after) (houtcome : inner.outcome = .ok result n)
    (hflow : result.flow = .continued) :
    ∃ m', outer.outcome = unwind (before ++ [loop]) (pure { value := ⟨n.cells.size⟩ }) m' ∧
      (n.withCell .empty).Unwound m' := by
  obtain ⟨m', hgoes, hunwound⟩ := around_continued hloop hafter houtcome hflow
  refine ⟨m', ?_, hunwound⟩
  rw [hreaches.outcome_eq, unwind_append, unwind_append]
  exact unwind_congr before hgoes

/-! ### Calls and programs -/

/-- The call of a function of the language comes to the evaluation of its body. -/
inductive BodyStarts (site : Site) (name : String) (preparation : Preparation) (function : CellRef)
    (args : List CellRef) (m : Machine) : Spot → Prop
  | intro {fuel : Nat} {stamp : Stamp} {closure : Closure} {inner : Site} {m₁ m₂ : Machine}
      (hclosure : m.content function = .function stamp closure)
      (hannounce : announceCall name args m = .ok () m₁)
      (hopen : openBody site name preparation function closure args m₁ = .ok inner m₂) :
    BodyStarts site name preparation function args m
      ⟨fuel, inner, .required, closure.body, m₂⟩

/-- A failure that reports a control signal out of place. -/
def IsControlFailure {α : Type} (outcome : Outcome α) : Prop :=
  ∃ (fault : Fault) (m : Machine), outcome = .error (.fault fault) m ∧ fault.kind = .invalidControl

/-- Assumes: a call that comes to its body. It is the evaluation of the body, and then closing
it. -/
theorem BodyStarts.call_eq {site : Site} {name : String} {preparation : Preparation}
    {function : CellRef} {args : List CellRef} {m : Machine} {body : Spot}
    (hstarts : BodyStarts site name preparation function args m body) :
    ∃ closure : Closure, (interp (body.fuel + 1)).call site name preparation function args m =
      (body.eval >>= closeBody site name closure) body.machine := by
  obtain @⟨fuel, stamp, closure, inner, m₁, m₂, hclosure, hannounce, hopen⟩ := hstarts
  refine ⟨closure, ?_⟩
  change (interp fuel).callValue site name preparation function args m = _
  rw [Interp.callValue_closure hclosure, Run.bind_ok hannounce, Run.bind_ok hopen]
  rfl

/-- Assumes: a call that comes to its body, and a body that ends with a return. The call gives a
copy of the value returned. -/
theorem BodyStarts.call_of_returned {site : Site} {name : String} {preparation : Preparation}
    {function : CellRef} {args : List CellRef} {m n : Machine} {body : Spot} {result : Completion}
    (hstarts : BodyStarts site name preparation function args m body)
    (houtcome : body.outcome = .ok result n) (hflow : result.flow = .returned) :
    (interp (body.fuel + 1)).call site name preparation function args m =
      .ok ⟨n.cells.size⟩ (n.withCell (n.content result.value)) := by
  obtain ⟨closure, hcall⟩ := hstarts.call_eq
  rw [hcall, Run.bind_ok houtcome]
  unfold closeBody
  rw [hflow]
  rfl

/-- Assumes: a call that comes to its body, and a body that ends with a signal for a loop. The call
fails. -/
theorem BodyStarts.call_of_needsLoop {site : Site} {name : String} {preparation : Preparation}
    {function : CellRef} {args : List CellRef} {m n : Machine} {body : Spot} {result : Completion}
    (hstarts : BodyStarts site name preparation function args m body)
    (houtcome : body.outcome = .ok result n) (hflow : result.flow.needsLoop = true) :
    IsControlFailure ((interp (body.fuel + 1)).call site name preparation function args m) := by
  obtain ⟨closure, hcall⟩ := hstarts.call_eq
  rw [hcall, Run.bind_ok houtcome]
  unfold closeBody
  rw [if_pos hflow]
  exact ⟨_, _, rfl, rfl⟩

/-- The evaluation of the statements of a source. -/
def programSpot (context : ContextRef) (statements : List Node) (m : Machine) : Spot :=
  ⟨Session.fuel, { context, frame := (m.context context).frame }, .required, .root statements, m⟩

/-- Assumes: statements of a source that end with a signal for a loop. Their evaluation fails. -/
theorem evaluateStatements_of_needsLoop {context : ContextRef} {statements : List Node}
    {m n : Machine} {result : Completion}
    (houtcome : (programSpot context statements m).outcome = .ok result n)
    (hflow : result.flow.needsLoop = true) :
    IsControlFailure (Session.evaluateStatements context statements m) := by
  unfold Session.evaluateStatements
  rw [Run.bind_ok (show (get : Run Machine) m = .ok m m from rfl)]
  change IsControlFailure
    (((programSpot context statements m).eval >>= _) (programSpot context statements m).machine)
  rw [Run.bind_ok houtcome]
  simp only [if_pos hflow]
  exact ⟨_, _, rfl, rfl⟩

/-- Assumes: an evaluation that comes to a statement in statement position, and that statement
executed without a failure. A return ends a call with a copy of its value, and nothing else happens
any more. A break ends the innermost loop around it, and a continue its current pass; all constructs
around, outer loops among them, go on as after a normal end. Outside of all loops a break or
continue makes the call or the program fail. No loop ever leaves a break or continue behind. -/
theorem signals_stop_at_their_construct {outer inner : Spot} {layers : List Layer}
    {result : Completion} {n : Machine} (hreaches : Reaches outer layers inner)
    (houtcome : inner.outcome = .ok result n) :
    (signal? inner.node = some .returned →
      ∀ (site : Site) (name : String) (preparation : Preparation) (function : CellRef)
        (args : List CellRef) (m : Machine),
        BodyStarts site name preparation function args m outer →
          ∃ m', (interp (outer.fuel + 1)).call site name preparation function args m =
              .ok ⟨n.cells.size⟩ m' ∧
            (n.withCell (n.content result.value)).Unwound m') ∧
    (∀ (before after : List Layer) (loop : Layer), layers = before ++ loop :: after →
      loop.isLoop = true → LoopFree after →
        (signal? inner.node = some .broken →
          ∃ m', outer.outcome = unwind before (pure { value := ⟨n.cells.size⟩ }) m' ∧
            (n.withCell .empty).Unwound m') ∧
        (signal? inner.node = some .continued →
          ∃ m', outer.outcome = unwind (before ++ [loop]) (pure { value := ⟨n.cells.size⟩ }) m' ∧
            (n.withCell .empty).Unwound m') ∧
        ∀ layer ∈ before ++ [loop], ∀ last : Completion, last.flow = .normal →
          layer.pending.resume (interp layer.fuel) last =
            layer.pending.goOn (interp layer.fuel) last) ∧
    (∀ flow : Flow, signal? inner.node = some flow → flow.needsLoop = true → LoopFree layers →
      (∀ (site : Site) (name : String) (preparation : Preparation) (function : CellRef)
        (args : List CellRef) (m : Machine),
        BodyStarts site name preparation function args m outer →
          IsControlFailure ((interp (outer.fuel + 1)).call site name preparation function args m)) ∧
      ∀ (context : ContextRef) (statements : List Node) (m : Machine),
        outer = programSpot context statements m →
          IsControlFailure (Session.evaluateStatements context statements m)) ∧
    ∀ (spot : Spot) (last : Completion) (m' : Machine), isLoopNode spot.node = true →
      spot.outcome = .ok last m' → last.flow.needsLoop = false := by
  refine ⟨?_, ?_, ?_, fun spot last m' ↦ needsLoop_of_loop⟩
  · intro hsignal site name preparation function args m hstarts
    have hflow := flow_of_signal hsignal houtcome
    obtain ⟨m', hbody, hunwound⟩ := hreaches.outcome_of_returned houtcome hflow
    refine ⟨_, hstarts.call_of_returned hbody hflow |>.trans ?_, hunwound.withCell _⟩
    rw [hunwound.cells, hunwound.content]
  · rintro before after loop rfl hloop hafter
    refine ⟨fun hsignal ↦ ?_, fun hsignal ↦ ?_, fun layer _ last hlast ↦ ?_⟩
    · exact hreaches.outcome_of_broken hloop hafter houtcome (flow_of_signal hsignal houtcome)
    · exact hreaches.outcome_of_continued hloop hafter houtcome (flow_of_signal hsignal houtcome)
    · exact Pending.resume_normal (interp layer.fuel) layer.pending hlast
  · intro flow hsignal hneeds hlayers
    have hflow := flow_of_signal hsignal houtcome
    have habrupt : result.flow ≠ .normal := by
      rintro hnormal
      rw [← hflow, hnormal] at hneeds
      cases hneeds
    obtain ⟨m', hbody, -⟩ := hreaches.outcome_of_signal houtcome habrupt hlayers
    rw [← hflow] at hneeds
    refine ⟨fun site name preparation function args m hstarts ↦
      hstarts.call_of_needsLoop hbody hneeds, ?_⟩
    rintro context statements m rfl
    exact evaluateStatements_of_needsLoop hbody hneeds

/-- A function that returns from inside a loop. -/
def returningClosure : Closure where
  params := []
  body := .whileLoop (.boolean true) (.block [.returnStatement none, .null])
  context := ⟨0⟩
  frame := { top := ⟨0⟩, outer := [], trace := ⟨0⟩ }

/-- A machine whose only cell holds that function. -/
def returningMachine : Machine where
  cells := #[.function ⟨0⟩ returningClosure]
  scopes := #[{}]
  traces := #[{}]
  contexts := #[{ source := "main", globals := ⟨0⟩, trace := ⟨0⟩ }]

/-- The evaluation of its body in a call from the root frame. -/
def returningSpot : Spot where
  fuel := 4
  site := { context := ⟨0⟩, frame := { top := ⟨1⟩, outer := [], trace := ⟨0⟩ } }
  mode := .required
  node := returningClosure.body
  machine := { returningMachine with scopes := #[{}, {}], traces := #[{ pending := "f" }] }

/-- The return inside the loop gives the result of the call. -/
theorem signals_stop_at_their_construct_in_loop :
    ∃ (inner : Spot) (layers : List Layer) (result : Completion) (n m' : Machine),
      BodyStarts ⟨⟨0⟩, (returningMachine.context ⟨0⟩).frame⟩ "f" .none ⟨0⟩ [] returningMachine
        returningSpot ∧
      Reaches returningSpot layers inner ∧ inner.outcome = .ok result n ∧
      signal? inner.node = some .returned ∧
      (interp 5).call ⟨⟨0⟩, (returningMachine.context ⟨0⟩).frame⟩ "f" .none ⟨0⟩ []
        returningMachine = .ok ⟨n.cells.size⟩ m' ∧
      (n.withCell (n.content result.value)).Unwound m' := by
  have hstarts : BodyStarts ⟨⟨0⟩, (returningMachine.context ⟨0⟩).frame⟩ "f" .none ⟨0⟩ []
      returningMachine returningSpot :=
    @BodyStarts.intro _ _ _ _ _ _ 4 ⟨0⟩ returningClosure _ _ _ rfl rfl rfl
  have hreaches : ∃ layers inner, Reaches returningSpot layers inner ∧
      inner.node = .returnStatement none ∧ ∃ result n, inner.outcome = .ok result n :=
    ⟨_, _, Reaches.inside rfl rfl (Opens.whileLoop rfl (WhilePass.begins rfl rfl))
      (Reaches.inside rfl rfl (@Opens.block _ _ _ [] [.null] _ _ _ _ rfl rfl) (Reaches.here _)),
      rfl, _, _, rfl⟩
  obtain ⟨layers, inner, hreaches, hnode, result, n, houtcome⟩ := hreaches
  have hsignal : signal? inner.node = some .returned := by rw [hnode]; rfl
  obtain ⟨m', hcall, hunwound⟩ :=
    (signals_stop_at_their_construct hreaches houtcome).1 hsignal _ _ _ _ _ _ hstarts
  exact ⟨inner, layers, result, n, m', hstarts, hreaches, houtcome, hsignal, hcall, hunwound⟩

end TreeScript.ControlFlow
