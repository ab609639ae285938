import TreeScript.Proofs.Callees
import TreeScript.Proofs.LexicalScope

/-!
# The two spellings of a call

A call is a node of its own, or the last step of an access chain. Where the callee is a chain of two
or more steps, the node resolves that very chain. Any other callee is evaluated on its own by the
node, and is the head of the chain otherwise. It leads to the same cell in both, which is called in
the same way, but that a chain binds `self` to a head that is an object when it is come to. Since
objects cannot be called, this matters only where the arguments overwrite the head with a function
of the language (`Interp.TurnsIntoFunction`). In all other cases the two spellings go together
(`calls_are_spelled_alike`).
-/

set_option autoImplicit false

namespace TreeScript

namespace Chain

variable {chain : Chain} {site : Site} {callee : Node} {m m' : Machine}

/-- What a chain prepares for the call of a value that it has come to at once: an object is bound to
`self`, whether or not it can be called. -/
def receiver (m : Machine) (cell : CellRef) : Preparation :=
  if m.kind cell = .object then .self cell else .none

/-- A chain that has come to a value takes a call as its last step by calling that value, with
`self` bound to it if it is an object. -/
theorem advance_call (interp : Interp) (callee : Node) (args : List Node) {r : Resolution}
    {cell : CellRef} (hvalue : r.value = some cell) (hself : r.self = none) (k : Machine) :
    (do
      let r ← chain.advance interp 1 true callee (.call args) r
      chain.resolveSteps interp 2 (.call args) [] r) k =
    (do
      let values ← interp.values chain.site args
      let result ← interp.call chain.site callee.code (receiver k cell) cell values
      logStep 1 (Node.call args).code "function call"
      return result) k := by
  obtain ⟨context, frame, module, value, self⟩ := r
  cases hvalue
  cases hself
  have hremember : remember k { context, frame, module, value := some cell } =
      { context, frame, module, value := some cell,
        self := if k.kind cell = Kind.object then some cell else none } := by
    unfold remember
    by_cases hobject : k.kind cell = Kind.object <;> simp [hobject]
  have hpreparation : ((if k.kind cell = Kind.object then some cell else none).map
      Preparation.self).getD .none = receiver k cell := by
    unfold receiver
    split <;> rfl
  unfold advance
  rw [bind_assoc, Run.get_bind, hremember]
  unfold takeStep resolveStep
  dsimp only
  rw [hpreparation]
  simp only [bind_assoc, pure_bind]
  rfl

end Chain

namespace Interp

variable {n : Nat} {site : Site} {callee : Node} {args : List Node} {m m' : Machine}

/-- What is prepared for the call of a value that is no function of the language does not matter. -/
theorem call_ignores_preparation (n : Nat) (site : Site) (name : String)
    (preparation preparation' : Preparation) {function : CellRef} (args : List CellRef)
    (hother : ∀ stamp closure, m.content function ≠ .function stamp closure) :
    (interp n).call site name preparation function args m =
      (interp n).call site name preparation' function args m := by
  cases n with
  | zero => rfl
  | succ n =>
    have hcontent : content function m = .ok (m.content function) m := rfl
    change (interp n).callValue site name preparation function args m =
      (interp n).callValue site name preparation' function args m
    rw [callValue_eq, callValue_eq, Run.bind_ok hcontent, Run.bind_ok hcontent]
    unfold callContent callFunction
    cases hheld : m.content function with
    | function stamp closure => exact absurd hheld (hother stamp closure)
    | _ => rfl

/-- A callee is an object when it is come to, and a function of the language when its arguments have
been evaluated. -/
def TurnsIntoFunction (interp : Interp) (site : Site) (callee : Node) (args : List Node)
    (m : Machine) : Prop :=
  ∃ function found values evaluated stamp closure,
    interp.value site callee .required m = .ok function found ∧
    found.kind function = .object ∧
    interp.values site args found = .ok values evaluated ∧
    evaluated.content function = .function stamp closure

theorem values_twins (n : Nat) (site : Site) (nodes : List Node) (htwin : m.Twin m') :
    Outcome.Together ((interp n).values site nodes m) ((interp n).values site nodes m') := by
  have hsites : site.Alike site := .retraced site.frame.trace
  have hsame := (evaluates_twins n).values (m := m) hsites nodes
  exact .of_ends (hsame.now ⟨htwin, trivial⟩)

theorem call_twins (n : Nat) (site : Site) (name : String) (preparation : Preparation)
    (function : CellRef) (args : List CellRef) (htwin : m.Twin m') :
    Outcome.Together ((interp n).call site name preparation function args m)
      ((interp n).call site name preparation function args m') := by
  have hsites : site.Alike site := .retraced site.frame.trace
  have hsame := (evaluates_twins n).call (m := m) name preparation function args hsites
  exact .of_ends (hsame.now ⟨htwin, trivial⟩)

/-- Whether a callee turns into a function is the same on twins. -/
theorem TurnsIntoFunction.of_twin (h : (interp n).TurnsIntoFunction site callee args m')
    (htwin : m.Twin m') : (interp n).TurnsIntoFunction site callee args m := by
  obtain ⟨function, found', values, evaluated', stamp, closure, hvalue', hobject, hvalues',
    hclosure⟩ := h
  rcases (value_twins n site callee htwin).cases with
    ⟨cell, found, k, hvalue, hk, htwin⟩ | ⟨-, hnone⟩
  · cases hvalue'.symm.trans hk
    rcases (values_twins n site args htwin).cases with
      ⟨cells, evaluated, l, hvalues, hl, htwin'⟩ | ⟨-, hnone⟩
    · cases hvalues'.symm.trans hl
      have hheld := htwin'.content function
      rw [hclosure] at hheld
      have hkind : found.kind function = .object := by rw [← htwin.toAlike.kind]; exact hobject
      cases hheld' : evaluated.content function with
      | function stamp' closure' =>
        exact ⟨function, found, values, evaluated, stamp', closure', hvalue, hkind, hvalues, hheld'⟩
      | _ =>
        rw [hheld'] at hheld
        cases hheld
    · rw [hvalues'] at hnone
      cases hnone
  · rw [hvalue'] at hnone
    cases hnone

/-- Assumes: a cell that, if it holds an object, holds no function of the language by the time the
arguments have been evaluated. Calling it on its own and at the end of a chain goes together. -/
theorem call_together {function : CellRef} (name key : String) (htwin : m.Twin m')
    (hstays : m.kind function = .object → ∀ values evaluated stamp closure,
      (interp n).values site args m = .ok values evaluated →
        evaluated.content function ≠ .function stamp closure) :
    Outcome.Together
      ((do
        let values ← (interp n).values site args
        (interp n).call site name .none function values) m)
      ((do
        let values ← (interp n).values site args
        let result ← (interp n).call site name (Chain.receiver m' function) function values
        logStep 1 key "function call"
        return result) m') := by
  refine (values_twins n site args htwin).bind fun values k k' hvalues htwin' ↦ ?_
  have hprepared : (interp n).call site name .none function values k =
      (interp n).call site name (Chain.receiver m' function) function values k := by
    unfold Chain.receiver
    split
    · rename_i hobject
      rw [htwin.toAlike.kind] at hobject
      exact call_ignores_preparation n site name _ _ values fun stamp closure ↦
        hstays hobject values k stamp closure hvalues
    · rfl
  rw [hprepared]
  rcases (call_twins n site name (Chain.receiver m' function) function values htwin').cases with
    ⟨cell, l, l', hcall, hcall', htwin⟩ | ⟨hcall, hcall'⟩
  · obtain ⟨last, hlog, hlast⟩ := logStep_apply 1 key "function call" l'
    rw [hcall, Run.bind_ok hcall', Run.bind_ok hlog]
    exact .ok cell (htwin.unwound_right hlast)
  · exact .error hcall (Run.value?_bind_eq_none hcall')

/-- A call that stands alone has no value. -/
theorem value_call_eq_none (n : Nat) (site : Site) (args : List Node) (m : Machine) :
    Outcome.value? ((interp n).value site (.call args) .required m) = none := by
  refine Run.value?_bind_eq_none ?_
  cases n with
  | zero => rfl
  | succ n =>
    change Outcome.value? ((interp n).evalNode site .required (.call args) m) = none
    cases heval : (interp n).evalNode site .required (.call args) m with
    | ok result last =>
      obtain ⟨k, l, hnode⟩ := Visit.evalNode_eq_ok heval
      have hfails : (interp n).node site .required (.call args) k = .error _ k := rfl
      rw [hfails] at hnode
      cases hnode
    | error => rfl

/-- Without fuel nothing is called, and without a value there is nothing to call. -/
theorem advance_call_eq_none (chain : Chain) (isFinal : Bool) (args : List Node) {r : Resolution}
    (h : n = 0 ∨ r.value = none) (k : Machine) :
    Outcome.value? (chain.advance (interp n) 1 isFinal callee (.call args) r k) = none := by
  change Outcome.value? (chain.takeStep (interp n) 1 isFinal callee (.call args)
    (Chain.remember k r) k) = none
  rcases chain.takeStep_cases (interp n) 1 isFinal callee (.call args) (Chain.remember k r) with
    ⟨value, hvalue, hstep⟩ | ⟨name, _, hname, _⟩ | ⟨_, _, hstep⟩
  · rw [Chain.value_remember] at hvalue
    rw [hstep]
    rcases h with rfl | hnone
    · unfold Chain.resolveStep
      dsimp only
      cases hvalues : (interp 0).values chain.site args k with
      | ok values l =>
        rw [Run.bind_ok hvalues]
        rfl
      | error e l =>
        rw [Run.bind_error hvalues]
        rfl
    · rw [hnone] at hvalue
      cases hvalue
  · cases hname
  · rw [hstep]
    exact Run.value?_bind_eq_none (value_call_eq_none n chain.site args k)

/-- Assumes: no debugger, and a callee that does not turn into a function. Its call on its own goes
together with the chain of the callee and the call. -/
theorem callNode_together (n : Nat) (site : Site) (origin : Node)
    (hdebugger : m.options.debugger = none) (htwin : m.Twin m')
    (hstays : ¬(interp (n + 1)).TurnsIntoFunction site callee args m) :
    Outcome.Together
      ((do
        let function ← (interp (n + 1)).value site callee
        let values ← (interp (n + 1)).values site args
        (interp (n + 1)).call site callee.code .none function values) m)
      (resolve (interp (n + 1)) site origin .required [callee, .call args] m') := by
  obtain ⟨k', hk', hresolve⟩ :=
    Chain.resolve_apply (interp (n + 1)) site origin .required callee [.call args] m'
  rw [hresolve]
  let chain : Chain := { origin, site, mode := .required }
  change Outcome.Together _ ((do
    let r ← chain.advance (interp (n + 1)) 0 false origin callee chain.start
    chain.resolveSteps (interp (n + 1)) 1 callee [.call args] r) k')
  rcases (chain.reaches_callee n rfl origin callee hdebugger (htwin.unwound_right hk')).cases with
    ⟨function, r, found, found', hvalue, hstep, hcell, hself, htwin⟩ | ⟨hvalue, hnone⟩
  · rw [Run.bind_ok hvalue, Run.bind_ok hstep, Chain.resolveSteps_cons]
    have hcalled := chain.advance_call (interp (n + 1)) callee args hcell hself found'
    rw [List.isEmpty_nil, hcalled]
    refine call_together callee.code _ htwin fun hobject values evaluated stamp closure hvalues ↦ ?_
    exact fun hclosure ↦ hstays
      ⟨function, found, values, evaluated, stamp, closure, hvalue, hobject, hvalues, hclosure⟩
  · refine .error (Run.value?_bind_eq_none hvalue) ?_
    cases hstep : chain.advance (interp (n + 1)) 0 false origin callee chain.start k' with
    | ok r found =>
      rw [Run.bind_ok hstep, Chain.resolveSteps_cons]
      exact Run.value?_bind_eq_none
        (advance_call_eq_none chain _ args (.inr (hnone r found hstep)) found)
    | error e found =>
      rw [Run.bind_error hstep]
      rfl

/-- Without fuel nothing is called, whether on its own or at the end of a chain. -/
theorem resolve_call_eq_none (site : Site) (origin callee : Node) (args : List Node) (m : Machine) :
    Outcome.value? (resolve (interp 0) site origin .required [callee, .call args] m) = none := by
  obtain ⟨k, -, hresolve⟩ :=
    Chain.resolve_apply (interp 0) site origin .required callee [.call args] m
  rw [hresolve]
  dsimp only
  cases hstep : Chain.advance ⟨origin, site, .required⟩ (interp 0) 0 [Node.call args].isEmpty origin
      callee (Chain.start ⟨origin, site, .required⟩) k with
  | ok r found =>
    rw [Run.bind_ok hstep, Chain.resolveSteps_cons]
    exact Run.value?_bind_eq_none (advance_call_eq_none _ _ args (.inl rfl) found)
  | error e found =>
    rw [Run.bind_error hstep]
    rfl

/-- On twins, a chain leads to the same whatever node it comes from. -/
theorem resolve_together (n : Nat) (site : Site) (origin origin' : Node) (mode : Mode) (step : Node)
    (steps : List Node) (htwin : m.Twin m') :
    Outcome.Together (resolve (interp n) site origin mode (step :: steps) m)
      (resolve (interp n) site origin' mode (step :: steps) m') := by
  obtain ⟨k, hk, hresolve⟩ := Chain.resolve_apply (interp n) site origin mode step steps m
  obtain ⟨k', hk', hresolve'⟩ := Chain.resolve_apply (interp n) site origin' mode step steps m'
  let chain : Chain := { origin, site, mode }
  let r : Resolution := { context := site.context, frame := site.frame }
  have hchain : Tracking.nothing.comparison.Chains k chain chain :=
    .at site (.retraced site.frame.trace)
  have hstart : Tracking.nothing.comparison.Resolutions k r r :=
    .at site.frame (.retraced site.frame.trace)
  have hends := (Comparison.resolveSteps (evaluates_twins n) (step :: steps) 0 origin hchain
    hstart).now ⟨(htwin.unwound_left hk).unwound_right hk', trivial⟩
  rw [Chain.resolveSteps_cons] at hends
  rw [hresolve, hresolve']
  have hadvance := chain.advance_agree origin' (interp n) 0 steps.isEmpty origin step chain.start
  rw [(chain.comingFrom origin').advance_first (interp n) 0 steps.isEmpty origin origin' step rfl]
    at hadvance
  exact (Outcome.Together.of_ends hends).agree
    (hadvance.bind fun r ↦ chain.resolveSteps_agree origin' (interp n) steps 1 step r)

end Interp

/-! ### Both spellings -/

/-- The steps that a callee has in a chain: its own if it is a chain of two or more, or else just
the callee. -/
def Node.calleeSteps : Node → List Node
  | .access (first :: second :: rest) => first :: second :: rest
  | callee => [callee]

/-- A callee is a chain of two or more steps, or else it is evaluated on its own. -/
theorem Node.calleeSteps_cases (callee : Node) :
    (∃ first second rest, callee = .access (first :: second :: rest)) ∨
      callee.calleeSteps = [callee] ∧ ∀ (interp : Interp) (site : Site) (origin : Node)
        (args : List Node), interp.callNode site origin callee args = (do
          let function ← interp.value site callee
          let values ← interp.values site args
          interp.call site callee.code .none function values) := by
  cases callee with
  | access steps =>
    rcases steps with _ | ⟨first, _ | ⟨second, rest⟩⟩
    · exact .inr ⟨rfl, fun _ _ _ _ ↦ rfl⟩
    · exact .inr ⟨rfl, fun _ _ _ _ ↦ rfl⟩
    · exact .inl ⟨first, second, rest, rfl⟩
  | _ => exact .inr ⟨rfl, fun _ _ _ _ ↦ rfl⟩

/-- Assumes: no debugger, and a callee that is a chain of two or more steps, or else does not turn
into a function. The call of the callee on its own and the chain of the steps of the callee and the
call both give the same value and do the same to all cells and scopes, or both fail. -/
theorem calls_are_spelled_alike (n : Nat) (site : Site) (mode : Mode) (callee : Node)
    (args : List Node) {m : Machine} (hdebugger : m.options.debugger = none)
    (hstays : callee.calleeSteps = [callee] →
      ¬(interp n).TurnsIntoFunction site callee args m) :
    Outcome.Together ((interp (n + 1)).eval site mode (.functionCall callee args) m)
      ((interp (n + 1)).eval site .required (.access (callee.calleeSteps ++ [.call args])) m) := by
  have heval (mode : Mode) (node : Node) :
      (interp (n + 1)).eval site mode node = (interp n).evalNode site mode node := rfl
  rw [heval, heval]
  refine Outcome.Together.evalNode hdebugger fun k k' hk htwin ↦ ?_
  have hsteps : Outcome.Together
      ((interp n).callNode site (.functionCall callee args) callee args k)
      (resolve (interp n) site (.access (callee.calleeSteps ++ [.call args])) .required
        (callee.calleeSteps ++ [.call args]) k') := by
    rcases callee.calleeSteps_cases with ⟨first, second, rest, rfl⟩ | ⟨halone, hcallee⟩
    · have hchained : (Node.access (first :: second :: rest)).calleeSteps ++ [.call args] =
          first :: (second :: rest ++ [.call args]) := rfl
      have hcallee (origin : Node) : (interp n).callNode site origin
          (.access (first :: second :: rest)) args = resolve (interp n) site origin .required
            (first :: (second :: rest ++ [.call args])) := rfl
      rw [hchained, hcallee]
      exact Interp.resolve_together n site _ _ .required first _ htwin
    · rw [hcallee, halone]
      cases n with
      | zero =>
        have hvalue : Outcome.value? ((interp 0).value site callee .required k) = none := rfl
        exact .error (Run.value?_bind_eq_none hvalue)
          (Interp.resolve_call_eq_none site _ callee args k')
      | succ n =>
        refine Interp.callNode_together n site _ (by rw [hk.options]; exact hdebugger) htwin ?_
        exact fun hturns ↦ hstays halone (hturns.of_twin ((Machine.Twin.refl m).unwound_right hk))
  have hcall : (interp n).node site mode (.functionCall callee args) = (do
      return { value := ← (interp n).callNode site (.functionCall callee args) callee args }) := rfl
  have hchain (steps : List Node) : (interp n).node site .required (.access steps) = (do
      return { value := ← resolve (interp n) site (.access steps) .required steps }) := rfl
  rw [hcall, hchain]
  exact hsteps.bind fun cell l l' _ htwin ↦ .ok _ htwin

/-- A machine with the function `f` that gives the value of `x`. -/
def readingByName : Machine where
  cells := #[.function ⟨0⟩ readingClosure, .boolean true]
  scopes := #[(Std.TreeMap.insert {} "x" ⟨1⟩ : Scope).insert "f" ⟨0⟩]
  traces := #[{}]
  contexts := #[{ source := "main", globals := ⟨0⟩, trace := ⟨0⟩ }]

/-- The function is called by its name in both ways, and gives the value of `x`. -/
theorem reading_call_is_spelled_alike :
    let site : Site := ⟨⟨0⟩, { top := ⟨0⟩, outer := [], trace := ⟨0⟩ }⟩
    readingByName.options.debugger = none ∧
      ¬(interp 5).TurnsIntoFunction site (.identifier "f") [] readingByName ∧
      Outcome.Together
        ((interp 6).eval site .required (.functionCall (.identifier "f") []) readingByName)
        ((interp 6).eval site .required (.access [.identifier "f", .call []]) readingByName) ∧
      (match (interp 6).eval site .required (.access [.identifier "f", .call []]) readingByName with
        | .ok result m => m.isTrue result.value
        | .error .. => false) = true := by
  intro site
  have hstays : ¬(interp 5).TurnsIntoFunction site (.identifier "f") [] readingByName := by
    rintro ⟨function, found, -, -, -, -, hvalue, hobject, -⟩
    obtain ⟨k, hvalue', hk⟩ := Interp.value_variable 4 (nofun : Mode.required ≠ .createNew) rfl
      (rfl : readingByName.visible? site "f" = some ⟨0⟩)
    cases hvalue.symm.trans hvalue'
    unfold Machine.kind at hobject
    rw [hk.content] at hobject
    cases hobject
  refine ⟨rfl, hstays, ?_, by decide +kernel⟩
  exact calls_are_spelled_alike 5 site .required (.identifier "f") [] rfl fun _ ↦ hstays

end TreeScript
