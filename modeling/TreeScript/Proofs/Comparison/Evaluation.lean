import TreeScript.Proofs.Comparison.Statements
import TreeScript.Proofs.Call

/-!
# Evaluation under comparison

Every expression, every node and every call, evaluated by an interpreter that respects a comparison,
compares (`evalNode`, `callContent`). The call of a closure needs less than other calls: it compares
from any two sites that may call it (`callClosure`), because its body runs in a frame of its own.

The natives that a comparison avoids are refused by `interpAvoiding`, which is the interpreter but
for these. By induction on the fuel it respects the comparison (`evaluates_interpAvoiding`). Where
nothing is avoided it is the interpreter itself (`interpAvoiding_nothing`).
-/

set_option autoImplicit false

namespace TreeScript

namespace Comparison

open Relations

variable {K : Comparison} {m : Machine} {s s' : Site} {interp : Interp}

theorem copyFields (hsites : K.Sites m s s') (ref : TableRef) (node : Node) :
    K.Same m (Interp.copyFields s ref node) (Interp.copyFields s' ref node) := by
  unfold Interp.copyFields
  dsimp only
  split
  · refine Same.bind (Same.forIn _ (fun element _ ↦ ?_) _) fun _ ↦ Same.refl_pure ()
    split
    · refine Runs.get_bind fun n n' halike ↦ ?_
      rw [halike.lookUpName, (K.sites_alike hsites).lookUpName, halike.tableOf?,
        halike.lookUpText]
      split
      · exact (steady (.copy _)).bind fun _ ↦ (steady (.setText ref _ _)).bind fun _ ↦
          Same.refl_pure _
      · exact Same.bind (raiseAt hsites _ _) fun _ ↦ Same.refl_pure _
    · exact Same.bind (raiseAt hsites _ _) fun _ ↦ Same.refl_pure _
  · exact raiseAt hsites _ _

theorem operatorValue (hsites : K.Sites m s s') (symbol : String) (fixity : Fixity) :
    K.Same m (Interp.operatorValue s symbol fixity) (Interp.operatorValue s' symbol fixity) := by
  unfold Interp.operatorValue
  refine Same.check (raiseAt hsites _ _) ?_
  exact (steady .newStamp).bind fun _ ↦ steady (.alloc _)

section Expressions

variable (hinterp : K.Evaluates interp)
include hinterp

theorem callNode (hsites : K.Sites m s s') (origin callee : Node) (args : List Node) :
    K.Same m (interp.callNode s origin callee args) (interp.callNode s' origin callee args) := by
  unfold Interp.callNode
  split
  · exact resolve hinterp hsites origin .required _
  · exact (hinterp.value hsites _ .required).bind fun function ↦
      (hinterp.values hsites args).bind fun values ↦ hinterp.call _ .none function values hsites

theorem construct (hsites : K.Sites m s s') (callee : Node) (args : List Node) :
    K.Same m (interp.construct s callee args) (interp.construct s' callee args) := by
  refine (hinterp.value hsites callee .required).bind fun function ↦
    (hinterp.values hsites args).bind fun values ↦ Runs.content_bind fun c c' hc ↦ ?_
  have hcalled (isFunction : Bool) : K.Same m
      (do
        if !isFunction then
          s.raise .construction ("Constructor call is not a function or a class: " ++ callee.code)
        let object ← Interp.argsObject function values
        interp.call s callee.code (.args object) function values)
      (do
        if !isFunction then
          s'.raise .construction ("Constructor call is not a function or a class: " ++ callee.code)
        let object ← Interp.argsObject function values
        interp.call s' callee.code (.args object) function values) := by
    refine Same.check (raiseAt hsites _ _) ?_
    exact (steady (.argsObject function values)).bind fun object ↦
      hinterp.call callee.code (.args object) function values hsites
  cases hc with
  | same =>
    split
    · exact K.traced .construction hsites (steady (.instantiate _ values))
    · exact hcalled _
  | closure => exact hcalled true

theorem operation (hsites : K.Sites m s s') (symbol : String) (fixity : Fixity)
    (operands : List Node) :
    K.Same m (interp.operation s symbol fixity operands)
      (interp.operation s' symbol fixity operands) := by
  unfold Interp.operation
  split
  · exact raiseAt hsites _ _
  · refine Same.check (raiseAt hsites _ _) ?_
    dsimp only
    split
    · rename_i first second _
      have hboth (left : CellRef) : K.Same m
          (do
            let right ← interp.value s second
            interp.applyOperator s symbol .infixOp [left, right])
          (do
            let right ← interp.value s' second
            interp.applyOperator s' symbol .infixOp [left, right]) :=
        (hinterp.value hsites second .required).bind fun right ↦
          applyOperator hinterp hsites symbol .infixOp [left, right]
      refine (hinterp.value hsites first .required).bind fun left ↦
        Runs.content_bind fun c c' hc ↦ ?_
      cases hc with
      | same =>
        split
        · split
          · exact steady (.newBoolean _)
          · exact hboth left
        · exact hboth left
      | closure => exact hboth left
    · exact (Same.mapM _ fun operand ↦ hinterp.value hsites operand _).bind fun values ↦
        applyOperator hinterp hsites symbol _ values

theorem parenthesis (hsites : K.Sites m s s') (mode : Mode) (elements : List Node) :
    K.Same m (interp.parenthesis s mode elements) (interp.parenthesis s' mode elements) := by
  unfold Interp.parenthesis
  split
  · exact hinterp.value hsites _ mode
  · exact (hinterp.values hsites elements).bind fun values ↦
      steady ((Steady.mapM values .copy).bind .newArray)

theorem arrayLiteral (hsites : K.Sites m s s') (elements : List Node) :
    K.Same m (interp.arrayLiteral s elements) (interp.arrayLiteral s' elements) := by
  refine (steady .newTable).bind fun ref ↦ (steady (.newObject ref)).bind fun result ↦
    Same.bind (Same.forIn _ (fun (element, i) _ ↦ ?_) _) fun _ ↦ Same.refl_pure result
  refine Runs.bind (forkSelf hsites result) fun n inner inner' _ hinner ↦
    (hinterp.value hinner element .required).bind fun value ↦ ?_
  exact steady ((Steady.newNumber _).bind fun _ ↦ (Steady.copy value).bind fun _ ↦
    (Steady.setEntry ref _ _).bind fun _ ↦ .pure _)

theorem extendsSource (hsites : K.Sites m s s') (node : Node) :
    K.Same m (interp.extendsSource s node) (interp.extendsSource s' node) := by
  unfold Interp.extendsSource
  split
  · exact construct hinterp hsites _ _
  · split
    · exact construct hinterp hsites _ _
    · exact construct hinterp hsites _ _
    · exact hinterp.value hsites _ .required
  · exact hinterp.value hsites _ .required

theorem extend (hsites : K.Sites m s s') (ref : TableRef) (node : Node) :
    K.Same m (interp.extend s ref node) (interp.extend s' ref node) := by
  refine Same.bind (Same.forIn _ (fun source _ ↦ ?_) _) fun _ ↦ Same.refl_pure ()
  refine (extendsSource hinterp hsites source).bind fun base ↦
    Runs.get_bind fun n n' halike ↦ ?_
  rw [halike.tableOf?]
  split
  · exact (steady (.mergeInto ref _)).bind fun _ ↦ Same.refl_pure _
  · refine Runs.get_bind fun k k' halike ↦ ?_
    rw [halike.typeName]
    exact Same.bind (raiseAt hsites _ _) fun _ ↦ Same.refl_pure _

theorem entryKey (hsites : K.Sites m s s') (node : Node) :
    K.Same m (interp.entryKey s node) (interp.entryKey s' node) := by
  unfold Interp.entryKey
  split
  · exact steady (.newString _)
  · refine (hinterp.value hsites _ .required).bind fun key ↦ ?_
    split
    · exact Same.refl_pure key
    · exact steady ((Steady.display key).bind .newString)

theorem addEntry (hsites : K.Sites m s s') (ref : TableRef) (self : CellRef) (key value : Node) :
    K.Same m (interp.addEntry s ref self key value) (interp.addEntry s' ref self key value) := by
  refine Runs.bind (forkSelf hsites self) fun n inner inner' _ hinner ↦
    (entryKey hinterp hinner key).bind fun key ↦ Runs.content_bind fun c c' hc ↦ ?_
  have hentered (key : CellRef) : K.Same n
      (do setEntry ref key (← copy (← interp.value inner value)))
      (do setEntry ref key (← copy (← interp.value inner' value))) :=
    (hinterp.value hinner value .required).bind fun value ↦
      steady ((Steady.copy value).bind fun _ ↦ .setEntry ref key _)
  dsimp only
  cases hc with
  | same =>
    split
    · split
      · exact (steady (.newString _)).bind hentered
      · exact (Same.refl_pure key).bind hentered
    · exact (Same.refl_pure key).bind hentered
  | closure => exact (Same.refl_pure key).bind hentered

theorem mapLiteral (hsites : K.Sites m s s') (entries : List (Node × Node)) :
    K.Same m (interp.mapLiteral s entries) (interp.mapLiteral s' entries) := by
  refine (steady .newTable).bind fun ref ↦ (steady (.newObject ref)).bind fun result ↦
    Same.bind (Same.forIn entries (fun (key, value) _ ↦ ?_) _) fun _ ↦
      Same.bind (Same.forIn entries (fun (key, value) _ ↦ ?_) _) fun _ ↦ ?_
  · dsimp only
    split
    · exact (extend hinterp hsites ref value).bind fun _ ↦ Same.refl_pure _
    · exact (copyFields hsites ref value).bind fun _ ↦ Same.refl_pure _
    · exact Same.refl_pure _
  · dsimp only
    split
    · exact (addEntry hinterp hsites ref result key value).bind fun _ ↦ Same.refl_pure _
    · exact Same.refl_pure _
  · split
    · refine Runs.bind (forkSelf hsites result) fun n inner inner' _ hinner ↦ ?_
      exact (hinterp.value hinner _ .required).bind fun init ↦
        (hinterp.call "$init" (.self result) init [] hinner).bind fun _ ↦ Same.refl_pure result
    · exact Same.refl_pure result

theorem expression (hsites : K.Sites m s s') (mode : Mode) (node : Node) :
    K.Same m (interp.expression s mode node) (interp.expression s' mode node) := by
  unfold Interp.expression
  split
  · exact K.traced .typeMismatch hsites (steady (.parseNumber _))
  · exact steady (.newString _)
  · exact steady (.newBoolean _)
  · exact steady .newEmpty
  · exact (K.traced .typeMismatch hsites (steady (.compile _ _))).bind fun _ ↦ steady (.alloc _)
  · exact resolve hinterp hsites _ mode _
  · exact resolve hinterp hsites _ mode _
  · exact callNode hinterp hsites _ _ _
  · exact construct hinterp hsites _ _
  · exact operation hinterp hsites _ _ _
  · exact operatorValue hsites _ _
  · exact assign hinterp hsites _ _ _
  · exact parenthesis hinterp hsites mode _
  · exact arrayLiteral hinterp hsites _
  · exact mapLiteral hinterp hsites _
  · exact declare hinterp hsites _ _ _ _ _
  · exact newFunction hsites _ _
  · exact raiseAt hsites _ _
  · exact raiseAt hsites _ _
  · exact raiseAt hsites _ _

theorem node (hsites : K.Sites m s s') (mode : Mode) (node : Node) :
    K.Same m (interp.node s mode node) (interp.node s' mode node) := by
  unfold Interp.node
  split
  · exact sequence hinterp hsites mode _
  · exact sequence hinterp hsites mode _
  · exact Runs.bind (K.fork hsites) fun _ _ _ _ hinner ↦ branches hinterp hinner _
  · exact forLoop hinterp hsites _ _ _
  · exact whileLoop hinterp hsites _ _
  · exact returned hinterp hsites _
  · exact (steady .newEmpty).bind fun _ ↦ Same.refl_pure _
  · exact (steady .newEmpty).bind fun _ ↦ Same.refl_pure _
  · exact raiseAt hsites _ _
  · exact raiseAt hsites _ _
  · exact (expression hinterp hsites mode _).bind fun _ ↦ Same.refl_pure _

end Expressions

/-- The evaluation of a node compares. -/
theorem evalNode (hinterp : K.Evaluates interp) (hsites : K.Sites m s s') (mode : Mode)
    (node : Node) : K.Same m (interp.evalNode s mode node) (interp.evalNode s' mode node) := by
  rw [Visit.evalNode_eq, Visit.evalNode_eq]
  refine K.recorded node hsites ?_
  have hquiet (s : Site) (style : Int) : Quiet (Visit.showNode s node style) :=
    .ite (.get_bind fun _ ↦ .logInfo _) .pure
  have hnoted (s : Site) (style : Int) (result : Completion) :
      Quiet (Visit.showResult s node style result) :=
    .ite (.get_bind fun _ ↦ .display_bind fun _ ↦ .logInfo _) .pure
  have hannounced : K.Runs m (fun _ _ _ ↦ True) (Visit.announce s node)
      (Visit.announce s' node) := by
    refine (K.halt node hsites).bind fun _ ↦ Runs.get_bind fun n n' _ ↦ ?_
    exact quiet_bind (hquiet _ _) (hquiet _ _) (Runs.pure fun _ _ ↦ trivial)
  refine Runs.bind hannounced fun n style style' hlater _ ↦ ?_
  refine (Comparison.node hinterp (K.sites_later hlater hsites) mode node).bind fun result ↦ ?_
  exact quiet_bind (hnoted _ _ _) (hnoted _ _ _) (Same.refl_pure result)

/-! ### Calls -/

/-- Closures called from two sites that may call them open their bodies at sites that are
compared. -/
theorem openBody (hcallers : K.Callers m s s') (name : String) (preparation : Preparation)
    (function : CellRef) (closure : Closure) (trace : TraceRef) (args : List CellRef) :
    K.Runs m K.Sites (openBody s name preparation function closure args)
      (openBody s' name preparation function (closure.retraced trace) args) := by
  have harity : K.Same m (checkArity s function closure args)
      (checkArity s' function (closure.retraced trace) args) := by
    have hretraced : checkArity s' function (closure.retraced trace) args =
        checkArity s' function closure args := rfl
    rw [hretraced]
    unfold checkArity
    split
    · exact (steady (.display function)).bind fun _ ↦ K.raise _ closure.context _ _ hcallers
    · exact Same.refl_pure ()
  refine harity.bind fun _ ↦ (steady (.mapM args .copy)).bind fun copies ↦
    Runs.get_bind_now fun n n' hlater hlike ↦ ?_
  have hscope : (closure.retraced trace).bodyScope n' preparation copies =
      closure.bodyScope n preparation copies := by
    unfold Closure.bodyScope
    rw [(K.alike hlike).scope, (K.alike hlike).context, (K.alike hlike).snapshot]
    rfl
  rw [hscope]
  have hnames : ∀ name, (n.global? closure.context name).isSome →
      (closure.bodyScope n preparation copies).contains name :=
    fun _ ↦ closure.contains_bodyScope preparation copies
  replace hcallers := K.callers_later hlater hcallers
  refine Runs.bind (K.openFrame hcallers hnames) fun k frame frame' hlater' hinner ↦ ?_
  let enter (trace : StackTrace) : StackTrace := { trace with pending := name }
  have hentered := (K.retrace enter hcallers fun _ ↦ rfl).mono hlater'
  exact Same.bind hentered fun _ ↦ Runs.pure fun _ hlater'' ↦ K.sites_later hlater'' hinner

/-- A call gives a copy of what the body gave, from whatever sites it was made. -/
theorem closeBody (hcallers : K.Callers m s s') (name : String) (closure : Closure)
    (trace : TraceRef) (result : Completion) :
    K.Same m (closeBody s name closure result)
      (closeBody s' name (closure.retraced trace) result) := by
  unfold TreeScript.closeBody
  refine Same.check (K.raise _ closure.context _ _ hcallers) ?_
  exact steady (.copy result.value)

/-- Closures compare when they are called from any two sites that may call them. -/
theorem callClosure (hinterp : K.Evaluates interp) (hcallers : K.Callers m s s') (name : String)
    (preparation : Preparation) (function : CellRef) (closure : Closure) (trace : TraceRef)
    (args : List CellRef) :
    K.Same m (interp.callClosure s name preparation function closure args)
      (interp.callClosure s' name preparation function (closure.retraced trace) args) := by
  rw [Interp.callClosure_eq, Interp.callClosure_eq]
  refine Runs.bind (openBody hcallers name preparation function closure trace args)
    fun n inner inner' hlater hinner ↦ ?_
  refine (hinterp.eval .required closure.body hinner).bind fun result ↦ ?_
  exact (closeBody hcallers name closure trace result).mono hlater

end Comparison

/-- Whether a content is one of some natives. -/
def Content.isAmong (natives : Native → Bool) : Content → Bool
  | .native _ called => natives called
  | _ => false

namespace Interp

/-- Calls a function unless it is one of the natives to be avoided, which end the run for good. -/
def callAvoiding (avoided : Native → Bool) (interp : Interp) (site : Site) (name : String)
    (preparation : Preparation) (function : CellRef) (args : List CellRef) : Run CellRef := do
  let content ← content function
  if content.isAmong avoided then throw .outOfFuel
  else interp.callContent site name preparation function args content

end Interp

/-- The interpreter with a given fuel, which does not call the natives to be avoided. -/
def interpAvoiding (avoided : Native → Bool) : Nat → Interp
  | 0 => interp 0
  | n + 1 =>
    { eval := fun site mode node => (interpAvoiding avoided n).evalNode site mode node
      call := fun site name preparation function args =>
        (interpAvoiding avoided n).callAvoiding avoided site name preparation function args
      fuel := n }

/-- Where no native is avoided, a call is a call. -/
theorem Interp.callAvoiding_nothing (interp : Interp) :
    interp.callAvoiding (fun _ ↦ false) = interp.callValue := by
  funext site name preparation function args
  rw [callValue_eq]
  refine bind_congr fun content ↦ ?_
  cases content <;> rfl

/-- Assumes: a callee that holds a closure. Avoiding natives does not concern its call as such. -/
theorem Interp.callAvoiding_closure (interp : Interp) (avoided : Native → Bool) (site : Site)
    (name : String) (preparation : Preparation) {function : CellRef} (args : List CellRef)
    {stamp : Stamp} {closure : Closure} {m : Machine}
    (hclosure : m.content function = .function stamp closure) :
    interp.callAvoiding avoided site name preparation function args m =
      interp.callValue site name preparation function args m := by
  have hcontent : content function m = .ok (.function stamp closure) m := by
    rw [← hclosure]
    rfl
  unfold callAvoiding
  rw [callValue_eq, Run.bind_ok hcontent, Run.bind_ok hcontent]
  rfl

/-- Where no native is avoided, the interpreter is what it is. -/
theorem interpAvoiding_nothing (n : Nat) : interpAvoiding (fun _ ↦ false) n = interp n := by
  induction n with
  | zero => rfl
  | succ n ih =>
    unfold interpAvoiding
    rw [ih, Interp.callAvoiding_nothing]
    rfl

namespace Comparison

open Relations

variable {K : Comparison} {m : Machine} {s s' : Site} {interp : Interp}

theorem announceCall (name : String) (args : List CellRef) : Quiet (announceCall name args) :=
  .get_bind fun _ ↦ .ite (.get_bind fun _ ↦ .logInfo _) .pure

/-- A call compares, unless it is the call of a native that is avoided. -/
theorem callContent (hinterp : K.Evaluates interp) (hsites : K.Sites m s s') (name : String)
    (preparation : Preparation) (function : CellRef) (args : List CellRef) {c c' : Content}
    (hcontent : c.Alike c') (havoided : c.isAmong K.avoided = false) :
    K.Same m (interp.callContent s name preparation function args c)
      (interp.callContent s' name preparation function args c') := by
  have hcalled : K.Same m (interp.callFunction s name preparation function args c)
      (interp.callFunction s' name preparation function args c') := by
    refine quiet_bind (announceCall name args) (announceCall name args) ?_
    refine Runs.bind (hinterp.callFrom hsites) fun n call call' hlater hcall ↦ ?_
    replace hsites := K.sites_later hlater hsites
    cases hcontent with
    | same =>
      split
      · rename_i closure
        exact callClosure hinterp (K.callers hsites) name preparation function closure
          closure.frame.trace args
      · exact K.traced .native hsites (native hinterp hsites hcall _ havoided args)
      · exact K.traced .native hsites (method hcall _ _ args)
      · exact K.traced .native hsites (hostMethod hcall _ _ args)
      · exact steady .newEmpty
    | closure stamp closure trace =>
      exact callClosure hinterp (K.callers hsites) name preparation function closure trace args
  unfold Interp.callContent
  rw [hcontent.isFunction]
  split
  · refine (steady (.display function)).bind fun _ ↦ Same.bind (raiseAt hsites _ _) fun _ ↦ ?_
    exact hcalled
  · exact hcalled

/-- Assumes: a callee that holds a closure. Its call, made on one machine from two sites that may
call it, compares. -/
theorem callValue_closure (hinterp : K.Evaluates interp) (hcallers : K.Callers m s s')
    (hlike : K.Like m m) (name : String) (preparation : Preparation) {function : CellRef}
    (args : List CellRef) {stamp : Stamp} {closure : Closure}
    (hclosure : m.content function = .function stamp closure) :
    K.Ends (fun _ ↦ Eq) m (interp.callValue s name preparation function args m)
      (interp.callValue s' name preparation function args m) := by
  rw [Interp.callValue_closure hclosure, Interp.callValue_closure hclosure]
  simp only [← Interp.callClosure_eq]
  refine Runs.now ?_ hlike
  refine quiet_bind (announceCall name args) (announceCall name args) ?_
  exact callClosure hinterp hcallers name preparation function closure closure.frame.trace args

/-- Fuel by fuel, the interpreter that avoids what a comparison avoids respects it. -/
theorem evaluates_interpAvoiding (n : Nat) : K.Evaluates (interpAvoiding K.avoided n) := by
  induction n with
  | zero => exact ⟨fun _ _ _ ↦ Runs.throw .outOfFuel, fun _ _ _ _ _ ↦ Runs.throw .outOfFuel⟩
  | succ n ih =>
    refine ⟨fun mode node hsites ↦ evalNode ih hsites mode node,
      fun name preparation function args hsites ↦ ?_⟩
    refine Runs.content_bind fun c c' hcontent ↦ ?_
    have hamong : c'.isAmong K.avoided = c.isAmong K.avoided := by cases hcontent <;> rfl
    rw [hamong]
    split
    · exact Runs.throw .outOfFuel
    · exact callContent ih hsites name preparation function args hcontent
        (Bool.not_eq_true _ ▸ ‹_›)

end Comparison

end TreeScript
