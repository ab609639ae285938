import TreeScript.Proofs.Tandem.Natives

/-!
# Evaluation in tandem

The rule for every node and the rule for every call run in tandem over two interpreters with the
same fuel (`evalNode`, `callContent`). The call of a function of the language does so where its body
is one that may be entered. What an interpreter is asked for, a node or a call, is a `Task`, and
where all bodies may be entered, the rules for all tasks run in tandem (`Tandem.rule`).
-/

set_option autoImplicit false

namespace TreeScript

theorem Plain.argsObject (callee : CellRef) (args : List CellRef) :
    Plain (Interp.argsObject callee args) := by
  refine (Plain.content callee).bind fun c ↦ ?_
  split
  · refine Plain.newTable.bind fun ref ↦ Plain.bind (.forIn _ (fun _ _ ↦ ?_) _) fun _ ↦
      .newObject ref
    exact (Plain.setText ref _ _).bind fun _ ↦ .pure _
  · exact .newArray args

namespace Tandem

variable {enters : Node → Prop} {I J : Interp} {realm : Realm}

/-! ### Statements -/

theorem sequenceFrom (site : Site) (mode : Mode) (nodes : List Node) : ∀ last : Completion,
    Tandem enters I J realm (I.sequenceFrom site mode last nodes)
      (J.sequenceFrom site mode last nodes) := by
  induction nodes with
  | nil => exact fun last ↦ pure last
  | cons node nodes ih =>
    exact fun last ↦ (eval site mode node).bind fun result ↦ ite (ih result) (pure result)

theorem sequence (site : Site) (mode : Mode) (nodes : List Node) :
    Tandem enters I J realm (I.sequence site mode nodes) (J.sequence site mode nodes) :=
  (plain .newEmpty).bind fun _ ↦ sequenceFrom site mode nodes _

theorem branches (site : Site) (list : List (Option Node × Node)) :
    Tandem enters I J realm (I.branches site list) (J.branches site list) := by
  induction list with
  | nil => exact (plain .newEmpty).bind fun _ ↦ pure _
  | cons branch rest ih =>
    obtain ⟨condition, body⟩ := branch
    cases condition with
    | none => exact eval site .required body
    | some condition =>
      exact (value site condition .required).bind fun test ↦ (plain (.isTrue test)).bind
        fun holds ↦ ite (eval site .required body) ih

theorem returned (site : Site) (argument : Option Node) :
    Tandem enters I J realm (I.returned site argument) (J.returned site argument) := by
  cases argument with
  | none => exact (plain .newEmpty).bind fun _ ↦ pure _
  | some node => exact (value site node .required).bind fun _ ↦ pure _

theorem pass (site : Site) (body : Node) :
    Tandem enters I J realm (I.pass site body) (J.pass site body) := by
  refine (eval site .required body).bind fun result ↦ ?_
  split
  · exact pure _
  · exact pure _
  · exact (plain .newEmpty).bind fun _ ↦ pure _
  · exact (plain .newEmpty).bind fun _ ↦ pure _

theorem bindElement (names : List String) (element : CellRef) (frame : Frame) :
    Tandem enters I J .native (Interp.bindElement names element frame)
      (Interp.bindElement names element frame) := by
  have hput (name : String) (cell : CellRef) : Tandem enters I J .native
      (do frame.putOnTop name (← copy cell)) (do frame.putOnTop name (← copy cell)) :=
    (steady (.copy cell)).bind fun cell ↦ plain (.putOnTop frame name cell)
  refine get_bind fun n ↦ ?_
  dsimp only
  split
  · refine ite ?_ ?_
    · refine bind (forIn _ (fun (name, item) _ ↦ ?_) _) fun _ ↦ pure ()
      exact (steady (.copy item)).bind fun cell ↦ (plain (.putOnTop frame name cell)).bind fun _ ↦
        pure _
    · split
      · exact hput _ _
      · exact fail _
  · split
    · exact hput _ _
    · exact fail _

theorem loopElements (site : Site) (names : List String) (body : Node) (ref : IteratorRef)
    (count : Nat) : ∀ last : Completion,
    Tandem enters I J realm (I.forElements site names body ref count last)
      (J.forElements site names body ref count last) := by
  induction count with
  | zero => exact fun last ↦ pure last
  | succ count ih =>
    intro last
    refine (plain (.next? ref)).bind fun found ↦ ?_
    cases found with
    | none => exact pure last
    | some element =>
      exact (plain (.fork site)).bind fun inner ↦
        (traced site .invalidControl (bindElement names element inner.frame)).bind fun _ ↦
          (pass inner body).bind fun (ended, result) ↦ ite (pure result) (ih result)

theorem forLoop (site : Site) (names : List String) (iterable body : Node) :
    Tandem enters I J realm (I.forLoop site names iterable body)
      (J.forLoop site names iterable body) := by
  refine (value site iterable .required).bind fun cell ↦
    (traced site .invalidControl (steady (.makeIterator cell))).bind fun iterator ↦
      (plain (.content iterator)).bind fun c ↦ ?_
  split
  · exact get_bind fun n ↦ (plain .newEmpty).bind fun _ ↦ loopElements site names body _ _ _
  · exact raise site _ _

theorem whileHolds (site : Site) (condition body : Node) (fuel : Nat) : ∀ last : Completion,
    Tandem enters I J realm (I.whileHolds site condition body fuel last)
      (J.whileHolds site condition body fuel last) := by
  induction fuel with
  | zero => exact fun last ↦ throw trivial
  | succ fuel ih =>
    intro last
    refine (value site condition .required).bind fun test ↦ (plain (.content test)).bind
      fun c ↦ ?_
    split
    · exact (pass site body).bind fun (ended, result) ↦ ite (pure result) (ih result)
    · exact pure last
    · exact (plain (.display test)).bind fun shown ↦ raise site _ _

theorem newFunction (site : Site) (params : List String) (body : Node) :
    Tandem enters I J realm (TreeScript.newFunction site params body)
      (TreeScript.newFunction site params body) :=
  (plain .newStamp).bind fun _ ↦ plain (.alloc _)

theorem declaredNative (site : Site) (name : String) :
    Tandem enters I J realm (TreeScript.declaredNative site name)
      (TreeScript.declaredNative site name) := by
  unfold TreeScript.declaredNative
  refine check (raise site _ _) (get_bind fun n ↦ get_bind fun k ↦ ?_)
  split
  · exact (plain .newStamp).bind fun _ ↦ plain (.alloc _)
  · exact raise site _ _

theorem declare (site : Site) (origin : Node) (name : String) (params : List String)
    (body : Option Node) (native : Bool) :
    Tandem enters I J realm (I.declare site origin name params body native)
      (J.declare site origin name params body native) := by
  have hbound (function : CellRef) : Tandem enters I J realm
      (do
        let cell ← TreeScript.resolve I site origin .createIfMissing [.identifier name]
        inherit cell function
        return cell)
      (do
        let cell ← TreeScript.resolve J site origin .createIfMissing [.identifier name]
        inherit cell function
        return cell) :=
    (resolve site origin .createIfMissing [.identifier name]).bind fun cell ↦
      (plain (.inherit cell function)).bind fun _ ↦ pure cell
  unfold Interp.declare
  exact ite ((declaredNative site name).bind hbound) ((newFunction site params _).bind hbound)

section Fuel

variable (hfuel : J.fuel = I.fuel)
include hfuel

theorem whileLoop (site : Site) (condition body : Node) :
    Tandem enters I J realm (I.whileLoop site condition body)
      (J.whileLoop site condition body) := by
  unfold Interp.whileLoop
  rw [hfuel]
  exact (plain (.fork site)).bind fun inner ↦ (plain .newEmpty).bind fun _ ↦
    whileHolds inner condition body I.fuel _

theorem applyOperator (site : Site) (symbol : String) (fixity : Fixity) (args : List CellRef) :
    Tandem enters I J realm (I.applyOperator site symbol fixity args)
      (J.applyOperator site symbol fixity args) :=
  callFrom hfuel site fun _ _ hcall ↦
    traced site .typeMismatch (evaluateOperator hcall _ symbol fixity args)

theorem assign (site : Site) (operator : String) (target value : Node) :
    Tandem enters I J realm (I.assign site operator target value)
      (J.assign site operator target value) := by
  have hnoted (cell : CellRef) : Tandem enters I J realm (Interp.noteAssignment target cell)
      (Interp.noteAssignment target cell) :=
    get_bind fun _ ↦ ite ((plain (.display cell)).bind fun _ ↦ (quiet (.logInfo _)).bind fun _ ↦
      pure cell) (pure cell)
  rw [Interp.assign_eq, Interp.assign_eq]
  have hassigned : Tandem enters I J realm (I.assignTo site operator target value)
      (J.assignTo site operator target value) := by
    refine (Tandem.value site value .required).bind fun new ↦
      (Tandem.value site target .createIfMissing).bind fun cell ↦
        (plain (.content cell)).bind fun c ↦ ite ?_ ?_
    · exact (applyOperator hfuel site operator .infixOp [cell, new]).bind fun combined ↦
        (plain (.inherit cell combined)).bind fun _ ↦ hnoted cell
    · exact (plain (.inherit cell new)).bind fun _ ↦ hnoted cell
  cases Interp.assignmentHint? target with
  | none => exact hassigned
  | some hint => exact (raise site _ _).bind fun _ ↦ hassigned

end Fuel

/-! ### Expressions -/

theorem copyFields (site : Site) (ref : TableRef) (node : Node) :
    Tandem enters I J realm (Interp.copyFields site ref node)
      (Interp.copyFields site ref node) := by
  unfold Interp.copyFields
  dsimp only
  split
  · refine bind (forIn _ (fun element _ ↦ ?_) _) fun _ ↦ pure ()
    split
    · refine get_bind fun n ↦ ?_
      split
      · exact (plain (.copy _)).bind fun _ ↦ (plain (.setText ref _ _)).bind fun _ ↦ pure _
      · exact (raise site _ _).bind fun _ ↦ pure _
    · exact (raise site _ _).bind fun _ ↦ pure _
  · exact raise site _ _

theorem operatorValue (site : Site) (symbol : String) (fixity : Fixity) :
    Tandem enters I J realm (Interp.operatorValue site symbol fixity)
      (Interp.operatorValue site symbol fixity) := by
  unfold Interp.operatorValue
  exact check (raise site _ _) ((plain .newStamp).bind fun _ ↦ plain (.alloc _))

theorem callNode (site : Site) (origin callee : Node) (args : List Node) :
    Tandem enters I J realm (I.callNode site origin callee args)
      (J.callNode site origin callee args) := by
  unfold Interp.callNode
  split
  · exact resolve site origin .required _
  · exact (value site _ .required).bind fun function ↦ (values site args).bind fun cells ↦
      call site _ .none function cells

theorem construct (site : Site) (callee : Node) (args : List Node) :
    Tandem enters I J realm (I.construct site callee args) (J.construct site callee args) := by
  refine (value site callee .required).bind fun function ↦ (values site args).bind fun cells ↦
    (plain (.content function)).bind fun c ↦ ?_
  split
  · exact traced site .construction (steady (.instantiate _ cells))
  · exact check (raise site _ _) ((plain (.argsObject function cells)).bind fun object ↦
      call site callee.code (.args object) function cells)

theorem operation (hfuel : J.fuel = I.fuel) (site : Site) (symbol : String) (fixity : Fixity)
    (operands : List Node) :
    Tandem enters I J realm (I.operation site symbol fixity operands)
      (J.operation site symbol fixity operands) := by
  unfold Interp.operation
  split
  · exact raise site _ _
  · refine check (raise site _ _) ?_
    dsimp only
    split
    · rename_i first second _
      have hboth (left : CellRef) : Tandem enters I J realm
          (do
            let right ← I.value site second
            I.applyOperator site symbol .infixOp [left, right])
          (do
            let right ← J.value site second
            J.applyOperator site symbol .infixOp [left, right]) :=
        (value site second .required).bind fun right ↦
          applyOperator hfuel site symbol .infixOp [left, right]
      refine (value site first .required).bind fun left ↦ (plain (.content left)).bind fun c ↦ ?_
      split
      · exact ite (plain (.newBoolean _)) (hboth left)
      · exact hboth left
    · exact (mapM _ fun operand ↦ value site operand _).bind fun cells ↦
        applyOperator hfuel site symbol _ cells

theorem parenthesis (site : Site) (mode : Mode) (elements : List Node) :
    Tandem enters I J realm (I.parenthesis site mode elements)
      (J.parenthesis site mode elements) := by
  unfold Interp.parenthesis
  split
  · exact value site _ mode
  · exact (values site elements).bind fun cells ↦ (plain (.mapM cells .copy)).bind fun copies ↦
      plain (.newArray copies)

theorem arrayLiteral (site : Site) (elements : List Node) :
    Tandem enters I J realm (I.arrayLiteral site elements) (J.arrayLiteral site elements) := by
  refine (plain .newTable).bind fun ref ↦ (plain (.newObject ref)).bind fun result ↦
    bind (forIn _ (fun (element, i) _ ↦ ?_) _) fun _ ↦ pure result
  exact (plain (.forkSelf site result)).bind fun inner ↦ (value inner element .required).bind
    fun cell ↦ (plain (.newNumber _)).bind fun _ ↦ (plain (.copy cell)).bind fun _ ↦
      (plain (.setEntry ref _ _)).bind fun _ ↦ pure _

theorem extendsSource (site : Site) (node : Node) :
    Tandem enters I J realm (I.extendsSource site node) (J.extendsSource site node) := by
  unfold Interp.extendsSource
  split
  · exact construct site _ _
  · split
    · exact construct site _ _
    · exact construct site _ _
    · exact value site _ .required
  · exact value site _ .required

theorem extend (site : Site) (ref : TableRef) (node : Node) :
    Tandem enters I J realm (I.extend site ref node) (J.extend site ref node) := by
  refine bind (forIn _ (fun source _ ↦ ?_) _) fun _ ↦ pure ()
  refine (extendsSource site source).bind fun base ↦ get_bind fun n ↦ ?_
  split
  · exact (plain (.mergeInto ref _)).bind fun _ ↦ pure _
  · exact get_bind fun k ↦ (raise site _ _).bind fun _ ↦ pure _

theorem entryKey (site : Site) (node : Node) :
    Tandem enters I J realm (I.entryKey site node) (J.entryKey site node) := by
  unfold Interp.entryKey
  split
  · exact plain (.newString _)
  · exact (value site _ .required).bind fun key ↦ ite (pure key)
      ((plain (.display key)).bind fun shown ↦ plain (.newString shown))

theorem addEntry (site : Site) (ref : TableRef) (self : CellRef) (key node : Node) :
    Tandem enters I J realm (I.addEntry site ref self key node)
      (J.addEntry site ref self key node) := by
  refine (plain (.forkSelf site self)).bind fun inner ↦ (entryKey inner key).bind fun key ↦
    (plain (.content key)).bind fun c ↦ ?_
  have hentered (key : CellRef) : Tandem enters I J realm
      (do setEntry ref key (← copy (← I.value inner node)))
      (do setEntry ref key (← copy (← J.value inner node))) :=
    (value inner node .required).bind fun cell ↦ (plain (.copy cell)).bind fun fresh ↦
      plain (.setEntry ref key fresh)
  dsimp only
  split
  · exact ite ((plain (.newString _)).bind hentered) ((pure key).bind hentered)
  · exact (pure key).bind hentered

theorem mapLiteral (site : Site) (entries : List (Node × Node)) :
    Tandem enters I J realm (I.mapLiteral site entries) (J.mapLiteral site entries) := by
  refine (plain .newTable).bind fun ref ↦ (plain (.newObject ref)).bind fun result ↦
    bind (forIn entries (fun (key, node) _ ↦ ?_) _) fun _ ↦
      bind (forIn entries (fun (key, node) _ ↦ ?_) _) fun _ ↦ ?_
  · dsimp only
    split
    · exact (extend site ref node).bind fun _ ↦ pure _
    · exact (copyFields site ref node).bind fun _ ↦ pure _
    · exact pure _
  · exact ite ((addEntry site ref result key node).bind fun _ ↦ pure _) (pure _)
  · split
    · exact (plain (.forkSelf site result)).bind fun inner ↦ (value inner _ .required).bind
        fun init ↦ (call inner "$init" (.self result) init []).bind fun _ ↦ pure result
    · exact pure result

/-! ### Nodes -/

section Fuel

variable (hfuel : J.fuel = I.fuel)
include hfuel

theorem expression (site : Site) (mode : Mode) (node : Node) :
    Tandem enters I J realm (I.expression site mode node) (J.expression site mode node) := by
  unfold Interp.expression
  split
  · exact traced site .typeMismatch (steady (.parseNumber _))
  · exact plain (.newString _)
  · exact plain (.newBoolean _)
  · exact plain .newEmpty
  · exact (traced site .typeMismatch (steady (.compile _ _))).bind fun _ ↦ plain (.alloc _)
  · exact resolve site _ mode _
  · exact resolve site _ mode _
  · exact callNode site _ _ _
  · exact construct site _ _
  · exact operation hfuel site _ _ _
  · exact operatorValue site _ _
  · exact assign hfuel site _ _ _
  · exact parenthesis site mode _
  · exact arrayLiteral site _
  · exact mapLiteral site _
  · exact declare site _ _ _ _ _
  · exact newFunction site _ _
  · exact raise site _ _
  · exact raise site _ _
  · exact raise site _ _

theorem node (site : Site) (mode : Mode) (node : Node) :
    Tandem enters I J realm (I.node site mode node) (J.node site mode node) := by
  unfold Interp.node
  split
  · exact sequence site mode _
  · exact sequence site mode _
  · exact (plain (.fork site)).bind fun inner ↦ branches inner _
  · exact forLoop site _ _ _
  · exact whileLoop hfuel site _ _
  · exact returned site _
  · exact (plain .newEmpty).bind fun _ ↦ pure _
  · exact (plain .newEmpty).bind fun _ ↦ pure _
  · exact raise site _ _
  · exact raise site _ _
  · exact (expression hfuel site mode _).bind fun _ ↦ pure _

omit hfuel in
theorem announce (site : Site) (node : Node) :
    Tandem enters I J realm (Visit.announce site node) (Visit.announce site node) := by
  have hquiet (style : Int) : Quiet (Visit.showNode site node style) :=
    .ite (.get_bind fun _ ↦ .logInfo _) .pure
  exact (haltAt site node).bind fun _ ↦ get_bind fun n ↦ (quiet (hquiet _)).bind fun _ ↦ pure _

omit hfuel in
theorem note (site : Site) (node : Node) (style : Int) (result : Completion) :
    Tandem enters I J realm (Visit.note site node style result)
      (Visit.note site node style result) := by
  have hquiet : Quiet (Visit.showResult site node style result) :=
    .ite (.get_bind fun _ ↦ .display_bind fun _ ↦ .logInfo _) .pure
  exact (quiet hquiet).bind fun _ ↦ pure result

/-- What is done about a node while it stands on the stack trace. -/
theorem visited (site : Site) (mode : Mode) (node : Node) :
    Tandem enters I J realm
      (do
        let style ← Visit.announce site node
        let result ← I.node site mode node
        Visit.note site node style result)
      (do
        let style ← Visit.announce site node
        let result ← J.node site mode node
        Visit.note site node style result) :=
  (announce site node).bind fun style ↦ (Tandem.node hfuel site mode node).bind fun result ↦
    note site node style result

/-- The evaluation of a node runs in tandem. -/
theorem evalNode (site : Site) (mode : Mode) (node : Node) :
    Tandem enters I J .language (I.evalNode site mode node) (J.evalNode site mode node) := by
  rw [Visit.evalNode_eq, Visit.evalNode_eq]
  exact recorded site node (visited hfuel site mode node)

/-! ### Calls -/

omit hfuel in
/-- The call of a function whose body may be entered. -/
theorem callClosure (site : Site) (name : String) (preparation : Preparation)
    (function : CellRef) {closure : Closure} (args : List CellRef) (henters : enters closure.body) :
    Tandem enters I J .language (I.callClosure site name preparation function closure args)
      (J.callClosure site name preparation function closure args) := by
  rw [Interp.callClosure_eq, Interp.callClosure_eq]
  unfold openBody
  simp only [bind_assoc, pure_bind]
  refine bind (ite ((plain (.display function)).bind fun _ ↦ ?_) (pure ())) fun _ ↦
    (plain (.mapM args .copy)).bind fun copies ↦ get_bind fun n ↦ ?_
  · exact raise ⟨closure.context, site.frame⟩ _ _
  -- The new frame writes to the stack trace of the caller, which is seen from its definition.
  unfold Frame.forkWith
  simp only [bind_assoc, pure_bind]
  refine (plain (.newScope _)).bind fun top ↦ ?_
  rw [← bind_assoc, ← bind_assoc]
  let inner : Site := ⟨closure.context, { top, outer := [], trace := site.frame.trace }⟩
  refine (body site inner name henters rfl).bind fun result ↦ ?_
  unfold closeBody
  exact check (raise ⟨closure.context, site.frame⟩ _ _) (plain (.copy result.value))

/-- A call runs in tandem, given what the callee holds. -/
theorem callContent (site : Site) (name : String) (preparation : Preparation)
    (function : CellRef) (args : List CellRef) {content : Content}
    (henters : ∀ stamp closure, content = .function stamp closure → enters closure.body) :
    Tandem enters I J .language (I.callContent site name preparation function args content)
      (J.callContent site name preparation function args content) := by
  have hcalled : Tandem enters I J .language
      (I.callFunction site name preparation function args content)
      (J.callFunction site name preparation function args content) := by
    refine (quiet (Comparison.announceCall name args)).bind fun _ ↦ callFrom hfuel site fun call call' hcall ↦ ?_
    split
    · exact callClosure site name preparation function args (henters _ _ rfl)
    · exact traced site .native (native hcall site _ args)
    · exact traced site .native (method hcall _ _ args)
    · exact traced site .native (hostMethod hcall _ _ args)
    · exact plain .newEmpty
  unfold Interp.callContent
  refine ite ?_ hcalled
  exact (plain (.display function)).bind fun shown ↦ (raise site _ _).bind fun _ ↦ hcalled

end Fuel

end Tandem

/-! ### Tasks -/

/-- What an interpreter is asked for: to evaluate a node, or to call a function. -/
inductive Task where
  | eval (site : Site) (mode : Mode) (node : Node)
  | call (site : Site) (name : String) (preparation : Preparation) (function : CellRef)
    (args : List CellRef)

/-- What a task gives. -/
def Task.Answer : Task → Type
  | eval .. => Completion
  | call .. => CellRef

namespace Interp

/-- What an interpreter makes of a task. -/
def perform (interp : Interp) : (task : Task) → Run task.Answer
  | .eval site mode node => interp.eval site mode node
  | .call site name preparation function args =>
    interp.call site name preparation function args

/-- The rule of the language for a task. -/
def rule (interp : Interp) : (task : Task) → Run task.Answer
  | .eval site mode node => interp.evalNode site mode node
  | .call site name preparation function args =>
    interp.callValue site name preparation function args

/-- An interpreter with fuel follows the rules over the one with less. -/
theorem perform_succ (n : Nat) (task : Task) :
    (TreeScript.interp (n + 1)).perform task = (TreeScript.interp n).rule task := by
  cases task <;> rfl

end Interp

/-- The rules run in tandem over two interpreters with the same fuel. -/
theorem Tandem.rule {I J : Interp} (hfuel : J.fuel = I.fuel) (task : Task) :
    Tandem (fun _ ↦ True) I J .language (I.rule task) (J.rule task) := by
  cases task with
  | eval site mode node => exact evalNode hfuel site mode node
  | call site name preparation function args =>
    change Tandem _ I J .language (I.callValue site name preparation function args)
      (J.callValue site name preparation function args)
    rw [Interp.callValue_eq, Interp.callValue_eq]
    exact (plain (.content function)).bind fun c ↦
      callContent hfuel site name preparation function args fun _ _ _ ↦ trivial

end TreeScript
