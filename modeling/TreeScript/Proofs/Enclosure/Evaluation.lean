import TreeScript.Proofs.Enclosure.Resolve
import TreeScript.Proofs.Comparison.Statements
import TreeScript.Proofs.Call

/-!
# Evaluation under an enclosure

What an interpreter does with statements, expressions and calls keeps an enclosure if the
interpreter does so with what lies inside them. Three rules carry the argument: a native declaration
in an open source finds no enclosed native, because the source neither is named like the enclosed
module nor declares it (`declaredNative`); a function defined at an open site mentions that site
only (`newFunction`); and the body of an open function starts with open bindings (`openBody`). By
induction on the fuel, every evaluation keeps every enclosure (`openInterp`).
-/

set_option autoImplicit false

namespace TreeScript.Enclosure

variable {K : Enclosure} {m : Machine} {interp : Interp} {site : Site}

/-- A completion with an open value. -/
def OpenResult (K : Enclosure) (result : Completion) : Prop := K.OpenCell result.value

theorem raiseAt {α : Type} {Q : α → Prop} (site : Site) (kind : ErrorKind) (message : String) :
    Maintains K.Holds Q (site.raise kind message) :=
  Indifferent.raiseAt site kind message

theorem traced {α : Type} {Q : α → Prop} (site : Site) (kind : ErrorKind) {x : Run α}
    (h : Maintains K.Holds Q x) : Maintains K.Holds Q (site.traced kind x) :=
  Indifferent.traced site kind h

/-- An expression ends normally with its value. -/
theorem completed {x : Run CellRef} (h : K.Gives x) (flow : Flow) :
    Maintains K.Holds K.OpenResult (do return { value := ← x, flow }) :=
  h.bind fun _ hvalue ↦ .pure hvalue

/-! ### Functions -/

/-- A function defined at an open site mentions nothing enclosed. -/
theorem newFunction (hsite : K.OpenSite site) (params : List String) (body : Node) :
    K.Gives (newFunction site params body) :=
  newStamp.bind fun _ ↦ alloc ⟨hsite.context, hsite.frame⟩

/-- Names that name no enclosed module stand for no enclosed native. -/
theorem Holds.native? (hm : K.Holds m) {modules : List String}
    (hmodules : ∀ module ∈ modules, ¬K.module module) {name : String} {function : Native}
    (hfound : m.native? modules name = some function) : ¬K.native function := by
  obtain ⟨module, hmem, hbinding⟩ := List.exists_of_findSome?_eq_some hfound
  obtain ⟨binding, hfind, rfl⟩ := Option.map_eq_some_iff.mp hbinding
  have hnamed := List.find?_some hfind
  rw [Bool.and_eq_true, beq_iff_eq] at hnamed
  refine hm.natives binding (List.mem_of_find?_eq_some hfind) ?_
  rw [hnamed.1]
  exact hmodules module hmem

/-- The names an open source looks its natives up under name no enclosed module. -/
theorem OpenSource.candidates {source : Context} (h : K.OpenSource source) :
    ∀ name ∈ source.modules.toList.map (·.name) ++ [source.source], ¬K.module name := by
  intro name hname
  rcases List.mem_append.mp hname with hname | hname
  · obtain ⟨module, hmem, rfl⟩ := List.mem_map.mp hname
    exact h.modules module (Array.mem_def.mpr hmem)
  · rw [List.mem_singleton.mp hname]
    exact h.name

theorem declaredNative (hsite : K.OpenSite site) (name : String) :
    K.Gives (declaredNative site name) := by
  unfold TreeScript.declaredNative
  refine Spares.check (raiseAt site _ _) (.get_bind fun m hm ↦ ?_)
  have hcandidates := (hm.source site.context hsite.context).candidates
  refine .get_bind fun n hn ↦ ?_
  split
  · rename_i function hfound
    exact newStamp.bind fun _ ↦ alloc (hn.native? hcandidates hfound)
  · exact raiseAt site _ _

section Statements

variable (hinterp : K.OpenInterp interp)
include hinterp

theorem sequenceFrom (hsite : K.OpenSite site) (mode : Mode) (nodes : List Node) :
    ∀ last, K.OpenResult last → Maintains K.Holds K.OpenResult (interp.sequenceFrom site mode last nodes) := by
  induction nodes with
  | nil => exact fun last hlast ↦ .pure hlast
  | cons node nodes ih =>
    intro last _
    refine (hinterp.eval site mode node hsite).bind fun result hresult ↦ ?_
    split
    · exact ih result hresult
    · exact .pure hresult

theorem sequence (hsite : K.OpenSite site) (mode : Mode) (nodes : List Node) :
    Maintains K.Holds K.OpenResult (interp.sequence site mode nodes) :=
  newEmpty.bind fun cell hcell ↦ sequenceFrom hinterp hsite mode nodes ⟨cell, .normal⟩ hcell

theorem branches (hsite : K.OpenSite site) (nodes : List (Option Node × Node)) :
    Maintains K.Holds K.OpenResult (interp.branches site nodes) := by
  induction nodes with
  | nil => exact completed newEmpty .normal
  | cons branch rest ih =>
    obtain ⟨condition, body⟩ := branch
    cases condition with
    | none => exact hinterp.eval site .required body hsite
    | some condition =>
      refine (hinterp.value hsite condition .required).bind fun test _ ↦
        (isTrue test).bind fun holds ↦ ?_
      split
      · exact hinterp.eval site .required body hsite
      · exact ih

theorem returned (hsite : K.OpenSite site) (argument : Option Node) :
    Maintains K.Holds K.OpenResult (interp.returned site argument) := by
  unfold Interp.returned
  split
  · exact completed (hinterp.value hsite _ .required) .returned
  · exact completed newEmpty .returned

theorem pass (hsite : K.OpenSite site) (body : Node) :
    Maintains K.Holds (fun ended ↦ K.OpenResult ended.2) (interp.pass site body) := by
  refine (hinterp.eval site .required body hsite).bind fun result hresult ↦ ?_
  split
  · exact .pure hresult
  · exact .pure hresult
  · exact newEmpty.bind fun _ hcell ↦ .pure hcell
  · exact newEmpty.bind fun _ hcell ↦ .pure hcell

omit hinterp in
/-- The variables of a loop are bound to copies. -/
theorem bindElement (names : List String) {element : CellRef} (helement : K.OpenCell element)
    (frame : Frame) : Spares K.Holds (Interp.bindElement names element frame) := by
  have hbound (name : String) {item : CellRef} (hitem : K.OpenCell item) : Spares K.Holds (do
      frame.putOnTop name (← TreeScript.copy item)) :=
    (copy hitem).bind fun _ hcopy ↦ putOnTop frame name hcopy
  refine .get_bind fun m hm ↦ ?_
  dsimp only
  split
  · rename_i items heq
    have hitems : K.OpenCells items := by
      obtain ⟨ref, hfound, rfl⟩ := Option.map_eq_some_iff.mp heq
      have hobject := (Option.filter_eq_some_iff.mp hfound).1
      exact (hm.table ref (hm.openTable? helement hobject)).values
    split
    · refine Spares.bind (Spares.forIn (fun (name, item) h _ ↦ ?_) _) fun _ ↦ .pure trivial
      exact (hbound name (hitems item (List.of_mem_zip h).2)).bind fun _ ↦ .pure trivial
    · split
      · exact hbound _ (hitems _ (List.mem_cons_of_mem _ (List.mem_cons_self ..)))
      · exact .fail _
  · split
    · exact hbound _ helement
    · exact .fail _

theorem loopElements (hsite : K.OpenSite site) (names : List String) (body : Node)
    {ref : IteratorRef} (href : K.OpenIterator ref) (count : Nat) :
    ∀ last, K.OpenResult last →
      Maintains K.Holds K.OpenResult (interp.forElements site names body ref count last) := by
  induction count with
  | zero => exact fun last hlast ↦ .pure hlast
  | succ count ih =>
    intro last hlast
    refine (next? href).bind fun found hfound ↦ ?_
    cases found with
    | none => exact .pure hlast
    | some element =>
      refine (fork hsite).bind fun inner hinner ↦ ?_
      have hbound := bindElement names (hfound element rfl) inner.frame
      refine Spares.bind (traced site _ hbound) fun _ ↦ (pass hinterp hinner body).bind
        fun (ended, result) hresult ↦ ?_
      exact .ite (fun _ ↦ .pure hresult) fun _ ↦ ih result hresult

theorem forLoop (hsite : K.OpenSite site) (names : List String) (iterable body : Node) :
    Maintains K.Holds K.OpenResult (interp.forLoop site names iterable body) := by
  refine (hinterp.value hsite iterable .required).bind fun cell hcell ↦
    Maintains.bind (traced site _ (makeIterator hcell)) fun iterator hiterator ↦
      (content hiterator).bind fun c hc ↦ ?_
  split
  · exact .get_bind fun _ _ ↦ newEmpty.bind fun empty hempty ↦
      loopElements hinterp hsite names body hc _ ⟨empty, .normal⟩ hempty
  · exact raiseAt site _ _

theorem whileHolds (hsite : K.OpenSite site) (condition body : Node) (fuel : Nat) :
    ∀ last, K.OpenResult last →
      Maintains K.Holds K.OpenResult (interp.whileHolds site condition body fuel last) := by
  induction fuel with
  | zero => exact fun last _ ↦ .throw .outOfFuel
  | succ fuel ih =>
    intro last hlast
    refine (hinterp.value hsite condition .required).bind fun test _ ↦
      Spares.bind (kindOf test) fun c ↦ ?_
    split
    · refine (pass hinterp hsite body).bind fun (ended, result) hresult ↦ ?_
      exact .ite (fun _ ↦ .pure hresult) fun _ ↦ ih result hresult
    · exact .pure hlast
    · exact (display test).bind fun _ ↦ raiseAt site _ _

theorem whileLoop (hsite : K.OpenSite site) (condition body : Node) :
    Maintains K.Holds K.OpenResult (interp.whileLoop site condition body) :=
  (fork hsite).bind fun _ hinner ↦ newEmpty.bind fun empty hempty ↦
    whileHolds hinterp hinner condition body _ ⟨empty, .normal⟩ hempty

theorem applyOperator (hsite : K.OpenSite site) (symbol : String) (fixity : Fixity)
    {args : List CellRef} (hargs : K.OpenCells args) :
    K.Gives (interp.applyOperator site symbol fixity args) :=
  (hinterp.callFrom hsite).bind fun _ hcall ↦
    traced site _ (evaluateOperator hcall _ symbol fixity hargs)

theorem assign (hsite : K.OpenSite site) (operator : String) (target value : Node) :
    K.Gives (interp.assign site operator target value) := by
  have hassigned : K.Gives (do
      let new ← interp.value site value
      let cell ← interp.value site target .createIfMissing
      if operator ≠ "" && operator ≠ "=" && !(← TreeScript.content cell).isEmpty then
        let combined ← interp.applyOperator site operator .infixOp [cell, new]
        TreeScript.inherit cell combined
      else TreeScript.inherit cell new
      if (← get).options.logAssignments then
        let shown ← TreeScript.display cell
        logInfo ("assignment: [" ++ target.code ++ "] = [" ++ shown ++ "]")
      return cell) := by
    refine (hinterp.value hsite value .required).bind fun new hnew ↦
      (hinterp.value hsite target .createIfMissing).bind fun cell hcell ↦ ?_
    have hlogged : K.Gives (do
        if (← get).options.logAssignments then
          let shown ← TreeScript.display cell
          logInfo ("assignment: [" ++ target.code ++ "] = [" ++ shown ++ "]")
        return cell) :=
      .get_bind fun _ _ ↦ .ite
        (fun _ ↦ (display cell).bind fun _ ↦ (indifferent.logInfo _).bind fun _ ↦ .pure hcell)
        fun _ ↦ .pure hcell
    refine Spares.bind (kindOf cell) fun c ↦ .ite (fun _ ↦ ?_) fun _ ↦ ?_
    · exact (applyOperator hinterp hsite operator .infixOp (openCells_two hcell hnew)).bind
        fun _ hcombined ↦ (inherit hcell hcombined).bind fun _ ↦ hlogged
    · exact (inherit hcell hnew).bind fun _ ↦ hlogged
  unfold Interp.assign
  split
  · exact Spares.bind (raiseAt site _ _) fun _ ↦ hassigned
  · exact hassigned

theorem declare (hsite : K.OpenSite site) (origin : Node) (name : String) (params : List String)
    (body : Option Node) (native : Bool) :
    K.Gives (interp.declare site origin name params body native) := by
  have hbound {function : CellRef} (hfunction : K.OpenCell function) : K.Gives (do
      let cell ← TreeScript.resolve interp site origin .createIfMissing [.identifier name]
      TreeScript.inherit cell function
      return cell) :=
    (resolve hinterp hsite origin .createIfMissing [.identifier name]).bind fun cell hcell ↦
      (inherit hcell hfunction).bind fun _ ↦ .pure hcell
  refine .ite (fun _ ↦ ?_) fun _ ↦ ?_
  · exact (declaredNative hsite name).bind fun _ ↦ hbound
  · exact (newFunction hsite params _).bind fun _ ↦ hbound

end Statements

/-! ### Expressions -/

theorem copyFields (hsite : K.OpenSite site) {ref : TableRef} (href : K.OpenObject ref) (node : Node) :
    Spares K.Holds (Interp.copyFields site ref node) := by
  unfold Interp.copyFields
  dsimp only
  split
  · refine Spares.bind (Spares.forIn (fun element _ _ ↦ ?_) _) fun _ ↦ .pure trivial
    split
    · rename_i name _
      refine .get_bind fun m hm ↦ ?_
      split
      · rename_i value hfound
        obtain ⟨args, hargs, hvalue⟩ := Option.bind_eq_some_iff.mp hfound
        obtain ⟨cell, hcell, hobject⟩ := Option.bind_eq_some_iff.mp hargs
        have hopen := hm.openTable? (hm.lookUpName hsite.frame _ cell hcell) hobject
        exact (copy (hm.lookUpText hopen name value hvalue)).bind fun _ hcopy ↦
          (setText href name hcopy).bind fun _ ↦ .pure trivial
      · exact Spares.bind (raiseAt site _ _) fun _ ↦ .pure trivial
    · exact Spares.bind (raiseAt site _ _) fun _ ↦ .pure trivial
  · exact raiseAt site _ _

theorem operatorValue (site : Site) (symbol : String) (fixity : Fixity) :
    K.Gives (Interp.operatorValue site symbol fixity) := by
  unfold Interp.operatorValue
  refine Spares.check (raiseAt site _ _) ?_
  exact newStamp.bind fun _ ↦ alloc (K.operator symbol fixity)

theorem argsObject (callee : CellRef) {args : List CellRef} (hargs : K.OpenCells args) :
    K.Gives (Interp.argsObject callee args) := by
  refine Spares.bind (kindOf callee) fun c ↦ ?_
  split
  · exact newTable.bind fun _ href ↦
      Spares.each (fun binding h ↦ setText href binding.1 (hargs _ (List.of_mem_zip h).2))
        (newObject href)
  · exact newArray hargs

section Expressions

variable (hinterp : K.OpenInterp interp)
include hinterp

theorem callNode (hsite : K.OpenSite site) (origin callee : Node) (args : List Node) :
    K.Gives (interp.callNode site origin callee args) := by
  unfold Interp.callNode
  split
  · exact resolve hinterp hsite origin .required _
  · exact (hinterp.value hsite _ .required).bind fun function hfunction ↦
      (hinterp.values hsite args).bind fun _ hargs ↦
        hinterp.call _ _ _ function _ hsite trivial hfunction hargs

theorem construct (hsite : K.OpenSite site) (callee : Node) (args : List Node) :
    K.Gives (interp.construct site callee args) := by
  refine (hinterp.value hsite callee .required).bind fun function hfunction ↦
    (hinterp.values hsite args).bind fun values hvalues ↦ Spares.bind (kindOf function) fun c ↦ ?_
  split
  · exact traced site _ (instantiate _ values)
  · refine Spares.check (raiseAt site _ _) ((argsObject function hvalues).bind fun object hobject ↦ ?_)
    exact hinterp.call _ _ (.args object) function values hsite hobject hfunction hvalues

theorem operation (hsite : K.OpenSite site) (symbol : String) (fixity : Fixity)
    (operands : List Node) : K.Gives (interp.operation site symbol fixity operands) := by
  unfold Interp.operation
  split
  · exact raiseAt site _ _
  · refine Spares.check (raiseAt site _ _) ?_
    dsimp only
    split
    · rename_i first second _
      refine (hinterp.value hsite first .required).bind fun left hleft ↦
        Spares.bind (kindOf left) fun c ↦ ?_
      have hboth : K.Gives (do
          let right ← interp.value site second
          interp.applyOperator site symbol .infixOp [left, right]) :=
        (hinterp.value hsite second .required).bind fun _ hright ↦
          applyOperator hinterp hsite symbol .infixOp (openCells_two hleft hright)
      split
      · split
        · exact newBoolean _
        · exact hboth
      · exact hboth
    · exact (Maintains.mapM fun operand _ ↦ hinterp.value hsite operand _).bind fun _ hvalues ↦
        applyOperator hinterp hsite symbol _ hvalues

theorem parenthesis (hsite : K.OpenSite site) (mode : Mode) (elements : List Node) :
    K.Gives (interp.parenthesis site mode elements) := by
  unfold Interp.parenthesis
  split
  · exact hinterp.value hsite _ mode
  · exact (hinterp.values hsite elements).bind fun _ hvalues ↦
      (copies hvalues).bind fun _ hcopies ↦ newArray hcopies

theorem arrayLiteral (hsite : K.OpenSite site) (elements : List Node) :
    K.Gives (interp.arrayLiteral site elements) := by
  refine newTable.bind fun ref href ↦ (newObject href).bind fun result hresult ↦
    Spares.bind (Spares.forIn (fun (element, i) _ _ ↦ ?_) _) fun _ ↦ .pure hresult
  refine (forkSelf hsite hresult).bind fun inner hinner ↦
    (hinterp.value hinner element .required).bind fun value hvalue ↦ ?_
  exact (newNumber _).bind fun _ hkey ↦ (copy hvalue).bind fun _ hcopy ↦
    (setEntry href hkey hcopy).bind fun _ ↦ .pure trivial

theorem extendsSource (hsite : K.OpenSite site) (node : Node) :
    K.Gives (interp.extendsSource site node) := by
  unfold Interp.extendsSource
  split
  · exact construct hinterp hsite _ _
  · split
    · exact construct hinterp hsite _ _
    · exact construct hinterp hsite _ _
    · exact hinterp.value hsite _ .required
  · exact hinterp.value hsite _ .required

theorem extend (hsite : K.OpenSite site) {ref : TableRef} (href : K.OpenObject ref) (node : Node) :
    Spares K.Holds (interp.extend site ref node) := by
  refine Spares.bind (Spares.forIn (fun source _ _ ↦ ?_) _) fun _ ↦ .pure trivial
  refine (extendsSource hinterp hsite source).bind fun base hbase ↦ .get_bind fun m hm ↦ ?_
  split
  · rename_i heq
    exact (mergeInto href (hm.openTable? hbase heq)).bind fun _ ↦ .pure trivial
  · exact .get_bind fun _ _ ↦ Spares.bind (raiseAt site _ _) fun _ ↦ .pure trivial

theorem entryKey (hsite : K.OpenSite site) (node : Node) : K.Gives (interp.entryKey site node) := by
  unfold Interp.entryKey
  split
  · exact newString _
  · refine (hinterp.value hsite _ .required).bind fun key hkey ↦ ?_
    split
    · exact .pure hkey
    · exact (display key).bind fun _ ↦ newString _

theorem addEntry (hsite : K.OpenSite site) {ref : TableRef} (href : K.OpenObject ref)
    {self : CellRef} (hself : K.OpenCell self) (key value : Node) :
    Spares K.Holds (interp.addEntry site ref self key value) := by
  refine (forkSelf hsite hself).bind fun inner hinner ↦ (entryKey hinterp hinner key).bind
    fun key hkey ↦ Spares.bind (kindOf key) fun c ↦ ?_
  have hentered {key : CellRef} (hkey : K.OpenCell key) : Spares K.Holds (do
      TreeScript.setEntry ref key (← TreeScript.copy (← interp.value inner value))) :=
    (hinterp.value hinner value .required).bind fun _ hvalue ↦ (copy hvalue).bind fun _ hcopy ↦
      setEntry href hkey hcopy
  dsimp only
  split
  · split
    · exact (newString _).bind fun _ hname ↦ hentered hname
    · exact Maintains.bind (.pure hkey) fun _ hkey ↦ hentered hkey
  · exact Maintains.bind (.pure hkey) fun _ hkey ↦ hentered hkey

theorem mapLiteral (hsite : K.OpenSite site) (entries : List (Node × Node)) :
    K.Gives (interp.mapLiteral site entries) := by
  refine newTable.bind fun ref href ↦ (newObject href).bind fun result hresult ↦ ?_
  refine Spares.bind (Spares.forIn (fun (key, value) _ _ ↦ ?directed) _) fun _ ↦
    Spares.bind (Spares.forIn (fun (key, value) _ _ ↦ ?entered) _) fun _ ↦ ?initialised
  case directed =>
    dsimp only
    split
    · exact (extend hinterp hsite href value).bind fun _ ↦ .pure trivial
    · exact (copyFields hsite href value).bind fun _ ↦ .pure trivial
    · exact .pure _
  case entered =>
    dsimp only
    split
    · exact (addEntry hinterp hsite href hresult key value).bind fun _ ↦ .pure trivial
    · exact .pure _
  case initialised =>
    split
    · refine (forkSelf hsite hresult).bind fun inner hinner ↦ ?_
      exact (hinterp.value hinner _ .required).bind fun init hinit ↦
        (hinterp.call _ "$init" (.self result) init [] hinner hresult hinit openCells_nil).spares.bind
          fun _ ↦ .pure hresult
    · exact .pure hresult

theorem expression (hsite : K.OpenSite site) (mode : Mode) (node : Node) :
    K.Gives (interp.expression site mode node) := by
  unfold Interp.expression
  split
  · exact traced site _ (parseNumber _)
  · exact newString _
  · exact newBoolean _
  · exact newEmpty
  · exact Spares.bind (traced site _ (compile _ _)) fun _ ↦ alloc trivial
  · exact resolve hinterp hsite _ mode _
  · exact resolve hinterp hsite _ mode _
  · exact callNode hinterp hsite _ _ _
  · exact construct hinterp hsite _ _
  · exact operation hinterp hsite _ _ _
  · exact operatorValue site _ _
  · exact assign hinterp hsite _ _ _
  · exact parenthesis hinterp hsite mode _
  · exact arrayLiteral hinterp hsite _
  · exact mapLiteral hinterp hsite _
  · exact declare hinterp hsite _ _ _ _ _
  · exact newFunction hsite _ _
  · exact raiseAt site _ _
  · exact raiseAt site _ _
  · exact raiseAt site _ _

theorem node (hsite : K.OpenSite site) (mode : Mode) (node : Node) :
    Maintains K.Holds K.OpenResult (interp.node site mode node) := by
  unfold Interp.node
  split
  · exact sequence hinterp hsite mode _
  · exact sequence hinterp hsite mode _
  · exact (fork hsite).bind fun _ hinner ↦ branches hinterp hinner _
  · exact forLoop hinterp hsite _ _ _
  · exact whileLoop hinterp hsite _ _
  · exact returned hinterp hsite _
  · exact completed newEmpty .broken
  · exact completed newEmpty .continued
  · exact raiseAt site _ _
  · exact raiseAt site _ _
  · exact completed (expression hinterp hsite mode _) .normal

end Expressions

/-! ### Calls -/

/-- The body of an open function starts with open bindings. -/
theorem openBindings_bodyScope (hm : K.Holds m) {closure : Closure}
    (hcontext : K.OpenContext closure.context) (hframe : K.OpenFrame closure.frame)
    {preparation : Preparation} (hpreparation : K.OpenPreparation preparation)
    {copies : List CellRef} (hcopies : K.OpenCells copies) :
    K.OpenBindings (closure.bodyScope m preparation copies) := by
  have hprepared : K.OpenBindings preparation.scope := by
    cases preparation with
    | none => exact openBindings_empty
    | args cell => exact openBindings_empty.insert "args" hpreparation
    | self cell => exact openBindings_empty.insert "self" hpreparation
  have hvisible := (hprepared.overlay (hm.globals hcontext)).overlay (hm.snapshot hframe)
  exact hvisible.insertAll hcopies

theorem openBody (site : Site) (name : String) {preparation : Preparation}
    (hpreparation : K.OpenPreparation preparation) (function : CellRef) {closure : Closure}
    (hcontext : K.OpenContext closure.context) (hframe : K.OpenFrame closure.frame)
    {args : List CellRef} (hargs : K.OpenCells args) :
    Maintains K.Holds K.OpenSite (openBody site name preparation function closure args) := by
  have harity : Spares K.Holds (checkArity site function closure args) :=
    .ite (fun _ ↦ (display function).bind fun _ ↦ Indifferent.raise _ _ _ _) fun _ ↦ .pure trivial
  refine harity.bind fun _ ↦ (copies hargs).bind fun _ hcopies ↦ .get_bind fun m hm ↦ ?_
  have hscope := openBindings_bodyScope hm hcontext hframe hpreparation hcopies
  exact (forkWith _ hscope).bind fun _ hinner ↦ (indifferent.enter _ name).bind fun _ ↦
    .pure ⟨hcontext, hinner⟩

theorem closeBody (site : Site) (name : String) (closure : Closure) {result : Completion}
    (hresult : K.OpenResult result) : K.Gives (closeBody site name closure result) := by
  unfold TreeScript.closeBody
  exact Spares.check (Indifferent.raise _ _ _ _) (copy hresult)

/-- A call of an open function from an open site gives an open cell. -/
theorem callFunction (hinterp : K.OpenInterp interp) (hsite : K.OpenSite site) (name : String)
    {preparation : Preparation} (hpreparation : K.OpenPreparation preparation) (function : CellRef)
    {c : Content} (hc : K.OpenContent c) {args : List CellRef} (hargs : K.OpenCells args) :
    K.Gives (interp.callFunction site name preparation function args c) := by
  have hannounced : Spares K.Holds (announceCall name args) :=
    .get_bind fun _ _ ↦ .ite (fun _ ↦ .get_bind fun _ _ ↦ indifferent.logInfo _) fun _ ↦
      .pure trivial
  refine hannounced.bind fun _ ↦ (hinterp.callFrom hsite).bind fun call hcall ↦ ?_
  split
  · rename_i closure
    obtain ⟨hcontext, hframe⟩ := hc
    rw [Interp.callClosure_eq]
    exact (openBody site name hpreparation function hcontext hframe hargs).bind fun inner hinner ↦
      (hinterp.eval inner .required closure.body hinner).bind fun _ hresult ↦
        closeBody site name closure hresult
  · exact traced site _ (callNative hinterp hsite hcall hc hargs)
  · exact traced site _ (method hcall _ hc hargs)
  · exact traced site _ (hostMethod hcall _ _ hargs)
  · exact newEmpty

/-- A call of an open value from an open site gives an open cell. -/
theorem callValue (hinterp : K.OpenInterp interp) (hsite : K.OpenSite site) (name : String)
    {preparation : Preparation} (hpreparation : K.OpenPreparation preparation) {function : CellRef}
    (hfunction : K.OpenCell function) {args : List CellRef} (hargs : K.OpenCells args) :
    K.Gives (interp.callValue site name preparation function args) := by
  rw [Interp.callValue_eq]
  refine (content hfunction).bind fun c hc ↦ ?_
  have hcalled := callFunction hinterp hsite name hpreparation function hc hargs
  exact .ite (fun _ ↦ (display function).bind fun _ ↦
    Spares.bind (raiseAt site _ _) fun _ ↦ hcalled) fun _ ↦ hcalled

/-- Every evaluation at an open site keeps the enclosure and gives an open cell. -/
theorem openInterp (K : Enclosure) (fuel : Nat) : K.OpenInterp (TreeScript.interp fuel) := by
  induction fuel with
  | zero => exact ⟨fun _ _ _ _ ↦ .throw .outOfFuel, fun _ _ _ _ _ _ _ _ _ ↦ .throw .outOfFuel⟩
  | succ fuel ih =>
    refine ⟨fun site mode node hsite ↦ ?_, fun site name preparation function args hsite hprepared
      hfunction hargs ↦ ?_⟩
    · exact indifferent.evalNode (Enclosure.node ih hsite mode node)
    · exact callValue ih hsite name hprepared hfunction hargs

end TreeScript.Enclosure
