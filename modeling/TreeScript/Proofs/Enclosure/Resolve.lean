import TreeScript.Proofs.Enclosure.Methods
import TreeScript.Proofs.Comparison.Natives
import TreeScript.Proofs.Walk

/-!
# Access chains and natives under an enclosure

A chain that starts at an open site stays at open places and finds open cells only (`resolve`). It
leaves its source through an import alone, and the imports of open sources lead to open sources. The
natives that may be had outside of an enclosure keep it, too (`callNative`): what they read, bind
and remove is at the site they are called from.
-/

set_option autoImplicit false

namespace TreeScript.Enclosure

/-- What the frame of a function gets is open. -/
def OpenPreparation (K : Enclosure) : Preparation → Prop
  | .none => True
  | .args cell | .self cell => K.OpenCell cell

/-- An interpreter that keeps an enclosure at open sites, and gives open cells there. -/
structure OpenInterp (K : Enclosure) (interp : Interp) : Prop where
  eval : ∀ (site : Site) (mode : Mode) (node : Node), K.OpenSite site →
    Maintains K.Holds (fun result ↦ K.OpenCell result.value) (interp.eval site mode node)
  call : ∀ (site : Site) (name : String) (preparation : Preparation) (function : CellRef)
    (args : List CellRef), K.OpenSite site → K.OpenPreparation preparation →
    K.OpenCell function → K.OpenCells args →
      K.Gives (interp.call site name preparation function args)

/-- How far a chain has got is open. -/
structure OpenResolution (K : Enclosure) (r : Resolution) : Prop where
  context : K.OpenContext r.context
  frame : K.OpenFrame r.frame
  value : K.OpenFound r.value
  self : K.OpenFound r.self

variable {K : Enclosure} {m : Machine} {interp : Interp} {site : Site}

namespace OpenInterp

variable (hinterp : K.OpenInterp interp)
include hinterp

theorem value (hsite : K.OpenSite site) (node : Node) (mode : Mode) :
    K.Gives (interp.value site node mode) :=
  (hinterp.eval site mode node hsite).bind fun _ hvalue ↦ .pure hvalue

theorem values (hsite : K.OpenSite site) (nodes : List Node) :
    Maintains K.Holds K.OpenCells (interp.values site nodes) :=
  .mapM fun node _ ↦ hinterp.value hsite node .required

/-- What is called through a site is called from there. -/
theorem openCall (hsite : K.OpenSite site) {call : Call} {n : Machine}
    (h : interp.callFrom site m = .ok call n) : K.OpenCall call := by
  cases h
  exact fun name function args hfunction hargs ↦
    hinterp.call site name .none function args hsite trivial hfunction hargs

theorem callFrom (hsite : K.OpenSite site) :
    Maintains K.Holds K.OpenCall (interp.callFrom site) :=
  fun _ hm ↦ .ok hm (hinterp.openCall hsite rfl)

end OpenInterp

theorem OpenResolution.found {r : Resolution} (h : K.OpenResolution r) {cell : CellRef}
    (hcell : K.OpenCell cell) : K.OpenResolution { r with value := some cell } :=
  { h with value := openFound_some hcell }

theorem symbolsObject {ref : ContextRef} (hopen : K.OpenContext ref) :
    K.Gives (symbolsObject ref) := by
  refine .get_bind fun m hm ↦ newTable.bind fun _ href ↦ Spares.each (fun binding h ↦ ?_)
    (newObject href)
  exact setText href _ ((hm.globals hopen).mem_toList h)

theorem logStep (i : Nat) (key source : String) : Spares K.Holds (logStep i key source) :=
  indifferent.logStep i key source

/-! ### The steps of a chain -/

section Chains

variable {chain : Chain} {r : Resolution}

theorem chainRaise {α : Type} {Q : α → Prop} (kind : ErrorKind) (message : String) :
    Maintains K.Holds Q (chain.raise kind message) :=
  Indifferent.raiseAt chain.site kind message

theorem notExported {α : Type} {Q : α → Prop} (ref : ModuleRef) (name : String) :
    Maintains K.Holds Q (chain.notExported ref name) :=
  .get_bind fun _ _ ↦ chainRaise _ _

/-- A step that found a cell logs it and goes on with it. -/
theorem foundStep (hr : K.OpenResolution r) (i : Nat) (key source : String) {cell : CellRef}
    (hcell : K.OpenCell cell) :
    Maintains K.Holds K.OpenResolution (do
      TreeScript.logStep i key source
      return { r with value := some cell }) :=
  (logStep i key source).bind fun _ ↦ .pure (hr.found hcell)

/-- Assumes: an import that leads to an open source. Following it leads to an open place. -/
theorem follow (hm : K.Holds m) (hr : K.OpenResolution r) {target : Import} {ref : ModuleRef}
    (hopen : K.OpenContext ref.context) (name : String) :
    Maintains K.Holds K.OpenResolution (chain.follow m target ref name r) := by
  have hhome (moduleName : String) : Spares K.Holds
      (chain.requireHome name moduleName target.inline r.context) :=
    .ite (fun _ ↦ .ite (fun _ ↦ chainRaise _ _) fun _ ↦ chainRaise _ _) fun _ ↦ .pure trivial
  have hdefined (moduleName : String) (value : Option CellRef) : Spares K.Holds
      (chain.requireDefined name moduleName target.inline value) :=
    .ite (fun _ ↦ chainRaise _ _) fun _ ↦ .pure trivial
  refine (hhome _).bind fun _ ↦ (hdefined _ _).bind fun _ ↦ ?_
  refine (forkWith _ (hm.globals hopen)).bind fun frame hframe ↦ .pure ?_
  refine { hr with context := hopen, frame := hframe, value := ?_ }
  dsimp only
  split
  · exact hm.global? hopen name
  · exact openFound_none

/-- The search among imports that lead to open sources leads to an open place, if to any. -/
theorem switchToImport (hr : K.OpenResolution r) (name : String) (writing : Bool)
    {imports : List Import}
    (himports : ∀ target ∈ imports, ∀ ref ∈ target.target, K.OpenContext ref.context) :
    Maintains K.Holds (fun found ↦ ∀ moved ∈ found, K.OpenResolution moved)
      (chain.switchToImport name writing r imports) := by
  induction imports with
  | nil => exact .pure fun _ h ↦ nomatch h
  | cons target imports ih =>
    obtain ⟨hfirst, hrest⟩ := List.forall_mem_cons.mp himports
    rw [Chain.switchToImport_cons]
    cases htarget : target.target with
    | none => exact chainRaise _ _
    | some ref =>
      refine .get_bind fun m hm ↦ .ite (fun _ ↦ ?_) fun _ ↦ ih hrest
      refine (follow hm hr (hfirst ref htarget) name).map some fun moved hmoved found hfound ↦ ?_
      cases hfound
      exact hmoved

theorem createName (hr : K.OpenResolution r) (i : Nat) (isFinal : Bool) (name : String) :
    Maintains K.Holds K.OpenResolution (chain.createName i isFinal name r) := by
  rw [Chain.createName_eq]
  have hcreating : Spares K.Holds (chain.requireCreating name r) :=
    .ite (fun _ ↦ .get_bind fun _ _ ↦ chainRaise _ _) fun _ ↦ .pure trivial
  have hplace : K.Gives (Chain.newPlace isFinal) :=
    .ite (fun _ ↦ newEmpty) fun _ ↦ newTable.bind fun _ href ↦ newObject href
  exact hcreating.bind fun _ ↦ hplace.bind fun _ hcell ↦ (put _ name hcell).bind fun _ ↦
    foundStep hr i name "created" hcell

theorem refresh {cell : CellRef} (hcell : K.OpenCell cell) {rebind : CellRef → Run Unit}
    (hrebind : ∀ fresh, K.OpenCell fresh → Spares K.Holds (rebind fresh)) :
    K.Gives (chain.refresh cell rebind) :=
  .ite (fun _ ↦ (copy hcell).bind fun fresh hfresh ↦ (hrebind fresh hfresh).bind fun _ ↦
    .pure hfresh) fun _ ↦ .pure hcell

theorem resolveForeign (hr : K.OpenResolution r) (i : Nat) (isFinal : Bool) (name : String) :
    Maintains K.Holds K.OpenResolution (chain.resolveForeign i isFinal name r) := by
  refine .get_bind fun m hm ↦ ?_
  have himports := (hm.source r.context hr.context).target
  refine (switchToImport hr name _ fun target h ↦ himports target (Array.mem_def.mpr h)).bind
    fun found hfound ↦ ?_
  cases found with
  | some moved =>
    refine .get_bind fun _ _ ↦ (logStep i name _).bind fun _ ↦ ?_
    exact .ite (fun _ ↦ Maintains.bind (chainRaise (Q := fun _ ↦ True) _ _) fun _ _ ↦
      .pure (hfound moved rfl)) fun _ ↦ .pure (hfound moved rfl)
  | none =>
    dsimp only
    refine .ite (fun _ ↦ ?_) fun _ ↦ ?_
    · exact (symbolsObject hr.context).bind fun _ hsymbols ↦ foundStep hr i name _ hsymbols
    · split
      · exact notExported _ _
      · exact createName hr i isFinal name

/-- A name at the head of a chain leads to an open place. -/
theorem resolveName (hr : K.OpenResolution r) (i : Nat) (isFinal : Bool) (name : String) :
    Maintains K.Holds K.OpenResolution (chain.resolveName i isFinal name r) := by
  refine .get_bind fun m hm ↦ ?_
  split
  · rename_i cell hbound
    have hcell := hm.lookUpName hr.frame name cell hbound
    have hrefresh : Maintains K.Holds K.OpenResolution (do
        let cell ← chain.refresh cell (r.frame.put name)
        TreeScript.logStep i name "local symbols"
        return { r with value := some cell }) :=
      (refresh hcell fun _ hfresh ↦ put r.frame name hfresh).bind fun _ hfresh ↦
        foundStep hr i name _ hfresh
    dsimp only
    split
    · exact .get_bind fun _ _ ↦ Spares.check (notExported _ _) hrefresh
    · exact hrefresh
  · refine .get_bind fun n hn ↦ ?_
    split
    · rename_i cell hglobal
      have hcell := hn.global? hr.context name cell hglobal
      exact (refresh hcell fun _ hfresh ↦ setVariable r.context name hfresh).bind
        fun _ hfresh ↦ foundStep hr i name _ hfresh
    · exact resolveForeign hr i isFinal name

variable (hinterp : K.OpenInterp interp) (hsite : K.OpenSite chain.site)
include hinterp hsite

theorem stepKey (step : Node) : K.Gives (chain.stepKey interp step) := by
  unfold Chain.stepKey
  split
  · exact newString _
  · exact hinterp.value hsite _ .required
  · exact hinterp.value hsite _ .required

/-- A step behind an open value leads to an open place. -/
theorem resolveStep (hr : K.OpenResolution r) (i : Nat) (isFinal : Bool) (before step : Node)
    {value : CellRef} (hvalue : K.OpenCell value) :
    Maintains K.Holds K.OpenResolution
      (chain.resolveStep interp i isFinal before step value r) := by
  unfold Chain.resolveStep
  split
  · rename_i args
    refine (hinterp.values hsite args).bind fun args hargs ↦ ?_
    have hpreparation : K.OpenPreparation ((r.self.map Preparation.self).getD .none) := by
      have hself := hr.self
      cases hfound : r.self with
      | none => exact trivial
      | some self => exact hself self hfound
    exact (hinterp.call _ _ _ _ _ hsite hpreparation hvalue hargs).bind fun _ hresult ↦
      foundStep hr i _ _ hresult
  · refine (stepKey hinterp hsite step).bind fun key hkey ↦ (access hvalue key).bind
      fun found hfound ↦ ?_
    cases found with
    | some cell => exact (display key).bind fun _ ↦ foundStep hr i _ _ (hfound cell rfl)
    | none =>
      refine .ite (fun _ ↦ ?_) fun _ ↦ (display key).bind fun _ ↦ createName hr i isFinal _
      refine newEmpty.bind fun created hcreated ↦ (createEntry hvalue hkey hcreated isFinal).bind
        fun taken ↦ ?_
      have hfound : Maintains K.Holds K.OpenResolution (do
          TreeScript.logStep i (← TreeScript.display key) "created on previous value"
          return { r with value := some created }) :=
        (display key).bind fun _ ↦ foundStep hr i _ _ hcreated
      exact .ite (fun _ ↦ .get_bind fun _ _ ↦ Spares.bind (chainRaise _ _) fun _ ↦ hfound)
        fun _ ↦ hfound

theorem advance (hr : K.OpenResolution r) (i : Nat) (isFinal : Bool) (before step : Node) :
    Maintains K.Holds K.OpenResolution (chain.advance interp i isFinal before step r) := by
  refine .get_bind fun m _ ↦ ?_
  have hremembered : K.OpenResolution (Chain.remember m r) := by
    unfold Chain.remember
    split
    · exact { hr with self := hr.value }
    · exact hr
  rcases chain.takeStep_cases interp i isFinal before step (Chain.remember m r) with
    ⟨value, hvalue, hstep⟩ | ⟨name, _, _, hstep⟩ | ⟨_, _, hstep⟩
  · rw [hstep]
    exact resolveStep hinterp hsite hremembered i isFinal before step (hremembered.value _ hvalue)
  · rw [hstep]
    exact resolveName hremembered i isFinal name
  · rw [hstep]
    exact (hinterp.value hsite step .required).bind fun _ hvalue ↦
      foundStep hremembered i _ _ hvalue

/-- The steps of a chain that has got to an open place give an open cell. -/
theorem resolveSteps (steps : List Node) :
    ∀ (i : Nat) (before : Node) (r : Resolution), K.OpenResolution r →
      K.Gives (chain.resolveSteps interp i before steps r) := by
  induction steps with
  | nil =>
    intro i before r hr
    unfold Chain.resolveSteps
    split
    · rename_i cell heq
      exact .pure (hr.value cell heq)
    · exact newEmpty
  | cons step steps ih =>
    intro i before r hr
    rw [Chain.resolveSteps_cons]
    exact (advance hinterp hsite hr i _ before step).bind fun r hr ↦ ih _ step r hr

end Chains

/-- A chain that starts at an open site gives an open cell. -/
theorem resolve (hinterp : K.OpenInterp interp) (hsite : K.OpenSite site) (origin : Node)
    (mode : Mode) (steps : List Node) : K.Gives (resolve interp site origin mode steps) := by
  have hstart : K.OpenResolution { context := site.context, frame := site.frame } :=
    { hsite with value := openFound_none, self := openFound_none }
  let chain : Chain := { origin, site, mode }
  have hsteps : K.Gives (chain.resolveSteps interp 0 origin steps _) :=
    resolveSteps hinterp hsite steps 0 origin _ hstart
  unfold TreeScript.resolve
  refine Spares.check (Indifferent.raiseAt site _ _) ?_
  exact .get_bind fun _ _ ↦ .ite (fun _ ↦ (indifferent.logInfo _).bind fun _ ↦ hsteps) fun _ ↦ hsteps

/-! ### Natives -/

section Natives

theorem expectArgs (name : String) (args : List CellRef) (least most : Nat) :
    Spares K.Holds (expectArgs name args least most) :=
  .ite (fun _ ↦ .ite (fun _ ↦ .fail _) fun _ ↦ .fail _) fun _ ↦ .pure trivial

theorem stringArg (name : String) (args : List CellRef) (i : Nat) :
    Spares K.Holds (stringArg name args i) := by
  refine .get_bind fun m _ ↦ ?_
  split
  · exact .pure trivial
  · exact .fail _

theorem numberArg (name : String) (args : List CellRef) (i : Nat) :
    Spares K.Holds (numberArg name args i) := by
  refine .get_bind fun m _ ↦ ?_
  split
  · exact .pure trivial
  · exact .fail _

theorem lookUpFrom (hsite : K.OpenSite site) (name : String) :
    Maintains K.Holds K.OpenFound (Native.lookUpFrom site name) := by
  refine .get_bind fun m hm ↦ .pure ?_
  have hlocal := hm.lookUpName hsite.frame name
  cases hfound : m.lookUpName site.frame name with
  | some cell =>
    rw [hfound] at hlocal
    exact hlocal
  | none => exact hm.global? hsite.context name

/-- What was found, or a new empty cell. -/
theorem foundOrEmpty : ∀ found : Option CellRef, K.OpenFound found →
    K.Gives (match found with
      | some cell => pure cell
      | none => TreeScript.newEmpty)
  | some cell, hfound => .pure (hfound cell rfl)
  | none, _ => newEmpty

theorem runGetVariable (hsite : K.OpenSite site) (args : List CellRef) :
    K.Gives (Native.runGetVariable site args) :=
  (expectArgs _ args 1 1).bind fun _ ↦ (stringArg _ args 0).bind fun name ↦
    (lookUpFrom hsite name).bind foundOrEmpty

theorem runSetVariable (site : Site) {args : List CellRef} (hargs : K.OpenCells args) :
    K.Gives (Native.runSetVariable site args) :=
  (expectArgs _ args 2 2).bind fun _ ↦ (stringArg _ args 0).bind fun name ↦
    (argument hargs 1).bind fun _ hsource ↦ (copy hsource).bind fun _ hvalue ↦
      (put site.frame name hvalue).bind fun _ ↦ .pure hvalue

theorem runRemoveVariable (site : Site) (args : List CellRef) :
    K.Gives (Native.runRemoveVariable site args) :=
  (expectArgs _ args 1 1).bind fun _ ↦ (stringArg _ args 0).bind fun name ↦
    (remove site.frame name).bind fun _ ↦ .get_bind fun _ _ ↦
      (removeVariable site.context name).bind fun _ ↦ newBoolean _

theorem runCallByName {call : Call} (hcall : K.OpenCall call) (hsite : K.OpenSite site)
    {args : List CellRef} (hargs : K.OpenCells args) :
    K.Gives (Native.runCallByName call site args) := by
  unfold Native.runCallByName
  refine Spares.check (.fail _) ?_
  refine (stringArg _ args 0).bind fun name ↦ (lookUpFrom hsite name).bind fun found hfound ↦ ?_
  cases found with
  | none => exact .fail _
  | some function =>
    refine .get_bind fun m hm ↦ hcall _ _ _ (hfound function rfl) ?_
    have hrest : K.OpenCells (args.drop 1) := fun cell h ↦ hargs cell (List.mem_of_mem_drop h)
    split
    · rename_i only heq
      rw [heq] at hrest
      split
      · rename_i ref hfound
        have hobject := (Option.filter_eq_some_iff.mp hfound).1
        exact (hm.table ref (hm.openTable? (hrest only (List.mem_singleton.mpr rfl)) hobject)).values
      · exact hrest
    · exact hrest

/-- The imports of an open source bring in open symbols. -/
theorem runGetImports (hsite : K.OpenSite site) (args : List CellRef) :
    K.Gives (Native.runGetImports site args) := by
  refine (expectArgs _ args 0 0).bind fun _ ↦ newTable.bind fun out hout ↦ .get_bind fun m hm ↦ ?_
  refine Spares.bind (Spares.forInArray (fun i hi _ ↦ ?_) _) fun _ ↦ newObject hout
  have htarget := (hm.source site.context hsite.context).target i hi
  split
  · rename_i ref heq
    refine newTable.bind fun symbols hsymbols ↦ .get_bind fun _ _ ↦ ?_
    refine Spares.bind (Spares.forIn (fun name _ _ ↦ ?_) _) fun _ ↦ ?_
    · refine .get_bind fun n hn ↦ ?_
      split
      · rename_i cell hcell
        have hopen := hn.global? (htarget ref heq) name cell hcell
        exact (setText hsymbols name hopen).bind fun _ ↦ .pure trivial
      · exact .pure trivial
    · exact .get_bind fun _ _ ↦ (newObject hsymbols).bind fun _ hobject ↦
        (setText hout _ hobject).bind fun _ ↦ .pure trivial
  · exact .pure _

theorem runInherit {args : List CellRef} (hargs : K.OpenCells args) :
    K.Gives (Native.runInherit args) :=
  (expectArgs _ args 2 2).bind fun _ ↦ (argument hargs 0).bind fun _ htarget ↦
    (argument hargs 1).bind fun _ hsource ↦ (inherit htarget hsource).bind fun _ ↦ .pure htarget

theorem runAccess {args : List CellRef} (hargs : K.OpenCells args) :
    K.Gives (Native.runAccess args) :=
  (expectArgs _ args 2 2).bind fun _ ↦ (argument hargs 0).bind fun _ hcell ↦
    (argument hargs 1).bind fun key _ ↦ (access hcell key).bind foundOrEmpty

theorem rangeBy (args : List CellRef) (step : Decimal) (hstep : 0 < step.coeff) :
    K.Gives (Native.rangeBy args step hstep) := by
  refine .get_bind fun m _ ↦ ?_
  split
  · exact (Maintains.mapM fun d _ ↦ newNumber d).bind fun _ h ↦ newArray h
  · exact .fail _
  · split
    · split
      · refine Spares.check (.fail _) ?_
        dsimp only
        split
        · exact newTextArray _
        · exact .throw _
      · exact .fail _
    · exact .fail _

theorem runRange (args : List CellRef) : K.Gives (Native.runRange args) := by
  have hwide (step : Decimal) : K.Gives (if hstep : 0 < step.coeff then
      Native.rangeBy args step hstep else Run.fail "range() expects a non-zero step size") := by
    split
    · exact rangeBy args step _
    · exact .fail _
  refine (expectArgs _ args 2 3).bind fun _ ↦ .ite (fun _ ↦ ?_) fun _ ↦ ?_
  · have hstep : Spares K.Holds (Decimal.abs <$> TreeScript.numberArg "range" args 2) :=
      (numberArg _ args 2).map _ fun _ _ ↦ trivial
    exact hstep.bind hwide
  · exact Spares.bind (.pure _) hwide

theorem runSpace (call : Call) (args : List CellRef) : K.Gives (Native.runSpace call args) := by
  refine (expectArgs _ args 3 3).bind fun _ ↦ (numberArg _ args 0).bind fun start ↦
    (numberArg _ args 1).bind fun stop ↦ (numberArg _ args 2).bind fun count ↦ ?_
  refine Spares.check (.fail _) (.ite (fun _ ↦ ?_) fun _ ↦ ?_)
  · exact (newNumber _).bind fun _ h ↦ newArray (openCells_one h)
  · exact Spares.bind (.ofNumber _) fun _ ↦
      (Maintains.mapM fun d _ ↦ newNumber d).bind fun _ h ↦ newArray h

theorem runToNumber {args : List CellRef} (hargs : K.OpenCells args) :
    K.Gives (Native.runToNumber args) := by
  refine (expectArgs _ args 1 1).bind fun _ ↦ (argument hargs 0).bind fun cell hcell ↦
    Spares.bind (kindOf cell) fun c ↦ ?_
  split
  · exact .pure hcell
  · exact newNumber _
  · exact parseNumber _
  · exact .fail _

theorem runRound (args : List CellRef) : K.Gives (Native.runRound args) := by
  refine (expectArgs _ args 1 2).bind fun _ ↦ (numberArg _ args 0).bind fun d ↦ ?_
  exact .ite (fun _ ↦ (numberArg _ args 1).bind fun _ ↦ newNumber _) fun _ ↦
    Spares.bind (.pure _) fun _ ↦ newNumber _

theorem runExact (name : String) (compute : Decimal → Decimal) (args : List CellRef) :
    K.Gives (Native.runExact name compute args) :=
  (expectArgs name args 1 1).bind fun _ ↦ (numberArg name args 0).bind fun _ ↦ newNumber _

theorem runReal (call : Call) (name : String) (compute : Float → Float) (args : List CellRef) :
    K.Gives (Native.runReal call name compute args) := by
  refine (expectArgs name args 1 1).bind fun _ ↦ (numberArg name args 0).bind fun d ↦ ?_
  exact Spares.check (.fail _) (newNumber _)

theorem switchOption (args : List CellRef) (current : Options → Bool)
    {change : Bool → Options → Options}
    (hforbidden : ∀ b o, (change b o).forbiddenImports = o.forbiddenImports)
    (hautomatic : ∀ b o, (change b o).autoImports = o.autoImports) :
    K.Gives (Native.switchOption args current change) :=
  .get_bind fun _ _ ↦
    (indifferent.modifyOptions (hforbidden _) (hautomatic _)).bind fun _ ↦ newBoolean _

theorem runTrace (args : List CellRef) : K.Gives (Native.runTrace args) := by
  refine (expectArgs _ args 1 2).bind fun _ ↦ (stringArg _ args 0).bind fun flag ↦ ?_
  split
  · refine Spares.check (.fail _) ((numberArg _ args 1).bind fun d ↦ Spares.check (.fail _) ?_)
    let change (options : Options) : Options := { options with trace := d.word }
    have hchanged : Spares K.Holds
        (modify fun m : Machine ↦ { m with options := change m.options } : Run Unit) :=
      indifferent.modifyOptions (fun _ ↦ rfl) fun _ ↦ rfl
    exact hchanged.bind fun _ ↦ newEmpty
  · exact switchOption args _ (fun _ _ ↦ rfl) fun _ _ ↦ rfl
  · exact switchOption args _ (fun _ _ ↦ rfl) fun _ _ ↦ rfl
  · exact switchOption args _ (fun _ _ ↦ rfl) fun _ _ ↦ rfl
  · exact .fail _

/-- Where no source is enclosed, functions may be called from the source loaded last. -/
theorem lastSite (hm : K.Holds m) (hnone : ∀ ref, ¬K.context ref) {last : Site}
    (h : Native.lastSite? m = some last) : K.OpenSite last := by
  obtain ⟨context, hlast, rfl⟩ := Option.map_eq_some_iff.mp h
  have hopen : K.OpenContext context :=
    ⟨hnone context, hm.loaded context (Array.mem_of_back? hlast)⟩
  exact ⟨hopen, (hm.source context hopen).frame⟩

theorem runHost (hinterp : K.OpenInterp interp) {call : Call} (hcall : K.OpenCall call)
    (function : HostFunction) (hopen : ¬K.native (.host function)) {args : List CellRef}
    (hargs : K.OpenCells args) : K.Gives (Native.runHost interp call function args) := by
  unfold Native.runHost
  split
  · refine .get_bind fun m _ ↦ ?_
    split
    · exact newNumber _
    · exact .fail _
  · exact .fail _
  · exact .fail _
  · exact .throw _
  · exact newEmpty
  · obtain ⟨hfunction, hrest⟩ := List.forall_mem_cons.mp hargs
    exact hcall "invoke" _ _ hfunction hrest
  · exact .fail _
  · obtain ⟨hfunction, hrest⟩ := List.forall_mem_cons.mp hargs
    refine .get_bind fun m hm ↦ ?_
    split
    · rename_i last hlast
      have hsite := lastSite hm (K.bare.resolve_left hopen) hlast
      exact hinterp.call last _ _ _ _ hsite trivial hfunction hrest
    · exact .fail _
  · exact .fail _

/-- A native that may be had outside gives an open cell when it is called from an open site. -/
theorem callNative (hinterp : K.OpenInterp interp) (hsite : K.OpenSite site) {call : Call}
    (hcall : K.OpenCall call) {function : Native} (hopen : ¬K.native function) {args : List CellRef}
    (hargs : K.OpenCells args) : K.Gives (function.run interp site call args) := by
  cases function with
  | print => exact .get_bind fun _ _ ↦ (indifferent.say _).bind fun _ ↦ newEmpty
  | getVariable => exact runGetVariable hsite args
  | setVariable => exact runSetVariable site hargs
  | removeVariable => exact runRemoveVariable site args
  | callFunctionByName => exact runCallByName hcall hsite hargs
  | getImports => exact runGetImports hsite args
  | inherit => exact runInherit hargs
  | access => exact runAccess hargs
  | typeName =>
    exact (expectArgs _ args 1 1).bind fun _ ↦ .get_bind fun _ _ ↦ newString _
  | range => exact runRange args
  | space => exact runSpace call args
  | toNumber => exact runToNumber hargs
  | round => exact runRound args
  | floor => exact runExact "floor" Decimal.floor args
  | ceil => exact runExact "ceil" Decimal.ceil args
  | abs => exact runExact "abs" Decimal.abs args
  | sqrt => exact runReal call "sqrt" Float.sqrt args
  | sin => exact runReal call "sin" Float.sin args
  | cos => exact runReal call "cos" Float.cos args
  | tan => exact runReal call "tan" Float.tan args
  | stackTraceValues =>
    exact .get_bind fun _ _ ↦ (indifferent.modifyTrace _ _).bind fun _ ↦ newEmpty
  | trace => exact runTrace args
  | operator symbol fixity => exact evaluateOperator hcall _ symbol fixity hargs
  | host function => exact runHost hinterp hcall function hopen hargs

end Natives

end TreeScript.Enclosure
