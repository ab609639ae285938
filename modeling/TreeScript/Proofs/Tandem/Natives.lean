import TreeScript.Proofs.Tandem.Methods

/-!
# Natives and access chains in tandem

The natives run in tandem over two interpreters with the same fuel (`native`), and so do access
chains (`resolve`), which evaluate keys and arguments and call functions on their way.
-/

set_option autoImplicit false

namespace TreeScript

theorem Plain.symbolsObject (context : ContextRef) : Plain (symbolsObject context) :=
  .get_bind fun _ ↦ Plain.newTable.bind fun ref ↦ Plain.bind (.forIn _ (fun _ _ ↦
    (Plain.setText ref _ _).bind fun _ ↦ .pure _) _) fun _ ↦ .newObject ref

namespace Tandem

variable {enters : Node → Prop} {I J : Interp} {realm : Realm} {α : Type}

/-! ### Natives -/

theorem lookUpFrom (site : Site) (name : String) :
    Tandem enters I J realm (Native.lookUpFrom site name) (Native.lookUpFrom site name) :=
  get_bind fun _ ↦ pure _

theorem runGetVariable (site : Site) (args : List CellRef) :
    Tandem enters I J .native (Native.runGetVariable site args)
      (Native.runGetVariable site args) := by
  refine (steady (.expectArgs _ args 1 1)).bind fun _ ↦ (steady (.stringArg _ args 0)).bind
    fun name ↦ (lookUpFrom site name).bind fun found ↦ ?_
  cases found with
  | none => exact steady .newEmpty
  | some cell => exact pure cell

theorem runSetVariable (site : Site) (args : List CellRef) :
    Tandem enters I J .native (Native.runSetVariable site args)
      (Native.runSetVariable site args) :=
  (steady (.expectArgs _ args 2 2)).bind fun _ ↦ (steady (.stringArg _ args 0)).bind fun name ↦
    (steady (.argument args 1)).bind fun source ↦ (steady (.copy source)).bind fun value ↦
      (plain (.put site.frame name value)).bind fun _ ↦ pure value

theorem runRemoveVariable (site : Site) (args : List CellRef) :
    Tandem enters I J .native (Native.runRemoveVariable site args)
      (Native.runRemoveVariable site args) :=
  (steady (.expectArgs _ args 1 1)).bind fun _ ↦ (steady (.stringArg _ args 0)).bind fun name ↦
    (plain (.remove site.frame name)).bind fun _ ↦ get_bind fun _ ↦
      (plain (.removeVariable site.context name)).bind fun _ ↦ steady (.newBoolean _)

theorem runGetImports (site : Site) (args : List CellRef) :
    Tandem enters I J .native (Native.runGetImports site args)
      (Native.runGetImports site args) := by
  refine (steady (.expectArgs _ args 0 0)).bind fun _ ↦ (steady .newTable).bind fun out ↦
    get_bind fun n ↦ bind (forInArray _ (fun i _ ↦ ?_) _) fun _ ↦ steady (.newObject out)
  split
  · refine (steady .newTable).bind fun symbols ↦ get_bind fun n ↦
      bind (forIn _ (fun name _ ↦ get_bind fun n ↦ ?_) _) fun _ ↦ ?_
    · split
      · exact (steady (.setText symbols name _)).bind fun _ ↦ pure _
      · exact pure _
    · exact get_bind fun n ↦ (steady (.newObject symbols)).bind fun _ ↦
        (steady (.setText out _ _)).bind fun _ ↦ pure _
  · exact pure _

theorem runStackTraceValues (site : Site) (args : List CellRef) :
    Tandem enters I J .native (Native.runStackTraceValues site args)
      (Native.runStackTraceValues site args) := by
  refine get_bind fun n ↦ bind (plain (.retrace _ ?_ ?_)) fun _ ↦ steady .newEmpty
  · exact fun _ ↦ rfl
  · exact fun _ ↦ rfl

theorem printValues (args : List CellRef) :
    Tandem enters I J .native (Native.printValues args) (Native.printValues args) :=
  get_bind fun _ ↦ (plain (.say _)).bind fun _ ↦ steady .newEmpty

theorem switchOption (args : List CellRef) (current : Options → Bool)
    (change : Bool → Options → Options) :
    Tandem enters I J .native (Native.switchOption args current change)
      (Native.switchOption args current change) := by
  refine get_bind fun n ↦ bind (plain (.of_modify ?_)) fun _ ↦ steady (.newBoolean _)
  exact fun _ ↦ rfl

theorem runTrace (args : List CellRef) :
    Tandem enters I J .native (Native.runTrace args) (Native.runTrace args) := by
  refine (steady (.expectArgs _ args 1 2)).bind fun _ ↦ (steady (.stringArg _ args 0)).bind
    fun flag ↦ ?_
  split
  · refine check (fail _) ((steady (.numberArg _ args 1)).bind fun d ↦ check (fail _) ?_)
    refine bind (plain (.of_modify ?_)) fun _ ↦ steady .newEmpty
    exact fun _ ↦ rfl
  · exact switchOption args _ _
  · exact switchOption args _ _
  · exact switchOption args _ _
  · exact fail _

section Callers

variable {call call' : Call} (hcall : Calls enters I J call call')
include hcall

theorem runCallByName (site : Site) (args : List CellRef) :
    Tandem enters I J .native (Native.runCallByName call site args)
      (Native.runCallByName call' site args) := by
  unfold Native.runCallByName
  refine check (fail _) ((steady (.stringArg _ args 0)).bind fun name ↦
    (lookUpFrom site name).bind fun found ↦ ?_)
  cases found with
  | none => exact fail _
  | some function => exact get_bind fun n ↦ hcall.invoke name function _

theorem runHost (function : HostFunction) (args : List CellRef) :
    Tandem enters I J .native (Native.runHost I call function args)
      (Native.runHost J call' function args) := by
  unfold Native.runHost
  split
  · refine get_bind fun n ↦ ?_
    split
    · exact steady (.newNumber _)
    · exact fail _
  · exact fail _
  · exact fail _
  · exact steady (.throw _)
  · exact steady .newEmpty
  · exact hcall.invoke "invoke" _ _
  · exact fail _
  · refine get_bind fun n ↦ ?_
    split
    · exact Tandem.call _ "bare" .none _ _
    · exact fail _
  · exact fail _

theorem native (site : Site) (function : Native) (args : List CellRef) :
    Tandem enters I J .native (function.run I site call args)
      (function.run J site call' args) := by
  have hreal (name : String) (compute : Float → Float) : Tandem enters I J .native
      (Native.runReal call name compute args) (Native.runReal call' name compute args) := by
    have h : Native.runReal call' name compute args = Native.runReal call name compute args := by
      unfold Native.runReal
      rw [hcall.scale]
    rw [h]
    exact steady (.runReal call name compute args)
  cases function with
  | print => exact printValues args
  | getVariable => exact runGetVariable site args
  | setVariable => exact runSetVariable site args
  | removeVariable => exact runRemoveVariable site args
  | callFunctionByName => exact runCallByName hcall site args
  | getImports => exact runGetImports site args
  | inherit => exact steady (.runInherit args)
  | access => exact steady (.runAccess args)
  | typeName => exact steady (.runType args)
  | range => exact steady (.runRange args)
  | space =>
    have h : Native.runSpace call' args = Native.runSpace call args := by
      unfold Native.runSpace
      rw [hcall.scale]
    unfold Native.run
    rw [h]
    exact steady (.runSpace call args)
  | toNumber => exact steady (.runToNumber args)
  | round => exact steady (.runRound args)
  | floor => exact steady (.runExact "floor" Decimal.floor args)
  | ceil => exact steady (.runExact "ceil" Decimal.ceil args)
  | abs => exact steady (.runExact "abs" Decimal.abs args)
  | sqrt => exact hreal "sqrt" Float.sqrt
  | sin => exact hreal "sin" Float.sin
  | cos => exact hreal "cos" Float.cos
  | tan => exact hreal "tan" Float.tan
  | stackTraceValues => exact runStackTraceValues site args
  | trace => exact runTrace args
  | operator symbol fixity => exact evaluateOperator hcall _ symbol fixity args
  | host function => exact runHost hcall function args

end Callers

/-! ### Access chains -/

theorem logStep (i : Nat) (key source : String) :
    Tandem enters I J realm (TreeScript.logStep i key source) (TreeScript.logStep i key source) :=
  quiet (.logStep i key source)

variable (chain : Chain)

theorem chainRaise (kind : ErrorKind) (message : String) :
    Tandem enters I J realm (chain.raise kind message : Run α) (chain.raise kind message) :=
  raise chain.site kind message

theorem notExported (ref : ModuleRef) (name : String) :
    Tandem enters I J realm (chain.notExported ref name : Run α) (chain.notExported ref name) :=
  get_bind fun _ ↦ chainRaise chain _ _

theorem follow (n : Machine) (i : Import) (ref : ModuleRef) (name : String) (r : Resolution) :
    Tandem enters I J realm (chain.follow n i ref name r) (chain.follow n i ref name r) := by
  refine bind (ite (ite ?_ ?_) (pure ())) fun _ ↦ bind (ite ?_ (pure ())) fun _ ↦
    (plain (.forkWith _ _)).bind fun frame ↦ pure _
  · exact chainRaise chain _ _
  · exact chainRaise chain _ _
  · exact chainRaise chain _ _

theorem switchToImport (name : String) (writing : Bool) (r : Resolution) (imports : List Import) :
    Tandem enters I J realm (chain.switchToImport name writing r imports)
      (chain.switchToImport name writing r imports) := by
  induction imports with
  | nil => exact pure none
  | cons i imports ih =>
    rw [Chain.switchToImport_cons]
    cases i.target with
    | none => exact chainRaise chain _ _
    | some ref => exact get_bind fun n ↦ ite (map some (follow chain n i ref name r)) ih

theorem createName (i : Nat) (isFinal : Bool) (name : String) (r : Resolution) :
    Tandem enters I J realm (chain.createName i isFinal name r)
      (chain.createName i isFinal name r) := by
  rw [Chain.createName_eq]
  have hplace : Plain (Chain.newPlace isFinal) := .ite .newEmpty (Plain.newTable.bind .newObject)
  refine bind (ite (get_bind fun _ ↦ chainRaise chain _ _) (pure ())) fun _ ↦ ?_
  exact (plain hplace).bind fun cell ↦ (plain (.put r.frame name cell)).bind fun _ ↦
    (logStep i name "created").bind fun _ ↦ pure _

theorem refresh (cell : CellRef) {rebind : CellRef → Run Unit} (hrebind : ∀ c, Plain (rebind c)) :
    Tandem enters I J realm (chain.refresh cell rebind) (chain.refresh cell rebind) :=
  ite ((plain (.copy cell)).bind fun fresh ↦ (plain (hrebind fresh)).bind fun _ ↦ pure fresh)
    (pure cell)

theorem resolveForeign (i : Nat) (isFinal : Bool) (name : String) (r : Resolution) :
    Tandem enters I J realm (chain.resolveForeign i isFinal name r)
      (chain.resolveForeign i isFinal name r) := by
  refine get_bind fun n ↦ (switchToImport chain name _ r _).bind fun moved ↦ ?_
  cases moved with
  | none =>
    dsimp only
    refine ite ?_ ?_
    · exact (plain (.symbolsObject _)).bind fun symbols ↦ (logStep i name _).bind fun _ ↦ pure _
    · split
      · exact notExported chain _ name
      · exact createName chain i isFinal name r
  | some moved =>
    exact get_bind fun n ↦ (logStep i name _).bind fun _ ↦ check (chainRaise chain _ _) (pure _)

theorem resolveName (i : Nat) (isFinal : Bool) (name : String) (r : Resolution) :
    Tandem enters I J realm (chain.resolveName i isFinal name r)
      (chain.resolveName i isFinal name r) := by
  have hfound (cell : CellRef) (source : String) {rebind : CellRef → Run Unit}
      (hrebind : ∀ c, Plain (rebind c)) : Tandem enters I J realm
        (do
          let cell ← chain.refresh cell rebind
          TreeScript.logStep i name source
          return { r with value := some cell })
        (do
          let cell ← chain.refresh cell rebind
          TreeScript.logStep i name source
          return { r with value := some cell }) :=
    (refresh chain cell hrebind).bind fun cell ↦ (logStep i name source).bind fun _ ↦ pure _
  refine get_bind fun n ↦ ?_
  split
  · have hlocal := fun cell ↦ hfound cell "local symbols" (.put r.frame name)
    split
    · exact get_bind fun k ↦ check (notExported chain _ name) (hlocal _)
    · exact hlocal _
  · refine get_bind fun k ↦ ?_
    split
    · exact hfound _ "global variables" (.setVariable r.context name)
    · exact resolveForeign chain i isFinal name r

theorem stepKey (step : Node) :
    Tandem enters I J realm (chain.stepKey I step) (chain.stepKey J step) := by
  unfold Chain.stepKey
  split
  · exact plain (.newString _)
  · exact value chain.site _ .required
  · exact value chain.site _ .required

theorem resolveStep (i : Nat) (isFinal : Bool) (before step : Node) (cell : CellRef)
    (r : Resolution) :
    Tandem enters I J realm (chain.resolveStep I i isFinal before step cell r)
      (chain.resolveStep J i isFinal before step cell r) := by
  unfold Chain.resolveStep
  split
  · exact (values chain.site _).bind fun args ↦ (call chain.site _ _ cell args).bind fun result ↦
      (logStep i _ _).bind fun _ ↦ pure _
  · refine (stepKey chain step).bind fun key ↦ (plain (.access cell key)).bind fun found ↦ ?_
    split
    · exact (plain (.display key)).bind fun shown ↦ (logStep i _ _).bind fun _ ↦ pure _
    · refine ite ?_ ((plain (.display key)).bind fun shown ↦ createName chain i isFinal shown r)
      refine (plain .newEmpty).bind fun created ↦
        (plain (.createEntry cell key created isFinal)).bind fun taken ↦ ?_
      have hcreated : Tandem enters I J realm
          (do
            TreeScript.logStep i (← display key) "created on previous value"
            return { r with value := some created })
          (do
            TreeScript.logStep i (← display key) "created on previous value"
            return { r with value := some created }) :=
        (plain (.display key)).bind fun shown ↦ (logStep i _ _).bind fun _ ↦ pure _
      exact ite (get_bind fun n ↦ (chainRaise chain _ _).bind fun _ ↦ hcreated) hcreated

theorem advance (i : Nat) (isFinal : Bool) (before step : Node) (r : Resolution) :
    Tandem enters I J realm (chain.advance I i isFinal before step r)
      (chain.advance J i isFinal before step r) := by
  refine get_bind fun n ↦ ?_
  unfold Chain.takeStep
  split
  · exact resolveStep chain i isFinal before _ _ _
  · exact resolveName chain i isFinal _ _
  · exact (value chain.site _ .required).bind fun cell ↦ (logStep i _ _).bind fun _ ↦ pure _

theorem resolveSteps (steps : List Node) : ∀ (i : Nat) (before : Node) (r : Resolution),
    Tandem enters I J realm (chain.resolveSteps I i before steps r)
      (chain.resolveSteps J i before steps r) := by
  induction steps with
  | nil =>
    intro i before r
    unfold Chain.resolveSteps
    split
    · exact pure _
    · exact plain .newEmpty
  | cons step steps ih =>
    intro i before r
    rw [Chain.resolveSteps_cons, Chain.resolveSteps_cons]
    exact (advance chain i _ before step r).bind fun q ↦ ih (i + 1) step q

/-- Access chains resolve in tandem. -/
theorem resolve (site : Site) (origin : Node) (mode : Mode) (steps : List Node) :
    Tandem enters I J realm (TreeScript.resolve I site origin mode steps)
      (TreeScript.resolve J site origin mode steps) := by
  unfold TreeScript.resolve
  refine check (raise site _ _) (get_bind fun n ↦ check (quiet (.logInfo _)) ?_)
  exact resolveSteps _ steps 0 origin _

end Tandem

end TreeScript
