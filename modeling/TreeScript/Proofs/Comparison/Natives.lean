import TreeScript.Proofs.Comparison.Methods
import TreeScript.Eval.Native

/-!
# Natives under comparison

The functions of the core modules and those of a host program, called at sites that are compared
(`native`). Natives that bind and unbind names do so in the frame they are called from. The
comparison may leave out some of them: it has to follow only those that it does not avoid.
-/

set_option autoImplicit false

namespace TreeScript

namespace Steady

theorem expectArgs (name : String) (args : List CellRef) (least most : Nat) :
    Steady (expectArgs name args least most) :=
  ite (fun _ ↦ ite (fun _ ↦ fail _) fun _ ↦ fail _) fun _ ↦ pure ()

theorem stringArg (name : String) (args : List CellRef) (i : Nat) :
    Steady (stringArg name args i) := by
  refine get_bind (fun n n' h ↦ ?_) fun n ↦ ?_
  · rcases h.argument_cases args[i]? with hc | ⟨_, _, _, hc, hc'⟩
    · rw [h.argType, hc]
    · rw [h.argType, hc, hc']
  · split
    · exact pure _
    · exact fail _

theorem numberArg (name : String) (args : List CellRef) (i : Nat) :
    Steady (numberArg name args i) := by
  refine get_bind (fun n n' h ↦ by rw [h.argType, h.number?]) fun n ↦ ?_
  split
  · exact pure _
  · exact fail _

theorem runInherit (args : List CellRef) : Steady (Native.runInherit args) :=
  (expectArgs _ args 2 2).bind fun _ ↦ (argument args 0).bind fun target ↦
    (argument args 1).bind fun source ↦ (inherit target source).bind fun _ ↦ pure target

theorem runAccess (args : List CellRef) : Steady (Native.runAccess args) := by
  refine (expectArgs _ args 2 2).bind fun _ ↦ (argument args 0).bind fun cell ↦
    (argument args 1).bind fun key ↦ (access cell key).bind fun found ↦ ?_
  split
  · exact pure _
  · exact newEmpty

theorem runType (args : List CellRef) : Steady (Native.runType args) :=
  (expectArgs _ args 1 1).bind fun _ ↦ get_bind (fun n n' h ↦ by rw [h.argType]) fun _ ↦
    newString _

theorem runRange (args : List CellRef) : Steady (Native.runRange args) := by
  have hrange (step : Decimal) (hstep : 0 < step.coeff) :
      Steady (Native.rangeBy args step hstep) := by
    refine get_bind (fun n n' h ↦ ?_) fun n ↦ ?_
    · rw [h.number?]
      rcases h.argument_cases args[0]? with ha | ⟨_, _, _, ha, ha'⟩
      · rcases h.argument_cases args[1]? with hb | ⟨_, _, _, hb, hb'⟩
        · rw [ha, hb]
        · rw [ha, hb, hb']
          cases args[0]?.map n.content with
          | none => rfl
          | some c => cases c <;> rfl
      · rw [ha, ha']
    · split
      · exact (mapM _ newNumber).bind newArray
      · exact fail _
      · split
        · split
          · refine check (fail _) ?_
            dsimp only
            split
            · exact newTextArray _
            · exact throw _
          · exact fail _
        · exact fail _
  have hwide (step : Decimal) : Steady (if hstep : 0 < step.coeff then
      Native.rangeBy args step hstep else Run.fail "range() expects a non-zero step size") := by
    split
    · exact hrange step _
    · exact fail _
  refine (expectArgs _ args 2 3).bind fun _ ↦ ite (fun _ ↦ ?_) fun _ ↦ ?_
  · exact (map Decimal.abs (numberArg _ args 2)).bind hwide
  · exact (pure _).bind hwide

theorem runToNumber (args : List CellRef) : Steady (Native.runToNumber args) := by
  refine (expectArgs _ args 1 1).bind fun _ ↦ (argument args 0).bind fun cell ↦
    content_bind (fun _ _ _ ↦ rfl) fun c ↦ ?_
  split
  · exact pure _
  · exact newNumber _
  · exact parseNumber _
  · exact fail _

theorem runRound (args : List CellRef) : Steady (Native.runRound args) := by
  refine (expectArgs _ args 1 2).bind fun _ ↦ (numberArg _ args 0).bind fun d ↦ ?_
  exact ite (fun _ ↦ (numberArg _ args 1).bind fun _ ↦ newNumber _) fun _ ↦
    (pure _).bind fun _ ↦ newNumber _

theorem runExact (name : String) (compute : Decimal → Decimal) (args : List CellRef) :
    Steady (Native.runExact name compute args) :=
  (expectArgs name args 1 1).bind fun _ ↦ (numberArg name args 0).bind fun _ ↦ newNumber _

theorem runSpace (call : Call) (args : List CellRef) : Steady (Native.runSpace call args) := by
  refine (expectArgs _ args 3 3).bind fun _ ↦ (numberArg _ args 0).bind fun start ↦
    (numberArg _ args 1).bind fun stop ↦ (numberArg _ args 2).bind fun count ↦ ?_
  refine check (fail _) (ite (fun _ ↦ ?_) fun _ ↦ ?_)
  · exact (newNumber _).bind fun _ ↦ newArray _
  · exact (ofNumber _).bind fun _ ↦ (mapM _ newNumber).bind newArray

theorem runReal (call : Call) (name : String) (compute : Float → Float) (args : List CellRef) :
    Steady (Native.runReal call name compute args) := by
  refine (expectArgs name args 1 1).bind fun _ ↦ (numberArg name args 0).bind fun d ↦ ?_
  exact check (fail _) (newNumber _)

end Steady

namespace Comparison

open Relations

variable {K : Comparison} {m : Machine} {s s' : Site}

/-! ### Natives that see the site they are called from -/

section Sites

variable (hsites : K.Sites m s s')
include hsites

theorem lookUpFrom (name : String) :
    K.Same m (Native.lookUpFrom s name) (Native.lookUpFrom s' name) := by
  refine Runs.get_bind fun n n' halike ↦ ?_
  rw [halike.lookUpName, halike.global?, (K.sites_alike hsites).lookUpName,
    (K.sites_alike hsites).context]
  exact Same.refl_pure _

theorem runGetVariable (args : List CellRef) :
    K.Same m (Native.runGetVariable s args) (Native.runGetVariable s' args) := by
  refine (steady (.expectArgs _ args 1 1)).bind fun _ ↦ (steady (.stringArg _ args 0)).bind
    fun name ↦ (lookUpFrom hsites name).bind fun found ↦ ?_
  cases found with
  | none => exact steady .newEmpty
  | some cell => exact Same.refl_pure cell

theorem runSetVariable (args : List CellRef) :
    K.Same m (Native.runSetVariable s args) (Native.runSetVariable s' args) :=
  (steady (.expectArgs _ args 2 2)).bind fun _ ↦ (steady (.stringArg _ args 0)).bind fun name ↦
    (steady (.argument args 1)).bind fun source ↦ K.put name (.copy source) hsites

theorem runRemoveVariable (havoided : K.avoided .removeVariable = false) (args : List CellRef) :
    K.Same m (Native.runRemoveVariable s args) (Native.runRemoveVariable s' args) := by
  refine (steady (.expectArgs _ args 1 1)).bind fun _ ↦ (steady (.stringArg _ args 0)).bind
    fun name ↦ (K.remove name havoided hsites).bind fun removed ↦ ?_
  refine Runs.get_bind fun n n' halike ↦ ?_
  rw [halike.global?, (K.sites_alike hsites).context]
  refine Same.bind ?_ fun _ ↦ steady (.newBoolean _)
  have h := K.removeVariable name havoided hsites
  rwa [(K.sites_alike hsites).context] at h

theorem runGetImports (args : List CellRef) :
    K.Same m (Native.runGetImports s args) (Native.runGetImports s' args) := by
  refine (steady (.expectArgs _ args 0 0)).bind fun _ ↦ (steady .newTable).bind fun out ↦ ?_
  rw [(K.sites_alike hsites).context]
  refine steady (.get_bind (fun n n' h ↦ by rw [h.context]) fun n ↦ ?_)
  refine Steady.bind (.forInArray _ _ fun i _ ↦ ?_) fun _ ↦ .newObject out
  split
  · refine Steady.newTable.bind fun symbols ↦
      .get_bind (fun n n' h ↦ by rw [h.module?]) fun n ↦ ?_
    refine Steady.bind (.forIn _ _ fun name _ ↦ ?_) fun _ ↦ ?_
    · refine .get_bind (fun n n' h ↦ by rw [h.global?]) fun n ↦ ?_
      split
      · exact (Steady.setText symbols name _).bind fun _ ↦ .pure _
      · exact .pure _
    · refine .get_bind (fun n n' h ↦ by rw [h.moduleName]) fun n ↦ ?_
      exact (Steady.newObject symbols).bind fun _ ↦ (Steady.setText out _ _).bind fun _ ↦ .pure _
  · exact .pure _

theorem runStackTraceValues (args : List CellRef) :
    K.Same m (Native.runStackTraceValues s args) (Native.runStackTraceValues s' args) := by
  refine Runs.get_bind fun n n' halike ↦ ?_
  rw [halike.display]
  let change (trace : StackTrace) : StackTrace := { trace with debugValues := args.map n.display }
  exact (K.retrace change (K.callers hsites) fun _ ↦ rfl).bind fun _ ↦ steady .newEmpty

end Sites

/-! ### Natives that print, and natives that set options -/

theorem printValues (args : List CellRef) :
    K.Same m (Native.printValues args) (Native.printValues args) := by
  refine Runs.get_bind fun n n' halike ↦ ?_
  rw [halike.display]
  exact (K.say m _).bind fun _ ↦ steady .newEmpty

theorem switchOption (havoided : K.avoided .trace = false) (args : List CellRef)
    (current : Options → Bool) {change : Bool → Options → Options}
    (hchange : ∀ b options, (change b options).divisionScale = options.divisionScale ∧
      (change b options).suggestions = options.suggestions ∧
      (change b options).debugger = options.debugger) :
    K.Same m (Native.switchOption args current change)
      (Native.switchOption args current change) := by
  refine Runs.get_bind_now fun n n' _ hlike ↦ ?_
  rw [(K.alike hlike).isTrue, K.options havoided hlike]
  exact (K.adjust n _ havoided (hchange _)).bind fun _ ↦ steady (.newBoolean _)

theorem runTrace (havoided : K.avoided .trace = false) (args : List CellRef) :
    K.Same m (Native.runTrace args) (Native.runTrace args) := by
  refine (steady (.expectArgs _ args 1 2)).bind fun _ ↦ (steady (.stringArg _ args 0)).bind
    fun flag ↦ ?_
  split
  · refine (steady (.fail _)).check ?_
    refine (steady (.numberArg _ args 1)).bind fun d ↦ (steady (.fail _)).check ?_
    let change (options : Options) : Options := { options with trace := d.word }
    exact (K.adjust m change havoided fun _ ↦ ⟨rfl, rfl, rfl⟩).bind fun _ ↦ steady .newEmpty
  · exact switchOption havoided args _ fun _ _ ↦ ⟨rfl, rfl, rfl⟩
  · exact switchOption havoided args _ fun _ _ ↦ ⟨rfl, rfl, rfl⟩
  · exact switchOption havoided args _ fun _ _ ↦ ⟨rfl, rfl, rfl⟩
  · exact steady (.fail _)

/-! ### Natives that call back -/

variable {call call' : Call}

theorem runCallByName (hcall : K.Calls m call call') (hsites : K.Sites m s s')
    (args : List CellRef) :
    K.Same m (Native.runCallByName call s args) (Native.runCallByName call' s' args) := by
  unfold Native.runCallByName
  refine (steady (.fail _)).check ?_
  refine (steady (.stringArg _ args 0)).bind fun name ↦
    (lookUpFrom hsites name).bind fun found ↦ ?_
  cases found with
  | none => exact steady (.fail _)
  | some function =>
    refine Runs.get_bind fun n n' halike ↦ ?_
    rw [halike.isArray, halike.tableOf?, halike.table]
    exact hcall.invoke name function _

theorem runHost {interp : Interp} (hinterp : K.Evaluates interp) (hcall : K.Calls m call call')
    (function : HostFunction) (havoided : K.avoided (.host function) = false)
    (args : List CellRef) :
    K.Same m (Native.runHost interp call function args)
      (Native.runHost interp call' function args) := by
  unfold Native.runHost
  split
  · refine Runs.get_bind fun n n' halike ↦ ?_
    rw [halike.number?]
    split
    · exact steady (.newNumber _)
    · exact steady (.fail _)
  · exact steady (.fail _)
  · exact steady (.fail _)
  · exact steady (.throw _)
  · exact steady .newEmpty
  · exact hcall.invoke "invoke" _ _
  · exact steady (.fail _)
  · refine Runs.get_bind_now fun n n' _ hlike ↦ ?_
    rw [(K.alike hlike).lastSite?]
    cases hsite : Native.lastSite? n with
    | none => exact steady (.fail _)
    | some site => exact hinterp.call "bare" .none _ _ (K.lastSite havoided hlike hsite)
  · exact steady (.fail _)

/-- A native called from sites that are compared compares, unless it is avoided. -/
theorem native {interp : Interp} (hinterp : K.Evaluates interp) (hsites : K.Sites m s s')
    (hcall : K.Calls m call call') (function : Native) (havoided : K.avoided function = false)
    (args : List CellRef) :
    K.Same m (function.run interp s call args) (function.run interp s' call' args) := by
  have hreal (name : String) (compute : Float → Float) :
      K.Same m (Native.runReal call name compute args)
        (Native.runReal call' name compute args) := by
    have h : Native.runReal call' name compute args = Native.runReal call name compute args := by
      unfold Native.runReal
      rw [hcall.scale]
    rw [h]
    exact steady (.runReal call name compute args)
  cases function with
  | print => exact printValues args
  | getVariable => exact runGetVariable hsites args
  | setVariable => exact runSetVariable hsites args
  | removeVariable => exact runRemoveVariable hsites havoided args
  | callFunctionByName => exact runCallByName hcall hsites args
  | getImports => exact runGetImports hsites args
  | inherit => exact steady (.runInherit args)
  | access => exact steady (.runAccess args)
  | typeName => exact steady (.runType args)
  | range => exact steady (.runRange args)
  | space =>
    have h : Native.runSpace call' args = Native.runSpace call args := by
      unfold Native.runSpace
      rw [hcall.scale]
    unfold Native.run
    rw [h]
    exact steady (.runSpace call args)
  | toNumber => exact steady (.runToNumber args)
  | round => exact steady (.runRound args)
  | floor => exact steady (.runExact "floor" Decimal.floor args)
  | ceil => exact steady (.runExact "ceil" Decimal.ceil args)
  | abs => exact steady (.runExact "abs" Decimal.abs args)
  | sqrt => exact hreal "sqrt" Float.sqrt
  | sin => exact hreal "sin" Float.sin
  | cos => exact hreal "cos" Float.cos
  | tan => exact hreal "tan" Float.tan
  | stackTraceValues => exact runStackTraceValues hsites args
  | trace => exact runTrace havoided args
  | operator symbol fixity => exact evaluateOperator hcall _ symbol fixity args
  | host function => exact runHost hinterp hcall function havoided args

end Comparison

end TreeScript
