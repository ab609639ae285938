import TreeScript.Proofs.Comparison.Natives
import TreeScript.Proofs.Chain

/-!
# Access chains under comparison

Resolving an access chain at sites that are compared compares (`resolve`). What is carried along a
chain is that the frame it has got to, with the source that frame stands for, is again a site that
is compared (`Resolutions`): a chain that moves into a module gets a frame with all variables of the
module's source.
-/

set_option autoImplicit false

namespace TreeScript

theorem Quiet.logStep (i : Nat) (key source : String) : Quiet (logStep i key source) :=
  .get_bind fun _ ↦ .ite (.logInfo _) .pure

theorem Steady.symbolsObject (context : ContextRef) : Steady (symbolsObject context) := by
  refine .get_bind (fun n n' h ↦ by rw [h.scope, h.context]) fun n ↦
    Steady.newTable.bind fun ref ↦ Steady.bind (.forIn _ _ fun _ _ ↦ ?_) fun _ ↦ .newObject ref
  exact (Steady.setText ref _ _).bind fun _ ↦ .pure _

theorem MakesCell.newPlace (isFinal : Bool) : MakesCell (Chain.newPlace isFinal) where
  steady := .ite (fun _ ↦ .newEmpty) fun _ ↦ Steady.newTable.bind .newObject
  new m := by
    cases isFinal with
    | true => exact (alloc .empty).new m
    | false => exact (alloc (.object ⟨m.tables.size⟩)).new m.withTable

namespace Comparison

open Relations

variable {K : Comparison} {m n : Machine} {α β : Type} {R : Machine → α → β → Prop}
  {chain chain' : Chain} {r r' : Resolution}

/-- Two chains with the same steps, evaluated at sites that are compared. -/
inductive Chains (K : Comparison) (m : Machine) (chain : Chain) : Chain → Prop
  | at (site : Site) (hsites : K.Sites m chain.site site) : Chains K m chain { chain with site }

/-- Two chains that have got equally far. -/
inductive Resolutions (K : Comparison) (m : Machine) (r : Resolution) : Resolution → Prop
  | at (frame : Frame) (hsites : K.Sites m ⟨r.context, r.frame⟩ ⟨r.context, frame⟩) :
    Resolutions K m r { r with frame }

theorem Chains.later (h : K.Chains m chain chain') (hlater : K.Later m n) :
    K.Chains n chain chain' := by
  obtain ⟨site, hsites⟩ := h
  exact .at site (K.sites_later hlater hsites)

theorem Chains.sites (h : K.Chains m chain chain') : K.Sites m chain.site chain'.site := by
  obtain ⟨site, hsites⟩ := h
  exact hsites

namespace Resolutions

variable (h : K.Resolutions m r r')
include h

theorem later (hlater : K.Later m n) : K.Resolutions n r r' := by
  obtain ⟨frame, hsites⟩ := h
  exact .at frame (K.sites_later hlater hsites)

theorem sites : K.Sites m ⟨r.context, r.frame⟩ ⟨r'.context, r'.frame⟩ := by
  obtain ⟨frame, hsites⟩ := h
  exact hsites

/-- A chain that has found a value has got equally far with it. -/
theorem found (cell : CellRef) :
    K.Runs m K.Resolutions (pure { r with value := some cell })
      (pure { r' with value := some cell }) := by
  obtain ⟨frame, hsites⟩ := h
  exact Runs.pure fun n hlater ↦ .at frame (K.sites_later hlater hsites)

end Resolutions

variable (hchain : K.Chains m chain chain')
include hchain

theorem chainRaise (kind : ErrorKind) (message : String) :
    K.Runs m R (chain.raise kind message) (chain'.raise kind message) :=
  raiseAt hchain.sites kind message

theorem notExported (ref : ModuleRef) (name : String) :
    K.Runs m R (chain.notExported ref name) (chain'.notExported ref name) := by
  refine Runs.get_bind fun n n' halike ↦ ?_
  rw [halike.moduleName]
  exact chainRaise hchain _ _

/-- Moving into a module gives a frame with all variables of its source. -/
theorem enterModule (ref : ModuleRef) {globals : Scope} (value : Option CellRef)
    (hr : K.Resolutions m r r')
    (hglobals : ∀ name, (m.global? ref.context name).isSome → globals.contains name) :
    K.Runs m K.Resolutions (chain.enterModule ref globals value r)
      (chain'.enterModule ref globals value r') := by
  refine Runs.bind (K.openFrame (K.callers hchain.sites) hglobals) fun n frame frame' _ hsites ↦ ?_
  obtain ⟨former, _⟩ := hr
  exact Runs.pure fun k hlater ↦ .at frame' (K.sites_later hlater hsites)

theorem requireHome (name moduleName : String) (inline : Bool) (context : ContextRef) :
    K.Same m (chain.requireHome name moduleName inline context)
      (chain'.requireHome name moduleName inline context) := by
  obtain ⟨site, hsites⟩ := hchain
  unfold Chain.requireHome
  dsimp only
  rw [(K.sites_alike hsites).context]
  split
  · split
    · exact chainRaise (.at site hsites) _ _
    · exact chainRaise (.at site hsites) _ _
  · exact Same.refl_pure ()

theorem requireDefined (name moduleName : String) (inline : Bool) (value : Option CellRef) :
    K.Same m (chain.requireDefined name moduleName inline value)
      (chain'.requireDefined name moduleName inline value) := by
  unfold Chain.requireDefined
  split
  · exact chainRaise hchain _ _
  · exact Same.refl_pure ()

theorem follow {n' : Machine} (hlike : K.Like m n') (i : Import) (ref : ModuleRef) (name : String)
    (hr : K.Resolutions m r r') :
    K.Runs m K.Resolutions (chain.follow m i ref name r) (chain'.follow n' i ref name r') := by
  have halike := K.alike hlike
  have hcontext : r'.context = r.context := by
    obtain ⟨frame, _⟩ := hr
    rfl
  unfold Chain.follow
  rw [halike.moduleName, halike.global?, halike.scope, halike.context, hcontext]
  refine (requireHome hchain _ _ _ _).bind fun _ ↦ (requireDefined hchain _ _ _ _).bind fun _ ↦ ?_
  refine enterModule hchain ref _ hr fun name hname ↦ ?_
  rwa [Std.TreeMap.contains_eq_isSome_getElem?]

/-- The search among the imports compares, and where it moves into a module the chains have got
equally far there. -/
theorem switchToImport (name : String) (writing : Bool) (hr : K.Resolutions m r r')
    (imports : List Import) :
    K.Runs m (fun n ↦ Option.Rel (K.Resolutions n)) (chain.switchToImport name writing r imports)
      (chain'.switchToImport name writing r' imports) := by
  induction imports with
  | nil => exact Runs.pure fun _ _ ↦ .none
  | cons i imports ih =>
    rw [Chain.switchToImport_cons, Chain.switchToImport_cons]
    cases i.target with
    | none => exact chainRaise hchain _ _
    | some ref =>
      refine Runs.get_bind_now fun n n' hlater hlike ↦ ?_
      have hfits : n'.fits i ref name writing = n.fits i ref name writing := by
        unfold Machine.fits
        rw [(K.alike hlike).exports]
      rw [hfits]
      split
      · rw [map_eq_pure_bind, map_eq_pure_bind]
        refine Runs.bind (follow (hchain.later hlater) hlike i ref name (hr.later hlater))
          fun k moved moved' _ hmoved ↦ ?_
        exact Runs.pure fun _ hlater ↦ .some (hmoved.later hlater)
      · exact ih.mono hlater

theorem requireCreating (name : String) (hr : K.Resolutions m r r') :
    K.Same m (chain.requireCreating name r) (chain'.requireCreating name r') := by
  obtain ⟨site, hsites⟩ := hchain
  obtain ⟨frame, _⟩ := hr
  unfold Chain.requireCreating
  split
  · refine Runs.get_bind fun n n' halike ↦ ?_
    rw [halike.unresolvedMessage]
    exact chainRaise (.at site hsites) _ _
  · exact Same.refl_pure ()

theorem createName (i : Nat) (isFinal : Bool) (name : String) (hr : K.Resolutions m r r') :
    K.Runs m K.Resolutions (chain.createName i isFinal name r)
      (chain'.createName i isFinal name r') := by
  rw [Chain.createName_eq, Chain.createName_eq]
  have hput : K.Same m (bindNew (Chain.newPlace isFinal) (r.frame.put name))
      (bindNew (Chain.newPlace isFinal) (r'.frame.put name)) := by
    obtain ⟨frame, hsites⟩ := hr
    have h := K.put name (.newPlace isFinal) hsites
    exact h
  refine (requireCreating hchain name hr).bind fun _ ↦ ?_
  rw [← bindNew_bind _ (r.frame.put name), ← bindNew_bind _ (r'.frame.put name)]
  refine hput.bind fun cell ↦ ?_
  exact quiet_bind (.logStep _ _ _) (.logStep _ _ _) (hr.found cell)

/-- A name that is bound anew compares if the binding does. -/
theorem refresh (cell : CellRef) {rebind rebind' : CellRef → Run Unit}
    (hrebind : K.Same m (bindNew (copy cell) rebind) (bindNew (copy cell) rebind')) :
    K.Same m (chain.refresh cell rebind) (chain'.refresh cell rebind') := by
  obtain ⟨site, _⟩ := hchain
  unfold Chain.refresh
  split
  · exact hrebind
  · exact Same.refl_pure cell

theorem resolveForeign (i : Nat) (isFinal : Bool) (name : String) (hr : K.Resolutions m r r') :
    K.Runs m K.Resolutions (chain.resolveForeign i isFinal name r)
      (chain'.resolveForeign i isFinal name r') := by
  refine Runs.get_bind fun n n' halike ↦ ?_
  have himports : (n'.context r'.context).imports = (n.context r.context).imports := by
    obtain ⟨frame, _⟩ := hr
    rw [halike.context]
  have hmode : chain'.mode = chain.mode := by
    obtain ⟨site, _⟩ := hchain
    rfl
  rw [himports, hmode]
  refine Runs.bind (switchToImport hchain name _ hr _) fun k moved moved' hlater hmoved ↦ ?_
  cases hmoved with
  | none =>
    replace hchain := hchain.later hlater
    replace hr := hr.later hlater
    obtain ⟨site, hsites⟩ := hchain
    obtain ⟨frame, hframes⟩ := hr
    dsimp only
    rw [(K.sites_alike hsites).context]
    split
    · refine (steady (.symbolsObject _)).bind fun symbols ↦ ?_
      exact quiet_bind (.logStep _ _ _) (.logStep _ _ _)
        (Resolutions.found (.at frame hframes) symbols)
    · split
      · exact notExported (.at site hsites) _ name
      · exact createName (.at site hsites) i isFinal name (.at frame hframes)
  | some hmoved =>
    refine Runs.get_bind fun l l' halike ↦ ?_
    replace hchain := hchain.later hlater
    obtain ⟨site, hsites⟩ := hchain
    obtain ⟨frame, hframes⟩ := hmoved
    rw [halike.moduleName]
    refine quiet_bind (.logStep _ _ _) (.logStep _ _ _) ?_
    refine Same.check (chainRaise (.at site hsites) _ _) ?_
    exact Runs.pure fun _ hlater' ↦ .at frame (K.sites_later hlater' hframes)

/-- A name at the head of a chain. It is bound anew where it is bound: in the frame, or else among
the variables of a source of which the frame does not bind that name. -/
theorem resolveName (i : Nat) (isFinal : Bool) (name : String) (hr : K.Resolutions m r r') :
    K.Runs m K.Resolutions (chain.resolveName i isFinal name r)
      (chain'.resolveName i isFinal name r') := by
  refine Runs.get_bind_at fun n n' hlater hlike ↦ ?_
  have halike := K.alike hlike
  replace hr := hr.later hlater
  replace hchain := hchain.later hlater
  have hfound (source : String) {cell : CellRef} {rebind rebind' : CellRef → Run Unit}
      (hrebind : K.Same n (bindNew (copy cell) rebind) (bindNew (copy cell) rebind')) :
      K.Runs n K.Resolutions
        (do
          let cell ← chain.refresh cell rebind
          logStep i name source
          return { r with value := some cell })
        (do
          let cell ← chain'.refresh cell rebind'
          logStep i name source
          return { r' with value := some cell }) :=
    (refresh hchain cell hrebind).bind fun cell ↦
      quiet_bind (.logStep _ _ _) (.logStep _ _ _) (hr.found cell)
  have hforeign := resolveForeign hchain i isFinal name hr
  obtain ⟨frame, hsites⟩ := hr
  rw [halike.lookUpName, (K.sites_alike hsites).lookUpName]
  cases hbound : n.lookUpName r.frame name with
  | some cell =>
    refine Runs.now ?_ hlike
    have hlocal := hfound "local symbols" (K.put name (.copy cell) hsites)
    dsimp only
    split
    · refine Runs.get_bind fun k k' halike ↦ ?_
      rw [halike.exports]
      exact Same.check (notExported hchain _ name) hlocal
    · exact hlocal
  | none =>
    -- The variables are read from the machine on which the frame did not bind the name.
    refine Ends.get_bind ?_
    dsimp only
    rw [halike.global?]
    cases hglobal : n.global? r.context name with
    | some cell =>
      have hset := K.rebindGlobal (.copy cell) hsites hbound (by rw [hglobal]; rfl)
      exact Runs.now (hfound "global variables" hset) hlike
    | none => exact hforeign.now hlike

theorem stepKey {interp : Interp} (hinterp : K.Evaluates interp) (step : Node) :
    K.Same m (chain.stepKey interp step) (chain'.stepKey interp step) := by
  unfold Chain.stepKey
  split
  · exact steady (.newString _)
  · exact hinterp.value hchain.sites _ .required
  · exact hinterp.value hchain.sites _ .required

theorem resolveStep {interp : Interp} (hinterp : K.Evaluates interp) (i : Nat) (isFinal : Bool)
    (before step : Node) (value : CellRef) (hr : K.Resolutions m r r') :
    K.Runs m K.Resolutions (chain.resolveStep interp i isFinal before step value r)
      (chain'.resolveStep interp i isFinal before step value r') := by
  unfold Chain.resolveStep
  split
  · obtain ⟨frame, hsites⟩ := hr
    refine (hinterp.values hchain.sites _).bind fun args ↦ ?_
    refine (hinterp.call _ _ _ _ hchain.sites).bind fun result ↦ ?_
    exact quiet_bind (.logStep _ _ _) (.logStep _ _ _) (Resolutions.found (.at frame hsites) result)
  · refine (stepKey hchain hinterp step).bind fun key ↦ (steady (.access value key)).bind
      fun found ↦ ?_
    split
    · refine (steady (.display key)).bind fun shown ↦ ?_
      exact quiet_bind (.logStep _ _ _) (.logStep _ _ _) (hr.found _)
    · have hmissing : K.Runs m K.Resolutions
          (display key >>= fun shown ↦ chain.createName i isFinal shown r)
          (display key >>= fun shown ↦ chain'.createName i isFinal shown r') :=
        (steady (.display key)).bind fun shown ↦ createName hchain i isFinal shown hr
      obtain ⟨site, hsites⟩ := hchain
      split
      · refine (steady .newEmpty).bind fun created ↦
          (steady (.createEntry value key created isFinal)).bind fun taken ↦ ?_
        dsimp only
        have hcreated : K.Runs m K.Resolutions
            (do
              logStep i (← display key) "created on previous value"
              return { r with value := some created })
            (do
              logStep i (← display key) "created on previous value"
              return { r' with value := some created }) :=
          (steady (.display key)).bind fun shown ↦
            quiet_bind (.logStep _ _ _) (.logStep _ _ _) (hr.found created)
        split
        · refine Runs.get_bind fun n n' halike ↦ ?_
          rw [halike.display, halike.typeName]
          exact Same.bind (chainRaise (.at site hsites) _ _) fun _ ↦ hcreated
        · exact hcreated
      · exact hmissing

theorem takeStep {interp : Interp} (hinterp : K.Evaluates interp) (i : Nat) (isFinal : Bool)
    (before step : Node) (hr : K.Resolutions m r r') :
    K.Runs m K.Resolutions (chain.takeStep interp i isFinal before step r)
      (chain'.takeStep interp i isFinal before step r') := by
  have hvalue : r'.value = r.value := by
    obtain ⟨frame, _⟩ := hr
    rfl
  unfold Chain.takeStep
  rw [hvalue]
  split
  · exact resolveStep hchain hinterp i isFinal before _ _ hr
  · exact resolveName hchain i isFinal _ hr
  · exact (hinterp.value hchain.sites _ .required).bind fun value ↦
      quiet_bind (.logStep _ _ _) (.logStep _ _ _) (hr.found value)

theorem advance {interp : Interp} (hinterp : K.Evaluates interp) (i : Nat) (isFinal : Bool)
    (before step : Node) (hr : K.Resolutions m r r') :
    K.Runs m K.Resolutions (chain.advance interp i isFinal before step r)
      (chain'.advance interp i isFinal before step r') := by
  refine Runs.get_bind fun n n' halike ↦ ?_
  refine takeStep hchain hinterp i isFinal before step ?_
  obtain ⟨frame, hsites⟩ := hr
  unfold Chain.remember
  dsimp only
  rw [halike.kind]
  split
  · exact .at frame hsites
  · exact .at frame hsites

omit hchain in
theorem resolveSteps {interp : Interp} (hinterp : K.Evaluates interp) (steps : List Node) :
    ∀ {m : Machine} (i : Nat) (before : Node) {r r' : Resolution}, K.Chains m chain chain' →
      K.Resolutions m r r' → K.Same m (chain.resolveSteps interp i before steps r)
        (chain'.resolveSteps interp i before steps r') := by
  induction steps with
  | nil =>
    intro m i before r r' hchain hr
    obtain ⟨frame, _⟩ := hr
    unfold Chain.resolveSteps
    dsimp only
    split
    · exact Same.refl_pure _
    · exact steady .newEmpty
  | cons step steps ih =>
    intro m i before r r' hchain hr
    rw [Chain.resolveSteps_cons, Chain.resolveSteps_cons]
    exact Runs.bind (advance hchain hinterp i _ before step hr) fun n q q' hlater hq ↦
      ih (i + 1) step (hchain.later hlater) hq

omit hchain in
/-- Resolving an access chain at sites that are compared compares. -/
theorem resolve {interp : Interp} (hinterp : K.Evaluates interp) {s s' : Site}
    (hsites : K.Sites m s s') (origin : Node) (mode : Mode) (steps : List Node) :
    K.Same m (TreeScript.resolve interp s origin mode steps)
      (TreeScript.resolve interp s' origin mode steps) := by
  unfold TreeScript.resolve
  refine Same.check (raiseAt hsites _ _) ?_
  refine logged ⟨_, .logInfo _, rfl⟩ ⟨_, .logInfo _, rfl⟩ ?_
  obtain ⟨trace⟩ := K.sites_alike hsites
  exact resolveSteps hinterp steps 0 origin (.at _ hsites) (.at _ hsites)

end Comparison

end TreeScript
