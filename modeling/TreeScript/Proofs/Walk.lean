import TreeScript.Proofs.Chain
import TreeScript.Proofs.Call

/-!
# Walks along access chains

A walk takes the steps of an access chain one after the other (`Chain.Walk`). As long as it has no
value it is either where it started or in a module that it has moved into. In the latter case its
frame binds exactly what the variables of the module's source do (`Chain.Open`), since nothing is
evaluated between a move and the step behind it.

`Chain.NameStep` lists what a step at a name can do if there is no value yet, and
`nameStep_of_resolveName` says that there is nothing else. From that follows that a walk never runs
out of steps without a value (`Walk.isSome_value`), and where the first value of a walk can come
from (`FindsIn.exports`).
-/

set_option autoImplicit false

namespace TreeScript

/-- A computation that fails and changes nothing. -/
def Fails {α : Type} (x : Run α) : Prop := ∀ m : Machine, ∃ e : Failure, x m = .error e m

namespace Fails

variable {α β : Type}

theorem ne_ok {x : Run α} (h : Fails x) {m m' : Machine} {a : α} : x m ≠ .ok a m' := by
  obtain ⟨e, he⟩ := h m
  rw [he]
  exact nofun

theorem bind {x : Run α} (h : Fails x) (f : α → Run β) : Fails (x >>= f) := by
  intro m
  obtain ⟨e, he⟩ := h m
  exact ⟨e, Run.bind_error he⟩

theorem get_bind {f : Machine → Run α} (h : ∀ m, Fails (f m)) : Fails (get >>= f) :=
  fun m ↦ h m m

/-- Assumes: a check that fails under a condition. What follows it has a value only if the condition
does not hold. -/
theorem check_eq_ok {p : Prop} [Decidable p] {x : Run Unit} (hx : Fails x) {f : Unit → Run α}
    {m m' : Machine} {a : α} (h : (if p then x >>= f else f ()) m = .ok a m') :
    ¬p ∧ f () m = .ok a m' := by
  by_cases hp : p
  · rw [if_pos hp] at h
    exact absurd h (hx.bind f).ne_ok
  · rw [if_neg hp] at h
    exact ⟨hp, h⟩

end Fails

/-- Logging a step changes the log at most. -/
theorem logStep_apply (i : Nat) (key source : String) (m : Machine) :
    ∃ m', logStep i key source m = .ok () m' ∧ m.Unwound m' := by
  unfold logStep
  rw [Run.get_bind]
  split
  · exact logInfo_apply _ m
  · exact ⟨m, rfl, .refl m⟩

/-- What comes behind the logging of a step starts on a machine that is the same up to the log. -/
theorem of_logStep_bind {α : Type} {i : Nat} {key source : String} {f : Unit → Run α}
    {m m' : Machine} {a : α} (h : (logStep i key source >>= f) m = .ok a m') :
    ∃ n, m.Unwound n ∧ f () n = .ok a m' := by
  obtain ⟨n, hlog, hunwound⟩ := logStep_apply i key source m
  rw [Run.bind_ok hlog] at h
  exact ⟨n, hunwound, h⟩

namespace Chain

variable {chain : Chain} {interp : Interp} {i : Nat} {isFinal writing : Bool} {name : String}
  {r r' : Resolution} {m m' : Machine}

theorem fails_raise {α : Type} (chain : Chain) (kind : ErrorKind) (message : String) :
    Fails (chain.raise kind message : Run α) :=
  fun _ ↦ ⟨_, rfl⟩

theorem fails_notExported {α : Type} (chain : Chain) (ref : ModuleRef) (name : String) :
    Fails (chain.notExported ref name : Run α) :=
  .get_bind fun _ ↦ chain.fails_raise _ _

/-! ### Moving into a module -/

/-- What a chain has got to by moving into a module on a machine. -/
def inModule (chain : Chain) (m : Machine) (ref : ModuleRef) (value : Option CellRef)
    (r : Resolution) : Resolution :=
  { r with
    context := ref.context, module := some ref, value,
    frame := { top := ⟨m.scopes.size⟩, outer := [], trace := chain.site.frame.trace } }

theorem of_requireHome {moduleName : String} {inline : Bool} {context : ContextRef} {u : Unit}
    (h : chain.requireHome name moduleName inline context m = .ok u m') :
    context = chain.site.context ∧ m' = m := by
  unfold requireHome at h
  split at h
  · split at h
    · exact absurd h (chain.fails_raise _ _).ne_ok
    · exact absurd h (chain.fails_raise _ _).ne_ok
  · rename_i hhome
    cases h
    exact ⟨Decidable.not_not.mp hhome, rfl⟩

theorem of_requireDefined {moduleName : String} {inline : Bool} {value : Option CellRef} {u : Unit}
    (h : chain.requireDefined name moduleName inline value m = .ok u m') :
    (inline = true → value.isSome) ∧ m' = m := by
  unfold requireDefined at h
  split at h
  · exact absurd h (chain.fails_raise _ _).ne_ok
  · rename_i hdefined
    cases h
    refine ⟨fun hinline ↦ ?_, rfl⟩
    cases value with
    | none => exact absurd hinline (by simpa using hdefined)
    | some cell => rfl

/-- Following an import succeeds only out of the source the chain started in. It opens a frame with
the variables of the module's source. -/
theorem of_follow {target : Import} {ref : ModuleRef}
    (h : chain.follow m target ref name r m = .ok r' m') :
    r.context = chain.site.context ∧
      r' = chain.inModule m ref (if target.inline then m.global? ref.context name else none) r ∧
      (target.inline = true → (m.global? ref.context name).isSome) ∧
      m' = m.withScope (m.scope (m.context ref.context).globals) := by
  obtain ⟨_, _, hhome, h⟩ := Run.bind_eq_ok_iff.mp h
  obtain ⟨hcontext, rfl⟩ := of_requireHome hhome
  obtain ⟨_, _, hdefined, h⟩ := Run.bind_eq_ok_iff.mp h
  obtain ⟨hvalue, rfl⟩ := of_requireDefined hdefined
  cases h
  exact ⟨hcontext, rfl, hvalue, rfl⟩

/-- A search among the imports that finds one has followed it. -/
theorem of_switchToImport {imports : List Import}
    (h : chain.switchToImport name writing r imports m = .ok (some r') m') :
    ∃ target ∈ imports, ∃ ref, target.target = some ref ∧ m.fits target ref name writing ∧
      chain.follow m target ref name r m = .ok r' m' := by
  induction imports with
  | nil => cases h
  | cons target imports ih =>
    rw [switchToImport_cons] at h
    cases htarget : target.target with
    | none =>
      rw [htarget] at h
      exact absurd h (chain.fails_raise _ _).ne_ok
    | some ref =>
      rw [htarget] at h
      dsimp only at h
      rw [Run.get_bind] at h
      split at h
      · rename_i hfits
        refine ⟨target, List.mem_cons_self .., ref, htarget, hfits, ?_⟩
        rw [map_eq_pure_bind] at h
        obtain ⟨moved, n, hfollow, hmoved⟩ := Run.bind_eq_ok_iff.mp h
        cases hmoved
        exact hfollow
      · obtain ⟨found, hmem, hrest⟩ := ih h
        exact ⟨found, List.mem_cons_of_mem _ hmem, hrest⟩

/-- Assumes: a chain that has left the source it started in. It follows no import. -/
theorem switchToImport_ne_some (hforeign : r.context ≠ chain.site.context) (name : String)
    (writing : Bool) (imports : List Import) (m m' : Machine) (moved : Resolution) :
    chain.switchToImport name writing r imports m ≠ .ok (some moved) m' := by
  intro h
  obtain ⟨_, _, _, _, _, hfollow⟩ := of_switchToImport h
  exact hforeign (of_follow hfollow).1

/-! ### Steps without a value -/

/-- What a step at a name can do to a chain that has no value yet. -/
inductive NameStep (chain : Chain) (isFinal : Bool) (name : String) (r : Resolution)
    (m m' : Machine) : Resolution → Prop
  /-- The frame binds the name, which a module the chain is in has to export. -/
  | bound (cell : CellRef) (hexported : ∀ ref, r.module = some ref → m.exports ref name) :
    NameStep chain isFinal name r m m' { r with value := some cell }
  /-- A variable of the source has the name. -/
  | global (cell : CellRef) (hfree : m.lookUpName r.frame name = none)
      (hglobal : (m.global? r.context name).isSome) :
    NameStep chain isFinal name r m m' { r with value := some cell }
  /-- An inline import gives the value at once. -/
  | inlined (ref : ModuleRef) (cell : CellRef) (hhome : r.context = chain.site.context)
      (hexported : m.exports ref name) :
    NameStep chain isFinal name r m m' (chain.inModule m ref (some cell) r)
  /-- Another import moves the chain into a module, unless that is the end of the chain. -/
  | moved (ref : ModuleRef) (hhome : r.context = chain.site.context) (hfinal : isFinal = false)
      (hunwound : (m.withScope (m.scope (m.context ref.context).globals)).Unwound m') :
    NameStep chain isFinal name r m m' (chain.inModule m ref none r)
  | symbols (cell : CellRef) (hname : name = "symbols")
      (hforeign : r.context ≠ chain.site.context) :
    NameStep chain isFinal name r m m' { r with value := some cell }
  | created (cell : CellRef) (hhome : r.module = none) :
    NameStep chain isFinal name r m m' { r with value := some cell }

/-- Assumes: a mode in which no names are created. Creating one fails. -/
theorem fails_createName (hmode : chain.mode.creates = false) (i : Nat) (isFinal : Bool)
    (name : String) (r : Resolution) : Fails (chain.createName i isFinal name r) := by
  rw [createName_eq]
  refine Fails.bind ?_ _
  unfold requireCreating
  rw [hmode]
  exact .get_bind fun _ ↦ chain.fails_raise _ _

/-- Creating a name gives the chain a value. -/
theorem of_createName (h : chain.createName i isFinal name r m = .ok r' m') :
    chain.mode.creates = true ∧ ∃ cell, r' = { r with value := some cell } := by
  constructor
  · cases hmode : chain.mode.creates with
    | true => rfl
    | false => exact absurd h (fails_createName hmode i isFinal name r).ne_ok
  · rw [createName_eq] at h
    obtain ⟨_, _, _, h⟩ := Run.bind_eq_ok_iff.mp h
    obtain ⟨cell, _, _, h⟩ := Run.bind_eq_ok_iff.mp h
    obtain ⟨_, _, _, h⟩ := Run.bind_eq_ok_iff.mp h
    obtain ⟨_, _, h⟩ := of_logStep_bind h
    cases h
    exact ⟨cell, rfl⟩

theorem nameStep_of_resolveForeign (h : chain.resolveForeign i isFinal name r m = .ok r' m') :
    chain.NameStep isFinal name r m m' r' := by
  unfold resolveForeign at h
  rw [Run.get_bind] at h
  obtain ⟨found, n, hswitch, h⟩ := Run.bind_eq_ok_iff.mp h
  cases found with
  | some moved =>
    obtain ⟨target, _, ref, _, hfits, hfollow⟩ := of_switchToImport hswitch
    obtain ⟨hhome, hmoved, hdefined, rfl⟩ := of_follow hfollow
    dsimp only at h
    rw [Run.get_bind] at h
    obtain ⟨k, hunwound, h⟩ := of_logStep_bind h
    obtain ⟨hfinal, h⟩ := Fails.check_eq_ok (chain.fails_raise _ _) h
    cases h
    subst hmoved
    cases hinline : target.inline with
    | false =>
      refine .moved ref hhome ?_ hunwound
      simpa [inModule, hinline] using hfinal
    | true =>
      obtain ⟨cell, hcell⟩ := Option.isSome_iff_exists.mp (hdefined hinline)
      rw [if_pos rfl, hcell]
      refine .inlined ref cell hhome ?_
      unfold Machine.fits at hfits
      rw [if_pos hinline, Bool.and_eq_true] at hfits
      exact hfits.2
  | none =>
    dsimp only at h
    split at h
    · rename_i hsymbols
      obtain ⟨cell, _, _, h⟩ := Run.bind_eq_ok_iff.mp h
      obtain ⟨_, _, h⟩ := of_logStep_bind h
      cases h
      exact .symbols cell hsymbols.1 hsymbols.2
    · cases hmodule : r.module with
      | none =>
        rw [hmodule] at h
        obtain ⟨_, cell, rfl⟩ := of_createName h
        exact .created cell hmodule
      | some ref =>
        cases hcreates : chain.mode.creates with
        | false =>
          rw [hmodule, hcreates] at h
          rw [(of_createName h).1] at hcreates
          cases hcreates
        | true =>
          rw [hmodule, hcreates] at h
          exact absurd h (chain.fails_notExported _ _).ne_ok

/-- A step at a name that succeeds does one of these things. -/
theorem nameStep_of_resolveName (h : chain.resolveName i isFinal name r m = .ok r' m') :
    chain.NameStep isFinal name r m m' r' := by
  unfold resolveName at h
  rw [Run.get_bind] at h
  have hfound {source : String} {cell : CellRef} {rebind : CellRef → Run Unit} {n : Machine}
      (h : (do
        let cell ← chain.refresh cell rebind
        logStep i name source
        return { r with value := some cell }) n = .ok r' m') :
      ∃ cell, r' = { r with value := some cell } := by
    obtain ⟨cell, _, _, h⟩ := Run.bind_eq_ok_iff.mp h
    obtain ⟨_, _, h⟩ := of_logStep_bind h
    cases h
    exact ⟨cell, rfl⟩
  cases hbound : m.lookUpName r.frame name with
  | some cell =>
    rw [hbound] at h
    dsimp only at h
    obtain ⟨context, frame, module, value, self⟩ := r
    cases module with
    | none =>
      obtain ⟨cell, rfl⟩ := hfound h
      exact .bound cell fun _ hmodule ↦ nomatch hmodule
    | some ref =>
      dsimp only at h
      rw [Run.get_bind] at h
      obtain ⟨hexported, h⟩ := Fails.check_eq_ok (chain.fails_notExported _ _) h
      obtain ⟨cell, rfl⟩ := hfound h
      refine .bound cell fun other hother ↦ ?_
      cases hother
      simpa using hexported
  | none =>
    rw [hbound] at h
    dsimp only at h
    rw [Run.get_bind] at h
    cases hglobal : m.global? r.context name with
    | some cell =>
      rw [hglobal] at h
      obtain ⟨cell, rfl⟩ := hfound h
      exact .global cell hbound (by rw [hglobal]; rfl)
    | none =>
      rw [hglobal] at h
      exact nameStep_of_resolveForeign h

/-! ### Walks -/

/-- A walk along some steps: the steps that are left, the first of which has number `i` and comes
behind the step `before`, and how far the chain has got on which machine. -/
inductive Walk (chain : Chain) (interp : Interp) (steps : List Node) (start : Machine) :
    Nat → Node → List Node → Resolution → Machine → Prop
  | begins :
    Walk chain interp steps start 0 chain.origin steps
      { context := chain.site.context, frame := chain.site.frame } start
  | goesOn {i : Nat} {before step : Node} {rest : List Node} {r r' : Resolution} {m m' : Machine}
      (hwalk : Walk chain interp steps start i before (step :: rest) r m)
      (hstep : chain.advance interp i rest.isEmpty before step r m = .ok r' m') :
    Walk chain interp steps start (i + 1) step rest r' m'

/-- A chain without a value is where it started, or in a module with a frame that shows the
variables of the module's source. -/
inductive Open (chain : Chain) (m : Machine) : Resolution → Prop
  | home (self : Option CellRef) :
    Open chain m { context := chain.site.context, frame := chain.site.frame, self }
  | inside (ref : ModuleRef) (top : ScopeRef) (trace : TraceRef) (self : Option CellRef)
      (hshown : m.scope top = m.scope (m.context ref.context).globals) :
    Open chain m
      { context := ref.context, module := some ref, frame := { top, outer := [], trace }, self }

/-- A frame that shows the variables of a source binds what they do. -/
theorem Open.lookUpName {ref : ModuleRef} (h : chain.Open m r) (hmodule : r.module = some ref)
    (name : String) :
    r.context = ref.context ∧ m.lookUpName r.frame name = m.global? ref.context name := by
  cases h with
  | home => cases hmodule
  | inside other top trace self hshown =>
    cases hmodule
    refine ⟨rfl, ?_⟩
    unfold Machine.lookUpName Machine.global?
    rw [← hshown]
    change List.findSome? _ [top] = _
    rw [List.findSome?_singleton]

/-- Moving into a module shows the variables of its source. -/
theorem open_inModule {ref : ModuleRef}
    (hunwound : (m.withScope (m.scope (m.context ref.context).globals)).Unwound m') :
    chain.Open m' (chain.inModule m ref none r) := by
  refine .inside ref ⟨m.scopes.size⟩ chain.site.frame.trace r.self ?_
  have hcontext : m'.context ref.context = m.context ref.context := hunwound.context _
  rw [hcontext, hunwound.scope, hunwound.scope, Machine.scope_withScope, Machine.scope_withScope,
    if_pos rfl]
  split
  · rfl
  · rfl

/-- A step behind a value gives a value. -/
theorem of_resolveStep {before step : Node} {value : CellRef}
    (h : chain.resolveStep interp i isFinal before step value r m = .ok r' m') :
    ∃ cell, r' = { r with value := some cell } := by
  have hfound {n : Machine} {key source : String} {cell : CellRef}
      (h : (do
        logStep i key source
        return { r with value := some cell }) n = .ok r' m') :
      ∃ cell, r' = { r with value := some cell } := by
    obtain ⟨_, _, h⟩ := of_logStep_bind h
    cases h
    exact ⟨cell, rfl⟩
  unfold resolveStep at h
  split at h
  · obtain ⟨args, _, _, h⟩ := Run.bind_eq_ok_iff.mp h
    obtain ⟨result, _, _, h⟩ := Run.bind_eq_ok_iff.mp h
    exact hfound h
  · obtain ⟨key, _, _, h⟩ := Run.bind_eq_ok_iff.mp h
    obtain ⟨found, _, _, h⟩ := Run.bind_eq_ok_iff.mp h
    cases found with
    | some cell =>
      obtain ⟨shown, _, _, h⟩ := Run.bind_eq_ok_iff.mp h
      exact hfound h
    | none =>
      dsimp only at h
      split at h
      · obtain ⟨created, _, _, h⟩ := Run.bind_eq_ok_iff.mp h
        obtain ⟨taken, _, _, h⟩ := Run.bind_eq_ok_iff.mp h
        cases taken with
        | false =>
          refine absurd h (Fails.get_bind fun _ ↦ ?_).ne_ok
          exact (chain.fails_raise _ _).bind _
        | true =>
          obtain ⟨shown, _, _, h⟩ := Run.bind_eq_ok_iff.mp h
          exact hfound h
      · obtain ⟨shown, _, _, h⟩ := Run.bind_eq_ok_iff.mp h
        obtain ⟨_, cell, rfl⟩ := of_createName h
        exact ⟨cell, rfl⟩

/-- The three kinds of steps: behind a value, at a name, and at a node that is evaluated. -/
theorem takeStep_cases (chain : Chain) (interp : Interp) (i : Nat) (isFinal : Bool)
    (before step : Node) (r : Resolution) :
    (∃ value, r.value = some value ∧ chain.takeStep interp i isFinal before step r =
      chain.resolveStep interp i isFinal before step value r) ∨
    (∃ name, r.value = none ∧ step = .identifier name ∧
      chain.takeStep interp i isFinal before step r = chain.resolveName i isFinal name r) ∨
    (r.value = none ∧ (∀ name, step ≠ .identifier name) ∧
      chain.takeStep interp i isFinal before step r = (do
        let value ← interp.value chain.site step
        logStep i step.code "evaluated node"
        return { r with value := some value })) := by
  unfold takeStep
  split
  · rename_i value hvalue
    exact .inl ⟨value, hvalue, rfl⟩
  · rename_i name hvalue
    exact .inr (.inl ⟨name, hvalue, rfl, rfl⟩)
  · rename_i hvalue hother
    exact .inr (.inr ⟨hvalue, hother, rfl⟩)

/-- There is nothing to remember of a chain without a value. -/
theorem remember_of_no_value (m : Machine) (hvalue : r.value = none) : remember m r = r := by
  unfold remember
  rw [hvalue]
  rfl

theorem value_remember (m : Machine) (r : Resolution) : (remember m r).value = r.value := by
  unfold remember
  split
  · rfl
  · rfl

/-- Assumes: a step that leaves a chain without a value. It is not the last one, and the chain is in
a module afterwards. -/
theorem open_of_advance {before step : Node}
    (h : chain.advance interp i isFinal before step r m = .ok r' m') (hnone : r'.value = none) :
    isFinal = false ∧ chain.Open m' r' := by
  unfold advance at h
  rw [Run.get_bind] at h
  rcases chain.takeStep_cases interp i isFinal before step (remember m r) with
    ⟨value, _, hstep⟩ | ⟨name, hvalue, _, hstep⟩ | ⟨_, _, hstep⟩
  · rw [hstep] at h
    obtain ⟨cell, rfl⟩ := of_resolveStep h
    cases hnone
  · rw [hstep] at h
    cases nameStep_of_resolveName h with
    | moved ref _ hfinal hunwound =>
      rw [value_remember] at hvalue
      rw [remember_of_no_value m hvalue]
      exact ⟨hfinal, open_inModule hunwound⟩
    | bound | global | inlined | symbols | created => cases hnone
  · rw [hstep] at h
    obtain ⟨value, _, _, h⟩ := Run.bind_eq_ok_iff.mp h
    obtain ⟨_, _, h⟩ := of_logStep_bind h
    cases h
    cases hnone

/-- A step at a name of a chain without a value. -/
theorem nameStep_of_advance {before : Node} (hvalue : r.value = none)
    (h : chain.advance interp i isFinal before (.identifier name) r m = .ok r' m') :
    chain.NameStep isFinal name r m m' r' := by
  unfold advance at h
  rw [Run.get_bind, remember_of_no_value m hvalue] at h
  unfold takeStep at h
  rw [hvalue] at h
  exact nameStep_of_resolveName h

namespace Walk

variable {steps rest : List Node} {start : Machine} {before : Node}

/-- A walk without a value is where it started or in a module. -/
theorem isOpen (h : chain.Walk interp steps start i before rest r m) (hvalue : r.value = none) :
    chain.Open m r := by
  cases h with
  | begins => exact .home none
  | goesOn _ hstep => exact (open_of_advance hstep hvalue).2

/-- Assumes: a chain with at least one step. A walk along all of it has a value. -/
theorem isSome_value (hsteps : steps ≠ []) (h : chain.Walk interp steps start i before [] r m) :
    r.value.isSome := by
  cases h with
  | begins => exact absurd rfl hsteps
  | goesOn _ hstep =>
    cases hvalue : r.value with
    | some cell => rfl
    | none => exact absurd (open_of_advance hstep hvalue).1 (by decide)

end Walk

/-- A walk gets its first value at a name and is in a module then. `r` is how far it had got before
that step, and `m` the machine it was taken on. -/
inductive FindsIn (chain : Chain) (interp : Interp) (steps : List Node) (name : String)
    (ref : ModuleRef) : Resolution → Machine → Prop
  | intro {start m m' : Machine} {i : Nat} {before : Node} {rest : List Node} {r r' : Resolution}
      (hwalk : Walk chain interp steps start i before (.identifier name :: rest) r m)
      (hvalue : r.value = none)
      (hstep : chain.advance interp i rest.isEmpty before (.identifier name) r m = .ok r' m')
      (hfound : r'.value.isSome) (hmodule : r'.module = some ref) :
    FindsIn chain interp steps name ref r m

/-- A module a walk gets its first value in exports the name, or the name stands for all symbols of
another source. If the walk was in another module before, that is one of the source it started in.
-/
theorem FindsIn.exports {steps : List Node} {ref : ModuleRef}
    (h : chain.FindsIn interp steps name ref r m) :
    (m.exports ref name ∨ name = "symbols" ∧ ref.context ≠ chain.site.context) ∧
      ∀ former, r.module = some former → former = ref ∨ former.context = chain.site.context := by
  obtain ⟨hwalk, hvalue, hstep, hfound, hmodule⟩ := h
  have hopen := hwalk.isOpen hvalue
  have hsame (hstays : r.module = some ref) (former : ModuleRef)
      (hformer : r.module = some former) :
      former = ref ∨ former.context = chain.site.context :=
    .inl (Option.some.inj (hformer.symm.trans hstays))
  cases nameStep_of_advance hvalue hstep with
  | bound cell hexported => exact ⟨.inl (hexported ref hmodule), hsame hmodule⟩
  | global cell hfree hglobal =>
    -- The frame shows all variables of the module's source, so none of them is found behind it.
    obtain ⟨hcontext, hshown⟩ := hopen.lookUpName hmodule name
    rw [hcontext, ← hshown, hfree] at hglobal
    cases hglobal
  | inlined other cell hhome hexported =>
    cases hmodule
    refine ⟨.inl hexported, fun former hformer ↦ .inr ?_⟩
    rw [← (hopen.lookUpName hformer name).1, hhome]
  | moved => cases hfound
  | symbols cell hname hforeign =>
    rw [(hopen.lookUpName hmodule name).1] at hforeign
    exact ⟨.inr ⟨hname, hforeign⟩, hsame hmodule⟩
  | created cell hhome => cases hhome.symm.trans hmodule

/-- A chain that has a value at its end has taken a walk to it. -/
theorem walk_of_resolveSteps {steps : List Node} (hsteps : steps ≠ []) {start : Machine}
    {cell : CellRef} :
    ∀ {rest : List Node} {i : Nat} {before : Node} {r : Resolution} {m : Machine},
      chain.Walk interp steps start i before rest r m →
      chain.resolveSteps interp i before rest r m = .ok cell m' →
        ∃ i before r, chain.Walk interp steps start i before [] r m' ∧ r.value = some cell := by
  intro rest
  induction rest with
  | nil =>
    intro i before r m hwalk h
    obtain ⟨value, hvalue⟩ := Option.isSome_iff_exists.mp (hwalk.isSome_value hsteps)
    unfold resolveSteps at h
    rw [hvalue] at h
    cases h
    exact ⟨i, before, r, hwalk, hvalue⟩
  | cons step rest ih =>
    intro i before r m hwalk h
    rw [resolveSteps_cons] at h
    obtain ⟨r', n, hstep, h⟩ := Run.bind_eq_ok_iff.mp h
    exact ih (hwalk.goesOn hstep) h

end Chain

/-- A resolution fails at once if there are no steps, and else it takes them on a machine that is the
same up to the log. -/
theorem resolve_cases (interp : Interp) (site : Site) (origin : Node) (mode : Mode)
    (steps : List Node) (m : Machine) :
    (∃ e, resolve interp site origin mode steps m = .error e m) ∨
    (steps ≠ [] ∧ ∃ start, m.Unwound start ∧
      resolve interp site origin mode steps m =
        Chain.resolveSteps { origin, site, mode } interp 0 origin steps
          { context := site.context, frame := site.frame } start) := by
  unfold resolve
  by_cases hsteps : steps.isEmpty = true
  · rw [if_pos hsteps]
    exact .inl ⟨_, rfl⟩
  · rw [if_neg hsteps]
    refine .inr ⟨fun hempty ↦ hsteps (List.isEmpty_iff.mpr hempty), ?_⟩
    dsimp only
    rw [Run.get_bind]
    split
    · obtain ⟨start, hlog, hunwound⟩ := logInfo_apply ("resolve start: " ++ origin.code) m
      exact ⟨start, hunwound, Run.bind_ok hlog⟩
    · exact ⟨m, .refl m, rfl⟩

/-- A successful resolution is a walk along all steps, and gives the value of that walk. -/
theorem walk_of_resolve {interp : Interp} {site : Site} {origin : Node} {mode : Mode}
    {steps : List Node} {m m' : Machine} {cell : CellRef}
    (h : resolve interp site origin mode steps m = .ok cell m') :
    ∃ start i before r, m.Unwound start ∧
      Chain.Walk { origin, site, mode } interp steps start i before [] r m' ∧
      r.value = some cell := by
  rcases resolve_cases interp site origin mode steps m with
    ⟨e, hfails⟩ | ⟨hsteps, start, hunwound, houtcome⟩
  · cases hfails.symm.trans h
  · rw [houtcome] at h
    obtain ⟨i, before, r, hend⟩ := Chain.walk_of_resolveSteps hsteps .begins h
    exact ⟨start, i, before, r, hunwound, hend⟩

end TreeScript
