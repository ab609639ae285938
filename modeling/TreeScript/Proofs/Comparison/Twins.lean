import TreeScript.Proofs.Comparison.Evaluation

/-!
# Twin runs

Twins are machines that are alike and run under the same options. Their runs differ at most in what
is recorded for stack traces: they give the same values, and failures of the same kind with the same
message (`Failure.Alike`). A `Tracking` follows, besides, how one of the machines develops: it says
which machines a machine can become, and at which sites code may then run. Its laws are about
changes of cells and tables (`Machine.Evolved`) and about the ways in which the evaluator touches
scopes: forking a frame, opening one, binding a name in a frame or a variable anew to a cell that is
made for it, binding a receiver, and removing a name. `Tracking.comparison` is the comparison of
twin runs of which one is tracked.
-/

set_option autoImplicit false

namespace TreeScript

/-! ### Failures -/

/-- Failures of the same kind with the same message. Either both have a stack trace or none has. -/
inductive Failure.Alike : Failure → Failure → Prop
  | plain (message : String) : Alike (.plain message) (.plain message)
  | fault (kind : ErrorKind) (message trace trace' : String)
      (htrace : trace = "" ↔ trace' = "") :
    Alike (.fault ⟨kind, message, trace⟩) (.fault ⟨kind, message, trace'⟩)
  | outOfFuel : Alike .outOfFuel .outOfFuel

namespace Failure.Alike

theorem refl : ∀ e : Failure, Failure.Alike e e
  | .plain message => .plain message
  | .fault ⟨kind, message, trace⟩ => .fault kind message trace trace Iff.rfl
  | .outOfFuel => .outOfFuel

/-- Assumes: stack traces that are not empty. Failures that are alike stay so when they get them. -/
theorem attach {e e' : Failure} (h : e.Alike e') (kind : ErrorKind) {trace trace' : String}
    (htrace : trace ≠ "") (htrace' : trace' ≠ "") :
    (e.attach kind trace).Alike (e'.attach kind trace') := by
  have hboth : trace = "" ↔ trace' = "" := iff_of_false htrace htrace'
  cases h with
  | plain message => exact .fault kind message trace trace' hboth
  | fault former message own own' hown =>
    unfold Failure.attach
    dsimp only
    by_cases hempty : own = ""
    · rw [if_pos hempty, if_pos (hown.mp hempty)]
      exact .fault former message trace trace' hboth
    · rw [if_neg hempty, if_neg (mt hown.mpr hempty)]
      exact .fault former message own own' hown
  | outOfFuel => exact .outOfFuel

end Failure.Alike

/-- The text of a stack trace is never empty. -/
theorem Machine.formatTrace_ne_empty (m : Machine) (frame : Frame) (context : ContextRef) :
    m.formatTrace frame context ≠ "" := by
  intro h
  have hlength := congrArg String.length h
  have hlabel : "\tLocal symbols:  ".length = 17 := by decide
  unfold Machine.formatTrace at hlength
  simp only [String.length_append, hlabel] at hlength
  change _ = 0 at hlength
  omega

/-! ### Machines -/

/-- Machines that are alike, run under the same options, and have written the same unless a debugger
may write. -/
structure Machine.Twin (m m' : Machine) : Prop extends m.Alike m' where
  options : m'.options = m.options
  output : m.options.debugger = none → m'.output = m.output

namespace Machine.Twin

variable {m m' n n' : Machine}

/-- A machine is its own twin. -/
theorem refl (m : Machine) : m.Twin m where
  toAlike := .refl m
  options := rfl
  output _ := rfl

/-- Machines that are alike and differ from twins in the store only are twins. -/
theorem of_sameOutside (h : m.Twin m') (halike : n.Alike n') (hleft : m.SameOutside n)
    (hright : m'.SameOutside n') : n.Twin n' where
  toAlike := halike
  options := by rw [hleft.options, hright.options, h.options]
  output hdebugger := by
    rw [hleft.options] at hdebugger
    rw [hleft.output, hright.output, h.output hdebugger]

/-- What is recorded for stack traces does not matter. -/
theorem retraced (h : m.Twin m') (traces traces' : Array StackTrace) :
    ({ m with traces } : Machine).Twin { m' with traces := traces' } :=
  { h with }

/-- The log does not matter. -/
theorem logged (h : m.Twin m') (log log' : Array String) :
    ({ m with log } : Machine).Twin { m' with log := log' } :=
  { h with }

/-- Twins stay so when they get the same scopes. -/
theorem rescoped (h : m.Twin m') {scopes scopes' : Array Scope} (hsame : scopes' = scopes) :
    ({ m with scopes } : Machine).Twin { m' with scopes := scopes' } :=
  { h with scopes := hsame }

/-- Twins stay so when they get the same options, which leave the debugger as it is. -/
theorem adjusted (h : m.Twin m') {change : Options → Options}
    (hdebugger : (change m.options).debugger = m.options.debugger) :
    ({ m with options := change m.options } : Machine).Twin
      { m' with options := change m'.options } := by
  have hchanged : change m'.options = change m.options := congrArg change h.options
  refine { h with divisionScale := ?_, suggestions := ?_, options := hchanged, output := ?_ }
  · exact congrArg Options.divisionScale hchanged
  · exact congrArg Options.suggestions hchanged
  · exact fun hnone ↦ h.output (hdebugger.symm.trans hnone)

end Machine.Twin

/-! ### Tracking scopes -/

/-- A machine has become another one with a new cell, and with the same scopes and sources. -/
structure Machine.Introduces (m n : Machine) (cell : CellRef) : Prop where
  scopes : n.scopes = m.scopes
  sources : m.SameSources n
  evolved : m.Evolved n
  fresh : m.cells.size ≤ cell.index
  made : cell.index < n.cells.size

/-- A way to follow how the scopes of a machine develop. -/
structure Tracking where
  /-- What holds of all machines that are followed. -/
  Inv : Machine → Prop
  /-- The machines a machine can become. -/
  Later : Machine → Machine → Prop
  /-- The sites at which code may run. -/
  Sites : Machine → Site → Site → Prop
  /-- The natives that are not followed. -/
  avoided : Native → Bool
  later_refl : ∀ m : Machine, Later m m
  later_trans : ∀ {m n k : Machine}, Later m n → Later n k → Later m k
  inv_later : ∀ {m n : Machine}, Later m n → Inv m → Inv n
  sites_later : ∀ {m n : Machine} {s s' : Site}, Later m n → Sites m s s' → Sites n s s'
  sites_alike : ∀ {m : Machine} {s s' : Site}, Sites m s s' → s.Alike s'
  untouched : ∀ {m n : Machine}, n.scopes = m.scopes → m.SameSources n → m.Evolved n → Later m n
  withScope : ∀ {m : Machine} (scope : Scope), Inv m → Later m (m.withScope scope)
  sites_fork : ∀ {m : Machine} {s s' : Site}, Inv m → Sites m s s' →
    Sites (m.withScope {})
      { s with
        frame := { top := ⟨m.scopes.size⟩, outer := s.frame.scopes, trace := s.frame.trace } }
      { s' with
        frame := { top := ⟨m.scopes.size⟩, outer := s'.frame.scopes, trace := s'.frame.trace } }
  sites_open : ∀ {m n : Machine} {context : ContextRef} {scope : Scope} (trace trace' : TraceRef),
    Later m n → Inv n → (∀ name, (m.global? context name).isSome → scope.contains name) →
    Sites (n.withScope scope) ⟨context, { top := ⟨n.scopes.size⟩, outer := [], trace }⟩
      ⟨context, { top := ⟨n.scopes.size⟩, outer := [], trace := trace' }⟩
  /-- Names are bound to new cells. A scope of the frame gets a new name only if it is the innermost
  one. -/
  bound : ∀ {m n : Machine} {s s' : Site} {ref : ScopeRef} {cell : CellRef} (name : String),
    Sites m s s' → ref ∈ s.frame.scopes → ref = s.frame.top ∨ (m.scope ref).contains name →
    m.Introduces n cell → Later m (n.bound ref name cell)
  /-- Receivers are bound to any cells. -/
  boundReceiver : ∀ {m : Machine} {s s' : Site} {name : String} (cell : CellRef),
    name ∈ receiverNames → Sites m s s' → Later m (m.bound s.frame.top name cell)
  rebound : ∀ {m n k : Machine} {s s' : Site} {name : String} {cell : CellRef}, Sites m s s' →
    m.lookUpName s.frame name = none → (m.global? s.context name).isSome → Later m n →
    n.Introduces k cell → Later n (k.bound (n.context s.context).globals name cell)
  /-- Names are removed from scopes of the frame and from those of the source. -/
  unbound : ∀ {m : Machine} {s s' : Site} {ref : ScopeRef} (name : String),
    avoided .removeVariable = false → Sites m s s' →
    ref ∈ s.frame.scopes ∨ ref = (m.context s.context).globals → Later m (m.unbound ref name)
  lastSite : ∀ {m : Machine} {s : Site}, avoided (.host .bare) = false → Inv m →
    Native.lastSite? m = some s → Sites m s s

namespace Tracking

open Relations

variable (T : Tracking)

/-- Twins, the left one of which is followed. -/
def relations : Relations where
  Like m m' := m.Twin m' ∧ T.Inv m
  Fails := Failure.Alike
  Later := T.Later
  alike h := h.1.toAlike
  fails_refl := Failure.Alike.refl
  later_refl := T.later_refl
  later_trans := T.later_trans

variable {T} {α β : Type} {m : Machine} {s s' : Site} {R : Machine → α → β → Prop}

/-- A machine whose scopes, sources, cells and tables stay as they are is followed. -/
theorem unchanged (T : Tracking) {m n : Machine} (hscopes : n.scopes = m.scopes)
    (hsources : m.SameSources n) (hcells : n.cells = m.cells) (htables : n.tables = m.tables) :
    T.Later m n :=
  T.untouched hscopes hsources (.elsewhere hcells htables)

/-- Steps that succeed, each leaving a twin of what the other leaves. -/
theorem runs_of_ok {x : Run α} {y : Run β}
    (h : ∀ n n', T.Later m n → n.Twin n' → T.Inv n → ∃ a b k k', x n = .ok a k ∧ y n' = .ok b k' ∧
      T.Later n k ∧ k.Twin k' ∧ R k a b) : T.relations.Runs m R x y := by
  intro n n' hlater hlike
  obtain ⟨a, b, k, k', hx, hy, hk, htwin, hvalue⟩ := h n n' hlater hlike.1 hlike.2
  rw [hx, hy]
  exact .ok hk ⟨htwin, T.inv_later hk hlike.2⟩ hvalue

theorem confined {R : α → β → Prop} {x : Run α} {y : Run β} (m : Machine) (h : Confined R x y) :
    T.relations.Runs m (fun _ ↦ R) x y := by
  intro n n' _ hlike
  have hends := h n n' n n' (.refl n) ⟨hlike.1.toAlike, .refl n, .refl n'⟩
  revert hends
  generalize x n = o
  generalize y n' = o'
  intro hends
  cases hends with
  | ok hevolved hstore hvalue =>
    obtain ⟨halike, hleft, hright⟩ := hstore
    have hlater := T.untouched hleft.scopes hleft.sources hevolved
    exact .ok hlater ⟨hlike.1.of_sameOutside halike hleft hright, T.inv_later hlater hlike.2⟩ hvalue
  | error hevolved hstore hfails =>
    obtain ⟨halike, hleft, hright⟩ := hstore
    have hlater := T.untouched hleft.scopes hleft.sources hevolved
    cases hfails
    exact .error hlater ⟨hlike.1.of_sameOutside halike hleft hright, T.inv_later hlater hlike.2⟩
      (.refl _)

theorem quiet {x y : Run Unit} (m : Machine) (hx : Quiet x) (hy : Quiet y) :
    T.relations.Same m x y := by
  refine runs_of_ok fun n n' _ htwin _ ↦ ?_
  obtain ⟨log, hlog⟩ := hx n
  obtain ⟨log', hlog'⟩ := hy n'
  exact ⟨(), (), _, _, hlog, hlog', T.unchanged rfl rfl rfl rfl, htwin.logged log log', rfl⟩

theorem say (m : Machine) (text : String) : T.relations.Same m (say text) (say text) := by
  refine runs_of_ok fun n n' _ htwin _ ↦
    ⟨(), (), _, _, rfl, rfl, T.unchanged rfl rfl rfl rfl, ?_, rfl⟩
  exact { htwin with output := fun hnone ↦ congrArg (· ++ text) (htwin.output hnone) }

theorem raise (context context' : ContextRef) (frame frame' : Frame) (kind : ErrorKind)
    (message : String) :
    T.relations.Runs m R (raise frame context kind message)
      (TreeScript.raise frame' context' kind message) := by
  intro n n' _ hlike
  refine .error (T.later_refl n) hlike (.fault kind message _ _ ?_)
  exact iff_of_false (n.formatTrace_ne_empty frame context)
    (n'.formatTrace_ne_empty frame' context')

theorem traced {x y : Run α} (kind : ErrorKind) (h : T.relations.Same m x y) (s s' : Site) :
    T.relations.Same m (s.traced kind x) (s'.traced kind y) := by
  refine Runs.tryCatch h fun n e e' _ hfails ↦ Runs.get_bind fun k k' _ ↦ ?_
  exact Runs.throw_of_fails (hfails.attach kind (k.formatTrace_ne_empty s.frame s.context)
    (k'.formatTrace_ne_empty s'.frame s'.context))

/-- Changing a stack trace on both sides does not matter. -/
theorem retrace (ref ref' : TraceRef) (change change' : StackTrace → StackTrace) :
    T.relations.Same m (modifyTrace ref change) (modifyTrace ref' change') :=
  runs_of_ok fun _ _ _ htwin _ ↦
    ⟨(), (), _, _, rfl, rfl, T.unchanged rfl rfl rfl rfl, htwin.retraced _ _, rfl⟩

/-- Recording a node gives depths that nothing but going back there depends on. -/
theorem record (s s' : Site) (node : Node) :
    T.relations.Runs m (fun _ _ _ ↦ True) (Visit.record s node) (Visit.record s' node) := by
  unfold Visit.record
  split
  · exact Runs.pure fun _ _ ↦ trivial
  · refine Runs.get_bind fun n n' _ ↦ ?_
    refine runs_of_ok fun k k' _ htwin _ ↦ ?_
    exact ⟨_, _, _, _, rfl, rfl, T.unchanged rfl rfl rfl rfl, htwin.retraced _ _, trivial⟩

theorem goBack (s s' : Site) (depth depth' : Option Nat) :
    T.relations.Same m (Visit.goBack s depth) (Visit.goBack s' depth') := by
  refine runs_of_ok fun n n' _ htwin _ ↦ ?_
  cases depth with
  | none =>
    cases depth' with
    | none => exact ⟨(), (), n, n', rfl, rfl, T.later_refl n, htwin, rfl⟩
    | some depth' =>
      exact ⟨(), (), n, _, rfl, rfl, T.later_refl n, htwin.retraced n.traces _, rfl⟩
  | some depth =>
    cases depth' with
    | none =>
      exact ⟨(), (), _, n', rfl, rfl, T.unchanged rfl rfl rfl rfl, htwin.retraced _ n'.traces, rfl⟩
    | some depth' =>
      exact ⟨(), (), _, _, rfl, rfl, T.unchanged rfl rfl rfl rfl, htwin.retraced _ _, rfl⟩

/-- Going back after an action keeps what the action gave. -/
theorem within {x y : Run Completion} (h : T.relations.Same m x y) (s s' : Site)
    (depth depth' : Option Nat) :
    T.relations.Same m (Visit.within s depth x) (Visit.within s' depth' y) := by
  refine Same.bind (Runs.tryCatch h fun n e e' _ hfails ↦ ?_) fun result ↦
    (goBack s s' depth depth').bind fun _ ↦ Same.refl_pure result
  exact (goBack s s' depth depth').bind fun _ ↦ Runs.throw_of_fails hfails

/-! ### The debugger -/

/-- Machines that are halted by the same debugger. What a debugger writes does not matter. -/
def halted : Relations where
  Like m m' := m.Alike m' ∧ m'.options = m.options ∧ m.options.debugger ≠ none
  Fails := Failure.Alike
  Later m n := n.scopes = m.scopes ∧ m.SameSources n ∧ n.cells = m.cells ∧ n.tables = m.tables
  alike h := h.1
  fails_refl := Failure.Alike.refl
  later_refl _ := ⟨rfl, rfl, rfl, rfl⟩
  later_trans hmn hnk := ⟨hnk.1.trans hmn.1, hmn.2.1.trans hnk.2.1, hnk.2.2.1.trans hmn.2.2.1,
    hnk.2.2.2.trans hmn.2.2.2⟩

theorem halted_modifyDebugger (change : Debugger → Debugger) :
    halted.Same m (modifyDebugger change) (modifyDebugger change) := by
  intro n n' _ hlike
  obtain ⟨halike, hoptions, hdebugger⟩ := hlike
  refine .ok ⟨rfl, rfl, rfl, rfl⟩ ⟨{ halike with }, ?_, ?_⟩ rfl
  · dsimp only
    rw [hoptions]
  · dsimp only
    exact fun hnone ↦ hdebugger (Option.map_eq_none_iff.mp hnone)

theorem halted_say (text text' : String) :
    halted.Same m (TreeScript.say text) (TreeScript.say text') :=
  fun _ _ _ hlike ↦ .ok ⟨rfl, rfl, rfl, rfl⟩ ⟨{ hlike.1 with }, hlike.2⟩ rfl

theorem halted_sayFromDebugger (text text' : String) :
    halted.Same m (sayFromDebugger text) (sayFromDebugger text') := by
  refine Runs.get_bind_now fun n n' _ hlike ↦ ?_
  rw [hlike.2.1]
  split
  · split
    · exact fun _ _ _ hlike ↦ .ok ⟨rfl, rfl, rfl, rfl⟩ ⟨{ hlike.1 with }, hlike.2⟩ rfl
    · exact halted_say text text'
  · exact halted_say text text'

theorem halted_nextDebugAction : halted.Same m nextDebugAction nextDebugAction := by
  refine Runs.get_bind_now fun n n' _ hlike ↦ ?_
  rw [hlike.2.1]
  split
  · exact Same.refl_pure _
  · exact (halted_modifyDebugger _).bind fun _ ↦ (halted_say _ _).bind fun _ ↦ Same.refl_pure _

theorem halted_followActions (s s' : Site) (count : Nat) :
    halted.Same m (followActions s count) (followActions s' count) := by
  induction count with
  | zero => exact halted_modifyDebugger _
  | succ count ih =>
    refine halted_nextDebugAction.bind fun next ↦ ?_
    have hshown (text text' : Machine → String) : halted.Same m
        (do
          sayFromDebugger (text (← get))
          followActions s count)
        (do
          sayFromDebugger (text' (← get))
          followActions s' count) :=
      Runs.get_bind fun n n' _ ↦ (halted_sayFromDebugger _ _).bind fun _ ↦ ih
    split
    · exact halted_modifyDebugger _
    · intro n n' _ hlike
      refine .error ⟨rfl, rfl, rfl, rfl⟩ hlike (.fault _ _ _ _ ?_)
      exact iff_of_false (n.formatTrace_ne_empty _ _) (n'.formatTrace_ne_empty _ _)
    · exact Same.refl_pure ()
    · exact halted_modifyDebugger _
    · exact hshown _ _
    · exact hshown _ _
    · exact (halted_sayFromDebugger _ _).bind fun _ ↦ ih

/-- Twins that are halted stay twins. -/
theorem of_halted {x y : Run α} {n n' : Machine} (h : halted.Same n x y)
    (hlike : T.relations.Like n n') (hdebugger : n.options.debugger ≠ none) :
    T.relations.Ends (fun _ ↦ Eq) n (x n) (y n') := by
  have hends := h.now ⟨hlike.1.toAlike, hlike.1.options, hdebugger⟩
  have hkept {k k' : Machine} (hk : halted.Later n k) (hhalted : halted.Like k k') :
      T.Later n k ∧ T.relations.Like k k' := by
    have hlater := T.unchanged hk.1 hk.2.1 hk.2.2.1 hk.2.2.2
    obtain ⟨halike, hoptions, hsome⟩ := hhalted
    exact ⟨hlater, ⟨halike, hoptions, fun hnone ↦ absurd hnone hsome⟩, T.inv_later hlater hlike.2⟩
  revert hends
  generalize x n = o
  generalize y n' = o'
  intro hends
  cases hends with
  | ok hk hhalted hvalue =>
    obtain ⟨hlater, hlike'⟩ := hkept hk hhalted
    exact .ok hlater hlike' hvalue
  | error hk hhalted hfails =>
    obtain ⟨hlater, hlike'⟩ := hkept hk hhalted
    exact .error hlater hlike' hfails

/-- Halting at a node does not matter but for what the debugger writes. -/
theorem halt (s s' : Site) (node : Node) : T.relations.Same m (haltAt s node) (haltAt s' node) := by
  intro n n' _ hlike
  refine Ends.get_bind ?_
  rw [hlike.1.options]
  cases hdebugger : n.options.debugger with
  | none => exact .ok (T.later_refl n) hlike rfl
  | some debugger =>
    refine of_halted ?_ hlike (by rw [hdebugger]; exact Option.some_ne_none debugger)
    dsimp only
    split
    · exact (halted_sayFromDebugger _ _).bind fun _ ↦ halted_followActions s s' _
    · exact Same.refl_pure ()

/-! ### Scopes -/

theorem fork (hsites : T.Sites m s s') : T.relations.Runs m T.Sites s.fork s'.fork := by
  refine runs_of_ok fun n n' hlater htwin hinv ↦ ⟨_, _, _, _, rfl, rfl, T.withScope {} hinv, ?_, ?_⟩
  · exact htwin.rescoped (by rw [htwin.scopes])
  · have hfork := T.sites_fork hinv (T.sites_later hlater hsites)
    rw [htwin.scopes]
    exact hfork

theorem openFrame {context : ContextRef} {scope : Scope} (s s' : Site)
    (hscope : ∀ name, (m.global? context name).isSome → scope.contains name) :
    T.relations.Runs m (fun n frame frame' ↦ T.Sites n ⟨context, frame⟩ ⟨context, frame'⟩)
      (s.frame.forkWith scope) (s'.frame.forkWith scope) := by
  refine runs_of_ok fun n n' hlater htwin hinv ↦
    ⟨_, _, _, _, rfl, rfl, T.withScope scope hinv, ?_, ?_⟩
  · exact htwin.rescoped (by rw [htwin.scopes])
  · have hopened := T.sites_open s.frame.trace s'.frame.trace hlater hinv hscope
    rw [htwin.scopes]
    exact hopened

/-- Two runs make the same new cell, and bind it somewhere. -/
theorem bindNew {make : Run CellRef} (hmake : MakesCell make) {bind bind' : CellRef → Run Unit}
    (hbind : ∀ n n' k k' cell, T.Later m n → T.relations.Like n n' → n.Introduces k cell →
      k.Twin k' → ∃ ref name, bind cell k = .ok () (k.bound ref name cell) ∧
        bind' cell k' = .ok () (k'.bound ref name cell) ∧ T.Later n (k.bound ref name cell)) :
    T.relations.Same m (bindNew make bind) (TreeScript.bindNew make bind') := by
  intro n n' hlater hlike
  obtain ⟨cell, k, hmade, hfresh, hexists⟩ := hmake.new n
  have hends := hmake.steady n n' n n' (.refl n) ⟨hlike.1.toAlike, .refl n, .refl n'⟩
  unfold TreeScript.bindNew
  rw [Run.bind_ok hmade]
  rw [hmade] at hends
  cases hmade' : make n' with
  | error e k' =>
    rw [hmade'] at hends
    cases hends
  | ok cell' k' =>
    rw [hmade'] at hends
    rw [Run.bind_ok hmade']
    cases hends with
    | ok hevolved hstore hsame =>
      subst hsame
      obtain ⟨halike, hleft, hright⟩ := hstore
      have htwin := hlike.1.of_sameOutside halike hleft hright
      obtain ⟨ref, name, hbound, hbound', hbind⟩ := hbind n n' k k' cell hlater hlike
        ⟨hleft.scopes, hleft.sources, hevolved, hfresh, hexists⟩ htwin
      rw [Run.bind_ok hbound, Run.bind_ok hbound']
      refine .ok hbind ⟨htwin.rescoped ?_, T.inv_later hbind hlike.2⟩ rfl
      rw [htwin.scopes]

/-- Assumes: a receiver. It may be bound in the innermost scope. -/
theorem putReceiver {name : String} (cell : CellRef) (hname : name ∈ receiverNames)
    (hsites : T.Sites m s s') :
    T.relations.Same m (s.frame.putOnTop name cell) (s'.frame.putOnTop name cell) := by
  have htop : s'.frame.top = s.frame.top := by
    obtain ⟨trace⟩ := T.sites_alike hsites
    rfl
  unfold Frame.putOnTop
  rw [htop]
  refine runs_of_ok fun n n' hlater htwin hinv ↦ ⟨(), (), _, _, rfl, rfl,
    T.boundReceiver cell hname (T.sites_later hlater hsites), htwin.rescoped ?_, rfl⟩
  rw [htwin.scopes]

theorem putOnTop {make : Run CellRef} (name : String) (hmake : MakesCell make)
    (hsites : T.Sites m s s') :
    T.relations.Same m (TreeScript.bindNew make (s.frame.putOnTop name))
      (TreeScript.bindNew make (s'.frame.putOnTop name)) := by
  have htop : s'.frame.top = s.frame.top := by
    obtain ⟨trace⟩ := T.sites_alike hsites
    rfl
  refine bindNew hmake fun n n' k k' cell hlater hlike hnew htwin ↦
    ⟨s.frame.top, name, rfl, ?_, ?_⟩
  · rw [← htop]
    rfl
  · exact T.bound name (T.sites_later hlater hsites) (List.mem_cons_self ..) (.inl rfl) hnew

theorem put {make : Run CellRef} (name : String) (hmake : MakesCell make)
    (hsites : T.Sites m s s') :
    T.relations.Same m (TreeScript.bindNew make (s.frame.put name))
      (TreeScript.bindNew make (s'.frame.put name)) := by
  have htop : s'.frame.top = s.frame.top := by
    obtain ⟨trace⟩ := T.sites_alike hsites
    rfl
  refine bindNew hmake fun n n' k k' cell hlater hlike hnew htwin ↦
    ⟨(n.binderOf? s.frame name).getD s.frame.top, name, ?_, ?_, ?_⟩
  · have hbinder : k.binderOf? s.frame name = n.binderOf? s.frame name := by
      unfold Machine.binderOf? Machine.scope
      rw [hnew.scopes]
    unfold Frame.put
    rw [Run.get_bind, hbinder]
    rfl
  · have hbinder : k'.binderOf? s'.frame name = n.binderOf? s.frame name := by
      rw [htwin.toAlike.binderOf?, (T.sites_alike hsites).binderOf?]
      unfold Machine.binderOf? Machine.scope
      rw [hnew.scopes]
    unfold Frame.put
    rw [Run.get_bind, hbinder, htop]
    rfl
  · refine T.bound name (T.sites_later hlater hsites) ?_ ?_ hnew
    · cases hbinder : n.binderOf? s.frame name with
      | none => exact List.mem_cons_self ..
      | some ref => exact List.mem_of_find?_eq_some hbinder
    · cases hbinder : n.binderOf? s.frame name with
      | none => exact .inl rfl
      | some ref =>
        exact .inr (List.find?_some (p := fun ref ↦ (n.scope ref).contains name) hbinder)

theorem rebindGlobal {name : String} {make : Run CellRef} (hmake : MakesCell make)
    (hsites : T.Sites m s s') (hfree : m.lookUpName s.frame name = none)
    (hglobal : (m.global? s.context name).isSome) :
    T.relations.Same m (TreeScript.bindNew make (setVariable s.context name))
      (TreeScript.bindNew make (setVariable s'.context name)) := by
  have hcontext := (T.sites_alike hsites).context
  refine bindNew hmake fun n n' k k' cell hlater hlike hnew htwin ↦
    ⟨(n.context s.context).globals, name, ?_, ?_, T.rebound hsites hfree hglobal hlater hnew⟩
  · rw [← hnew.sources.context]
    rfl
  · rw [hcontext, ← hnew.sources.context, ← htwin.toAlike.context]
    rfl

/-- A name is removed from a scope of the frame or from that of the source. -/
theorem unbindAt {ref : ScopeRef} {n n' : Machine} (havoided : T.avoided .removeVariable = false)
    (hlike : T.relations.Like n n') (hsites : T.Sites n s s') (name : String)
    (hplace : ref ∈ s.frame.scopes ∨ ref = (n.context s.context).globals) :
    T.Later n (n.unbound ref name) ∧
      T.relations.Like (n.unbound ref name) (n'.unbound ref name) := by
  have hlater := T.unbound name havoided hsites hplace
  exact ⟨hlater, hlike.1.rescoped (by rw [hlike.1.scopes]), T.inv_later hlater hlike.2⟩

theorem remove (havoided : T.avoided .removeVariable = false) (hsites : T.Sites m s s')
    (name : String) : T.relations.Same m (s.frame.remove name) (s'.frame.remove name) := by
  intro n n' hlater hlike
  refine Ends.get_bind ?_
  rw [hlike.1.toAlike.binderOf?, (T.sites_alike hsites).binderOf?]
  cases hbinder : n.binderOf? s.frame name with
  | none => exact .ok (T.later_refl n) hlike rfl
  | some ref =>
    obtain ⟨hunbound, hlike⟩ := unbindAt havoided hlike (T.sites_later hlater hsites) name
      (.inl (List.mem_of_find?_eq_some hbinder))
    exact .ok hunbound hlike rfl

theorem removeVariable (havoided : T.avoided .removeVariable = false) (hsites : T.Sites m s s')
    (name : String) :
    T.relations.Same m (removeVariable s.context name)
      (TreeScript.removeVariable s'.context name) := by
  intro n n' hlater hlike
  refine Ends.get_bind ?_
  rw [(T.sites_alike hsites).context, hlike.1.toAlike.context]
  obtain ⟨hunbound, hlike⟩ :=
    unbindAt havoided hlike (T.sites_later hlater hsites) name (.inr rfl)
  exact .ok hunbound hlike rfl

/-- The comparison of twin runs of which the scopes are tracked. -/
def comparison (T : Tracking) : Comparison where
  toRelations := T.relations
  Sites := T.Sites
  Callers _ _ _ := True
  avoided := T.avoided
  sites_later := T.sites_later
  sites_alike := T.sites_alike
  callers_later _ _ := trivial
  callers _ := trivial
  confined := confined
  quiet := quiet
  say := say
  raise _ context kind message _ := raise context context _ _ kind message
  traced kind _ h := traced kind h _ _
  recorded node _ h := Runs.bind (record _ _ node) fun _ depth depth' hlater _ ↦
    within (h.mono hlater) _ _ depth depth'
  halt node _ := halt _ _ node
  fork := fork
  openFrame _ hscope := openFrame _ _ hscope
  putReceiver := putReceiver
  putOnTop := putOnTop
  put := put
  rebindGlobal := rebindGlobal
  retrace change _ _ := retrace _ _ change change
  remove name havoided hsites := remove havoided hsites name
  removeVariable name havoided hsites := removeVariable havoided hsites name
  options _ hlike := hlike.1.options
  adjust _ _ _ hkept := runs_of_ok fun n _ _ htwin _ ↦
    ⟨(), (), _, _, rfl, rfl, T.unchanged rfl rfl rfl rfl, htwin.adjusted (hkept n.options).2.2, rfl⟩
  lastSite havoided hlike hsite := T.lastSite havoided hlike.2 hsite

end Tracking

/-- Twin runs at sites that are alike, with nothing known of the scopes. -/
def Tracking.nothing : Tracking where
  Inv _ := True
  Later _ _ := True
  Sites _ s s' := s.Alike s'
  avoided _ := false
  later_refl _ := trivial
  later_trans _ _ := trivial
  inv_later _ _ := trivial
  sites_later _ h := h
  sites_alike h := h
  untouched _ _ _ := trivial
  withScope _ _ := trivial
  sites_fork _ h := by
    obtain ⟨trace⟩ := h
    exact .retraced trace
  sites_open _ trace' _ _ _ := .retraced trace'
  bound _ _ _ _ _ := trivial
  boundReceiver _ _ _ := trivial
  rebound _ _ _ _ _ := trivial
  unbound _ _ _ _ := trivial
  lastSite _ _ _ := .retraced _

end TreeScript
