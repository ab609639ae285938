import TreeScript.Proofs.Comparison.Evaluation

/-!
# Runs that are watched

A run can be watched: by the evaluation trace, by logs of names, assignments and calls, and by a
debugger. `Machine.Observed m m'` says that `m'` runs what `m` runs, with all of this switched off.
The two machines hold the same, their stack traces included, so that failures on them have the same
text; and what the watched one has written is what the other one has written, with what a debugger
wrote in between. `Observed.comparison` is the comparison of such runs. It does not follow the
native that switches traces and logs on and off.

Of what watches a run, only a debugger does more than write to the log. Where its source of actions
does not fail, a halt ends with the program going on (`haltAt_apply`), and all it changes is what
has been written and the state of the debugger itself (`Machine.Halted`).
-/

set_option autoImplicit false

namespace TreeScript

/-! ### Debuggers -/

/-- Whether a source fails when its actions run out. -/
def ActionSource.failsAtEnd : ActionSource → Bool
  | console .. => false
  | queue _ failsAtEnd => failsAtEnd

/-- Whether a source complains about lines that make no sense. -/
def ActionSource.complains : ActionSource → Bool
  | console _ complains => complains
  | queue .. => false

/-- A debugger whose source of actions never fails. -/
def Debugger.NeverFails (debugger : Debugger) : Prop :=
  ∀ source ∈ debugger.actions, source.failsAtEnd = false

/-- A debugger that writes nothing to the output of the program. -/
structure Debugger.WritesApart (debugger : Debugger) : Prop where
  separate : debugger.separate = true
  silent : ∀ source ∈ debugger.actions, source.complains = false

namespace ActionSource

theorem readLine_ne_failed (lines : List String) (message : String) :
    (readLine lines).1 ≠ .failed message := by
  induction lines with
  | nil => exact nofun
  | cons line lines ih =>
    rw [readLine]
    split
    · exact nofun
    · exact ih

theorem failsAtEnd_next (source : ActionSource) :
    source.next.2.1.failsAtEnd = source.failsAtEnd := by
  cases source with
  | console lines complains => rfl
  | queue actions failsAtEnd => cases actions <;> rfl

theorem complains_next (source : ActionSource) : source.next.2.1.complains = source.complains := by
  cases source with
  | console lines complains => rfl
  | queue actions failsAtEnd => cases actions <;> rfl

/-- Assumes: a source that does not fail at its end. It does not fail. -/
theorem next_ne_failed {source : ActionSource} (h : source.failsAtEnd = false) (message : String) :
    source.next.1 ≠ .failed message := by
  cases source with
  | console lines complains => exact readLine_ne_failed lines message
  | queue actions failsAtEnd =>
    cases h
    cases actions <;> exact nofun

/-- Assumes: a source that does not complain. There are no complaints. -/
theorem next_complaints {source : ActionSource} (h : source.complains = false) :
    source.next.2.2 = "" := by
  cases source with
  | console lines complains =>
    cases h
    rfl
  | queue actions failsAtEnd => cases actions <;> rfl

end ActionSource

namespace Machine

/-- No debugger, or one whose source of actions never fails. -/
def NeverFails (m : Machine) : Prop := ∀ debugger ∈ m.options.debugger, debugger.NeverFails

/-- No debugger, or one that writes nothing to the output of the program. -/
def WritesApart (m : Machine) : Prop := ∀ debugger ∈ m.options.debugger, debugger.WritesApart

/-- What a halt of the debugger changes: what has been written, and the state of the debugger. -/
structure Halted (m n : Machine) : Prop where
  same : { m with
    output := n.output, debugOutput := n.debugOutput,
    options := { m.options with debugger := n.options.debugger } } = n
  debugger : n.options.debugger.isSome = m.options.debugger.isSome
  neverFails : m.NeverFails → n.NeverFails
  writesApart : n.WritesApart ↔ m.WritesApart
  output : ∃ text, n.output = m.output ++ text
  apart : m.WritesApart → n.output = m.output

namespace Halted

variable {m n k : Machine}

theorem refl (m : Machine) : m.Halted m where
  same := rfl
  debugger := rfl
  neverFails h := h
  writesApart := Iff.rfl
  output := ⟨"", String.append_empty.symm⟩
  apart _ := rfl

theorem trans (hmn : m.Halted n) (hnk : n.Halted k) : m.Halted k where
  same := by
    rw [← hnk.same, ← hmn.same]
  debugger := hnk.debugger.trans hmn.debugger
  neverFails h := hnk.neverFails (hmn.neverFails h)
  writesApart := hnk.writesApart.trans hmn.writesApart
  output := by
    obtain ⟨text, htext⟩ := hmn.output
    obtain ⟨text', htext'⟩ := hnk.output
    exact ⟨text ++ text', by rw [htext', htext, String.append_assoc]⟩
  apart h := (hnk.apart (hmn.writesApart.mpr h)).trans (hmn.apart h)

/-- Assumes: a debugger that changes neither where it writes nor whether its source fails or
complains. It writes to the output of the program only if it does not write apart. -/
theorem of_change {before after : Debugger} (hbefore : m.options.debugger = some before)
    (hfails : before.NeverFails → after.NeverFails)
    (happart : after.WritesApart ↔ before.WritesApart) {output : String}
    (houtput : ∃ text, output = m.output ++ text) (hsilent : before.WritesApart → output = m.output)
    (debugOutput : String) :
    m.Halted { m with
      output, debugOutput, options := { m.options with debugger := some after } } where
  same := rfl
  debugger := by rw [hbefore]; rfl
  neverFails h := by
    rintro debugger ⟨⟩
    exact hfails (h before hbefore)
  writesApart := by
    unfold Machine.WritesApart
    rw [hbefore]
    constructor
    · rintro h debugger ⟨⟩
      exact happart.mp (h after rfl)
    · rintro h debugger ⟨⟩
      exact happart.mpr (h before rfl)
  output := houtput
  apart h := hsilent (h before hbefore)

end Halted

end Machine

/-- A computation that ends, and changes no more than a halt of the debugger does. -/
def Halts {α : Type} (Q : α → Prop) (x : Run α) : Prop :=
  ∀ m : Machine, m.options.debugger.isSome → m.NeverFails →
    ∃ a n, x m = .ok a n ∧ m.Halted n ∧ Q a

theorem modifyDebugger_apply {m : Machine} {debugger : Debugger}
    (h : m.options.debugger = some debugger) (change : Debugger → Debugger) :
    modifyDebugger change m =
      .ok () { m with options := { m.options with debugger := some (change debugger) } } := by
  change EStateM.Result.ok ()
    { m with options := { m.options with debugger := m.options.debugger.map change } } = _
  rw [h]
  rfl

namespace Halts

variable {α β : Type} {Q : α → Prop} {R : β → Prop}

theorem pure {a : α} (h : Q a) : Halts Q (Pure.pure a) := fun m _ _ ↦ ⟨a, m, rfl, .refl m, h⟩

theorem bind {x : Run α} {f : α → Run β} (hfirst : Halts Q x) (hrest : ∀ a, Q a → Halts R (f a)) :
    Halts R (x >>= f) := by
  intro m hsome hfails
  obtain ⟨a, n, hx, hhalted, ha⟩ := hfirst m hsome hfails
  obtain ⟨b, k, hf, hhalted', hb⟩ :=
    hrest a ha n (hhalted.debugger.trans hsome) (hhalted.neverFails hfails)
  exact ⟨b, k, (Run.bind_ok hx).trans hf, hhalted.trans hhalted', hb⟩

theorem get_bind {f : Machine → Run α}
    (h : ∀ m : Machine, m.options.debugger.isSome → m.NeverFails →
      ∃ a n, f m m = .ok a n ∧ m.Halted n ∧ Q a) : Halts Q (get >>= f) := h

theorem disableDebugger : Halts (fun _ ↦ True) disableDebugger := by
  intro m hsome _
  obtain ⟨debugger, hdebugger⟩ := Option.isSome_iff_exists.mp hsome
  refine ⟨(), _, modifyDebugger_apply hdebugger _, ?_, trivial⟩
  refine .of_change hdebugger ?_ ?_ ⟨"", String.append_empty.symm⟩ (fun _ ↦ rfl) _
  · exact fun h ↦ h
  · exact ⟨fun h ↦ ⟨h.separate, h.silent⟩, fun h ↦ ⟨h.separate, h.silent⟩⟩

theorem sayFromDebugger (text : String) : Halts (fun _ ↦ True) (sayFromDebugger text) := by
  refine get_bind fun m hsome _ ↦ ?_
  obtain ⟨debugger, hdebugger⟩ := Option.isSome_iff_exists.mp hsome
  rw [hdebugger]
  dsimp only
  by_cases hseparate : debugger.separate = true
  · rw [if_pos hseparate]
    refine ⟨(), _, rfl, ?_, trivial⟩
    exact ⟨rfl, rfl, fun h ↦ h, Iff.rfl, ⟨"", String.append_empty.symm⟩, fun _ ↦ rfl⟩
  · rw [if_neg hseparate]
    refine ⟨(), _, rfl, ?_, trivial⟩
    exact ⟨rfl, rfl, fun h ↦ h, Iff.rfl, ⟨text, rfl⟩,
      fun h ↦ absurd (h debugger hdebugger).separate hseparate⟩

/-- The debugger goes on to its next action, which is there or is the end. -/
theorem nextDebugAction : Halts (fun next ↦ ∀ message, next ≠ .failed message) nextDebugAction := by
  refine get_bind fun m hsome hfails ↦ ?_
  obtain ⟨debugger, hdebugger⟩ := Option.isSome_iff_exists.mp hsome
  rw [hdebugger, Option.bind_some]
  cases hactions : debugger.actions with
  | none => exact ⟨.finished, m, rfl, .refl m, nofun⟩
  | some source =>
    have hsource : source.failsAtEnd = false := hfails debugger hdebugger source hactions
    have hfailed := ActionSource.next_ne_failed hsource
    have hrest := source.failsAtEnd_next.trans hsource
    have hcomplains := source.complains_next
    have hcomplaints : source.complains = false → source.next.2.2 = "" :=
      ActionSource.next_complaints
    dsimp only
    generalize source.next = answer at *
    obtain ⟨next, rest, complaints⟩ := answer
    refine ⟨next, _, Run.bind_ok (modifyDebugger_apply hdebugger _), ?_, hfailed⟩
    refine .of_change hdebugger ?_ ?_ ⟨complaints, rfl⟩ ?_ _
    · rintro _ other ⟨⟩
      exact hrest
    · constructor
      · intro h
        refine ⟨h.separate, ?_⟩
        rw [hactions]
        rintro other ⟨⟩
        exact hcomplains.symm.trans (h.silent rest rfl)
      · intro h
        refine ⟨h.separate, ?_⟩
        rintro other ⟨⟩
        exact hcomplains.trans (h.silent source hactions)
    · intro h
      have hnothing : complaints = "" := hcomplaints (h.silent source hactions)
      rw [hnothing]
      exact String.append_empty

theorem followActions (site : Site) (count : Nat) :
    Halts (fun _ ↦ True) (followActions site count) := by
  -- Resuming ends the halt; every other action is followed by the rest of them.
  induction count with
  | zero => exact disableDebugger
  | succ count ih =>
    refine nextDebugAction.bind fun next hnext ↦ ?_
    have hshown (read : Machine → String) :
        Halts (fun _ ↦ True) (do
          TreeScript.sayFromDebugger (read (← get) ++ "\n")
          TreeScript.followActions site count) :=
      get_bind fun m hsome hfails ↦
        ((sayFromDebugger (read m ++ "\n")).bind fun _ _ ↦ ih) m hsome hfails
    split
    · exact disableDebugger
    · exact absurd rfl (hnext _)
    · exact pure trivial
    · exact disableDebugger
    · exact hshown _
    · exact hshown _
    · exact (sayFromDebugger _).bind fun _ _ ↦ ih

end Halts

/-- Assumes: no debugger, or one whose source of actions never fails. Before every node the program
goes on. -/
theorem haltAt_apply (site : Site) (node : Node) {m : Machine} (h : m.NeverFails) :
    ∃ n, haltAt site node m = .ok () n ∧ m.Halted n := by
  unfold haltAt
  rw [Run.get_bind]
  cases hdebugger : m.options.debugger with
  | none => exact ⟨m, rfl, .refl m⟩
  | some debugger =>
    have hsome : m.options.debugger.isSome := by rw [hdebugger]; rfl
    have hhalts : Halts (fun _ ↦ True) (if debugger.shouldHalt node then do
        sayFromDebugger
          (">>> " ++ Text.collapse node.code ++ " [resume, symbols, stack, resume all]\n")
        followActions site ((debugger.actions.map (·.length)).getD 0 + 1)
      else pure ()) := by
      split
      · exact (Halts.sayFromDebugger _).bind fun _ _ ↦ Halts.followActions site _
      · exact Halts.pure trivial
    obtain ⟨⟨⟩, n, hn, hhalted, -⟩ := hhalts m hsome h
    exact ⟨n, hn, hhalted⟩

/-! ### Machines -/

/-- The options with everything switched off that only watches a run. -/
def Options.unobserved (options : Options) : Options :=
  { options with
    trace := 0, logResolve := false, logAssignments := false, logCalls := false, debugger := none }

namespace Machine

/-- A machine that is watched, and one that holds the same and is not: it has written the same, but
for what a debugger wrote in between. -/
structure Observed (m m' : Machine) : Prop extends m.Alike m' where
  traces : m'.traces = m.traces
  evaluating : m'.evaluating = m.evaluating
  hostModules : m'.hostModules = m.hostModules
  options : m'.options = m.options.unobserved
  neverFails : m.NeverFails
  output : m'.output.toList.Sublist m.output.toList
  apart : m.WritesApart → m'.output = m.output

namespace Observed

variable {m m' n n' : Machine}

/-- Machines that are alike and differ from two such machines in the store only are such machines.
-/
theorem of_sameOutside (h : m.Observed m') (halike : n.Alike n') (hleft : m.SameOutside n)
    (hright : m'.SameOutside n') : n.Observed n' where
  toAlike := halike
  traces := by rw [← hleft, ← hright, h.traces]
  evaluating := by rw [← hleft, ← hright, h.evaluating]
  hostModules := by rw [← hleft, ← hright, h.hostModules]
  options := by rw [hleft.options, hright.options, h.options]
  neverFails := by
    unfold Machine.NeverFails
    rw [hleft.options]
    exact h.neverFails
  output := by
    rw [hleft.output, hright.output]
    exact h.output
  apart happart := by
    unfold Machine.WritesApart at happart
    rw [hleft.options] at happart
    rw [hleft.output, hright.output]
    exact h.apart happart

/-- A debugger that halts the watched machine does not matter. -/
theorem of_halted (h : m.Observed m') (hhalted : m.Halted n) : n.Observed m' := by
  have hneverFails := hhalted.neverFails h.neverFails
  have houtput : m'.output.toList.Sublist n.output.toList := by
    obtain ⟨text, htext⟩ := hhalted.output
    rw [htext, String.toList_append]
    exact h.output.trans (List.sublist_append_left ..)
  have happart (hwrites : n.WritesApart) : m'.output = n.output := by
    have hwritten := hhalted.writesApart.mp hwrites
    rw [hhalted.apart hwritten, h.apart hwritten]
  -- All that is left to compare does not mention what a halt changes.
  have hsame := hhalted.same
  rw [← hsame] at hneverFails houtput happart ⊢
  exact { h with neverFails := hneverFails, output := houtput, apart := happart }

/-- The log does not matter. -/
theorem logged (h : m.Observed m') (log log' : Array String) :
    ({ m with log } : Machine).Observed { m' with log := log' } :=
  { h with }

/-- The same text is written. -/
theorem said (h : m.Observed m') (text : String) :
    ({ m with output := m.output ++ text } : Machine).Observed
      { m' with output := m'.output ++ text } :=
  { h with
    output := by
      rw [String.toList_append, String.toList_append]
      exact h.output.append (.refl _)
    apart := fun happart ↦ congrArg (· ++ text) (h.apart happart) }

/-- The scopes change in the same way. -/
theorem rescoped (h : m.Observed m') {scopes scopes' : Array Scope} (hsame : scopes' = scopes) :
    ({ m with scopes } : Machine).Observed { m' with scopes := scopes' } :=
  { h with scopes := hsame }

/-- The stack traces change in the same way. -/
theorem retraced (h : m.Observed m') {traces traces' : Array StackTrace}
    (hsame : traces' = traces) :
    ({ m with traces } : Machine).Observed { m' with traces := traces' } :=
  { h with traces := hsame }

theorem trace (h : m.Observed m') : m'.trace = m.trace := by
  funext ref
  unfold Machine.trace
  rw [h.traces]

/-- Stack traces have the same text. -/
theorem formatTrace (h : m.Observed m') : m'.formatTrace = m.formatTrace := by
  funext frame context
  have halike := h.toAlike
  have hsymbols : m'.describeSymbols = m.describeSymbols := by
    funext symbols
    unfold Machine.describeSymbols
    rw [halike.typeName]
  have hlocals : m'.localSymbols = m.localSymbols := by
    funext frame globals
    unfold Machine.localSymbols
    rw [halike.snapshot]
  have hvalue : m'.debugValue = m.debugValue := by
    funext frame globals name
    unfold Machine.debugValue
    rw [halike.lookUpName, halike.display]
  unfold Machine.formatTrace
  rw [h.trace, halike.scope, halike.context, hsymbols, hlocals, hvalue]

end Observed

end Machine

/-! ### The comparison -/

/-- The native that switches what watches a run on and off. -/
def Native.switchesObservers : Native → Bool
  | .trace => true
  | _ => false

namespace Observed

open Relations

/-- Machines that are watched, and the same machines unwatched. -/
def relations : Relations where
  Like := Machine.Observed
  Fails := Eq
  Later _ _ := True
  alike h := h.toAlike
  fails_refl _ := rfl
  later_refl _ := trivial
  later_trans _ _ := trivial

variable {α β : Type} {m : Machine} {s : Site} {R : Machine → α → β → Prop}

theorem runs_of_ok {x : Run α} {y : Run β}
    (h : ∀ n n', n.Observed n' →
      ∃ a b k k', x n = .ok a k ∧ y n' = .ok b k' ∧ k.Observed k' ∧ R k a b) :
    relations.Runs m R x y := by
  intro n n' _ hlike
  obtain ⟨a, b, k, k', hx, hy, hobserved, hvalue⟩ := h n n' hlike
  rw [hx, hy]
  exact .ok trivial hobserved hvalue

theorem confined {R : α → β → Prop} {x : Run α} {y : Run β} (m : Machine) (h : Confined R x y) :
    relations.Runs m (fun _ ↦ R) x y := by
  intro n n' _ hlike
  have hends := h n n' n n' (.refl n) ⟨hlike.toAlike, .refl n, .refl n'⟩
  revert hends
  generalize x n = o
  generalize y n' = o'
  intro hends
  cases hends with
  | ok _ hstore hvalue =>
    obtain ⟨halike, hleft, hright⟩ := hstore
    exact .ok trivial (hlike.of_sameOutside halike hleft hright) hvalue
  | error _ hstore hfails =>
    obtain ⟨halike, hleft, hright⟩ := hstore
    exact .error trivial (hlike.of_sameOutside halike hleft hright) hfails

theorem quiet {x y : Run Unit} (m : Machine) (hx : Quiet x) (hy : Quiet y) :
    relations.Same m x y := by
  refine runs_of_ok fun n n' hlike ↦ ?_
  obtain ⟨log, hlog⟩ := hx n
  obtain ⟨log', hlog'⟩ := hy n'
  exact ⟨(), (), _, _, hlog, hlog', hlike.logged log log', rfl⟩

theorem say (m : Machine) (text : String) : relations.Same m (say text) (say text) :=
  runs_of_ok fun _ _ hlike ↦ ⟨(), (), _, _, rfl, rfl, hlike.said text, rfl⟩

/-- Failures have the same stack trace. -/
theorem raise (frame : Frame) (context : ContextRef) (kind : ErrorKind) (message : String) :
    relations.Runs m R (raise frame context kind message) (raise frame context kind message) := by
  refine Runs.get_bind_now fun n n' _ hlike ↦ ?_
  rw [hlike.formatTrace]
  exact Runs.throw _

theorem traced {x y : Run α} (s : Site) (kind : ErrorKind) (h : relations.Same m x y) :
    relations.Same m (s.traced kind x) (s.traced kind y) := by
  refine Runs.tryCatch h fun n e e' _ hfails ↦ Runs.get_bind_now fun k k' _ hlike ↦ ?_
  cases hfails
  rw [hlike.formatTrace]
  exact Runs.throw _

theorem retrace (ref : TraceRef) (change : StackTrace → StackTrace) :
    relations.Same m (modifyTrace ref change) (modifyTrace ref change) :=
  runs_of_ok fun _ _ hlike ↦
    ⟨(), (), _, _, rfl, rfl, hlike.retraced (by rw [hlike.traces]), rfl⟩

theorem rescope (ref : ScopeRef) (change : Scope → Scope) :
    relations.Same m (modifyScope ref change) (modifyScope ref change) :=
  runs_of_ok fun _ _ hlike ↦
    ⟨(), (), _, _, rfl, rfl, hlike.rescoped (by rw [hlike.scopes]), rfl⟩

theorem newScope (scope : Scope) : relations.Same m (newScope scope) (newScope scope) :=
  runs_of_ok fun n n' hlike ↦ ⟨⟨n.scopes.size⟩, ⟨n'.scopes.size⟩, _, _, rfl, rfl,
    hlike.rescoped (by rw [hlike.scopes]), by rw [hlike.scopes]⟩

theorem record (s : Site) (node : Node) :
    relations.Same m (Visit.record s node) (Visit.record s node) := by
  unfold Visit.record
  split
  · exact Same.refl_pure none
  · refine Runs.get_bind fun n n' halike ↦ ?_
    rw [halike.context]
    refine Same.bind (Same.bind (retrace _ _) fun _ ↦ Runs.get_bind_now fun k k' _ hlike ↦ ?_)
      fun depth ↦ Same.refl_pure (some depth)
    rw [hlike.trace]
    exact Same.refl_pure _

theorem goBack (s : Site) (depth : Option Nat) :
    relations.Same m (Visit.goBack s depth) (Visit.goBack s depth) := by
  cases depth with
  | none => exact Same.refl_pure ()
  | some depth => exact retrace _ _

theorem within {x y : Run Completion} (h : relations.Same m x y) (s : Site) (depth : Option Nat) :
    relations.Same m (Visit.within s depth x) (Visit.within s depth y) := by
  refine Same.bind (Runs.tryCatch h fun n e e' _ hfails ↦ ?_) fun result ↦
    (goBack s depth).bind fun _ ↦ Same.refl_pure result
  exact (goBack s depth).bind fun _ ↦ Runs.throw_of_fails hfails

/-- A debugger halts the watched machine only, and lets it go on. -/
theorem halt (s : Site) (node : Node) : relations.Same m (haltAt s node) (haltAt s node) := by
  refine runs_of_ok fun n n' hlike ↦ ?_
  obtain ⟨k, hhalt, hhalted⟩ := haltAt_apply s node hlike.neverFails
  -- The other machine has no debugger that could halt it.
  have hpassed : haltAt s node n' = .ok () n' := by
    unfold haltAt
    rw [Run.get_bind, hlike.options]
    rfl
  exact ⟨(), (), k, n', hhalt, hpassed, hlike.of_halted hhalted, rfl⟩

theorem bindNew {make : Run CellRef} (hmake : MakesCell make) {bind : CellRef → Run Unit}
    (hbind : ∀ cell, relations.Same m (bind cell) (bind cell)) :
    relations.Same m (bindNew make bind) (TreeScript.bindNew make bind) :=
  Same.bind (confined m hmake.steady) fun cell ↦ (hbind cell).bind fun _ ↦ Same.refl_pure cell

/-- The comparison of a run that is watched with the same run unwatched. -/
def comparison : Comparison where
  toRelations := relations
  Sites _ s s' := s = s'
  Callers _ s s' := s = s'
  avoided := Native.switchesObservers
  sites_later _ h := h
  sites_alike h := h ▸ .retraced _
  callers_later _ h := h
  callers h := h
  confined := confined
  quiet := quiet
  say := say
  raise _ context kind message h := h ▸ raise _ context kind message
  traced kind hsites h := hsites ▸ traced _ kind h
  recorded node hsites h := hsites ▸ Same.bind (record _ node) fun depth ↦ within h _ depth
  halt node hsites := hsites ▸ halt _ node
  fork hsites := by
    obtain rfl := hsites
    exact Same.bind (Same.bind (newScope {}) fun _ ↦ Same.refl_pure _) fun _ ↦ Same.refl_pure _
  openFrame hcallers _ := by
    obtain rfl := hcallers
    exact Same.bind (newScope _) fun _ ↦ Runs.pure fun _ _ ↦ rfl
  putReceiver _ _ hsites := hsites ▸ rescope _ _
  putOnTop _ hmake hsites := hsites ▸ bindNew hmake fun _ ↦ rescope _ _
  put name hmake hsites := by
    obtain rfl := hsites
    refine bindNew hmake fun cell ↦ Runs.get_bind fun n n' halike ↦ ?_
    rw [halike.binderOf?]
    exact rescope _ _
  rebindGlobal hmake hsites _ _ := by
    obtain rfl := hsites
    refine bindNew hmake fun cell ↦ Runs.get_bind fun n n' halike ↦ ?_
    rw [halike.context]
    exact rescope _ _
  retrace change hcallers _ := hcallers ▸ retrace _ change
  remove name _ hsites := by
    obtain rfl := hsites
    refine Runs.get_bind fun n n' halike ↦ ?_
    rw [halike.binderOf?]
    split
    · exact (rescope _ _).bind fun _ ↦ Same.refl_pure true
    · exact Same.refl_pure false
  removeVariable name _ hsites := by
    obtain rfl := hsites
    refine Runs.get_bind fun n n' halike ↦ ?_
    rw [halike.context]
    exact rescope _ _
  options havoided _ := nomatch havoided
  adjust _ _ havoided _ := nomatch havoided
  lastSite _ _ _ := rfl

end Observed

end TreeScript
