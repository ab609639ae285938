import TreeScript.Proofs.Comparison.Twins
import TreeScript.Proofs.Sessions.Keeping

/-!
# Settings stay in force

The scale of quotients and the number of names that are suggested are options of the machine. A
program can set options, but only those that concern the log, and a debugger that halts the program
changes only itself. So the two settings stay in force through every evaluation and every call,
however these end (`inForce_eval`, `inForce_call`), and through all that a session is asked to do
but setting the options (`kept_inForce`). Evaluations are followed as twin runs on machines where
the settings are in force (`InForce.comparison`).
-/

set_option autoImplicit false

namespace TreeScript

/-- A division scale and a number of suggestions are set on a machine. -/
structure Machine.InForce (scale suggestions : Int) (m : Machine) : Prop where
  scale : m.options.divisionScale = scale
  suggestions : m.options.suggestions = suggestions

namespace InForce

open Relations

variable {scale suggestions : Int} {α β : Type} {x : Run α} {m n : Machine}

/-- The settings do not depend on anything but the options. -/
theorem of_options (h : m.InForce scale suggestions) (hsame : n.options = m.options) :
    n.InForce scale suggestions :=
  ⟨by rw [hsame, h.scale], by rw [hsame, h.suggestions]⟩

theorem spares_of_modify {change : Machine → Machine} (h : ∀ m, (change m).options = m.options) :
    Spares (Machine.InForce scale suggestions) (modify change) :=
  .of_modify fun m hm ↦ of_options hm (h m)

theorem spares_of_modifyGet {step : Machine → α × Machine}
    (h : ∀ m, (step m).2.options = m.options) :
    Spares (Machine.InForce scale suggestions) (modifyGet step) :=
  .of_modifyGet (fun m hm ↦ of_options hm (h m)) fun _ _ ↦ trivial

theorem spares_of_quiet {x : Run Unit} (h : Quiet x) :
    Spares (Machine.InForce scale suggestions) x := by
  intro m hm
  obtain ⟨log, hlog⟩ := h m
  rw [hlog]
  exact .ok (of_options hm rfl) trivial

theorem spares_of_confined {R : α → β → Prop} {y : Run β} (h : Confined R x y) :
    Spares (Machine.InForce scale suggestions) x := by
  intro m hm
  have hends := h m m m m (.refl m) ⟨.refl m, .refl m, .refl m⟩
  revert hends
  generalize x m = o
  generalize y m = o'
  intro hends
  cases hends with
  | ok _ hstore => exact .ok (of_options hm hstore.2.1.options) trivial
  | error _ hstore => exact .error (of_options hm hstore.2.1.options)

/-! ### The debugger -/

theorem modifyDebugger (change : Debugger → Debugger) :
    Spares (Machine.InForce scale suggestions) (modifyDebugger change) :=
  .of_modify fun _ hm ↦ ⟨hm.scale, hm.suggestions⟩

theorem sayFromDebugger (text : String) :
    Spares (Machine.InForce scale suggestions) (sayFromDebugger text) := by
  refine .get_bind fun m _ ↦ ?_
  split
  · exact .ite (fun _ ↦ spares_of_modify fun _ ↦ rfl) fun _ ↦ spares_of_modify fun _ ↦ rfl
  · exact spares_of_modify fun _ ↦ rfl

theorem nextDebugAction : Spares (Machine.InForce scale suggestions) nextDebugAction := by
  refine .get_bind fun m _ ↦ ?_
  split
  · exact .pure trivial
  · exact (modifyDebugger _).bind fun _ ↦ Spares.bind (spares_of_modify fun _ ↦ rfl) fun _ ↦
      .pure trivial

theorem followActions (site : Site) (count : Nat) :
    Spares (Machine.InForce scale suggestions) (followActions site count) := by
  induction count with
  | zero => exact modifyDebugger _
  | succ count ih =>
    refine nextDebugAction.bind fun next ↦ ?_
    split
    · exact modifyDebugger _
    · exact .get_bind fun _ _ ↦ .throw _
    · exact .pure trivial
    · exact modifyDebugger _
    · exact .get_bind fun _ _ ↦ (sayFromDebugger _).bind fun _ ↦ ih
    · exact .get_bind fun _ _ ↦ (sayFromDebugger _).bind fun _ ↦ ih
    · exact (sayFromDebugger _).bind fun _ ↦ ih

/-- A halt does not touch the settings, even if the debugger fails. -/
theorem haltAt (site : Site) (node : Node) :
    Spares (Machine.InForce scale suggestions) (haltAt site node) := by
  refine .get_bind fun m _ ↦ ?_
  split
  · exact .pure trivial
  · exact .ite (fun _ ↦ (sayFromDebugger _).bind fun _ ↦ followActions site _) fun _ ↦ .pure trivial

/-! ### Recording -/

theorem record (site : Site) (node : Node) :
    Spares (Machine.InForce scale suggestions) (Visit.record site node) := by
  refine .ite (fun _ ↦ .pure trivial) fun _ ↦ .get_bind fun _ _ ↦ ?_
  exact Spares.bind (Spares.bind (spares_of_modify fun _ ↦ rfl) fun _ ↦
    .get_bind fun _ _ ↦ .pure trivial) fun _ ↦ .pure trivial

theorem announce (site : Site) (node : Node) :
    Spares (Machine.InForce scale suggestions) (Visit.announce site node) := by
  refine (haltAt site node).bind fun _ ↦ .get_bind fun m _ ↦ ?_
  refine Spares.bind (.ite (fun _ ↦ .get_bind fun _ _ ↦ ?_) fun _ ↦ .pure trivial) fun _ ↦
    .pure trivial
  exact spares_of_quiet (.logInfo _)

/-- A new cell that is bound keeps the settings in force if the binding does. -/
theorem spares_of_bindNew {make : Run CellRef} (hmake : MakesCell make) {bind : CellRef → Run Unit}
    (hbind : ∀ cell, Spares (Machine.InForce scale suggestions) (bind cell)) :
    Spares (Machine.InForce scale suggestions) (bindNew make bind) :=
  (spares_of_confined hmake.steady).bind fun cell ↦ (hbind cell).bind fun _ ↦ .pure trivial

/-! ### The comparison -/

/-- Twins on which settings are in force. -/
def relations (scale suggestions : Int) : Relations where
  Like m m' := m.Twin m' ∧ m.InForce scale suggestions
  Fails := Failure.Alike
  Later _ _ := True
  alike h := h.1.toAlike
  fails_refl := Failure.Alike.refl
  later_refl _ := trivial
  later_trans _ _ := trivial

/-- Twin runs keep the settings in force if one of them does. -/
theorem of_spares {R : Machine → α → β → Prop} {y : Run β}
    (h : Tracking.nothing.relations.Runs m R x y)
    (hx : Spares (Machine.InForce scale suggestions) x) :
    (relations scale suggestions).Runs m R x y := by
  intro n n' _ hlike
  have hends := h n n' trivial ⟨hlike.1, trivial⟩
  have hkept := hx n hlike.2
  revert hends hkept
  generalize x n = o
  generalize y n' = o'
  intro hends hkept
  cases hends with
  | ok _ htwin hvalue =>
    cases hkept with
    | ok hforce => exact .ok trivial ⟨htwin.1, hforce⟩ hvalue
  | error _ htwin hfails =>
    cases hkept with
    | error hforce => exact .error trivial ⟨htwin.1, hforce⟩ hfails

variable {s s' : Site}

theorem traced {x y : Run α} (kind : ErrorKind) (h : (relations scale suggestions).Same m x y) :
    (relations scale suggestions).Same m (s.traced kind x) (s'.traced kind y) := by
  refine Runs.tryCatch h fun n e e' _ hfails ↦ Runs.get_bind fun k k' _ ↦ ?_
  exact Runs.throw_of_fails (hfails.attach kind (k.formatTrace_ne_empty s.frame s.context)
    (k'.formatTrace_ne_empty s'.frame s'.context))

theorem goBack (depth depth' : Option Nat) :
    (relations scale suggestions).Same m (Visit.goBack s depth) (Visit.goBack s' depth') := by
  refine of_spares (Tracking.goBack s s' depth depth') ?_
  cases depth with
  | none => exact Spares.pure ()
  | some depth => exact spares_of_modify fun _ ↦ rfl

theorem recorded {x y : Run Completion} (node : Node)
    (h : (relations scale suggestions).Same m x y) :
    (relations scale suggestions).Same m
      (Visit.record s node >>= fun depth ↦ Visit.within s depth x)
      (Visit.record s' node >>= fun depth ↦ Visit.within s' depth y) := by
  refine Runs.bind (of_spares (Tracking.record s s' node) (record s node)) fun n depth depth' hlater
    _ ↦ ?_
  refine Same.bind (Runs.tryCatch (h.mono hlater) fun k e e' _ hfails ↦ ?_) fun result ↦
    (goBack depth depth').bind fun _ ↦ Same.refl_pure result
  exact (goBack depth depth').bind fun _ ↦ Runs.throw_of_fails hfails

/-- The comparison of twin runs on machines where settings are in force. -/
def comparison (scale suggestions : Int) : Comparison where
  toRelations := relations scale suggestions
  Sites _ s s' := s.Alike s'
  Callers _ _ _ := True
  avoided _ := false
  sites_later _ h := h
  sites_alike h := h
  callers_later _ _ := trivial
  callers _ := trivial
  confined m h := of_spares (Tracking.confined m h) (spares_of_confined h)
  quiet m hx hy := of_spares (Tracking.quiet m hx hy) (spares_of_quiet hx)
  say m text := of_spares (Tracking.say m text) (spares_of_modify fun _ ↦ rfl)
  raise R context kind message _ :=
    of_spares (Tracking.raise context context _ _ kind message) (.get_bind fun _ _ ↦ .throw _)
  traced kind _ h := traced kind h
  recorded node _ h := recorded node h
  halt {_ s s'} node _ := of_spares (Tracking.halt s s' node) (haltAt s node)
  fork hsites := by
    refine of_spares (Tracking.fork hsites) ?_
    exact Spares.bind (Spares.bind (spares_of_modifyGet fun _ ↦ rfl) fun _ ↦ .pure trivial) fun _ ↦
      .pure trivial
  openFrame _ hscope := by
    refine of_spares (Tracking.openFrame _ _ hscope) ?_
    exact Spares.bind (spares_of_modifyGet fun _ ↦ rfl) fun _ ↦ .pure trivial
  putReceiver cell hname hsites :=
    of_spares (Tracking.putReceiver cell hname hsites) (spares_of_modify fun _ ↦ rfl)
  putOnTop name hmake hsites :=
    of_spares (Tracking.putOnTop name hmake hsites)
      (spares_of_bindNew hmake fun _ ↦ spares_of_modify fun _ ↦ rfl)
  put name hmake hsites :=
    of_spares (Tracking.put name hmake hsites)
      (spares_of_bindNew hmake fun _ ↦ .get_bind fun _ _ ↦ spares_of_modify fun _ ↦ rfl)
  rebindGlobal hmake hsites hfree hglobal :=
    of_spares (Tracking.rebindGlobal hmake hsites hfree hglobal)
      (spares_of_bindNew hmake fun _ ↦ .get_bind fun _ _ ↦ spares_of_modify fun _ ↦ rfl)
  retrace change _ _ :=
    of_spares (Tracking.retrace _ _ change change) (spares_of_modify fun _ ↦ rfl)
  remove name havoided hsites := by
    refine of_spares (Tracking.remove havoided hsites name) (.get_bind fun n _ ↦ ?_)
    split
    · exact Spares.bind (spares_of_modify fun _ ↦ rfl) fun _ ↦ .pure trivial
    · exact .pure trivial
  removeVariable name havoided hsites :=
    of_spares (Tracking.removeVariable havoided hsites name)
      (.get_bind fun _ _ ↦ spares_of_modify fun _ ↦ rfl)
  options _ hlike := hlike.1.options
  adjust m change havoided hkept := by
    refine of_spares (Tracking.nothing.comparison.adjust m change havoided hkept) (.of_modify ?_)
    intro n hn
    exact ⟨(hkept n.options).1.trans hn.scale, (hkept n.options).2.1.trans hn.suggestions⟩
  lastSite _ _ _ := .retraced _

/-- The interpreter keeps settings in force, whatever its fuel. -/
theorem evaluates_interp (scale suggestions : Int) (n : Nat) :
    (comparison scale suggestions).Evaluates (interp n) := by
  rw [← interpAvoiding_nothing n]
  exact (comparison scale suggestions).evaluates_interpAvoiding n

theorem spares_of_same {x y : Run α} (h : ∀ m, (relations scale suggestions).Same m x y) :
    Spares (Machine.InForce scale suggestions) x := by
  intro m hm
  have hends := (h m).now ⟨.refl m, hm⟩
  revert hends
  generalize x m = o
  generalize y m = o'
  intro hends
  cases hends with
  | ok _ hlike => exact .ok hlike.2 trivial
  | error _ hlike => exact .error hlike.2

end InForce

variable {scale suggestions : Int}

/-- However an evaluation ends, settings that were in force are in force again. -/
theorem inForce_eval (n : Nat) (site : Site) (mode : Mode) (node : Node) :
    Spares (Machine.InForce scale suggestions) ((interp n).eval site mode node) :=
  InForce.spares_of_same fun _ ↦
    (InForce.evaluates_interp scale suggestions n).eval mode node (.retraced site.frame.trace)

/-- However a call ends, settings that were in force are in force again. -/
theorem inForce_call (n : Nat) (site : Site) (name : String) (preparation : Preparation)
    (function : CellRef) (args : List CellRef) :
    Spares (Machine.InForce scale suggestions)
      ((interp n).call site name preparation function args) :=
  InForce.spares_of_same fun _ ↦
    (InForce.evaluates_interp scale suggestions n).call name preparation function args
      (.retraced site.frame.trace)

/-- A session that is not asked to set the options keeps settings in force. -/
theorem Session.kept_inForce (scale suggestions : Int) :
    Kept (Machine.InForce scale suggestions) where
  books := fun _ _ hoptions _ hm ↦ InForce.of_options hm hoptions
  eval := fun site mode node ↦ inForce_eval fuel site mode node
  call := fun site name preparation function args ↦
    inForce_call fuel site name preparation function args

end TreeScript
