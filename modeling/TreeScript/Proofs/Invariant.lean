import TreeScript.Proofs.Run
import TreeScript.Eval.Interp

/-!
# Computations that keep an invariant

`Maintains I Q x` says that `x`, run on a machine where `I` holds, leaves one where `I` holds again,
whether it gives a value or fails, and that `Q` holds of the value. Nothing is said of the machines
in between, so what is known of a value stays known while other computations run, and a sequence is
settled part by part (`Maintains.bind`). What was read off the machine earlier was read off a
machine on which the invariant held (`Maintains.get_bind`).

Most of what an evaluation does besides its work goes to the stack traces, the output, the log and
the options. An invariant that does not look there (`Indifferent`) is kept by all of that, and in
particular by everything that surrounds the rule for a construct (`Indifferent.evalNode`).
-/

set_option autoImplicit false

namespace TreeScript

/-- What holds after a computation that keeps an invariant. -/
inductive Outcome.Holds {α : Type} (I : Machine → Prop) (Q : α → Prop) : Outcome α → Prop
  | ok {a : α} {m : Machine} (hm : I m) (ha : Q a) : Holds I Q (.ok a m)
  | error {e : Failure} {m : Machine} (hm : I m) : Holds I Q (.error e m)

namespace Outcome.Holds

variable {I : Machine → Prop} {α : Type} {Q : α → Prop} {o : Outcome α}

/-- What is only said of the machine that is left behind need only be seen there. -/
theorem of_final (h : I o.final) : Holds I (fun _ ↦ True) o := by
  cases o with
  | ok => exact .ok h trivial
  | error => exact .error h

theorem final (h : Holds I Q o) : I o.final := by
  cases h with
  | ok hm => exact hm
  | error hm => exact hm

theorem mono {J : Machine → Prop} {R : α → Prop} (h : Holds I Q o) (hI : ∀ m, I m → J m)
    (hQ : ∀ a, Q a → R a) : Holds J R o := by
  cases h with
  | ok hm ha => exact .ok (hI _ hm) (hQ _ ha)
  | error hm => exact .error (hI _ hm)

end Outcome.Holds

/-- A computation keeps an invariant and gives only values with a property. -/
def Maintains {α : Type} (I : Machine → Prop) (Q : α → Prop) (x : Run α) : Prop :=
  ∀ m, I m → Outcome.Holds I Q (x m)

/-- A computation keeps an invariant, whatever it gives. -/
def Spares {α : Type} (I : Machine → Prop) (x : Run α) : Prop := Maintains I (fun _ ↦ True) x

namespace Maintains

variable {I : Machine → Prop} {α β σ : Type} {Q : α → Prop} {R : β → Prop} {x : Run α}

/-- The invariant holds on the machine a computation leaves behind. -/
theorem final (h : Maintains I Q x) {m : Machine} (hm : I m) : I (Outcome.final (x m)) :=
  (h m hm).final

theorem of_ok (h : Maintains I Q x) {m m' : Machine} {a : α} (hm : I m) (hx : x m = .ok a m') :
    I m' ∧ Q a := by
  have hends := h m hm
  rw [hx] at hends
  cases hends with
  | ok hn ha => exact ⟨hn, ha⟩

theorem mono {Q' : α → Prop} (h : Maintains I Q x) (hQ : ∀ a, Q a → Q' a) : Maintains I Q' x :=
  fun m hm ↦ (h m hm).mono (fun _ hn ↦ hn) hQ

theorem spares (h : Maintains I Q x) : Spares I x := h.mono fun _ _ ↦ trivial

theorem pure {a : α} (h : Q a) : Maintains I Q (Pure.pure a) := fun _ hm ↦ .ok hm h

theorem throw (e : Failure) : Maintains I Q (throw e) := fun _ hm ↦ .error hm

theorem fail (message : String) : Maintains I Q (Run.fail message) := throw _

/-- What comes first may start on a machine of which the invariant does not hold yet. -/
theorem bind_after {f : α → Run β} {m : Machine} (hfirst : Outcome.Holds I Q (x m))
    (hrest : ∀ a, Q a → Maintains I R (f a)) : Outcome.Holds I R ((x >>= f) m) := by
  cases hx : x m with
  | ok a n =>
    rw [Run.bind_ok hx]
    rw [hx] at hfirst
    cases hfirst with
    | ok hn ha => exact hrest a ha n hn
  | error e n =>
    rw [Run.bind_error hx]
    rw [hx] at hfirst
    cases hfirst with
    | error hn => exact .error hn

theorem bind {f : α → Run β} (hfirst : Maintains I Q x) (hrest : ∀ a, Q a → Maintains I R (f a)) :
    Maintains I R (x >>= f) :=
  fun m hm ↦ bind_after (hfirst m hm) hrest

/-- What is read off the machine is read off one on which the invariant holds. -/
theorem get_bind {f : Machine → Run α} (h : ∀ m, I m → Maintains I Q (f m)) :
    Maintains I Q (get >>= f) :=
  fun m hm ↦ h m hm m hm

theorem tryCatch {handler : Failure → Run α} (h : Maintains I Q x)
    (hhandler : ∀ e, Maintains I Q (handler e)) : Maintains I Q (tryCatch x handler) := by
  intro m hm
  have hends := h m hm
  cases hx : x m with
  | ok a n =>
    rw [Run.tryCatch_ok hx]
    rwa [hx] at hends
  | error e n =>
    rw [Run.tryCatch_error hx]
    rw [hx] at hends
    cases hends with
    | error hn => exact hhandler e n hn

theorem map (f : α → β) (h : Maintains I Q x) (hf : ∀ a, Q a → R (f a)) :
    Maintains I R (f <$> x) := by
  rw [map_eq_pure_bind]
  exact h.bind fun a ha ↦ pure (hf a ha)

theorem ite {p : Prop} [Decidable p] {x y : Run α} (hx : p → Maintains I Q x)
    (hy : ¬p → Maintains I Q y) : Maintains I Q (if p then x else y) := by
  split
  · exact hx ‹p›
  · exact hy ‹¬p›

theorem of_modify {change : Machine → Machine} (h : ∀ m, I m → I (change m)) :
    Maintains I (fun _ ↦ True) (modify change) :=
  fun m hm ↦ .ok (h m hm) trivial

theorem of_modifyGet {step : Machine → α × Machine} (h : ∀ m, I m → I (step m).2)
    (hvalue : ∀ m, I m → Q (step m).1) : Maintains I Q (modifyGet step) :=
  fun m hm ↦ .ok (h m hm) (hvalue m hm)

/-! ### Lists -/

theorem mapM {f : β → Run α} {xs : List β} (h : ∀ b ∈ xs, Maintains I Q (f b)) :
    Maintains I (fun ys ↦ ∀ a ∈ ys, Q a) (xs.mapM f) := by
  induction xs with
  | nil => exact pure fun _ ha ↦ nomatch ha
  | cons b bs ih =>
    rw [List.mapM_cons]
    refine (h b (List.mem_cons_self ..)).bind fun a ha ↦ ?_
    refine (ih fun c hc ↦ h c (List.mem_cons_of_mem _ hc)).bind fun as has ↦ pure ?_
    intro c hc
    rcases List.mem_cons.mp hc with rfl | hc
    · exact ha
    · exact has c hc

theorem foldlM {f : σ → β → Run σ} {S : σ → Prop} {xs : List β}
    (h : ∀ s, S s → ∀ b ∈ xs, Maintains I S (f s b)) :
    ∀ s, S s → Maintains I S (xs.foldlM f s) := by
  induction xs with
  | nil => exact fun s hs ↦ pure hs
  | cons b bs ih =>
    intro s hs
    rw [List.foldlM_cons]
    refine (h s hs b (List.mem_cons_self ..)).bind fun t ht ↦ ?_
    exact ih (fun s hs c hc ↦ h s hs c (List.mem_cons_of_mem _ hc)) t ht

end Maintains

namespace Spares

variable {I : Machine → Prop} {α β σ : Type} {Q : α → Prop} {R : β → Prop} {x : Run α}

theorem bind {f : α → Run β} (hfirst : Spares I x) (hrest : ∀ a, Maintains I R (f a)) :
    Maintains I R (x >>= f) :=
  Maintains.bind hfirst fun a _ ↦ hrest a

theorem pure (a : α) : Spares I (Pure.pure a) := Maintains.pure trivial

/-- A step that is taken under a condition and followed by the rest. -/
theorem check {p : Prop} [Decidable p] {x : Run Unit} {f : Unit → Run α} (hx : Spares I x)
    (hf : Maintains I Q (f ())) : Maintains I Q (if p then x >>= f else f ()) :=
  .ite (fun _ ↦ hx.bind fun _ ↦ hf) fun _ ↦ hf

theorem ofNumber (result : Except NumberError α) : Spares I (Run.ofNumber result) := by
  cases result with
  | ok a => exact pure a
  | error e => exact Maintains.fail e.message

/-- A loop over a list keeps what every pass keeps. -/
theorem forIn {f : α → σ → Run (ForInStep σ)} {xs : List α} (h : ∀ a ∈ xs, ∀ s, Spares I (f a s)) :
    ∀ s, Spares I (forIn xs s f) := by
  induction xs with
  | nil => exact fun s ↦ pure s
  | cons a as ih =>
    intro s
    rw [List.forIn_cons]
    refine (h a (List.mem_cons_self ..) s).bind fun step ↦ ?_
    cases step with
    | done s => exact pure s
    | yield s => exact ih (fun b hb ↦ h b (List.mem_cons_of_mem _ hb)) s

/-- A loop that does something for every element, and what comes behind it. -/
theorem each {act : β → Run Unit} {xs : List β} (h : ∀ b ∈ xs, Spares I (act b)) {rest : Run α}
    (hrest : Maintains I Q rest) :
    Maintains I Q (do
      for b in xs do
        act b
      rest) :=
  bind (forIn (fun b hb _ ↦ (h b hb).bind fun _ ↦ .pure trivial) _) fun _ ↦ hrest

theorem forInArray {f : α → σ → Run (ForInStep σ)} {xs : Array α}
    (h : ∀ a ∈ xs, ∀ s, Spares I (f a s)) (s : σ) : Spares I (ForIn.forIn xs s f) := by
  rw [← Array.forIn_toList]
  exact forIn (fun a ha ↦ h a (Array.mem_def.mpr ha)) s

end Spares

/-! ### What surrounds the work -/

namespace Machine

/-- Two machines differ at most in the stack traces, the stamps, what has been written, and the
options that do not concern imports. -/
structure SameWork (m n : Machine) : Prop where
  same : { m with
    traces := n.traces, stamps := n.stamps, output := n.output, debugOutput := n.debugOutput,
    log := n.log, options := n.options } = n
  forbidden : n.options.forbiddenImports = m.options.forbiddenImports
  automatic : n.options.autoImports = m.options.autoImports

end Machine

namespace Machine.SameWork

variable {a b c : Machine}

theorem refl (m : Machine) : m.SameWork m := ⟨rfl, rfl, rfl⟩

theorem trans (hab : a.SameWork b) (hbc : b.SameWork c) : a.SameWork c where
  same := by rw [← hbc.same, ← hab.same]
  forbidden := hbc.forbidden.trans hab.forbidden
  automatic := hbc.automatic.trans hab.automatic

/-- Machines that differ at most in the stack traces and the log. -/
theorem of_unwound (h : a.Unwound b) : a.SameWork b where
  same := by
    rw [← h]
  forbidden := by rw [h.options]
  automatic := by rw [h.options]

theorem cells (h : a.SameWork b) : b.cells = a.cells := by rw [← h.same]

theorem tables (h : a.SameWork b) : b.tables = a.tables := by rw [← h.same]

theorem scopes (h : a.SameWork b) : b.scopes = a.scopes := by rw [← h.same]

theorem iterators (h : a.SameWork b) : b.iterators = a.iterators := by rw [← h.same]

theorem instances (h : a.SameWork b) : b.instances = a.instances := by rw [← h.same]

theorem contexts (h : a.SameWork b) : b.contexts = a.contexts := by rw [← h.same]

theorem loaded (h : a.SameWork b) : b.loaded = a.loaded := by rw [← h.same]

theorem evaluating (h : a.SameWork b) : b.evaluating = a.evaluating := by rw [← h.same]

theorem natives (h : a.SameWork b) : b.natives = a.natives := by rw [← h.same]

theorem content (h : a.SameWork b) (cell : CellRef) : b.content cell = a.content cell :=
  content_congr h.cells cell

theorem table (h : a.SameWork b) (ref : TableRef) : b.table ref = a.table ref :=
  table_congr h.tables ref

theorem remaining (h : a.SameWork b) (ref : IteratorRef) : b.remaining ref = a.remaining ref := by
  unfold Machine.remaining Machine.iterator
  rw [h.iterators]

theorem scope (h : a.SameWork b) (ref : ScopeRef) : b.scope ref = a.scope ref :=
  scope_congr h.scopes ref

theorem context (h : a.SameWork b) (ref : ContextRef) : b.context ref = a.context ref :=
  context_congr h.contexts ref

end Machine.SameWork

/-- An invariant that does not look at the stack traces, the stamps, what has been written and the
options that do not concern imports. -/
def Indifferent (I : Machine → Prop) : Prop := ∀ m n : Machine, m.SameWork n → I m → I n

namespace Indifferent

variable {I : Machine → Prop} {α : Type} {Q : α → Prop}

theorem of_sameWork (hI : Indifferent I) {change : Machine → Machine}
    (h : ∀ m : Machine, m.SameWork (change m)) : Spares I (modify change) :=
  .of_modify fun m hm ↦ hI m _ (h m) hm

theorem newStamp (hI : Indifferent I) : Spares I newStamp :=
  fun m hm ↦ .ok (hI m _ ⟨rfl, rfl, rfl⟩ hm) trivial

theorem modifyTrace (hI : Indifferent I) (ref : TraceRef) (change : StackTrace → StackTrace) :
    Spares I (modifyTrace ref change) :=
  hI.of_sameWork fun _ ↦ ⟨rfl, rfl, rfl⟩

theorem say (hI : Indifferent I) (text : String) : Spares I (say text) :=
  hI.of_sameWork fun _ ↦ ⟨rfl, rfl, rfl⟩

theorem sayDebug (hI : Indifferent I) (text : String) : Spares I (sayDebug text) :=
  hI.of_sameWork fun _ ↦ ⟨rfl, rfl, rfl⟩

theorem logInfo (hI : Indifferent I) (text : String) : Spares I (logInfo text) := by
  refine hI.of_sameWork fun m ↦ ?_
  by_cases hlevel : m.logLevel = .error
  · rw [if_pos hlevel]
    exact ⟨rfl, rfl, rfl⟩
  · rw [if_neg hlevel]
    exact ⟨rfl, rfl, rfl⟩

theorem logVerbose (hI : Indifferent I) (text : String) : Spares I (logVerbose text) := by
  refine hI.of_sameWork fun m ↦ ?_
  by_cases hlevel : m.logLevel = .verbose
  · rw [if_pos hlevel]
    exact ⟨rfl, rfl, rfl⟩
  · rw [if_neg hlevel]
    exact ⟨rfl, rfl, rfl⟩

/-- Changing options that do not concern imports. -/
theorem modifyOptions (hI : Indifferent I) {change : Options → Options}
    (hforbidden : ∀ o, (change o).forbiddenImports = o.forbiddenImports)
    (hautomatic : ∀ o, (change o).autoImports = o.autoImports) :
    Spares I (modify fun m : Machine ↦ { m with options := change m.options } : Run Unit) :=
  hI.of_sameWork fun m ↦ ⟨rfl, hforbidden m.options, hautomatic m.options⟩

theorem modifyDebugger (hI : Indifferent I) (change : Debugger → Debugger) :
    Spares I (modifyDebugger change) :=
  hI.of_sameWork fun _ ↦ ⟨rfl, rfl, rfl⟩

theorem raise (frame : Frame) (context : ContextRef) (kind : ErrorKind) (message : String) :
    Maintains I Q (raise frame context kind message) :=
  .get_bind fun _ _ ↦ .throw _

theorem raiseAt (site : Site) (kind : ErrorKind) (message : String) :
    Maintains I Q (site.raise kind message) :=
  raise _ _ kind message

theorem traced {x : Run α} (site : Site) (kind : ErrorKind) (h : Maintains I Q x) :
    Maintains I Q (site.traced kind x) :=
  .tryCatch h fun _ ↦ .get_bind fun _ _ ↦ .throw _

theorem logStep (hI : Indifferent I) (i : Nat) (key source : String) :
    Spares I (logStep i key source) :=
  .get_bind fun _ _ ↦ .ite (fun _ ↦ hI.logInfo _) fun _ ↦ .pure trivial

/-! ### The debugger -/

theorem sayFromDebugger (hI : Indifferent I) (text : String) : Spares I (sayFromDebugger text) := by
  refine .get_bind fun m _ ↦ ?_
  split
  · exact .ite (fun _ ↦ hI.sayDebug text) fun _ ↦ hI.say text
  · exact hI.say text

theorem nextDebugAction (hI : Indifferent I) : Spares I nextDebugAction := by
  refine .get_bind fun m _ ↦ ?_
  split
  · exact .pure trivial
  · exact (hI.modifyDebugger _).bind fun _ ↦ (hI.say _).bind fun _ ↦ .pure trivial

theorem followActions (hI : Indifferent I) (site : Site) (count : Nat) :
    Spares I (followActions site count) := by
  induction count with
  | zero => exact hI.modifyDebugger _
  | succ count ih =>
    refine hI.nextDebugAction.bind fun action ↦ ?_
    have hshown {read : Machine → String} :
        Spares I (do
          TreeScript.sayFromDebugger (read (← get) ++ "\n")
          TreeScript.followActions site count) :=
      .get_bind fun _ _ ↦ (hI.sayFromDebugger _).bind fun _ ↦ ih
    split
    · exact hI.modifyDebugger _
    · exact raiseAt site _ _
    · exact .pure trivial
    · exact hI.modifyDebugger _
    · exact hshown
    · exact hshown
    · exact (hI.sayFromDebugger _).bind fun _ ↦ ih

theorem haltAt (hI : Indifferent I) (site : Site) (node : Node) : Spares I (haltAt site node) := by
  refine .get_bind fun m _ ↦ ?_
  split
  · exact .pure trivial
  · exact .ite (fun _ ↦ (hI.sayFromDebugger _).bind fun _ ↦ hI.followActions site _) fun _ ↦ .pure trivial

/-! ### Nodes -/

theorem push (hI : Indifferent I) (frame : Frame) (source : String) (node : Node) :
    Spares I (frame.push source node) :=
  (hI.modifyTrace _ _).bind fun _ ↦ .get_bind fun _ _ ↦ .pure trivial

theorem popTo (hI : Indifferent I) (frame : Frame) (depth : Nat) : Spares I (frame.popTo depth) :=
  hI.modifyTrace _ _

theorem enter (hI : Indifferent I) (frame : Frame) (function : String) :
    Spares I (frame.enter function) :=
  hI.modifyTrace _ _

/-- The halt before a node and the lines of the evaluation trace keep an indifferent invariant. -/
theorem observed {interp : Interp} {site : Site} {mode : Mode} {node : Node}
    {Q : Completion → Prop} (hI : Indifferent I) (h : Maintains I Q (interp.node site mode node)) :
    Maintains I Q (interp.observed site mode node) := by
  have hresult : ∀ (style : Int) (result : Completion), Q result → Maintains I Q (do
      if 2 ≤ style then
        TreeScript.logInfo ((← Interp.traceIndent site) ++ node.code ++ " -> " ++
          (← display result.value))
      return result) := by
    intro style result hvalue
    refine .ite (fun _ ↦ ?_) fun _ ↦ .pure hvalue
    exact .get_bind fun _ _ ↦ .get_bind fun _ _ ↦ (hI.logInfo _).bind fun _ ↦ .pure hvalue
  refine (hI.haltAt site node).bind fun _ ↦ .get_bind fun m _ ↦ ?_
  refine .ite (fun _ ↦ ?_) fun _ ↦ h.bind (hresult _)
  exact .get_bind fun _ _ ↦ (hI.logInfo _).bind fun _ ↦ h.bind (hresult _)

/-- A node keeps an indifferent invariant if the rule for its construct does. -/
theorem evalNode {interp : Interp} {site : Site} {mode : Mode} {node : Node}
    {Q : Completion → Prop} (hI : Indifferent I) (h : Maintains I Q (interp.node site mode node)) :
    Maintains I Q (interp.evalNode site mode node) := by
  refine .ite (fun _ ↦ hI.observed h) fun _ ↦ .get_bind fun m _ ↦ ?_
  refine (hI.push _ _ _).bind fun depth ↦ ?_
  refine (Maintains.tryCatch (hI.observed h) fun e ↦ ?_).bind fun result hresult ↦ ?_
  · exact (hI.popTo _ depth).bind fun _ ↦ .throw e
  · exact (hI.popTo _ depth).bind fun _ ↦ .pure hresult

end Indifferent

end TreeScript
