import TreeScript.Proofs.Comparison.Values
import TreeScript.Proofs.Visit

/-!
# What a comparison has to respect

A `Comparison` is a way to compare runs that the whole evaluator respects. Besides the relations on
machines and failures it says which sites are compared: the pairs of sites at which the same code is
evaluated (`Sites`), and the pairs of sites from which a closure may be called (`Callers`), of which
a call uses no more than the stack trace. Its laws cover everything the evaluator does outside of
the store, one law for each kind of step: writing to the log and to the output, failing with a stack
trace, recording a node, halting in the debugger, and making and changing frames. Natives that the
comparison cannot follow are `avoided`; the laws for the steps of these natives hold only where they
are not.

`Comparison.Evaluates` says that an interpreter respects a comparison, and `Comparison.Calls` the
same of what natives and methods get from their callers.
-/

set_option autoImplicit false

namespace TreeScript

/-- A computation that changes nothing but the log. -/
def Quiet (x : Run Unit) : Prop :=
  ∀ m : Machine, ∃ log : Array String, x m = .ok () { m with log }

namespace Quiet

theorem pure : Quiet (Pure.pure ()) := fun m ↦ ⟨m.log, rfl⟩

theorem logInfo (text : String) : Quiet (logInfo text) := by
  intro m
  by_cases hlevel : m.logLevel = .error
  · refine ⟨m.log, ?_⟩
    change EStateM.Result.ok () (if m.logLevel = .error then m else _) = _
    rw [if_pos hlevel]
  · refine ⟨m.log.push ("[I]> " ++ text), ?_⟩
    change EStateM.Result.ok () (if m.logLevel = .error then m else _) = _
    rw [if_neg hlevel]

theorem get_bind {f : Machine → Run Unit} (h : ∀ n, Quiet (f n)) : Quiet (get >>= f) :=
  fun m ↦ h m m

theorem display_bind {cell : CellRef} {f : String → Run Unit} (h : ∀ text, Quiet (f text)) :
    Quiet (display cell >>= f) :=
  fun m ↦ h _ m

theorem ite {p : Prop} [Decidable p] {x y : Run Unit} (hx : Quiet x) (hy : Quiet y) :
    Quiet (if p then x else y) := by
  split
  · exact hx
  · exact hy

end Quiet

/-- A computation that makes a new cell. -/
structure MakesCell (make : Run CellRef) : Prop where
  steady : Steady make
  new : ∀ m : Machine, ∃ cell n, make m = .ok cell n ∧ m.cells.size ≤ cell.index ∧
    cell.index < n.cells.size

namespace MakesCell

theorem alloc (content : Content) : MakesCell (alloc content) where
  steady := .alloc content
  new _ := ⟨_, _, rfl, Nat.le_refl _, size_lt_push _ _⟩

theorem copy (cell : CellRef) : MakesCell (copy cell) where
  steady := .copy cell
  new m := (alloc (m.content cell)).new m

end MakesCell

/-- Makes a cell and binds it. -/
def bindNew (make : Run CellRef) (bind : CellRef → Run Unit) : Run CellRef := do
  let cell ← make
  bind cell
  return cell

/-- What is made is bound before anything else is done with it. -/
theorem bindNew_bind {α : Type} (make : Run CellRef) (bind : CellRef → Run Unit)
    (rest : CellRef → Run α) :
    bindNew make bind >>= rest = (do
      let cell ← make
      bind cell
      rest cell) := by
  unfold bindNew
  simp only [bind_assoc, pure_bind]

/-- The names that stand for the receiver of a call, and for that of the call around it. -/
def receiverNames : List String := ["self", "super"]

/-- A way to compare runs, with a law for each kind of step outside of the store. -/
structure Comparison extends Relations where
  /-- The sites at which the same code is evaluated. -/
  Sites : Machine → Site → Site → Prop
  /-- The sites from which the same closure is called. -/
  Callers : Machine → Site → Site → Prop
  /-- The natives that the comparison does not follow. -/
  avoided : Native → Bool
  sites_later : ∀ {m n : Machine} {s s' : Site}, Later m n → Sites m s s' → Sites n s s'
  sites_alike : ∀ {m : Machine} {s s' : Site}, Sites m s s' → s.Alike s'
  callers_later : ∀ {m n : Machine} {s s' : Site}, Later m n → Callers m s s' → Callers n s s'
  callers : ∀ {m : Machine} {s s' : Site}, Sites m s s' → Callers m s s'
  confined : ∀ {α β : Type} {R : α → β → Prop} {x : Run α} {y : Run β} (m : Machine),
    Confined R x y → toRelations.Runs m (fun _ ↦ R) x y
  quiet : ∀ {x y : Run Unit} (m : Machine), Quiet x → Quiet y → toRelations.Same m x y
  say : ∀ (m : Machine) (text : String), toRelations.Same m (say text) (say text)
  raise : ∀ {α β : Type} {m : Machine} {s s' : Site} (R : Machine → α → β → Prop)
    (context : ContextRef) (kind : ErrorKind) (message : String), Callers m s s' →
    toRelations.Runs m R (raise s.frame context kind message) (raise s'.frame context kind message)
  traced : ∀ {α : Type} {m : Machine} {s s' : Site} {x y : Run α} (kind : ErrorKind),
    Sites m s s' → toRelations.Same m x y → toRelations.Same m (s.traced kind x) (s'.traced kind y)
  recorded : ∀ {m : Machine} {s s' : Site} {x y : Run Completion} (node : Node),
    Sites m s s' → toRelations.Same m x y →
    toRelations.Same m (Visit.record s node >>= fun depth ↦ Visit.within s depth x)
      (Visit.record s' node >>= fun depth ↦ Visit.within s' depth y)
  halt : ∀ {m : Machine} {s s' : Site} (node : Node), Sites m s s' →
    toRelations.Same m (haltAt s node) (haltAt s' node)
  fork : ∀ {m : Machine} {s s' : Site}, Sites m s s' → toRelations.Runs m Sites s.fork s'.fork
  /-- A frame of its own may stand for a source as soon as it has a name for each of its variables.
  -/
  openFrame : ∀ {m : Machine} {s s' : Site} {context : ContextRef} {scope : Scope}, Callers m s s' →
    (∀ name, (m.global? context name).isSome → scope.contains name) →
    toRelations.Runs m (fun n frame frame' ↦ Sites n ⟨context, frame⟩ ⟨context, frame'⟩)
      (s.frame.forkWith scope) (s'.frame.forkWith scope)
  /-- Receivers are bound to cells that there are. -/
  putReceiver : ∀ {m : Machine} {s s' : Site} {name : String} (cell : CellRef),
    name ∈ receiverNames → Sites m s s' →
    toRelations.Same m (s.frame.putOnTop name cell) (s'.frame.putOnTop name cell)
  /-- All other names are bound to cells that are made for them. -/
  putOnTop : ∀ {m : Machine} {s s' : Site} {make : Run CellRef} (name : String), MakesCell make →
    Sites m s s' →
    toRelations.Same m (bindNew make (s.frame.putOnTop name))
      (bindNew make (s'.frame.putOnTop name))
  put : ∀ {m : Machine} {s s' : Site} {make : Run CellRef} (name : String), MakesCell make →
    Sites m s s' →
    toRelations.Same m (bindNew make (s.frame.put name)) (bindNew make (s'.frame.put name))
  /-- A variable of a source may be bound anew where the frame does not bind it. -/
  rebindGlobal : ∀ {m : Machine} {s s' : Site} {name : String} {make : Run CellRef},
    MakesCell make → Sites m s s' →
    m.lookUpName s.frame name = none → (m.global? s.context name).isSome →
    toRelations.Same m (bindNew make (setVariable s.context name))
      (bindNew make (setVariable s'.context name))
  /-- The stack trace may be changed apart from the nodes recorded on it. -/
  retrace : ∀ {m : Machine} {s s' : Site} (change : StackTrace → StackTrace), Callers m s s' →
    (∀ trace, (change trace).entries = trace.entries) →
    toRelations.Same m (modifyTrace s.frame.trace change) (modifyTrace s'.frame.trace change)
  remove : ∀ {m : Machine} {s s' : Site} (name : String), avoided .removeVariable = false →
    Sites m s s' → toRelations.Same m (s.frame.remove name) (s'.frame.remove name)
  removeVariable : ∀ {m : Machine} {s s' : Site} (name : String),
    avoided .removeVariable = false → Sites m s s' →
    toRelations.Same m (removeVariable s.context name) (removeVariable s'.context name)
  options : ∀ {m m' : Machine}, avoided .trace = false → Like m m' → m'.options = m.options
  /-- The options that only concern the log may be set. -/
  adjust : ∀ (m : Machine) (change : Options → Options), avoided .trace = false →
    (∀ options, (change options).divisionScale = options.divisionScale ∧
      (change options).suggestions = options.suggestions ∧
      (change options).debugger = options.debugger) →
    toRelations.Same m (modify fun m ↦ { m with options := change m.options })
      (modify fun m ↦ { m with options := change m.options })
  lastSite : ∀ {m m' : Machine} {s : Site}, avoided (.host .bare) = false → Like m m' →
    Native.lastSite? m = some s → Sites m s s

namespace Site.Alike

variable {s s' : Site}

theorem context (h : s.Alike s') : s'.context = s.context := by
  cases h
  rfl

theorem isRoot (h : s.Alike s') : s'.frame.isRoot = s.frame.isRoot := by
  cases h
  rfl

theorem lookUpName (h : s.Alike s') (m : Machine) :
    m.lookUpName s'.frame = m.lookUpName s.frame := by
  cases h
  rfl

theorem binderOf? (h : s.Alike s') (m : Machine) :
    m.binderOf? s'.frame = m.binderOf? s.frame := by
  cases h
  rfl

end Site.Alike

namespace Comparison

variable {K : Comparison} {α β : Type} {m n : Machine} {s s' : Site} {R : Machine → α → β → Prop}

theorem steady {x : Run α} (h : Steady x) : K.Same m x x := K.confined m h

/-- Failing at a site is failing at its frame and source. -/
theorem raiseAt (hsites : K.Sites m s s') (kind : ErrorKind) (message : String) :
    K.Runs m R (s.raise kind message) (s'.raise kind message) := by
  unfold Site.raise
  rw [(K.sites_alike hsites).context]
  exact K.raise R s.context kind message (K.callers hsites)

/-- A fork in which `self` is bound. -/
theorem forkSelf (hsites : K.Sites m s s') (self : CellRef) :
    K.Runs m K.Sites (s.forkSelf self) (s'.forkSelf self) := by
  refine Relations.Runs.bind (K.fork hsites) fun n inner inner' _ hinner ↦ ?_
  have hself : K.Same n (inner.frame.putSelf self) (inner'.frame.putSelf self) := by
    refine Relations.Runs.get_bind fun k k' halike ↦ ?_
    rw [halike.lookUpName, (K.sites_alike hinner).lookUpName]
    split
    · exact (K.putReceiver _ (.tail _ (.head _)) hinner).bind fun _ ↦
        K.putReceiver self (.head _) hinner
    · exact K.putReceiver self (.head _) hinner
  exact hself.bind fun _ ↦ Relations.Runs.pure fun k hlater ↦ K.sites_later hlater hinner

/-- Logging does not count. -/
theorem quiet_bind {x y : Run Unit} {f : Unit → Run α} {g : Unit → Run β} (hx : Quiet x)
    (hy : Quiet y) (hrest : K.Runs m R (f ()) (g ())) : K.Runs m R (x >>= f) (y >>= g) :=
  (K.quiet m hx hy).bind fun _ ↦ hrest

/-- Logging under a condition that only concerns the log does not count. -/
theorem logged {p : Machine → Prop} [∀ n, Decidable (p n)] {x : Run α} {y : Run β}
    {f : Unit → Run α} {g : Unit → Run β} (hx : ∃ log, Quiet log ∧ x = log >>= f)
    (hy : ∃ log, Quiet log ∧ y = log >>= g) (hrest : K.Runs m R (f ()) (g ())) :
    K.Runs m R (get >>= fun n ↦ if p n then x else f ())
      (get >>= fun n ↦ if p n then y else g ()) := by
  obtain ⟨log, hlog, rfl⟩ := hx
  obtain ⟨log', hlog', rfl⟩ := hy
  have hsplit {γ : Type} (log : Run Unit) (f : Unit → Run γ) :
      (get >>= fun n ↦ if p n then log >>= f else f ()) =
        (get >>= fun n ↦ if p n then log else pure ()) >>= f := by
    rw [bind_assoc]
    refine bind_congr fun n ↦ ?_
    split
    · rfl
    · rw [pure_bind]
  rw [hsplit, hsplit]
  exact quiet_bind (.get_bind fun _ ↦ .ite hlog .pure) (.get_bind fun _ ↦ .ite hlog' .pure) hrest

/-- Two calls of functions that are not written in the language. -/
structure Calls (K : Comparison) (m : Machine) (call call' : Call) : Prop where
  scale : call'.scale = call.scale
  fuel : call'.fuel = call.fuel
  invoke : ∀ name function args,
    K.Same m (call.invoke name function args) (call'.invoke name function args)

/-- An interpreter that evaluates and calls alike at sites that are compared. -/
structure Evaluates (K : Comparison) (interp : Interp) : Prop where
  eval : ∀ {m : Machine} {s s' : Site} (mode : Mode) (node : Node), K.Sites m s s' →
    K.Same m (interp.eval s mode node) (interp.eval s' mode node)
  call : ∀ {m : Machine} {s s' : Site} (name : String) (preparation : Preparation)
    (function : CellRef) (args : List CellRef), K.Sites m s s' →
    K.Same m (interp.call s name preparation function args)
      (interp.call s' name preparation function args)

namespace Evaluates

variable {interp : Interp} (hinterp : K.Evaluates interp)
include hinterp

theorem value (hsites : K.Sites m s s') (node : Node) (mode : Mode) :
    K.Same m (interp.value s node mode) (interp.value s' node mode) :=
  (hinterp.eval mode node hsites).bind fun _ ↦ Relations.Same.refl_pure _

theorem values (hsites : K.Sites m s s') (nodes : List Node) :
    K.Same m (interp.values s nodes) (interp.values s' nodes) :=
  Relations.Same.mapM nodes fun node ↦ hinterp.value hsites node .required

/-- What functions that are not written in the language get from sites that are compared. -/
theorem callFrom (hsites : K.Sites m s s') :
    K.Runs m K.Calls (interp.callFrom s) (interp.callFrom s') := by
  refine Relations.Runs.get_bind fun k k' halike ↦ Relations.Runs.pure fun n hlater ↦ ?_
  refine ⟨by rw [halike.divisionScale], rfl, fun name function args ↦ ?_⟩
  exact hinterp.call name .none function args (K.sites_later hlater hsites)

end Evaluates

end Comparison

end TreeScript
