import TreeScript.Proofs.Comparison.Twins

/-!
# Two interpreters in tandem

The rules of the language are written over an interpreter, which they ask to evaluate nodes and to
call functions. `Tandem enters I J realm x y` says that `x` and `y` are one such rule, over the
interpreter `I` and over `J`: they take the same steps of their own, in the same order, and where
`x` asks `I` for something, `y` asks `J` for the same. What holds of the rules because of the way
they are put together is proved by induction on this relation, with one case for each way of putting
them together. Between questions, a rule only takes steps that leave the recorded stack traces alone
(`Calm`); the record of a node and the body of a function are constructs of their own. Bodies that
are entered have to satisfy `enters`.

The realm tells two kinds of code apart. In the language itself, every step either gives a value
(`Plain`) or fails for good (`Failure.Settled`). Natives and methods fail as they like, and it is
their caller who attaches a stack trace to that.
-/

set_option autoImplicit false

namespace TreeScript

namespace Failure

/-- A failure that nothing changes any more: an execution error with a stack trace, or the end of
the fuel. -/
def Settled : Failure → Prop
  | plain _ => False
  | fault f => f.trace ≠ ""
  | outOfFuel => True

/-- Attaching a kind and a stack trace does not change a settled failure. -/
theorem Settled.attach {e : Failure} (h : e.Settled) (kind : ErrorKind) (trace : String) :
    e.attach kind trace = e := by
  cases e with
  | plain => exact h.elim
  | fault f => exact if_neg h
  | outOfFuel => rfl

/-- Attaching a stack trace settles a failure. -/
theorem settled_attach (e : Failure) (kind : ErrorKind) {trace : String} (h : trace ≠ "") :
    (e.attach kind trace).Settled := by
  cases e with
  | plain => exact h
  | fault f =>
    by_cases hbare : f.trace = ""
    · rw [show (fault f).attach kind trace = fault { f with trace } from if_pos hbare]
      exact h
    · rw [Settled.attach (e := fault f) hbare]
      exact hbare
  | outOfFuel => trivial

end Failure

namespace Machine

/-- A machine one of the stack traces of which has changed. -/
def retraced (m : Machine) (ref : TraceRef) (change : StackTrace → StackTrace) : Machine :=
  { m with traces := m.traces.modify ref.index change }

/-- A change of a stack trace is seen there, provided that the trace exists. -/
theorem trace_retraced (m : Machine) (ref other : TraceRef) (change : StackTrace → StackTrace) :
    (m.retraced ref change).trace other =
      if ref = other ∧ ref.index < m.traces.size then change (m.trace other)
      else m.trace other := by
  refine (getD_modify m.traces ref.index other.index {} change).trans ?_
  by_cases hplace : ref = other ∧ ref.index < m.traces.size
  · obtain ⟨rfl, hexists⟩ := hplace
    rw [if_pos ⟨rfl, hexists⟩, if_pos ⟨rfl, hexists⟩]
    rfl
  · rw [if_neg hplace, if_neg]
    · rfl
    · rintro ⟨hsame, hexists⟩
      exact hplace ⟨congrArg TraceRef.mk hsame, hsame ▸ hexists⟩

/-- The recorded stack traces are the same on two machines, but perhaps for the symbols that are
shown with them. -/
def Level (m n : Machine) : Prop :=
  ∀ ref, (n.trace ref).entries = (m.trace ref).entries ∧
    (n.trace ref).pending = (m.trace ref).pending

theorem Level.refl (m : Machine) : m.Level m := fun _ ↦ ⟨rfl, rfl⟩

theorem Level.trans {m n k : Machine} (hmn : m.Level n) (hnk : n.Level k) : m.Level k :=
  fun ref ↦ ⟨(hnk ref).1.trans (hmn ref).1, (hnk ref).2.trans (hmn ref).2⟩

theorem Level.of_traces {m n : Machine} (h : n.traces = m.traces) : m.Level n := by
  intro ref
  unfold Machine.trace
  rw [h]
  exact ⟨rfl, rfl⟩

end Machine

/-- A computation that leaves the recorded stack traces alone. -/
def Calm {α : Type} (x : Run α) : Prop := ∀ m : Machine, m.Level (Outcome.final (x m))

/-- A computation that leaves the recorded stack traces alone and always gives a value. -/
def Plain {α : Type} (x : Run α) : Prop := ∀ m : Machine, ∃ a n, x m = .ok a n ∧ m.Level n

theorem Plain.calm {α : Type} {x : Run α} (h : Plain x) : Calm x := by
  intro m
  obtain ⟨a, n, hx, hlevel⟩ := h m
  rw [hx]
  exact hlevel

theorem Steady.calm {α : Type} {x : Run α} (h : Steady x) : Calm x :=
  fun m ↦ .of_traces (by rw [← h.sameOutside m])

namespace Calm

variable {α β : Type}

theorem pure (a : α) : Calm (Pure.pure a) := fun m ↦ .refl m

theorem throw (e : Failure) : Calm (throw e : Run α) := fun m ↦ .refl m

theorem bind {x : Run α} {f : α → Run β} (hfirst : Calm x) (hrest : ∀ a, Calm (f a)) :
    Calm (x >>= f) := by
  intro m
  have hmn := hfirst m
  cases hx : x m with
  | ok a n =>
    rw [hx] at hmn
    rw [Run.bind_ok hx]
    exact hmn.trans (hrest a n)
  | error e n =>
    rw [hx] at hmn
    rw [Run.bind_error hx]
    exact hmn

theorem get_bind {f : Machine → Run α} (h : ∀ n, Calm (f n)) : Calm (MonadState.get >>= f) :=
  fun m ↦ h m m

theorem ite {p : Prop} [Decidable p] {x y : Run α} (hx : Calm x) (hy : Calm y) :
    Calm (if p then x else y) := by
  split
  · exact hx
  · exact hy

end Calm

namespace Run

variable {α : Type}

/-- What fails under a trace fails with the trace attached. -/
theorem traced_error (site : Site) (kind : ErrorKind) {x : Run α} {m n : Machine} {e : Failure}
    (h : x m = .error e n) :
    site.traced kind x m =
      .error (e.attach kind (n.formatTrace site.frame site.context)) n := by
  unfold Site.traced TreeScript.traced
  rw [tryCatch_error h]
  rfl

/-- What gives a value under a trace gives it. -/
theorem traced_ok (site : Site) (kind : ErrorKind) {x : Run α} {m n : Machine} {a : α}
    (h : x m = .ok a n) : site.traced kind x m = .ok a n :=
  tryCatch_ok h

/-- What a value under a trace is given by. -/
theorem of_traced_ok {site : Site} {kind : ErrorKind} {x : Run α} {m n : Machine} {a : α}
    (h : site.traced kind x m = .ok a n) : x m = .ok a n := by
  cases hx : x m with
  | ok b k => exact (traced_ok site kind hx).symm.trans h
  | error e k => cases (traced_error site kind hx).symm.trans h

end Run

/-- Where a piece of code belongs. -/
inductive Realm where
  | language | native

/-- Two computations are one rule over two interpreters. -/
inductive Tandem (enters : Node → Prop) (I J : Interp) :
    Realm → {α : Type} → Run α → Run α → Prop
  | plain {realm : Realm} {α : Type} {x : Run α} (hplain : Plain x) : Tandem enters I J realm x x
  | calm {α : Type} {x : Run α} (hcalm : Calm x) : Tandem enters I J .native x x
  | throw {realm : Realm} {α : Type} {e : Failure} (hsettled : e.Settled) :
    Tandem enters I J realm (throw e : Run α) (throw e)
  | bind {realm : Realm} {α β : Type} {x y : Run β} {f g : β → Run α}
    (hfirst : Tandem enters I J realm x y) (hrest : ∀ b, Tandem enters I J realm (f b) (g b)) :
    Tandem enters I J realm (x >>= f) (y >>= g)
  | traced {realm : Realm} {α : Type} {x y : Run α} (site : Site) (kind : ErrorKind)
    (h : Tandem enters I J .native x y) :
    Tandem enters I J realm (site.traced kind x) (site.traced kind y)
  | recorded {x y : Run Completion} (site : Site) (node : Node)
    (h : Tandem enters I J .language x y) :
    Tandem enters I J .language (Visit.record site node >>= fun depth ↦ Visit.within site depth x)
      (Visit.record site node >>= fun depth ↦ Visit.within site depth y)
  | eval {realm : Realm} (site : Site) (mode : Mode) (node : Node) :
    Tandem enters I J realm (I.eval site mode node) (J.eval site mode node)
  | call {realm : Realm} (site : Site) (name : String) (preparation : Preparation)
    (function : CellRef) (args : List CellRef) :
    Tandem enters I J realm (I.call site name preparation function args)
      (J.call site name preparation function args)
  /-- The body of a function runs in a frame that writes to the stack trace of its caller. -/
  | body (site inner : Site) (name : String) {node : Node} (henters : enters node)
    (htrace : inner.frame.trace = site.frame.trace) :
    Tandem enters I J .language (site.frame.enter name >>= fun _ ↦ I.eval inner .required node)
      (site.frame.enter name >>= fun _ ↦ J.eval inner .required node)

/-! ### Plain computations -/

namespace Plain

variable {α β σ : Type}

theorem of_modifyGet {f : Machine → α × Machine} (h : ∀ m, (f m).2.traces = m.traces) :
    Plain (modifyGet f) :=
  fun m ↦ ⟨_, _, rfl, .of_traces (h m)⟩

theorem of_modify {change : Machine → Machine} (h : ∀ m, (change m).traces = m.traces) :
    Plain (modify change) :=
  fun m ↦ ⟨_, _, rfl, .of_traces (h m)⟩

theorem get : Plain get := fun m ↦ ⟨m, m, rfl, .refl m⟩

theorem pure (a : α) : Plain (Pure.pure a) := fun m ↦ ⟨a, m, rfl, .refl m⟩

theorem bind {x : Run α} {f : α → Run β} (hfirst : Plain x) (hrest : ∀ a, Plain (f a)) :
    Plain (x >>= f) := by
  intro m
  obtain ⟨a, n, hx, hmn⟩ := hfirst m
  obtain ⟨b, k, hf, hnk⟩ := hrest a n
  exact ⟨b, k, by rw [Run.bind_ok hx, hf], hmn.trans hnk⟩

theorem get_bind {f : Machine → Run α} (h : ∀ n, Plain (f n)) : Plain (MonadState.get >>= f) :=
  get.bind h

theorem ite {p : Prop} [Decidable p] {x y : Run α} (hx : Plain x) (hy : Plain y) :
    Plain (if p then x else y) := by
  split
  · exact hx
  · exact hy

theorem mapM {f : α → Run β} (xs : List α) (h : ∀ a, Plain (f a)) : Plain (xs.mapM f) := by
  induction xs with
  | nil => exact pure []
  | cons a as ih =>
    rw [List.mapM_cons]
    exact (h a).bind fun b ↦ ih.bind fun bs ↦ pure (b :: bs)

theorem forIn {f : α → σ → Run (ForInStep σ)} (xs : List α) (h : ∀ a s, Plain (f a s)) :
    ∀ s : σ, Plain (forIn xs s f) := by
  induction xs with
  | nil => exact fun s ↦ pure s
  | cons a as ih =>
    intro s
    rw [List.forIn_cons]
    refine (h a s).bind fun step ↦ ?_
    cases step with
    | done s => exact pure s
    | yield s => exact ih s

/-- A change of a stack trace that keeps what is recorded on it. -/
theorem retrace (ref : TraceRef) {change : StackTrace → StackTrace}
    (hentries : ∀ trace, (change trace).entries = trace.entries)
    (hpending : ∀ trace, (change trace).pending = trace.pending) :
    Plain (modifyTrace ref change) := by
  refine fun m ↦ ⟨(), m.retraced ref change, rfl, fun other ↦ ?_⟩
  rw [Machine.trace_retraced]
  split
  · exact ⟨hentries _, hpending _⟩
  · exact ⟨rfl, rfl⟩

/-! ### Cells, objects and iterators -/

theorem alloc (c : Content) : Plain (alloc c) := of_modifyGet fun _ ↦ rfl

theorem write (cell : CellRef) (c : Content) : Plain (write cell c) := of_modify fun _ ↦ rfl

theorem newEmpty : Plain newEmpty := alloc .empty

theorem newNumber (d : Decimal) : Plain (newNumber d) := alloc (.number d)

theorem newString (s : String) : Plain (newString s) := alloc (.string s)

theorem newBoolean (b : Bool) : Plain (newBoolean b) := alloc (.boolean b)

theorem newObject (ref : TableRef) : Plain (newObject ref) := alloc (.object ref)

theorem newStamp : Plain newStamp := of_modifyGet fun _ ↦ rfl

theorem newTable : Plain newTable := of_modifyGet fun _ ↦ rfl

theorem content (cell : CellRef) : Plain (content cell) := get_bind fun n ↦ pure (n.content cell)

theorem display (cell : CellRef) : Plain (display cell) := get_bind fun n ↦ pure (n.display cell)

theorem isTrue (cell : CellRef) : Plain (isTrue cell) := get_bind fun n ↦ pure (n.isTrue cell)

theorem tableOf (ref : TableRef) : Plain (tableOf ref) := get_bind fun n ↦ pure (n.table ref)

theorem copy (cell : CellRef) : Plain (copy cell) := (content cell).bind alloc

theorem inherit (cell source : CellRef) : Plain (inherit cell source) :=
  (content source).bind fun c ↦ write cell c

theorem setEntry (ref : TableRef) (key value : CellRef) : Plain (setEntry ref key value) :=
  get_bind fun _ ↦ of_modify fun _ ↦ rfl

theorem setText (ref : TableRef) (key : String) (value : CellRef) : Plain (setText ref key value) :=
  (newString key).bind fun name ↦ setEntry ref name value

theorem newArray (items : List CellRef) : Plain (newArray items) := by
  have htable : Plain (newArrayTable items) :=
    newTable.bind fun ref ↦ bind (forIn _ (fun _ _ ↦ (newNumber _).bind fun _ ↦
      (setEntry ref _ _).bind fun _ ↦ pure _) _) fun _ ↦ pure ref
  exact htable.bind newObject

theorem mergeInto (target source : TableRef) : Plain (mergeInto target source) :=
  (tableOf source).bind fun _ ↦ bind (forIn _ (fun _ _ ↦ (setEntry target _ _).bind fun _ ↦
    pure _) _) fun _ ↦ pure ()

theorem next? (ref : IteratorRef) : Plain (next? ref) :=
  get_bind fun _ ↦ bind (of_modify fun _ ↦ rfl) fun _ ↦ pure _

theorem accessInstance (receiver : CellRef) (ref : InstanceRef) (name : String) :
    Plain (accessInstance receiver ref name) := by
  refine get_bind fun n ↦ ?_
  dsimp only
  generalize n.instanceOf ref = found
  refine ite (pure _) ?_
  split
  · exact newStamp.bind fun _ ↦ (alloc _).bind fun _ ↦ pure _
  · exact pure none

theorem access (cell key : CellRef) : Plain (access cell key) := by
  refine get_bind fun n ↦ ?_
  dsimp only
  refine ite (newEmpty.bind fun _ ↦ pure _) ?_
  split
  · exact newStamp.bind fun _ ↦ (alloc _).bind fun _ ↦ pure _
  · split
    · exact pure _
    · exact accessInstance cell _ _
    · split
      · exact newStamp.bind fun _ ↦ (alloc _).bind fun _ ↦ pure _
      · exact pure none
    · exact pure none

theorem createEntry (cell key value : CellRef) (isFinal : Bool) :
    Plain (createEntry cell key value isFinal) := by
  refine (content cell).bind fun c ↦ ?_
  split
  · dsimp only
    have hset (ref : TableRef) : Plain (do
        TreeScript.setEntry ref key value
        return true) := (setEntry ref key value).bind fun _ ↦ pure true
    exact ite (newTable.bind fun _ ↦ (write value _).bind fun _ ↦ hset _) (hset _)
  · refine get_bind fun n ↦ ?_
    split
    · refine (display key).bind fun shown ↦ ite ?_ (pure false)
      exact bind (of_modify fun _ ↦ rfl) fun _ ↦ pure true
    · exact pure false
  · exact pure false

/-! ### Frames -/

theorem modifyScope (ref : ScopeRef) (change : Scope → Scope) : Plain (modifyScope ref change) :=
  of_modify fun _ ↦ rfl

theorem newScope (scope : Scope) : Plain (newScope scope) := of_modifyGet fun _ ↦ rfl

theorem putOnTop (frame : Frame) (name : String) (cell : CellRef) :
    Plain (frame.putOnTop name cell) :=
  modifyScope _ _

theorem put (frame : Frame) (name : String) (cell : CellRef) : Plain (frame.put name cell) :=
  get_bind fun _ ↦ modifyScope _ _

theorem remove (frame : Frame) (name : String) : Plain (frame.remove name) := by
  refine get_bind fun n ↦ ?_
  split
  · exact (modifyScope _ _).bind fun _ ↦ pure true
  · exact pure false

theorem setVariable (context : ContextRef) (name : String) (cell : CellRef) :
    Plain (setVariable context name cell) :=
  get_bind fun _ ↦ modifyScope _ _

theorem removeVariable (context : ContextRef) (name : String) :
    Plain (removeVariable context name) :=
  get_bind fun _ ↦ modifyScope _ _

theorem forkWith (frame : Frame) (scope : Scope) : Plain (frame.forkWith scope) :=
  (newScope scope).bind fun _ ↦ pure _

theorem fork (site : Site) : Plain site.fork :=
  Plain.bind ((newScope _).bind fun _ ↦ pure _) fun _ ↦ pure _

theorem forkSelf (site : Site) (self : CellRef) : Plain (site.forkSelf self) := by
  have hself (frame : Frame) : Plain (frame.putSelf self) := by
    refine get_bind fun n ↦ ?_
    split
    · exact (putOnTop frame _ _).bind fun _ ↦ putOnTop frame _ _
    · exact putOnTop frame _ _
  exact (fork site).bind fun inner ↦ (hself inner.frame).bind fun _ ↦ pure inner

/-! ### Output, log and debugger -/

theorem say (text : String) : Plain (say text) := of_modify fun _ ↦ rfl

theorem sayDebug (text : String) : Plain (sayDebug text) := of_modify fun _ ↦ rfl

theorem quiet {x : Run Unit} (h : Quiet x) : Plain x := by
  intro m
  obtain ⟨log, hx⟩ := h m
  exact ⟨(), _, hx, .of_traces rfl⟩

theorem modifyDebugger (change : Debugger → Debugger) : Plain (modifyDebugger change) :=
  of_modify fun _ ↦ rfl

theorem sayFromDebugger (text : String) : Plain (sayFromDebugger text) := by
  refine get_bind fun n ↦ ?_
  split
  · exact ite (sayDebug text) (say text)
  · exact say text

theorem nextDebugAction : Plain nextDebugAction := by
  refine get_bind fun n ↦ ?_
  split
  · exact pure _
  · exact (modifyDebugger _).bind fun _ ↦ (say _).bind fun _ ↦ pure _

end Plain

/-! ### Rules put together -/

namespace Tandem

variable {enters : Node → Prop} {I J : Interp} {realm : Realm} {α β σ : Type}

theorem pure (a : α) : Tandem enters I J realm (Pure.pure a) (Pure.pure a) := plain (.pure a)

/-- A step that works on the store alone. -/
theorem steady {x : Run α} (h : Steady x) : Tandem enters I J .native x x := calm h.calm

/-- A step that only writes to the log. -/
theorem quiet {x : Run Unit} (h : Quiet x) : Tandem enters I J realm x x := plain (.quiet h)

theorem fail (message : String) : Tandem enters I J .native (Run.fail message : Run α)
    (Run.fail message) :=
  steady (.fail message)

theorem get_bind {f g : Machine → Run α} (h : ∀ n, Tandem enters I J realm (f n) (g n)) :
    Tandem enters I J realm (get >>= f) (get >>= g) :=
  (plain .get).bind h

theorem raise (site : Site) (kind : ErrorKind) (message : String) :
    Tandem enters I J realm (site.raise kind message : Run α) (site.raise kind message) :=
  get_bind fun n ↦ throw (n.formatTrace_ne_empty site.frame site.context)

theorem ite {p : Prop} [Decidable p] {x y u v : Run α} (hx : Tandem enters I J realm x u)
    (hy : Tandem enters I J realm y v) :
    Tandem enters I J realm (if p then x else y) (if p then u else v) := by
  split
  · exact hx
  · exact hy

/-- A step that is taken under a condition and followed by the rest. -/
theorem check {p : Prop} [Decidable p] {x y : Run Unit} {f g : Unit → Run α}
    (hfirst : Tandem enters I J realm x y) (hrest : Tandem enters I J realm (f ()) (g ())) :
    Tandem enters I J realm (if p then x >>= f else f ()) (if p then y >>= g else g ()) :=
  ite (hfirst.bind fun _ ↦ hrest) hrest

theorem map (f : α → β) {x y : Run α} (h : Tandem enters I J realm x y) :
    Tandem enters I J realm (f <$> x) (f <$> y) := by
  rw [map_eq_pure_bind, map_eq_pure_bind]
  exact h.bind fun a ↦ pure (f a)

theorem mapM {f g : α → Run β} (xs : List α) (h : ∀ a, Tandem enters I J realm (f a) (g a)) :
    Tandem enters I J realm (xs.mapM f) (xs.mapM g) := by
  induction xs with
  | nil => exact pure []
  | cons a as ih =>
    rw [List.mapM_cons, List.mapM_cons]
    exact (h a).bind fun b ↦ ih.bind fun bs ↦ pure (b :: bs)

theorem forIn {f g : α → σ → Run (ForInStep σ)} (xs : List α)
    (h : ∀ a s, Tandem enters I J realm (f a s) (g a s)) :
    ∀ s : σ, Tandem enters I J realm (forIn xs s f) (forIn xs s g) := by
  induction xs with
  | nil => exact fun s ↦ pure s
  | cons a as ih =>
    intro s
    rw [List.forIn_cons, List.forIn_cons]
    refine (h a s).bind fun step ↦ ?_
    cases step with
    | done s => exact pure s
    | yield s => exact ih s

theorem forInArray {f g : α → σ → Run (ForInStep σ)} (xs : Array α)
    (h : ∀ a s, Tandem enters I J realm (f a s) (g a s)) (s : σ) :
    Tandem enters I J realm (ForIn.forIn xs s f) (ForIn.forIn xs s g) := by
  rw [← Array.forIn_toList, ← Array.forIn_toList]
  exact forIn xs.toList h s

theorem foldlM {f g : σ → α → Run σ} (xs : List α)
    (h : ∀ s a, Tandem enters I J realm (f s a) (g s a)) :
    ∀ s : σ, Tandem enters I J realm (xs.foldlM f s) (xs.foldlM g s) := by
  induction xs with
  | nil => exact fun s ↦ pure s
  | cons a as ih =>
    intro s
    rw [List.foldlM_cons, List.foldlM_cons]
    exact (h s a).bind fun t ↦ ih t

/-- The value of an expression. -/
theorem value (site : Site) (node : Node) (mode : Mode) :
    Tandem enters I J realm (I.value site node mode) (J.value site node mode) :=
  (eval site mode node).bind fun result ↦ pure result.value

theorem values (site : Site) (nodes : List Node) :
    Tandem enters I J realm (I.values site nodes) (J.values site nodes) :=
  mapM nodes fun node ↦ value site node .required

/-- What functions that are not written in the language get from two interpreters. -/
structure Calls (enters : Node → Prop) (I J : Interp) (call call' : Call) : Prop where
  scale : call'.scale = call.scale
  fuel : call'.fuel = call.fuel
  invoke : ∀ name function args, Tandem enters I J .native (call.invoke name function args)
    (call'.invoke name function args)

/-- Two interpreters with the same fuel hand out calls that ask them for the same. -/
theorem callFrom (hfuel : J.fuel = I.fuel) (site : Site) {f g : Call → Run α}
    (h : ∀ call call', Calls enters I J call call' →
      Tandem enters I J realm (f call) (g call')) :
    Tandem enters I J realm (I.callFrom site >>= f) (J.callFrom site >>= g) := by
  unfold Interp.callFrom
  rw [bind_assoc, bind_assoc]
  refine get_bind fun n ↦ ?_
  rw [pure_bind, pure_bind]
  exact h _ _ ⟨rfl, hfuel, fun name function args ↦ call site name .none function args⟩

/-! ### The debugger -/

theorem followActions (site : Site) (count : Nat) :
    Tandem enters I J realm (TreeScript.followActions site count)
      (TreeScript.followActions site count) := by
  induction count with
  | zero => exact plain (.modifyDebugger _)
  | succ count ih =>
    have hshown {read : Machine → String} : Tandem enters I J realm
        (do
          TreeScript.sayFromDebugger (read (← get) ++ "\n")
          TreeScript.followActions site count)
        (do
          TreeScript.sayFromDebugger (read (← get) ++ "\n")
          TreeScript.followActions site count) :=
      get_bind fun _ ↦ (plain (.sayFromDebugger _)).bind fun _ ↦ ih
    refine (plain .nextDebugAction).bind fun action ↦ ?_
    split
    · exact plain (.modifyDebugger _)
    · exact raise site _ _
    · exact pure ()
    · exact plain (.modifyDebugger _)
    · exact hshown
    · exact hshown
    · exact (plain (.sayFromDebugger _)).bind fun _ ↦ ih

theorem haltAt (site : Site) (node : Node) :
    Tandem enters I J realm (TreeScript.haltAt site node) (TreeScript.haltAt site node) := by
  refine get_bind fun n ↦ ?_
  split
  · exact pure ()
  · exact ite ((plain (.sayFromDebugger _)).bind fun _ ↦ followActions site _) (pure ())

end Tandem

end TreeScript
