import TreeScript.Proofs.Tandem.Evaluation

/-!
# The first failure is the one that is reported

Whatever fails within an evaluation makes the whole evaluation fail with it, unchanged
(`first_failure_is_reported`). Nothing that an interpreter is asked for is caught on the way: not by
the constructs of the language, and not by operators, methods and natives that call back, in loops
or while they sort. Every failure that leaves an evaluation or a call is settled: it has a stack
trace, or says that the fuel has come to its end.

An interpreter is asked to perform a `Task`, and follows the rule of the language for it, which asks
the interpreter with one unit of fuel less. That a rule comes to a task on a machine is said without
following its steps (`Interp.Asks`): it makes a difference what is made of that task there. So the
rule is compared with the same rule over a rival, which makes something else of that task and
nothing else. The two run in tandem, and can only part where the task fails
(`Interp.Rival.parts`). `asks_of_answer` shows of particular rules that they come to a task.
-/

set_option autoImplicit false

namespace TreeScript

namespace Interp

/-- Another interpreter with the same fuel, which differs at most in what it makes of one task on
one machine. -/
structure Rival (I J : Interp) (task : Task) (k : Machine) : Prop where
  fuel : J.fuel = I.fuel
  perform : ∀ (other : Task) (m : Machine), ¬(other = task ∧ m = k) →
    J.perform other m = I.perform other m

/-- The rule for a task comes to another task on a machine: it makes a difference what is made of
that one. -/
def Asks (I : Interp) (outer : Task) (m : Machine) (inner : Task) (k : Machine) : Prop :=
  ∃ J, I.Rival J inner k ∧ J.rule outer m ≠ I.rule outer m

/-- An interpreter all failures of which are settled. -/
def SettlesFailures (I : Interp) : Prop :=
  ∀ (task : Task) (m : Machine) e n, I.perform task m = .error e n → e.Settled

end Interp

/-! ### Failures on their way out -/

/-- Assumes: a rival of an interpreter whose answer to a task is a settled failure. Rules that run
in tandem over the two have the same outcome, or the first one fails with that failure. -/
theorem Interp.Rival.parts {I J : Interp} {task : Task} {k k' : Machine} {e : Failure}
    (hrival : I.Rival J task k) (hfails : I.perform task k = .error e k') (hsettled : e.Settled)
    {realm : Realm} {α : Type} {x y : Run α} (h : Tandem (fun _ ↦ True) I J realm x y) :
    ∀ m, y m = x m ∨ ∃ n, x m = .error e n := by
  have hasked (other : Task) (m : Machine) :
      J.perform other m = I.perform other m ∨ ∃ n, I.perform other m = .error e n := by
    by_cases hsame : other = task ∧ m = k
    · obtain ⟨rfl, rfl⟩ := hsame
      exact .inr ⟨k', hfails⟩
    · exact .inl (hrival.perform other m hsame)
  induction h with
  | plain | calm | throw => exact fun m ↦ .inl rfl
  | @bind _ _ _ x y f g _ _ ihfirst ihrest =>
    intro m
    rcases ihfirst m with hsame | ⟨n, hx⟩
    · cases hx : x m with
      | ok b n =>
        rw [Run.bind_ok hx, Run.bind_ok (hsame.trans hx)]
        exact ihrest b n
      | error e' n =>
        rw [Run.bind_error hx, Run.bind_error (hsame.trans hx)]
        exact .inl rfl
    · exact .inr ⟨n, Run.bind_error hx⟩
  | traced site kind _ ih =>
    intro m
    rcases ih m with hsame | ⟨n, hx⟩
    · exact .inl (Run.tryCatch_congr hsame)
    · refine .inr ⟨n, ?_⟩
      rw [Run.traced_error site kind hx, hsettled.attach]
  | recorded site node _ ih =>
    intro m
    obtain ⟨depth, n, hrecord, -⟩ := Visit.record_apply site node m
    rw [Run.bind_ok hrecord, Run.bind_ok hrecord]
    rcases ih n with hsame | ⟨n', hx⟩
    · exact .inl (Visit.within_congr site depth hsame)
    · exact .inr (Visit.within_error site depth hx)
  | eval site mode node => exact hasked (.eval site mode node)
  | call site name preparation function args =>
    exact hasked (.call site name preparation function args)
  | @body site inner name node =>
    exact fun m ↦ hasked (.eval inner .required node) _

/-- Assumes: an interpreter all failures of which are settled. So are those of the code of the
language that runs over it. -/
theorem Interp.SettlesFailures.settled {I J : Interp} (hI : I.SettlesFailures) {realm : Realm}
    {α : Type} {x y : Run α} (h : Tandem (fun _ ↦ True) I J realm x y) :
    realm = .language → ∀ m e n, x m = .error e n → e.Settled := by
  induction h with
  | plain hplain =>
    intro _ m e n hx
    obtain ⟨a, k, hok, -⟩ := hplain m
    rw [hok] at hx
    cases hx
  | calm => exact nofun
  | throw hsettled =>
    intro _ m e n hx
    cases hx
    exact hsettled
  | @bind _ _ _ x y f g _ _ ihfirst ihrest =>
    intro hrealm m e n hx
    cases hfirst : x m with
    | ok b k =>
      rw [Run.bind_ok hfirst] at hx
      exact ihrest b hrealm k e n hx
    | error e' k =>
      rw [Run.bind_error hfirst] at hx
      cases hx
      exact ihfirst hrealm m e n hfirst
  | @traced _ _ x y site kind =>
    intro _ m e n hx
    cases hact : x m with
    | ok a k =>
      rw [Run.traced_ok site kind hact] at hx
      cases hx
    | error e' k =>
      rw [Run.traced_error site kind hact] at hx
      cases hx
      exact e'.settled_attach kind (n.formatTrace_ne_empty site.frame site.context)
  | @recorded x y site node _ ih =>
    intro hrealm m e n hx
    obtain ⟨depth, k, hrecord, -⟩ := Visit.record_apply site node m
    rw [Run.bind_ok hrecord] at hx
    cases hact : x k with
    | ok result k' =>
      obtain ⟨last, hwithin, -⟩ := Visit.within_ok site depth hact
      rw [hwithin] at hx
      cases hx
    | error e' k' =>
      obtain ⟨last, hwithin⟩ := Visit.within_error site depth hact
      rw [hwithin] at hx
      cases hx
      exact ih hrealm k e k' hact
  | eval site mode node => exact fun _ m e n hx ↦ hI (.eval site mode node) m e n hx
  | call site name preparation function args =>
    exact fun _ m e n hx ↦ hI (.call site name preparation function args) m e n hx
  | @body site inner name node =>
    exact fun _ m e n hx ↦ hI (.eval inner .required node) _ e n hx

/-- All failures of the interpreter are settled, whatever its fuel. -/
theorem interp_settlesFailures (n : Nat) : (interp n).SettlesFailures := by
  induction n with
  | zero =>
    intro task m e n hx
    cases task <;> cases hx <;> exact trivial
  | succ n ih =>
    intro task m e k hx
    rw [Interp.perform_succ] at hx
    exact ih.settled (.rule (J := interp n) rfl task) rfl m e k hx

/-! ### Tasks within tasks -/

namespace Interp

open Classical in
/-- What an interpreter makes of tasks, with another answer to one task on one machine. -/
noncomputable def answering (I : Interp) (task : Task) (k : Machine) (answer : Outcome task.Answer)
    (other : Task) : Run other.Answer := fun m ↦
  if h : task = other ∧ m = k then h.1 ▸ answer else I.perform other m

/-- The interpreter that gives another answer to one task on one machine is a rival. -/
theorem exists_rival (I : Interp) (task : Task) (k : Machine) (answer : Outcome task.Answer) :
    ∃ J, I.Rival J task k ∧ J.perform task k = answer := by
  let J : Interp :=
    { eval := fun site mode node ↦ I.answering task k answer (.eval site mode node)
      call := fun site name preparation function args ↦
        I.answering task k answer (.call site name preparation function args)
      fuel := I.fuel }
  have hperform (other : Task) : J.perform other = I.answering task k answer other := by
    cases other <;> rfl
  refine ⟨J, ⟨rfl, fun other m hother ↦ ?_⟩, ?_⟩
  · rw [hperform]
    exact dif_neg fun h ↦ hother ⟨h.1.symm, h.2⟩
  · rw [hperform]
    exact dif_pos ⟨rfl, rfl⟩

/-- Assumes: a rule whose outcome is made of what the interpreter answers to a task, and is not the
same for all answers. The rule comes to that task. -/
theorem asks_of_answer {I : Interp} {outer inner : Task} {m k : Machine}
    {f : Outcome inner.Answer → Outcome outer.Answer}
    (hmade : ∀ J, I.Rival J inner k → J.rule outer m = f (J.perform inner k))
    {a b : Outcome inner.Answer} (hmatters : f a ≠ f b) : I.Asks outer m inner k := by
  have hself : I.rule outer m = f (I.perform inner k) := hmade I ⟨rfl, fun _ _ _ ↦ rfl⟩
  have hdiffers (answer : Outcome inner.Answer) (h : f answer ≠ f (I.perform inner k)) :
      I.Asks outer m inner k := by
    obtain ⟨J, hrival, hanswer⟩ := I.exists_rival inner k answer
    refine ⟨J, hrival, ?_⟩
    rwa [hmade J hrival, hself, hanswer]
  by_cases ha : f a = f (I.perform inner k)
  · exact hdiffers b fun hb ↦ hmatters (ha.trans hb.symm)
  · exact hdiffers a ha

end Interp

/-- The interpreter comes to a task while it performs another one, directly or by way of others:
with fuel `n`, for `outer` started on `m`, it comes to `inner` on `k` when it has fuel `j`. -/
inductive Nested : Nat → Task → Machine → Nat → Task → Machine → Prop
  | direct {n : Nat} {outer inner : Task} {m k : Machine} (h : (interp n).Asks outer m inner k) :
    Nested (n + 1) outer m n inner k
  | deeper {n j : Nat} {outer middle inner : Task} {m l k : Machine}
    (h : (interp n).Asks outer m middle l) (hrest : Nested n middle l j inner k) :
    Nested (n + 1) outer m j inner k

/-- Assumes: a rule that comes to a task, which fails. The rule fails with the same. -/
theorem Interp.Asks.fails {n : Nat} {outer inner : Task} {m k k' : Machine} {e : Failure}
    (h : (TreeScript.interp n).Asks outer m inner k)
    (hfails : (TreeScript.interp n).perform inner k = .error e k') :
    ∃ m', (TreeScript.interp (n + 1)).perform outer m = .error e m' := by
  obtain ⟨J, hrival, hdiffers⟩ := h
  rw [perform_succ]
  have hsettled := interp_settlesFailures n inner k e k' hfails
  rcases hrival.parts hfails hsettled (.rule hrival.fuel outer) m with hsame | hfailed
  · exact absurd hsame hdiffers
  · exact hfailed

/-- The failure of an evaluation or a call is settled: an execution error with a stack trace, or the
end of the fuel. And whatever fails within an evaluation or a call, however deep and wherever it is
called back from, the whole fails with the same kind, message and stack trace. -/
theorem first_failure_is_reported (n : Nat) (task : Task) (m : Machine) :
    (∀ e n', (interp n).perform task m = .error e n' →
      e = .outOfFuel ∨ ∃ fault, e = .fault fault ∧ fault.trace ≠ "") ∧
    ∀ j inner k, Nested n task m j inner k → ∀ e k', (interp j).perform inner k = .error e k' →
      ∃ m', (interp n).perform task m = .error e m' := by
  constructor
  · intro e n' hfails
    have hsettled := interp_settlesFailures n task m e n' hfails
    cases e with
    | plain => exact hsettled.elim
    | fault fault => exact .inr ⟨fault, rfl, hsettled⟩
    | outOfFuel => exact .inl rfl
  · intro j inner k hnested e k' hfails
    induction hnested with
    | direct h => exact h.fails hfails
    | deeper h _ ih =>
      obtain ⟨l', hmiddle⟩ := ih hfails
      exact h.fails hmiddle

/-! ### A callback that fails -/

namespace FailingCallback

/-- A function that looks up a name that is not there. -/
def closure : Closure where
  params := ["c"]
  body := .identifier "absent"
  context := ⟨0⟩
  frame := { top := ⟨0⟩, outer := [], trace := ⟨0⟩ }

/-- A machine with the method `forEach` of a string, and that function. -/
def machine : Machine where
  cells := #[.method ⟨0⟩ (.common .forEach) ⟨1⟩, .string "a", .function ⟨1⟩ closure]
  scopes := #[{}]
  traces := #[{}]
  contexts := #[{ source := "main", globals := ⟨0⟩, trace := ⟨0⟩ }]

def site : Site := ⟨⟨0⟩, closure.frame⟩

def forEach : Task := .call site "forEach" .none ⟨0⟩ [⟨2⟩]

/-- The call of the function for the one character of the string, and the machine it is made on. -/
def callback : Task := .call site "forEach" .none ⟨2⟩ [⟨3⟩]

def calling : Machine :=
  { machine with
    cells := machine.cells ++ #[.string "a", .iterator ⟨0⟩, .empty]
    iterators := #[{ rest := [] }] }

/-- The body of the function, and the machine it is evaluated on. -/
def body : Task := .eval ⟨⟨0⟩, { top := ⟨1⟩, outer := [], trace := ⟨0⟩ }⟩ .required closure.body

def entered : Machine :=
  { calling with
    cells := calling.cells.push (.string "a")
    scopes := #[{}, Std.TreeMap.insert {} "c" ⟨6⟩]
    traces := #[{ pending := "forEach" }] }

def fault : Fault where
  kind := .unresolvedSymbol
  message := "Cannot resolve symbol 'absent' on [absent]"
  trace := "\tin [main.forEach] at absent\n\tLocal symbols:  c (string)\n\tGlobal symbols: "

end FailingCallback

open FailingCallback in
/-- The method comes to the body of the function it calls back, which fails. So the call of the
method fails with the same kind, message and stack trace. -/
theorem failing_callback_is_reported :
    Nested 3 forEach machine 1 body entered ∧
      (∃ k', (interp 1).perform body entered = .error (.fault fault) k') ∧
      ∃ m', (interp 3).perform forEach machine = .error (.fault fault) m' := by
  have hcallback : (interp 2).Asks forEach machine callback calling :=
    Interp.asks_of_answer (f := fun o ↦ site.traced .native ((fun _ ↦ o) >>= pure) calling)
      (fun J _ ↦ rfl) (a := .ok ⟨0⟩ calling) (b := .ok ⟨1⟩ calling) nofun
  have hbody : (interp 1).Asks callback calling body entered :=
    Interp.asks_of_answer
      (f := fun o ↦ ((fun _ ↦ o) >>= closeBody site "forEach" closure) entered)
      (fun J _ ↦ rfl) (a := .error .outOfFuel entered) (b := .error (.plain "") entered) nofun
  have hnested : Nested 3 forEach machine 1 body entered := .deeper hcallback (.direct hbody)
  have hfails : ∃ k', (interp 1).perform body entered = .error (.fault fault) k' := by
    have hfailure : Outcome.failure? ((interp 1).perform body entered) = some (.fault fault) := by
      decide +kernel
    exact ⟨_, Outcome.eq_error hfailure⟩
  obtain ⟨k', hfails⟩ := hfails
  exact ⟨hnested, ⟨k', hfails⟩,
    (first_failure_is_reported 3 forEach machine).2 1 body entered hnested _ k' hfails⟩

end TreeScript
