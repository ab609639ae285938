import TreeScript.Proofs.Alike
import TreeScript.Proofs.Run

/-!
# Comparing two runs

A comparison follows two computations step by step. It says which machines are compared (`Like`),
which failures count as the same (`Fails`), and which machines a machine can become (`Later`). `Runs
m R x y` says that `x` and `y`, started on compared machines of which the left one is later than
`m`, both give values related by `R` or both fail in the same way, and leave compared machines that
are later still. Since `Runs` looks at all later machines, what is known of a computation stays
known while others run (`Runs.mono`), and a sequence whose parts pass equal values on needs no
account of the machines in between (`Same.bind`). The other lemmas of this module are the rules for
the constructs that computations are written with: reading the machine, the contents of cells, and
the loops over lists.
-/

set_option autoImplicit false

namespace TreeScript

/-- Which machines are compared, which failures count as the same, and what a machine can become. -/
structure Relations where
  Like : Machine → Machine → Prop
  Fails : Failure → Failure → Prop
  Later : Machine → Machine → Prop
  alike : ∀ {m m' : Machine}, Like m m' → m.Alike m'
  fails_refl : ∀ e : Failure, Fails e e
  later_refl : ∀ m : Machine, Later m m
  later_trans : ∀ {m n k : Machine}, Later m n → Later n k → Later m k

namespace Relations

variable {K : Relations} {α β γ δ σ : Type}

/-- Two ends of computations on compared machines, the left one of which started on `m`. -/
inductive Ends (K : Relations) (R : Machine → α → β → Prop) (m : Machine) :
    Outcome α → Outcome β → Prop
  | ok {a : α} {b : β} {n n' : Machine} (hlater : K.Later m n) (hlike : K.Like n n')
      (hvalue : R n a b) : Ends K R m (.ok a n) (.ok b n')
  | error {e e' : Failure} {n n' : Machine} (hlater : K.Later m n) (hlike : K.Like n n')
      (hfails : K.Fails e e') : Ends K R m (.error e n) (.error e' n')

/-- Two computations run alike on all compared machines that are later than `m`, and give values
related by `R`. -/
def Runs (K : Relations) (m : Machine) (R : Machine → α → β → Prop) (x : Run α) (y : Run β) :
    Prop :=
  ∀ n n' : Machine, K.Later m n → K.Like n n' → K.Ends R n (x n) (y n')

/-- Two computations run alike and give the same value. -/
def Same (K : Relations) (m : Machine) (x y : Run α) : Prop := K.Runs m (fun _ ↦ Eq) x y

variable {m n : Machine} {R : Machine → α → β → Prop} {Q : Machine → γ → δ → Prop}
  {x : Run α} {y : Run β}

/-- What started later ended later. -/
theorem Ends.mono {o : Outcome α} {o' : Outcome β} (h : K.Ends R n o o') (hlater : K.Later m n) :
    K.Ends R m o o' := by
  cases h with
  | ok hlater' hlike hvalue => exact .ok (K.later_trans hlater hlater') hlike hvalue
  | error hlater' hlike hfails => exact .error (K.later_trans hlater hlater') hlike hfails

/-- However a computation ended, it left a later machine. -/
theorem Ends.later {o : Outcome α} {o' : Outcome β} (h : K.Ends R m o o') :
    K.Later m (Outcome.final o) := by
  cases h with
  | ok hlater => exact hlater
  | error hlater => exact hlater

/-- Reading the machine gives the machine a computation starts on. -/
theorem Ends.get_bind {n' : Machine} {f : Machine → Run α} {g : Machine → Run β}
    (h : K.Ends R n (f n n) (g n' n')) : K.Ends R n ((get >>= f) n) ((get >>= g) n') :=
  h

namespace Runs

/-- Computations that run alike do so on later machines, too. -/
theorem mono (h : K.Runs m R x y) (hlater : K.Later m n) : K.Runs n R x y :=
  fun k k' hk hlike ↦ h k k' (K.later_trans hlater hk) hlike

theorem pure {a : α} {b : β} (h : ∀ n, K.Later m n → R n a b) :
    K.Runs m R (Pure.pure a) (Pure.pure b) :=
  fun n _ hlater hlike ↦ .ok (K.later_refl n) hlike (h n hlater)

theorem throw_of_fails {e e' : Failure} (h : K.Fails e e') :
    K.Runs m R (MonadExcept.throw e) (MonadExcept.throw e') :=
  fun n _ _ hlike ↦ .error (K.later_refl n) hlike h

theorem throw (e : Failure) : K.Runs m R (throw e) (throw e) := throw_of_fails (K.fails_refl e)

/-- Two sequences run alike if their first parts do, and their second parts do with the values the
first ones gave. -/
theorem bind {u : Run γ} {v : Run δ} {f : γ → Run α} {g : δ → Run β} (hfirst : K.Runs m Q u v)
    (hrest : ∀ n c d, K.Later m n → Q n c d → K.Runs n R (f c) (g d)) :
    K.Runs m R (u >>= f) (v >>= g) := by
  intro n n' hlater hlike
  have hends := hfirst n n' hlater hlike
  cases hu : u n with
  | ok c k =>
    cases hv : v n' with
    | ok d k' =>
      rw [hu, hv] at hends
      rw [Run.bind_ok hu, Run.bind_ok hv]
      cases hends with
      | ok hk hlike' hvalue =>
        have hrun := hrest k c d (K.later_trans hlater hk) hvalue k k' (K.later_refl k) hlike'
        exact hrun.mono hk
    | error e k' =>
      rw [hu, hv] at hends
      cases hends
  | error e k =>
    cases hv : v n' with
    | ok d k' =>
      rw [hu, hv] at hends
      cases hends
    | error e' k' =>
      rw [hu, hv] at hends
      rw [Run.bind_error hu, Run.bind_error hv]
      cases hends with
      | error hk hlike' hfails => exact .error hk hlike' hfails

/-- Two guarded computations run alike if they do without their handlers, and the handlers do with
failures that count as the same. -/
theorem tryCatch {x : Run α} {y : Run β} {handler : Failure → Run α} {handler' : Failure → Run β}
    (h : K.Runs m R x y)
    (hcaught : ∀ n e e', K.Later m n → K.Fails e e' → K.Runs n R (handler e) (handler' e')) :
    K.Runs m R (tryCatch x handler) (tryCatch y handler') := by
  intro n n' hlater hlike
  have hends := h n n' hlater hlike
  cases hx : x n with
  | ok a k =>
    cases hy : y n' with
    | ok b k' =>
      rw [hx, hy] at hends
      rw [Run.tryCatch_ok hx, Run.tryCatch_ok hy]
      exact hends
    | error e' k' =>
      rw [hx, hy] at hends
      cases hends
  | error e k =>
    cases hy : y n' with
    | ok b k' =>
      rw [hx, hy] at hends
      cases hends
    | error e' k' =>
      rw [hx, hy] at hends
      rw [Run.tryCatch_error hx, Run.tryCatch_error hy]
      cases hends with
      | error hk hlike' hfails =>
        have hrun := hcaught k e e' (K.later_trans hlater hk) hfails k k' (K.later_refl k) hlike'
        exact hrun.mono hk

/-- How two computations that run alike end when they start now. -/
theorem now {n' : Machine} (h : K.Runs n R x y) (hlike : K.Like n n') : K.Ends R n (x n) (y n') :=
  h n n' (K.later_refl n) hlike

/-- Reading the machine gives both computations the machine they start on. -/
theorem get_bind_at {f : Machine → Run α} {g : Machine → Run β}
    (h : ∀ n n', K.Later m n → K.Like n n' → K.Ends R n (f n n) (g n' n')) :
    K.Runs m R (get >>= f) (get >>= g) :=
  fun n n' hlater hlike ↦ h n n' hlater hlike

/-- Reading the machine gives both computations a machine that is not later than what follows. -/
theorem get_bind_now {f : Machine → Run α} {g : Machine → Run β}
    (h : ∀ n n', K.Later m n → K.Like n n' → K.Runs n R (f n) (g n')) :
    K.Runs m R (get >>= f) (get >>= g) :=
  get_bind_at fun n n' hlater hlike ↦ (h n n' hlater hlike).now hlike

/-- Reading the machine gives machines that are alike. -/
theorem get_bind {f : Machine → Run α} {g : Machine → Run β}
    (h : ∀ n n', n.Alike n' → K.Runs m R (f n) (g n')) : K.Runs m R (get >>= f) (get >>= g) :=
  get_bind_now fun n n' hlater hlike ↦ (h n n' (K.alike hlike)).mono hlater

/-- Reading a cell gives contents that are alike. -/
theorem content_bind {cell : CellRef} {f : Content → Run α} {g : Content → Run β}
    (h : ∀ c c', c.Alike c' → K.Runs m R (f c) (g c')) :
    K.Runs m R (content cell >>= f) (content cell >>= g) :=
  fun n n' hlater hlike ↦ h _ _ ((K.alike hlike).content cell) n n' hlater hlike

end Runs

namespace Same

variable {x y : Run γ}

theorem refl_pure (a : α) : K.Same m (Pure.pure a) (Pure.pure a) := Runs.pure fun _ _ ↦ rfl

/-- Two sequences run alike if their first parts do and give the same value, and their second parts
do with every such value. -/
theorem bind {f : γ → Run α} {g : γ → Run β} (hfirst : K.Same m x y)
    (hrest : ∀ c, K.Runs m R (f c) (g c)) : K.Runs m R (x >>= f) (y >>= g) := by
  refine Runs.bind hfirst fun n c d hlater hvalue ↦ ?_
  rw [← hvalue]
  exact (hrest c).mono hlater

/-- A step that is taken under a condition and followed by the rest. -/
theorem check {p : Prop} [Decidable p] {u v : Run Unit} {f : Unit → Run α} {g : Unit → Run β}
    (hfirst : K.Same m u v) (hrest : K.Runs m R (f ()) (g ())) :
    K.Runs m R (if p then u >>= f else f ()) (if p then v >>= g else g ()) := by
  split
  · exact hfirst.bind fun _ ↦ hrest
  · exact hrest

/-- Applying a function to the values keeps them the same. -/
theorem map (f : γ → α) (h : K.Same m x y) : K.Same m (f <$> x) (f <$> y) := by
  rw [map_eq_pure_bind, map_eq_pure_bind]
  exact h.bind fun c ↦ refl_pure (f c)

/-! ### Lists -/

theorem mapM {f g : γ → Run δ} (xs : List γ) (h : ∀ c, K.Same m (f c) (g c)) :
    K.Same m (xs.mapM f) (xs.mapM g) := by
  induction xs with
  | nil => exact refl_pure []
  | cons c cs ih =>
    rw [List.mapM_cons, List.mapM_cons]
    exact (h c).bind fun d ↦ ih.bind fun ds ↦ refl_pure (d :: ds)

theorem forIn {f g : γ → σ → Run (ForInStep σ)} (xs : List γ)
    (h : ∀ c s, K.Same m (f c s) (g c s)) :
    ∀ s : σ, K.Same m (forIn xs s f) (forIn xs s g) := by
  induction xs with
  | nil => exact fun s ↦ refl_pure s
  | cons c cs ih =>
    intro s
    rw [List.forIn_cons, List.forIn_cons]
    refine (h c s).bind fun step ↦ ?_
    cases step with
    | done s => exact refl_pure s
    | yield s => exact ih s

theorem foldlM {f g : σ → γ → Run σ} (xs : List γ) (h : ∀ s c, K.Same m (f s c) (g s c)) :
    ∀ s : σ, K.Same m (xs.foldlM f s) (xs.foldlM g s) := by
  induction xs with
  | nil => exact fun s ↦ refl_pure s
  | cons c cs ih =>
    intro s
    rw [List.foldlM_cons, List.foldlM_cons]
    exact (h s c).bind fun t ↦ ih t

end Same

end Relations

end TreeScript
