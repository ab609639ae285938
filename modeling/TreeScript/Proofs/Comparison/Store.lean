import TreeScript.Proofs.Comparison.Basic
import TreeScript.Proofs.Evolution
import TreeScript.Host.Instance

/-!
# Computations confined to the store

The store is made of the cells, the tables of objects, the iterators, the instances of host types
and the stamps. `Confined R x y` says that `x` and `y`, run on machines that are alike, both fail
with the same failure or both give results related by `R`, leave machines that are alike again,
touch nothing outside of the store, and change cells and tables one change at a time
(`Machine.Evolved`). The primitive operations on the store are confined; that is all the comparisons
of runs in the other modules know about them. A computation is steady if it is
confined together with itself; the lemmas on `Steady` follow the way computations are put together.
-/

set_option autoImplicit false

namespace TreeScript

namespace Machine

/-- The sources are the same on two machines, and so are the lists of those that are loaded, that
are being evaluated and that belong to a host. -/
def SameSources (m n : Machine) : Prop :=
  { n with
    contexts := m.contexts, loaded := m.loaded, evaluating := m.evaluating,
    hostModules := m.hostModules } = n

namespace SameSources

variable {m n k : Machine}

theorem refl (m : Machine) : m.SameSources m := rfl

theorem contexts (h : m.SameSources n) : n.contexts = m.contexts := by rw [← h]

theorem loaded (h : m.SameSources n) : n.loaded = m.loaded := by rw [← h]

theorem evaluating (h : m.SameSources n) : n.evaluating = m.evaluating := by rw [← h]

theorem hostModules (h : m.SameSources n) : n.hostModules = m.hostModules := by rw [← h]

theorem trans (hmn : m.SameSources n) (hnk : n.SameSources k) : m.SameSources k := by
  unfold SameSources
  rw [← hmn.contexts, ← hmn.loaded, ← hmn.evaluating, ← hmn.hostModules]
  exact hnk

theorem context (h : m.SameSources n) (ref : ContextRef) : n.context ref = m.context ref :=
  Machine.context_congr h.contexts ref

end SameSources

/-- Nothing outside of the store differs. -/
def SameOutside (m n : Machine) : Prop :=
  { m with
    cells := n.cells, tables := n.tables, iterators := n.iterators, instances := n.instances,
    stamps := n.stamps } = n

namespace SameOutside

variable {m n k : Machine}

theorem refl (m : Machine) : m.SameOutside m := rfl

theorem trans (hmn : m.SameOutside n) (hnk : n.SameOutside k) : m.SameOutside k := by
  unfold SameOutside at *
  rw [← hnk, ← hmn]

theorem scopes (h : m.SameOutside n) : n.scopes = m.scopes := by rw [← h]

theorem contexts (h : m.SameOutside n) : n.contexts = m.contexts := by rw [← h]

theorem sources (h : m.SameOutside n) : m.SameSources n := by
  rw [← h]
  rfl

theorem options (h : m.SameOutside n) : n.options = m.options := by rw [← h]

theorem output (h : m.SameOutside n) : n.output = m.output := by rw [← h]

end SameOutside

end Machine

/-- Comparing machines that are alike and differ from two given ones in the store only. -/
def store (start start' : Machine) : Relations where
  Like m m' := m.Alike m' ∧ start.SameOutside m ∧ start'.SameOutside m'
  Fails := Eq
  Later := Machine.Evolved
  alike h := h.1
  fails_refl _ := rfl
  later_refl := .refl
  later_trans := .trans

/-- Two computations that work on the store alone, in the same way. -/
def Confined {α β : Type} (R : α → β → Prop) (x : Run α) (y : Run β) : Prop :=
  ∀ start start' : Machine, (store start start').Runs start (fun _ ↦ R) x y

/-- A computation that works on the store alone, and in the same way on machines that are alike. -/
def Steady {α : Type} (x : Run α) : Prop := Confined Eq x x

namespace Confined

variable {α β γ δ : Type} {R : α → β → Prop} {Q : γ → δ → Prop}

theorem pure {a : α} {b : β} (h : R a b) : Confined R (Pure.pure a) (Pure.pure b) :=
  fun _ _ ↦ Relations.Runs.pure fun _ _ ↦ h

theorem bind {u : Run γ} {v : Run δ} {f : γ → Run α} {g : δ → Run β} (hfirst : Confined Q u v)
    (hrest : ∀ c d, Q c d → Confined R (f c) (g d)) : Confined R (u >>= f) (v >>= g) :=
  fun start start' ↦ Relations.Runs.bind (hfirst start start') fun _ c d hlater hvalue ↦
    (hrest c d hvalue start start').mono hlater

theorem get_bind {f : Machine → Run α} {g : Machine → Run β}
    (h : ∀ n n', n.Alike n' → Confined R (f n) (g n')) : Confined R (get >>= f) (get >>= g) :=
  fun start start' ↦ Relations.Runs.get_bind fun n n' halike ↦ h n n' halike start start'

/-- A step that keeps machines alike and works on the store alone is confined. -/
theorem of_modifyGet {f : Machine → α × Machine} {g : Machine → β × Machine}
    (hvalue : ∀ m m' : Machine, m.Alike m' → R (f m).1 (g m').1)
    (halike : ∀ m m' : Machine, m.Alike m' → (f m).2.Alike (g m').2)
    (hleft : ∀ m : Machine, m.SameOutside (f m).2) (hright : ∀ m : Machine, m.SameOutside (g m).2)
    (hevolved : ∀ m : Machine, m.Evolved (f m).2) : Confined R (modifyGet f) (modifyGet g) :=
  fun _ _ n n' _ hlike ↦
    .ok (hevolved n) ⟨halike n n' hlike.1, hlike.2.1.trans (hleft n), hlike.2.2.trans (hright n')⟩
      (hvalue n n' hlike.1)

/-- A change of the store that keeps machines alike is confined. -/
theorem of_modify {f g : Machine → Machine}
    (halike : ∀ m m' : Machine, m.Alike m' → (f m).Alike (g m'))
    (hleft : ∀ m : Machine, m.SameOutside (f m)) (hright : ∀ m : Machine, m.SameOutside (g m))
    (hevolved : ∀ m : Machine, m.Evolved (f m)) : Confined Eq (modify f) (modify g) :=
  fun _ _ n n' _ hlike ↦
    .ok (hevolved n)
      ⟨halike n n' hlike.1, hlike.2.1.trans (hleft n), hlike.2.2.trans (hright n')⟩ rfl

/-! ### Cells -/

theorem content (cell : CellRef) :
    Confined Content.Alike (TreeScript.content cell) (TreeScript.content cell) :=
  get_bind fun _ _ halike ↦ pure (halike.content cell)

theorem alloc {c c' : Content} (hcontent : c.Alike c') :
    Confined Eq (TreeScript.alloc c) (TreeScript.alloc c') := by
  refine of_modifyGet (fun m m' h ↦ ?_) (fun m m' h ↦ ?_) (fun m ↦ rfl) (fun m ↦ rfl)
    fun m ↦ ⟨[], .cell m c⟩
  · simp only [h.size]
  · refine { h with size := ?_, content := fun cell ↦ ?_ }
    · simp only [Array.size_push, h.size]
    · change ((m.withCell c).content cell).Alike ((m'.withCell c').content cell)
      rw [Machine.content_withCell, Machine.content_withCell, h.size]
      split
      · exact hcontent
      · exact h.content cell

theorem write (target : CellRef) {c c' : Content} (hcontent : c.Alike c') :
    Confined Eq (TreeScript.write target c) (TreeScript.write target c') := by
  refine of_modify (fun m m' h ↦ ?_) (fun m ↦ rfl) (fun m ↦ rfl)
    fun m ↦ .change m (.overwrite target c)
  refine { h with size := ?_, content := fun cell ↦ ?_ }
  · simp only [Array.size_setIfInBounds, h.size]
  · rw [Machine.content_write, Machine.content_write, h.size]
    split
    · exact hcontent
    · exact h.content cell

end Confined

namespace Steady

variable {α β σ : Type}

/-- A steady computation changes nothing outside of the store. -/
theorem sameOutside {x : Run α} (h : Steady x) (m : Machine) :
    m.SameOutside (Outcome.final (x m)) := by
  have hends := h m m m m (.refl m) ⟨.refl m, .refl m, .refl m⟩
  revert hends
  generalize x m = o
  intro hends
  cases hends with
  | ok _ hlike => exact hlike.2.1
  | error _ hlike => exact hlike.2.1

theorem pure (a : α) : Steady (Pure.pure a) := Confined.pure rfl

theorem throw (e : Failure) : Steady (throw e : Run α) := fun _ _ ↦ Relations.Runs.throw e

theorem fail (message : String) : Steady (Run.fail message : Run α) := throw (.plain message)

theorem bind {x : Run α} {f : α → Run β} (hfirst : Steady x) (hrest : ∀ a, Steady (f a)) :
    Steady (x >>= f) :=
  Confined.bind hfirst fun a _ hvalue ↦ hvalue ▸ hrest a

/-- A computation that reads of the machine only what machines that are alike agree on is steady if
what it does then is. -/
theorem get_bind {f : Machine → Run α} (hagree : ∀ n n' : Machine, n.Alike n' → f n' = f n)
    (h : ∀ n, Steady (f n)) : Steady (get >>= f) :=
  Confined.get_bind fun n n' halike ↦ hagree n n' halike ▸ h n

/-- A computation that does not look at the frame of a closure is steady if what it does then is. -/
theorem content_bind {cell : CellRef} {f : Content → Run α}
    (hblind : ∀ stamp (closure : Closure) trace,
      f (.function stamp (closure.retraced trace)) = f (.function stamp closure))
    (h : ∀ c, Steady (f c)) : Steady (content cell >>= f) := by
  refine Confined.bind (Confined.content cell) fun c c' halike ↦ ?_
  cases halike with
  | same => exact h c
  | closure stamp closure trace => exact hblind stamp closure trace ▸ h (.function stamp closure)

theorem map {x : Run α} (f : α → β) (h : Steady x) : Steady (f <$> x) :=
  fun start start' ↦ Relations.Same.map f (h start start')

theorem ite {p : Prop} [Decidable p] {x y : Run α} (hx : p → Steady x) (hy : ¬p → Steady y) :
    Steady (if p then x else y) := by
  split
  · exact hx ‹p›
  · exact hy ‹¬p›

/-- A step that is taken under a condition and followed by the rest. -/
theorem check {p : Prop} [Decidable p] {x : Run Unit} {f : Unit → Run α} (hx : Steady x)
    (hf : Steady (f ())) : Steady (if p then x >>= f else f ()) :=
  ite (fun _ ↦ hx.bind fun _ ↦ hf) fun _ ↦ hf

/-! ### Lists -/

theorem mapM {f : α → Run β} (xs : List α) (h : ∀ a, Steady (f a)) : Steady (xs.mapM f) :=
  fun start start' ↦ Relations.Same.mapM xs fun a ↦ h a start start'

theorem forIn {f : α → σ → Run (ForInStep σ)} (xs : List α) (s : σ)
    (h : ∀ a s, Steady (f a s)) : Steady (forIn xs s f) :=
  fun start start' ↦ Relations.Same.forIn xs (fun a s ↦ h a s start start') s

theorem forInArray {f : α → σ → Run (ForInStep σ)} (xs : Array α) (s : σ)
    (h : ∀ a s, Steady (f a s)) : Steady (ForIn.forIn xs s f) := by
  rw [← Array.forIn_toList]
  exact forIn xs.toList s h

theorem foldlM {f : σ → α → Run σ} (xs : List α) (s : σ) (h : ∀ s a, Steady (f s a)) :
    Steady (xs.foldlM f s) :=
  fun start start' ↦ Relations.Same.foldlM xs (fun s a ↦ h s a start start') s

/-! ### The operations on the store -/

theorem ofNumber (result : Except NumberError α) : Steady (Run.ofNumber result) := by
  cases result with
  | ok a => exact pure a
  | error e => exact fail e.message

theorem alloc (c : Content) : Steady (alloc c) := Confined.alloc (.same c)

theorem write (target : CellRef) (c : Content) : Steady (write target c) :=
  Confined.write target (.same c)

theorem newEmpty : Steady newEmpty := alloc .empty

theorem newNumber (d : Decimal) : Steady (newNumber d) := alloc (.number d)

theorem newString (s : String) : Steady (newString s) := alloc (.string s)

theorem newBoolean (b : Bool) : Steady (newBoolean b) := alloc (.boolean b)

theorem newObject (ref : TableRef) : Steady (newObject ref) := alloc (.object ref)

theorem copy (cell : CellRef) : Steady (copy cell) :=
  Confined.bind (Confined.content cell) fun _ _ ↦ Confined.alloc

theorem inherit (cell source : CellRef) : Steady (inherit cell source) :=
  Confined.bind (Confined.content source) fun _ _ ↦ Confined.write cell

theorem newStamp : Steady newStamp := by
  refine Confined.of_modifyGet (fun m m' h ↦ ?_) (fun m m' h ↦ ?_) (fun m ↦ rfl) (fun m ↦ rfl)
    fun m ↦ .elsewhere rfl rfl
  · simp only [h.stamps]
  · exact { h with stamps := by simp only [h.stamps] }

theorem newTable : Steady newTable := by
  refine Confined.of_modifyGet (fun m m' h ↦ ?_) (fun m m' h ↦ ?_) (fun m ↦ rfl) (fun m ↦ rfl)
    fun m ↦ ⟨[], .table m⟩
  · simp only [h.tables]
  · exact { h with tables := by simp only [h.tables] }

theorem setEntry (ref : TableRef) (key value : CellRef) : Steady (setEntry ref key value) :=
  Confined.of_modify (fun m m' h ↦ { h with tables := by simp only [h.tables, h.keyId] })
    (fun m ↦ rfl) (fun m ↦ rfl) fun m ↦ .change m (.enter ref key value)

theorem eraseEntry (ref : TableRef) (key : CellRef) : Steady (eraseEntry ref key) := by
  rw [Steady, eraseEntry_eq]
  refine Confined.of_modifyGet (fun m m' h ↦ ?_) (fun m m' h ↦ ?_) (fun m ↦ rfl) (fun m ↦ rfl)
    fun m ↦ .change m (.remove ref key)
  · simp only [h.table, h.keyId]
  · exact { h with tables := by simp only [Machine.after, h.tables, h.keyId] }

theorem pushIterator (items : List CellRef) :
    Steady (modifyGet fun m : Machine ↦
      ((⟨m.iterators.size⟩ : IteratorRef), { m with iterators := m.iterators.push { rest := items } }) :
      Run IteratorRef) := by
  refine Confined.of_modifyGet (fun m m' h ↦ ?_) (fun m m' h ↦ ?_) (fun m ↦ rfl) (fun m ↦ rfl)
    fun m ↦ .elsewhere rfl rfl
  · simp only [h.iterators]
  · exact { h with iterators := by simp only [h.iterators] }

theorem setIterator (ref : IteratorRef) (it : Iterator) : Steady (setIterator ref it) :=
  Confined.of_modify (fun m m' h ↦ { h with iterators := by simp only [h.iterators] }) (fun m ↦ rfl)
    (fun m ↦ rfl) fun m ↦ .elsewhere rfl rfl

theorem pushInstance (value : Instance) :
    Steady (modifyGet fun m : Machine ↦
      ((⟨m.instances.size⟩ : InstanceRef), { m with instances := m.instances.push value }) :
      Run InstanceRef) := by
  refine Confined.of_modifyGet (fun m m' h ↦ ?_) (fun m m' h ↦ ?_) (fun m ↦ rfl) (fun m ↦ rfl)
    fun m ↦ .elsewhere rfl rfl
  · simp only [h.instances]
  · exact { h with instances := by simp only [h.instances] }

theorem setInstance (ref : InstanceRef) (value : Instance) :
    Steady (modify fun m : Machine ↦
      { m with instances := m.instances.setIfInBounds ref.index value } : Run Unit) :=
  Confined.of_modify (fun m m' h ↦ { h with instances := by simp only [h.instances] }) (fun m ↦ rfl)
    (fun m ↦ rfl) fun m ↦ .elsewhere rfl rfl

end Steady

end TreeScript
