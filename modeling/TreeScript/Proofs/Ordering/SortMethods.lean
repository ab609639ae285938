import TreeScript.Proofs.Comparison.Methods
import TreeScript.Proofs.Iteration.Methods
import TreeScript.Proofs.Objects.Concatenation
import TreeScript.Proofs.Ordering.StableSorting

/-!
# The methods that sort

The methods `sort` and `sortKey` arrange the entries of an object by an order on their values or keys,
and make a new array of the values or a new object of the entries (`sortEntries_apply`,
`rebuild_apply`). The methods `max` and `min` keep the best value so far, so they give the first best
one (`extreme_apply`). For all of them it is enough that the order answers the comparisons by a test
that ranks what it is asked about.
-/

set_option autoImplicit false

namespace TreeScript

open Sorting

theorem Achieves.foldlM_best {α : Type} {I : Machine → Prop} {P : α → Prop} {better : α → α → Bool}
    {done rest : List α} {best : α} (step : α → α → Run α) (hranks : Ranks P better)
    (hstep : ∀ best value, P best → P value →
      Achieves I (· = if better value best then value else best) (step best value))
    (hmem : ∀ a ∈ done ++ rest, P a) (hbest : IsFirstBest better done best) :
    Achieves I (IsFirstBest better (done ++ rest)) (rest.foldlM step best) := by
  induction rest generalizing done best with
  | nil => exact .pure (by rwa [List.append_nil])
  | cons value rest ih =>
    have hdone : ∀ a ∈ done, P a := fun a ha ↦ hmem a (List.mem_append_left _ ha)
    have hvalue : P value := hmem value (by simp)
    rw [List.foldlM_cons]
    refine (hstep best value (hdone best hbest.mem) hvalue).bind fun next hnext ↦ ?_
    subst hnext
    have hmoved : done ++ value :: rest = done ++ [value] ++ rest := by simp
    rw [hmoved] at hmem ⊢
    exact ih hmem (hbest.next hranks hdone hvalue)

namespace ObjectMethod

variable {call : Call} {m n : Machine} {ref : TableRef} {args : List CellRef}
  {order : CellRef → CellRef → Run Int} {I : Machine → Prop} {P : CellRef → Prop}
  {before : CellRef → CellRef → Bool}

/-! ### Sorting -/

/-- The test that entries are sorted by. -/
def goesFirst (order : CellRef → CellRef → Run Int) (ref : TableRef) (byKey : Bool) (a b : Entry) :
    Run Bool := do
  let keyed ← if byKey then do pure !(← isArray ref) else pure false
  let c ← if keyed then order a.key b.key else order a.value b.value
  return c < 0

/-- What is compared of an entry. -/
def sortedPart (keyed : Bool) (entry : Entry) : CellRef := if keyed then entry.key else entry.value

/-- Assumes: an order that ranks what is compared. Arrays are always sorted by their values. -/
theorem goesFirst_achieves {byKey keyed : Bool}
    (hkeyed : ∀ k, I k → (byKey && !k.isArray ref) = keyed)
    (horder : ∀ a b, P a → P b → Achieves I (fun c ↦ decide (c < 0) = before a b) (order a b))
    (a b : Entry) (ha : P (sortedPart keyed a)) (hb : P (sortedPart keyed b)) :
    Achieves I (· = before (sortedPart keyed a) (sortedPart keyed b))
      (goesFirst order ref byKey a b) := by
  have hcompared : Achieves I (· = before (sortedPart keyed a) (sortedPart keyed b)) (do
      let c ← if keyed then order a.key b.key else order a.value b.value
      return decide (c < 0)) := by
    cases keyed with
    | false => exact (horder a.value b.value ha hb).bind fun c hc ↦ .pure hc
    | true => exact (horder a.key b.key ha hb).bind fun c hc ↦ .pure hc
  unfold goesFirst
  cases byKey with
  | false =>
    intro k hk
    obtain rfl : false = keyed := hkeyed k hk
    exact hcompared k hk
  | true =>
    refine .get_bind fun k hk ↦ ?_
    rw [← hkeyed k hk] at hcompared ⊢
    exact hcompared

/-- Assumes: an order that ranks what is compared of the entries. The entries are sorted stably, and
then an array or an object is made of them. -/
theorem sortEntries_apply (ref : TableRef) (byKey keyed : Bool)
    (hcomparator : comparator call args m = .ok order m) (hm : I m)
    (hkeyed : ∀ k, I k → (byKey && !k.isArray ref) = keyed) (hranks : Ranks P before)
    (horder : ∀ a b, P a → P b → Achieves I (fun c ↦ decide (c < 0) = before a b) (order a b))
    (hentries : ∀ entry ∈ (m.table ref).entries, P (sortedPart keyed entry)) :
    ∃ sorted k, I k ∧
      StablySorted (fun entry ↦ P (sortedPart keyed entry))
        (fun a b ↦ before (sortedPart keyed a) (sortedPart keyed b))
        (m.table ref).entries sorted ∧
      sortEntries call ref args byKey m = rebuild (k.isArray ref) sorted k := by
  have hparts : Ranks (fun entry ↦ P (sortedPart keyed entry))
      fun a b ↦ before (sortedPart keyed a) (sortedPart keyed b) :=
    ⟨hranks.asymm, hranks.trans⟩
  have hmem : ∀ entry ∈ (m.table ref).entries.toArray, P (sortedPart keyed entry) :=
    fun entry hentry ↦ hentries entry (by simpa using hentry)
  obtain ⟨sorted, k, hsort, hk, hsorted⟩ :=
    sort_achieves hparts (goesFirst_achieves hkeyed horder) hmem m hm
  have hread : tableOf ref m = .ok (m.table ref) m := rfl
  refine ⟨sorted.toList, k, hk, hsorted, ?_⟩
  unfold sortEntries
  rw [Run.bind_ok hcomparator]
  dsimp only
  rw [Run.bind_ok hread]
  exact Run.bind_ok hsort

/-- An object that is made of entries with different keys has these entries; an array has their
values. -/
theorem rebuild_apply (isArray : Bool) (entries : List Entry)
    (hkeys : isArray = false → (∀ entry ∈ entries, entry.key.index < m.cells.size) ∧
      (entries.map fun entry ↦ m.keyId entry.key).Nodup) :
    ∃ out n new, rebuild isArray entries m = .ok out n ∧ n.content out = .object new ∧
      m.BuiltFrom new n ∧
      if isArray then n.HasItems new (entries.map (·.value)) else (n.table new).entries = entries := by
  cases isArray with
  | true =>
    obtain ⟨n, hmade, hgrown, horderly, hplaces, hvalues, -⟩ :=
      Machine.newArray_entries (entries.map (·.value)) m
    have hitems : n.HasItems ⟨m.tables.size⟩ (entries.map (·.value)) := ⟨horderly, hplaces, hvalues⟩
    have hlast := n.grown_withCell (.object ⟨m.tables.size⟩)
    exact ⟨_, _, ⟨m.tables.size⟩, hmade, n.content_new _,
      ⟨hgrown.trans hlast, Nat.le_refl _, horderly.withCell _⟩, hitems.kept (hlast.keepsFrom 0)⟩
  | false =>
    obtain ⟨hbound, hdistinct⟩ := hkeys rfl
    have hempty : (m.withTable.table ⟨m.tables.size⟩).entries = [] := by
      rw [Machine.table_new]
      rfl
    have hcreated : newTable m = .ok ⟨m.tables.size⟩ m.withTable := rfl
    obtain ⟨k, hloop, horderly, hentries, -, -, -⟩ := setEntries_apply m.orderly_newTable
      hbound (by rwa [hempty, List.nil_append])
    rw [hempty, List.nil_append] at hentries
    have hspares : Spares m.Grown (forIn entries PUnit.unit fun entry _ ↦ do
        setEntry ⟨m.tables.size⟩ entry.key entry.value
        return .yield PUnit.unit : Run PUnit) :=
      Spares.forIn (fun entry _ _ n hn ↦ .ok (hn.enter (Nat.le_refl _) _ _) trivial) _
    have hgrown : m.Grown k := (Maintains.of_ok hspares m.grown_withTable hloop).1
    refine ⟨⟨k.cells.size⟩, k.withCell (.object ⟨m.tables.size⟩), ⟨m.tables.size⟩, ?_,
      k.content_new _, ⟨hgrown.trans (k.grown_withCell _), Nat.le_refl _, horderly.withCell _⟩,
      hentries⟩
    change objectOf entries m = _
    unfold objectOf
    rw [Run.bind_ok hcreated, Run.bind_ok hloop]
    rfl

/-! ### The best value -/

/-- Assumes: an order by which, in the direction of a sign, some values are better than others. Of the
values that there are, the first best one is found. -/
theorem extreme_apply {values : List CellRef} {better : CellRef → CellRef → Bool} (sign : Int)
    (hcomparator : comparator call args m = .ok order m) (hm : I m) (hranks : Ranks P better)
    (horder : ∀ a b, P a → P b →
      Achieves I (fun c ↦ decide (0 < (c * sign).bmod (twoTo 64)) = better a b) (order a b))
    (hvalues : ∀ value ∈ values, P value) (hsome : values ≠ []) :
    ∃ best k, extreme call values args sign m = .ok best k ∧ I k ∧ IsFirstBest better values best := by
  obtain ⟨first, rest, rfl⟩ := List.exists_cons_of_ne_nil hsome
  have hfirst : IsFirstBest better [first] first := ⟨[], [], rfl, nofun, nofun⟩
  have hmem : ∀ value ∈ [first] ++ rest, P value := hvalues
  obtain ⟨best, k, hfold, hk, hbest⟩ := Achieves.foldlM_best (I := I)
    (fun best value ↦ do
      let c ← order value best
      return if 0 < (c * sign).bmod (twoTo 64) then value else best) hranks
    (fun best value hbest hvalue ↦ (horder value best hvalue hbest).bind fun c hc ↦
      .pure (by simp only [← hc, decide_eq_true_eq]))
    hmem hfirst m hm
  refine ⟨best, k, ?_, hk, hbest⟩
  unfold extreme
  rw [Run.bind_ok hcomparator]
  exact hfold

end ObjectMethod

end TreeScript
