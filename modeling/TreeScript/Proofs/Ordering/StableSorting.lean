import Mathlib.Data.List.Induction
import TreeScript.Proofs.Iteration.Sorting
import TreeScript.Proofs.Ordering.Arrangements
import TreeScript.Proofs.Settings.Starting

/-!
# Sorting is stable

Sorting inserts the elements of short blocks one by one, each behind all that it does not go before,
and then merges neighbouring blocks, each time two and two. To merge, a binary search finds where to
cut (`search_achieves`): the end of the one stretch that belongs behind the beginning of the other
changes places with it, and each half is merged in turn (`Adjacent.merge_achieves`). So, where a test
succeeds and ranks the elements, sorting succeeds and gives their stable arrangement
(`sort_achieves`).
-/

set_option autoImplicit false

namespace TreeScript

namespace Sorting

/-! ### Stretches of an array -/

section Stretches

variable {α : Type} {I : Machine → Prop} {P : α → Prop} {before : α → α → Bool}
  {less : α → α → Run Bool} {xs ys : Array α} {a b x : α} {pre l r post : List α} {i j : Nat}

/-- The elements at two places, one before the other. -/
def beforeAt (before : α → α → Bool) (xs : Array α) (i j : Nat) : Bool :=
  match xs[i]?, xs[j]? with
  | some a, some b => before a b
  | _, _ => false

theorem beforeAt_eq (hi : xs[i]? = some a) (hj : xs[j]? = some b) :
    beforeAt before xs i j = before a b := by
  rw [beforeAt, hi, hj]

theorem getElem?_first (hparts : xs.toList = pre ++ l ++ post) (ha : a ∈ l.head?) :
    xs[pre.length]? = some a := by
  obtain ⟨rest, rfl⟩ := List.head?_eq_some_iff.mp ha
  rw [← Array.getElem?_toList, hparts]
  simp

theorem getElem?_last (hparts : xs.toList = pre ++ l ++ post) (ha : a ∈ l.getLast?) :
    xs[pre.length + l.length - 1]? = some a := by
  obtain ⟨front, rfl⟩ := List.getLast?_eq_some_iff.mp ha
  have hplace : pre.length + (front ++ [a]).length - 1 = (pre ++ front).length := by simp
  have hlist : xs.toList = (pre ++ front) ++ a :: post := by simp [hparts]
  rw [← Array.getElem?_toList, hlist, hplace, List.getElem?_append_right (Nat.le_refl _)]
  simp

theorem mem_of_parts (hparts : xs.toList = pre ++ l ++ post) (ha : a ∈ l) : a ∈ xs := by
  rw [← Array.mem_toList_iff, hparts]
  exact List.mem_append_left post (List.mem_append_right pre ha)

/-- A stretch of an array is put into its stable arrangement, and the rest stays. -/
def Arranges (P : α → Prop) (before : α → α → Bool) (pre stretch post : List α) (ys : Array α) :
    Prop :=
  ∃ s, ys.toList = pre ++ s ++ post ∧ StablySorted P before stretch s

theorem Arranges.of_ordered (hparts : xs.toList = pre ++ l ++ post) (h : Ordered before l) :
    Arranges P before pre l post xs :=
  ⟨l, hparts, .refl h⟩

/-- Nothing comes into an array that is rearranged. -/
theorem Rearranged.forall_mem (h : Rearranged P before xs.toList ys.toList) (hxs : ∀ a ∈ xs, P a) :
    ∀ a ∈ ys, P a := fun a ha ↦
  hxs a (Array.mem_toList_iff.mp (h.perm.mem_iff.mp (Array.mem_toList_iff.mpr ha)))

theorem Arranges.forall_mem (h : Arranges P before pre l post ys)
    (hparts : xs.toList = pre ++ l ++ post) (hxs : ∀ a ∈ xs, P a) : ∀ a ∈ ys, P a := by
  obtain ⟨s, hs, hsorted⟩ := h
  have hmoved : Rearranged P before xs.toList ys.toList := by
    rw [hs, hparts]
    exact ((Rearranged.refl pre).append hsorted.toRearranged).append (.refl post)
  exact hmoved.forall_mem hxs

/-- Neighbours change places. -/
theorem toList_swapIfInBounds (hparts : xs.toList = pre ++ b :: a :: post) :
    (xs.swapIfInBounds (pre.length + 1) pre.length).toList = pre ++ a :: b :: post := by
  obtain ⟨xs⟩ := xs
  cases hparts
  simp [Array.swapIfInBounds_def]

theorem toList_rotate (hparts : xs.toList = pre ++ (l ++ r) ++ post) :
    (rotate pre.length (pre.length + l.length) (pre.length + l.length + r.length) xs).toList =
      pre ++ (r ++ l) ++ post := by
  obtain ⟨xs⟩ := xs
  cases hparts
  have hlist : pre ++ (l ++ (r ++ post)) = (pre ++ l ++ r) ++ post := by simp
  have hdrop : (pre ++ (l ++ (r ++ post))).drop (pre.length + l.length + r.length) = post := by
    rw [hlist, List.drop_left' (by simp [Nat.add_assoc])]
  simp only [rotate, List.extract_eq_take_drop, List.extract_toArray, List.append_toArray]
  have htake : post.take (pre.length + (l.length + (r.length + post.length)) -
      (pre.length + l.length + r.length)) = post := List.take_of_length_le (by omega)
  simp [hdrop, htake]

/-- An index that a search ends with: a test holds just below it and fails at it, unless it is a
bound. -/
structure Cuts (holds : Nat → Bool) (low high place : Nat) : Prop where
  low_le : low ≤ place
  le_high : place ≤ high
  below : place = low ∨ holds (place - 1) = true
  above : place = high ∨ holds place = false

theorem search_achieves {test : Nat → Run Bool} {holds : Nat → Bool}
    (htest : ∀ h, Achieves I (· = holds h) (test h)) {low high : Nat} (fuel : Nat)
    (hfuel : j - i ≤ fuel) (hlow : low ≤ i) (hij : i ≤ j) (hhigh : j ≤ high)
    (hbelow : i = low ∨ holds (i - 1) = true) (habove : j = high ∨ holds j = false) :
    Achieves I (Cuts holds low high) (search test fuel i j) := by
  induction fuel generalizing i j with
  | zero =>
    have hsame : i = j := by omega
    exact .pure ⟨hlow, Nat.le_trans hij hhigh, hbelow, hsame ▸ habove⟩
  | succ fuel ih =>
    unfold search
    refine .ite (fun hless ↦ ?_) fun hnot ↦ ?_
    · refine (htest _).bind fun answer hanswer ↦ .ite (fun hyes ↦ ?_) fun hno ↦ ?_
      · exact ih (by omega) (by omega) (by omega) hhigh (.inr (by simpa [hanswer] using hyes)) habove
      · exact ih (by omega) hlow (by omega) (by omega) hbelow (.inr (by simpa [hanswer] using hno))
    · have hsame : i = j := by omega
      exact .pure ⟨hlow, Nat.le_trans hij hhigh, hbelow, hsame ▸ habove⟩

/-! ### Insertion and merging -/

variable (hranks : Ranks P before)
  (hless : ∀ a b, P a → P b → Achieves I (· = before a b) (less a b))

include hless in
theorem lessAt_achieves (hxs : ∀ a ∈ xs, P a) (i j : Nat) :
    Achieves I (· = beforeAt before xs i j) (lessAt less xs i j) := by
  unfold lessAt beforeAt
  cases hi : xs[i]? with
  | none => exact .pure rfl
  | some a =>
    cases hj : xs[j]? with
    | none => exact .pure rfl
    | some b => exact hless a b (hxs a (Array.mem_of_getElem? hi)) (hxs b (Array.mem_of_getElem? hj))

include hranks hless in
/-- Assumes: an arranged stretch with an element behind it. The element sinks to its place. -/
theorem sink_achieves (hxs : ∀ a ∈ xs, P a) (hl : Ordered before l)
    (hparts : xs.toList = pre ++ (l ++ [x]) ++ post) :
    Achieves I (Arranges P before pre (l ++ [x]) post)
      (sink less l.length (pre.length + l.length) xs) := by
  induction l using List.reverseRecOn generalizing xs post with
  | nil => exact .pure (.of_ordered hparts (List.pairwise_singleton _ _))
  | append_singleton l y ih =>
    have hlast : xs[pre.length + l.length]? = some y := by
      have hfront : xs.toList = (pre ++ l) ++ [y] ++ (x :: post) := by simp [hparts]
      simpa using getElem?_first hfront (a := y) (by simp)
    have hsinking : xs[pre.length + (l.length + 1)]? = some x := by
      have hfront : xs.toList = (pre ++ (l ++ [y])) ++ [x] ++ post := by simp [hparts]
      simpa using getElem?_first hfront (a := x) (by simp)
    have hmem : ∀ a ∈ l ++ [y] ++ [x], P a := fun a ha ↦ hxs a (mem_of_parts hparts ha)
    rw [List.length_append, List.length_singleton, sink]
    refine (lessAt_achieves hless hxs _ _).bind fun goesBefore hanswer ↦ ?_
    rw [beforeAt_eq hsinking (by simpa using hlast)] at hanswer
    refine .ite (fun hyes ↦ ?_) fun hno ↦ ?_
    · have hswapped : (xs.swapIfInBounds (pre.length + (l.length + 1))
          (pre.length + (l.length + 1) - 1)).toList = pre ++ (l ++ [x]) ++ (y :: post) := by
        have hfront : xs.toList = (pre ++ l) ++ y :: x :: post := by simp [hparts]
        simpa [Nat.add_assoc] using toList_swapIfInBounds hfront
      have hkept := swapIfInBounds_perm xs (pre.length + (l.length + 1))
        (pre.length + (l.length + 1) - 1)
      refine (ih (fun a ha ↦ hxs a (hkept.mem_iff.mp ha)) hl.left hswapped).mono fun ys hys ↦ ?_
      obtain ⟨s, hs, hsorted⟩ := hys
      refine ⟨s ++ [y], by simp [hs], ?_⟩
      have hexchange : StablySorted P before (l ++ [y] ++ ([x] ++ [])) (s ++ [y]) :=
        .of_exchange hranks (by simpa using hmem) hl (List.pairwise_singleton _ _) (by simp)
          (by simpa [hanswer] using hyes) hsorted (.refl (List.pairwise_singleton _ _))
      simpa using hexchange
    · refine .pure (.of_ordered hparts ?_)
      refine Ordered.append hranks hmem hl (List.pairwise_singleton _ _) ?_
      simpa [hanswer] using hno

include hranks hless in
theorem insertionSort_achieves (hxs : ∀ a ∈ xs, P a) (hparts : xs.toList = pre ++ l ++ post) :
    Achieves I (Arranges P before pre l post)
      (insertionSort less pre.length (pre.length + l.length) xs) := by
  rcases l with - | ⟨first, rest⟩
  · simpa [insertionSort] using Achieves.pure (.of_ordered hparts List.Pairwise.nil)
  -- After each pass one element more is arranged.
  have hpasses := Achieves.foldlM_range (I := I)
    (fun k ys ↦ Arranges P before pre (first :: rest.take k) (rest.drop k ++ post) ys)
    (fun ys k ↦ sink less (k + 1) (pre.length + k + 1) ys) xs rest.length
    (.of_ordered (by simp [hparts]) (List.pairwise_singleton _ _)) ?_
  · refine Achieves.mono ?_ fun ys hys ↦ by simpa using hys
    simpa [insertionSort] using hpasses
  · intro k hk ys hys
    have hcut : xs.toList = pre ++ (first :: rest.take k) ++ (rest.drop k ++ post) := by
      conv_lhs => rw [hparts, ← List.take_append_drop k rest]
      simp only [List.append_assoc, List.cons_append]
    have hmem := hys.forall_mem hcut hxs
    obtain ⟨s, hs, hsorted⟩ := hys
    have hlength : s.length = k + 1 := by
      rw [hsorted.length_eq, List.length_cons, List.length_take, Nat.min_eq_left (by omega)]
    have hnext : ys.toList = pre ++ (s ++ [rest[k]]) ++ (rest.drop (k + 1) ++ post) := by
      rw [hs, List.drop_eq_getElem_cons hk]
      simp only [List.append_assoc, List.cons_append, List.nil_append]
    have hsink := sink_achieves hranks hless hmem hsorted.ordered hnext
    rw [hlength, ← Nat.add_assoc] at hsink
    refine hsink.mono fun zs ⟨s', hs', hsorted'⟩ ↦ ⟨s', hs', ?_⟩
    have hmoved := hsorted.toRearranged.append (Rearranged.refl [rest[k]])
    rw [List.take_add_one, List.getElem?_eq_getElem hk]
    simpa using hmoved.sorted hsorted'

theorem exists_cut (count : Nat) (h : count ≤ l.length) :
    ∃ l₁ l₂, l = l₁ ++ l₂ ∧ l₁.length = count :=
  ⟨l.take count, l.drop count, (List.take_append_drop count l).symm, List.length_take_of_le h⟩

/-- Two arranged stretches lie side by side in an array. -/
structure Adjacent (P : α → Prop) (before : α → α → Bool) (pre l r post : List α)
    (start middle stop : Nat) (xs : Array α) : Prop where
  mem : ∀ a ∈ xs, P a
  parts : xs.toList = pre ++ (l ++ r) ++ post
  left : Ordered before l
  right : Ordered before r
  start_eq : start = pre.length
  middle_eq : middle = start + l.length
  stop_eq : stop = middle + r.length

namespace Adjacent

variable {l₁ l₂ r₁ r₂ s₁ s₂ : List α} {start middle stop : Nat}

theorem forall_mem (h : Adjacent P before pre l r post start middle stop xs) :
    ∀ a ∈ l ++ r, P a :=
  fun a ha ↦ h.mem a (mem_of_parts h.parts ha)

/-- If one of the stretches is empty, both together are arranged. -/
theorem ordered (h : Adjacent P before pre l r post start middle stop xs)
    (hempty : l = [] ∨ r = []) : Ordered before (l ++ r) := by
  rcases hempty with rfl | rfl
  · exact h.right
  · simpa using h.left

section Cut

variable (h : Adjacent P before pre (l₁ ++ l₂) (r₁ ++ r₂) post start middle stop xs)

include h

theorem last_left (ha : a ∈ l₁.getLast?) : xs[start + l₁.length - 1]? = some a := by
  have hparts : xs.toList = pre ++ l₁ ++ (l₂ ++ (r₁ ++ r₂) ++ post) := by simp [h.parts]
  rw [h.start_eq]
  exact getElem?_last hparts ha

theorem first_left (ha : a ∈ l₂.head?) : xs[start + l₁.length]? = some a := by
  have hparts : xs.toList = (pre ++ l₁) ++ l₂ ++ ((r₁ ++ r₂) ++ post) := by simp [h.parts]
  rw [h.start_eq, ← List.length_append]
  exact getElem?_first hparts ha

theorem last_right (ha : a ∈ r₁.getLast?) : xs[middle + r₁.length - 1]? = some a := by
  have hparts : xs.toList = (pre ++ (l₁ ++ l₂)) ++ r₁ ++ (r₂ ++ post) := by simp [h.parts]
  rw [h.middle_eq, h.start_eq, ← List.length_append]
  exact getElem?_last hparts ha

theorem first_right (ha : a ∈ r₂.head?) : xs[middle + r₁.length]? = some a := by
  have hparts : xs.toList = (pre ++ (l₁ ++ l₂) ++ r₁) ++ r₂ ++ post := by simp [h.parts]
  rw [h.middle_eq, h.start_eq, ← List.length_append, ← List.length_append]
  exact getElem?_first hparts ha

theorem toList_rotate :
    (rotate (start + l₁.length) middle (middle + r₁.length) xs).toList =
      pre ++ (l₁ ++ r₁) ++ (l₂ ++ r₂ ++ post) := by
  have hparts : xs.toList = (pre ++ l₁) ++ (l₂ ++ r₁) ++ (r₂ ++ post) := by simp [h.parts]
  have hrotated := Sorting.toList_rotate hparts
  rw [h.middle_eq, h.start_eq]
  simpa [Nat.add_assoc] using hrotated

/-- The first end and the second beginning change places, unless one of them is empty. -/
theorem rotated {first last : Nat} (hfirst : first = start + l₁.length)
    (hlast : last = middle + r₁.length) {ys : Array α}
    (hys : (if first < middle ∧ middle < last then rotate first middle last xs else xs) = ys) :
    ys.toList = pre ++ (l₁ ++ r₁) ++ (l₂ ++ r₂ ++ post) ∧ ∀ a ∈ ys, P a := by
  have hmiddle := h.middle_eq
  rw [List.length_append] at hmiddle
  by_cases hboth : first < middle ∧ middle < last
  · rw [if_pos hboth] at hys
    subst hys hfirst hlast
    exact ⟨h.toList_rotate, fun a ha ↦
      h.mem a ((rotate_perm (by omega) (by omega) xs).mem_iff.mp ha)⟩
  · rw [if_neg hboth] at hys
    subst hys
    have hnone : l₂ = [] ∨ r₁ = [] :=
      (by omega : l₂.length = 0 ∨ r₁.length = 0).imp List.length_eq_zero_iff.mp
        List.length_eq_zero_iff.mp
    refine ⟨?_, h.mem⟩
    rcases hnone with rfl | rfl <;> simp [h.parts]

/-- Assumes: at the cuts, the end of the first beginning is at most the beginning of the second end,
and the end of the second beginning goes before the beginning of the first end. The two beginnings
and the two ends can be arranged apart. -/
theorem of_exchange (hranks : Ranks P before)
    (hle : l₁ = [] ∨ r₂ = [] ∨
      beforeAt before xs (middle + r₁.length) (start + l₁.length - 1) = false)
    (hbefore : r₁ = [] ∨ l₂ = [] ∨
      beforeAt before xs (middle + r₁.length - 1) (start + l₁.length) = true)
    (hfirst : StablySorted P before (l₁ ++ r₁) s₁) (hsecond : StablySorted P before (l₂ ++ r₂) s₂) :
    StablySorted P before (l₁ ++ l₂ ++ (r₁ ++ r₂)) (s₁ ++ s₂) := by
  refine .of_exchange hranks h.forall_mem h.left h.right (fun a ha b hb ↦ ?_) (fun a ha b hb ↦ ?_)
    hfirst hsecond
  · rcases hle with rfl | rfl | hle
    · cases ha
    · cases hb
    · rwa [beforeAt_eq (h.first_right hb) (h.last_left ha)] at hle
  · rcases hbefore with rfl | rfl | hbefore
    · cases ha
    · cases hb
    · rwa [beforeAt_eq (h.last_right ha) (h.first_left hb)] at hbefore

end Cut

/-- A step that is left out if one of the stretches is empty. -/
theorem arranges_ite {p : Prop} [Decidable p] {x : Run (Array α)}
    (h : Adjacent P before pre l r post start middle stop xs) (hempty : ¬p → l = [] ∨ r = [])
    (hx : p → Achieves I (Arranges P before pre (l ++ r) post) x) :
    Achieves I (Arranges P before pre (l ++ r) post) (if p then x else pure xs) :=
  .ite hx fun hnot ↦ .pure (.of_ordered h.parts (h.ordered (hempty hnot)))

/-- A step that is left out if one of the stretches has no places. -/
theorem ite_achieves {x : Run (Array α)} (h : Adjacent P before pre l r post start middle stop xs)
    (hx : l ≠ [] → r ≠ [] → Achieves I (Arranges P before pre (l ++ r) post) x) :
    Achieves I (Arranges P before pre (l ++ r) post)
      (if start < middle ∧ middle < stop then x else pure xs) := by
  have hmiddle := h.middle_eq
  have hstop := h.stop_eq
  refine h.arranges_ite (fun hnot ↦ ?_) fun hboth ↦ ?_
  · exact (by omega : l.length = 0 ∨ r.length = 0).imp List.length_eq_zero_iff.mp
      List.length_eq_zero_iff.mp
  · exact hx (List.length_pos_iff.mp (by omega)) (List.length_pos_iff.mp (by omega))

include hranks hless in
/-- A single element is moved behind all that go before it. -/
theorem insertFirst_achieves (h : Adjacent P before pre [x] r post start middle stop xs) :
    Achieves I (Arranges P before pre ([x] ++ r) post) (do
      let place ← search (fun k ↦ lessAt less xs k start) (stop - middle) middle stop
      return rotate start middle place xs) := by
  have hstop := h.stop_eq
  refine (search_achieves (fun k ↦ lessAt_achieves hless h.mem k start) _ (Nat.le_refl _)
    (Nat.le_refl _) (by omega) (Nat.le_refl _) (.inl rfl) (.inl rfl)).bind fun place hplace ↦ ?_
  obtain ⟨hlow, hhigh, hbelow, habove⟩ := hplace
  obtain ⟨r₁, r₂, rfl, hlength⟩ := exists_cut (l := r) (place - middle) (by omega)
  obtain rfl : place = middle + r₁.length := by omega
  rw [List.length_append] at hstop
  replace h : Adjacent P before pre ([] ++ [x]) (r₁ ++ r₂) post start middle stop xs := h
  have hbefore : r₁ = [] ∨ beforeAt before xs (middle + r₁.length - 1) start = true :=
    hbelow.imp_left fun hend ↦ List.length_eq_zero_iff.mp (by omega)
  have hle : r₂ = [] ∨ beforeAt before xs (middle + r₁.length) start = false :=
    habove.imp_left fun hend ↦ List.length_eq_zero_iff.mp (by omega)
  have hstart : xs[start]? = some x := h.first_left rfl
  have hbehind : Ordered before ([x] ++ r₂) := by
    have hmem : ∀ a ∈ [x] ++ r₂, P a := fun a ha ↦ h.forall_mem a
      ((List.mem_append.mp ha).elim (List.mem_append_left _)
        fun hr ↦ List.mem_append_right _ (List.mem_append_right r₁ hr))
    refine .append hranks hmem (List.pairwise_singleton _ _) h.right.right fun a ha b hb ↦ ?_
    cases ha
    rcases hle with rfl | hle
    · cases hb
    · rwa [beforeAt_eq (h.first_right hb) hstart] at hle
  have hsorted := h.of_exchange hranks (.inl rfl) (hbefore.imp_right .inr) (.refl h.right.left)
    (.refl hbehind)
  exact .pure ⟨_, by simpa using h.toList_rotate, hsorted⟩

include hranks hless in
/-- A single element is moved ahead of all that it goes before. -/
theorem insertLast_achieves (h : Adjacent P before pre l [x] post start middle stop xs) :
    Achieves I (Arranges P before pre (l ++ [x]) post) (do
      let place ← search (fun k ↦ do return !(← lessAt less xs middle k)) (middle - start) start middle
      return rotate place middle stop xs) := by
  have hmiddle := h.middle_eq
  have htest (k : Nat) : Achieves I (· = !beforeAt before xs middle k)
      (do return !(← lessAt less xs middle k)) :=
    (lessAt_achieves hless h.mem middle k).bind fun answer hanswer ↦ .pure (by rw [hanswer])
  refine (search_achieves htest _ (Nat.le_refl _) (Nat.le_refl _) (by omega) (Nat.le_refl _)
    (.inl rfl) (.inl rfl)).bind fun place hplace ↦ ?_
  obtain ⟨hlow, hhigh, hbelow, habove⟩ := hplace
  obtain ⟨l₁, l₂, rfl, hlength⟩ := exists_cut (l := l) (place - start) (by omega)
  obtain rfl : place = start + l₁.length := by omega
  rw [List.length_append] at hmiddle
  replace h : Adjacent P before pre (l₁ ++ l₂) ([x] ++ []) post start middle stop xs := h
  have hle : l₁ = [] ∨ beforeAt before xs middle (start + l₁.length - 1) = false :=
    hbelow.imp (fun hend ↦ List.length_eq_zero_iff.mp (by omega)) (by simp)
  have hbefore : l₂ = [] ∨ beforeAt before xs middle (start + l₁.length) = true :=
    habove.imp (fun hend ↦ List.length_eq_zero_iff.mp (by omega)) (by simp)
  have hplace : xs[middle]? = some x := by simpa using h.last_right rfl
  have hahead : Ordered before (l₁ ++ [x]) := by
    have hmem : ∀ a ∈ l₁ ++ [x], P a := fun a ha ↦ h.forall_mem a
      ((List.mem_append.mp ha).elim (fun hl ↦ List.mem_append_left _ (List.mem_append_left l₂ hl))
        fun hx ↦ List.mem_append_right _ (List.mem_append_left [] hx))
    refine .append hranks hmem h.left.left (List.pairwise_singleton _ _) fun a ha b hb ↦ ?_
    cases hb
    rcases hle with rfl | hle
    · cases ha
    · rwa [beforeAt_eq hplace (h.last_left ha)] at hle
  have hsorted := h.of_exchange hranks (.inr (.inl rfl)) (hbefore.elim (.inr ∘ .inl) (.inr ∘ .inr))
    (.refl hahead) (.refl (by simpa using h.left.right))
  rw [h.stop_eq]
  exact .pure ⟨_, by simpa using h.toList_rotate, hsorted⟩

include hranks in
/-- Assumes: stretches that are cut where the beginnings and the ends can be arranged apart. The ends
change places with the beginnings, and then each half is merged. -/
theorem mergeHalves_achieves {first half last : Nat}
    {mergeAt : Nat → Nat → Nat → Array α → Run (Array α)}
    (h : Adjacent P before pre (l₁ ++ l₂) (r₁ ++ r₂) post start middle stop xs)
    (hfirst : first = start + l₁.length) (hlast : last = middle + r₁.length)
    (hhalf : half = first + r₁.length) (hinside : start < half ∧ half < stop)
    (hle : l₁ = [] ∨ r₂ = [] ∨
      beforeAt before xs (middle + r₁.length) (start + l₁.length - 1) = false)
    (hbefore : r₁ = [] ∨ l₂ = [] ∨
      beforeAt before xs (middle + r₁.length - 1) (start + l₁.length) = true)
    (hmerge : ∀ {ys pre l r post start' middle' stop'},
      Adjacent P before pre l r post start' middle' stop' ys → l ≠ [] → r ≠ [] →
      stop' - start' < stop - start →
      Achieves I (Arranges P before pre (l ++ r) post) (mergeAt start' middle' stop' ys)) :
    Achieves I (Arranges P before pre (l₁ ++ l₂ ++ (r₁ ++ r₂)) post) (do
      let zs := if first < middle ∧ middle < last then rotate first middle last xs else xs
      let ys ← if start < first ∧ first < half then mergeAt start first half zs else pure zs
      if half < last ∧ last < stop then mergeAt half last stop ys else return ys) := by
  have hmiddle := h.middle_eq
  have hstop := h.stop_eq
  rw [List.length_append] at hmiddle hstop
  dsimp only
  generalize hzs : (if first < middle ∧ middle < last then rotate first middle last xs else xs) = zs
  obtain ⟨hparts, hmem⟩ := h.rotated hfirst hlast hzs
  have hbeginnings : Adjacent P before pre l₁ r₁ (l₂ ++ r₂ ++ post) start first half zs :=
    ⟨hmem, hparts, h.left.left, h.right.left, h.start_eq, hfirst, hhalf⟩
  have hfirstHalf : Achieves I (Arranges P before pre (l₁ ++ r₁) (l₂ ++ r₂ ++ post))
      (if start < first ∧ first < half then mergeAt start first half zs else pure zs) :=
    hbeginnings.ite_achieves fun hl hr ↦ hmerge hbeginnings hl hr (by omega)
  have hsecondHalf {ys : Array α} (hys : Arranges P before pre (l₁ ++ r₁) (l₂ ++ r₂ ++ post) ys) :
      Achieves I (Arranges P before pre (l₁ ++ l₂ ++ (r₁ ++ r₂)) post)
        (if half < last ∧ last < stop then mergeAt half last stop ys else pure ys) := by
    have hmem' := hys.forall_mem hparts hmem
    obtain ⟨s₁, hs₁, hsorted₁⟩ := hys
    have hlength := hsorted₁.length_eq
    rw [List.length_append] at hlength
    have hends : Adjacent P before (pre ++ s₁) l₂ r₂ post half last stop ys :=
      ⟨hmem', by simp [hs₁], h.left.right, h.right.right,
        by rw [List.length_append, ← h.start_eq]; omega, by omega, by omega⟩
    have harranged := hends.ite_achieves fun hl hr ↦ hmerge hends hl hr (by omega)
    exact harranged.mono fun zs ⟨s₂, hs₂, hsorted₂⟩ ↦
      ⟨s₁ ++ s₂, by simp [hs₂], h.of_exchange hranks hle hbefore hsorted₁ hsorted₂⟩
  have hboth := hfirstHalf.bind fun ys hys ↦ hsecondHalf hys
  by_cases hcond : start < first ∧ first < half
  · simpa only [if_pos hcond] using hboth
  · simpa only [if_neg hcond] using hboth

/-- The search of a merge ends where the first stretch is to be cut. The second one is cut so that the
beginnings take the places up to the half. -/
theorem exists_halves {half low high first : Nat}
    (h : Adjacent P before pre l r post start middle stop xs) (hhalf : (start + stop) / 2 = half)
    (hbounds : (if half < middle then (half + middle - stop, half) else (start, middle)) = (low, high))
    (hcut : Cuts (fun k ↦ !beforeAt before xs (half + middle - 1 - k) k) low high first) :
    ∃ l₁ l₂ r₁ r₂, l = l₁ ++ l₂ ∧ r = r₁ ++ r₂ ∧ first = start + l₁.length ∧
      half = first + r₁.length ∧
      (l₁ = [] ∨ r₂ = [] ∨
        beforeAt before xs (middle + r₁.length) (start + l₁.length - 1) = false) ∧
      (r₁ = [] ∨ l₂ = [] ∨
        beforeAt before xs (middle + r₁.length - 1) (start + l₁.length) = true) := by
  have hmiddle := h.middle_eq
  have hstop := h.stop_eq
  obtain ⟨hlow, hhigh, hbelow, habove⟩ := hcut
  -- The cut leaves as many elements in front as there are places up to the half.
  have hplaces : start ≤ first ∧ first ≤ middle ∧ first ≤ half ∧ half - first ≤ stop - middle := by
    split at hbounds <;> cases hbounds <;> omega
  obtain ⟨l₁, l₂, rfl, hlength₁⟩ := exists_cut (l := l) (first - start) (by omega)
  obtain ⟨r₁, r₂, rfl, hlength₂⟩ := exists_cut (l := r) (half - first) (by omega)
  rw [List.length_append] at hmiddle hstop
  obtain rfl : first = start + l₁.length := by omega
  obtain rfl : half = start + l₁.length + r₁.length := by omega
  refine ⟨l₁, l₂, r₁, r₂, rfl, rfl, rfl, rfl, ?_, ?_⟩
  · rcases hbelow with hend | hle
    · have hnone : l₁.length = 0 ∨ r₂.length = 0 := by
        split at hbounds <;> cases hbounds <;> omega
      exact hnone.imp List.length_eq_zero_iff.mp (.inl ∘ List.length_eq_zero_iff.mp)
    · by_cases hempty : l₁.length = 0
      · exact .inl (List.length_eq_zero_iff.mp hempty)
      · have hplace : start + l₁.length + r₁.length + middle - 1 - (start + l₁.length - 1) =
            middle + r₁.length := by omega
        rw [Bool.not_eq_true', hplace] at hle
        exact .inr (.inr hle)
  · rcases habove with hend | hbefore
    · have hnone : r₁.length = 0 ∨ l₂.length = 0 := by
        split at hbounds <;> cases hbounds <;> omega
      exact hnone.imp List.length_eq_zero_iff.mp (.inl ∘ List.length_eq_zero_iff.mp)
    · have hplace : start + l₁.length + r₁.length + middle - 1 - (start + l₁.length) =
          middle + r₁.length - 1 := by omega
      rw [Bool.not_eq_false', hplace] at hbefore
      exact .inr (.inr hbefore)

include hranks hless in
/-- Merging two arranged stretches that lie side by side gives their stable arrangement. -/
theorem merge_achieves (fuel : Nat) (h : Adjacent P before pre l r post start middle stop xs)
    (hl : l ≠ []) (hr : r ≠ []) (hfuel : stop - start ≤ fuel) :
    Achieves I (Arranges P before pre (l ++ r) post) (merge less fuel start middle stop xs) := by
  induction fuel generalizing pre l r post start middle stop xs with
  | zero =>
    have hright := List.length_pos_iff.mpr hr
    have hstop := h.stop_eq
    have hmiddle := h.middle_eq
    omega
  | succ fuel ih =>
    have hleft := List.length_pos_iff.mpr hl
    have hright := List.length_pos_iff.mpr hr
    have hmiddle := h.middle_eq
    have hstop := h.stop_eq
    unfold merge
    refine .ite (fun hsingle ↦ ?_) fun hseveral ↦ .ite (fun hsingle ↦ ?_) fun hseveral' ↦ ?_
    · obtain ⟨x, rfl⟩ := List.length_eq_one_iff.mp (by omega : l.length = 1)
      exact h.insertFirst_achieves hranks hless
    · obtain ⟨x, rfl⟩ := List.length_eq_one_iff.mp (by omega : r.length = 1)
      exact h.insertLast_achieves hranks hless
    · dsimp only
      generalize hhalf : (start + stop) / 2 = half
      generalize hbounds : (if half < middle then (half + middle - stop, half) else (start, middle)) =
        bounds
      obtain ⟨low, high⟩ := bounds
      have htest (k : Nat) : Achieves I (· = !beforeAt before xs (half + middle - 1 - k) k)
          (do return !(← lessAt less xs (half + middle - 1 - k) k)) :=
        (lessAt_achieves hless h.mem _ k).bind fun answer hanswer ↦ .pure (by rw [hanswer])
      have hbetween : low ≤ high := by split at hbounds <;> cases hbounds <;> omega
      refine (search_achieves htest _ (Nat.le_refl _) (Nat.le_refl _) hbetween (Nat.le_refl _)
        (.inl rfl) (.inl rfl)).bind fun first hcut ↦ ?_
      obtain ⟨l₁, l₂, r₁, r₂, rfl, rfl, hfirst, hlast, hle, hbefore⟩ :=
        h.exists_halves hhalf hbounds hcut
      rw [List.length_append] at hmiddle hstop hleft hright
      exact h.mergeHalves_achieves hranks (by omega) (by omega) (by omega) (by omega) hle hbefore
        fun hadjacent hl hr hsmaller ↦ ih hadjacent hl hr (by omega)

end Adjacent

/-! ### Blocks -/

variable {width : Nat}

/-- Every block of a width is arranged. -/
def InBlocks (before : α → α → Bool) (width : Nat) (l : List α) : Prop :=
  ∀ k, Ordered before ((l.drop (k * width)).take width)

theorem InBlocks.ordered (h : InBlocks before width l) (hwidth : l.length ≤ width) :
    Ordered before l := by
  have hfirst := h 0
  rwa [Nat.zero_mul, List.drop_zero, List.take_of_length_le hwidth] at hfirst

/-- Two neighbouring blocks are a block of twice the width. -/
theorem take_two_blocks (k width : Nat) (l : List α) :
    (l.drop (k * (2 * width))).take (2 * width) =
      (l.drop (2 * k * width)).take width ++ (l.drop ((2 * k + 1) * width)).take width := by
  have hplace : (2 * k + 1) * width = 2 * k * width + width := Nat.succ_mul _ _
  have hstart : k * (2 * width) = 2 * k * width := by rw [Nat.mul_left_comm, Nat.mul_assoc]
  rw [Nat.two_mul, List.take_add, List.drop_drop, hplace, ← Nat.two_mul, hstart]

/-- The first blocks of a list are arranged, and the rest is as it was. -/
structure FirstBlocks (P : α → Prop) (before : α → α → Bool) (width : Nat) (former : List α)
    (count : Nat) (done : List α) (ys : Array α) : Prop where
  parts : ys.toList = done ++ former.drop (count * width)
  moved : Rearranged P before (former.take (count * width)) done
  blocks : ∀ i < count, Ordered before ((done.drop (i * width)).take width)

namespace FirstBlocks

variable {former done s : List α} {count : Nat}

theorem rearranged (h : FirstBlocks P before width former count done ys) :
    Rearranged P before former ys.toList := by
  have hmoved := h.moved.append (.refl (former.drop (count * width)))
  rwa [List.take_append_drop, ← h.parts] at hmoved

theorem length_eq (h : FirstBlocks P before width former count done ys)
    (hstart : count * width ≤ former.length) : done.length = count * width := by
  rw [h.moved.length_eq, List.length_take, Nat.min_eq_left hstart]

/-- If no block is left, all are arranged. -/
theorem inBlocks (h : FirstBlocks P before width former count done ys)
    (hall : former.length ≤ count * width) : InBlocks before width ys.toList := by
  intro k
  by_cases hk : k < count
  · have hparts := h.parts
    rw [List.drop_of_length_le hall, List.append_nil] at hparts
    rw [hparts]
    exact h.blocks k hk
  · have hend : ys.toList.length ≤ k * width := by
      rw [h.rearranged.length_eq]
      exact Nat.le_trans hall (Nat.mul_le_mul_right width (Nat.not_lt.mp hk))
    rw [List.drop_of_length_le hend, List.take_nil]
    exact List.Pairwise.nil

/-- One block more is arranged. -/
theorem next (h : FirstBlocks P before width former count done ys)
    (hstart : count * width ≤ former.length)
    (hsorted : StablySorted P before ((former.drop (count * width)).take width) s)
    (hxs : xs.toList = done ++ s ++ former.drop ((count + 1) * width)) :
    FirstBlocks P before width former (count + 1) (done ++ s) xs := by
  have hdone := h.length_eq hstart
  refine ⟨hxs, ?_, fun i hi ↦ ?_⟩
  · rw [Nat.succ_mul, List.take_add]
    exact h.moved.append hsorted.toRearranged
  · rcases Nat.lt_succ_iff_lt_or_eq.mp hi with hformer | rfl
    · have hinside : i * width + width ≤ done.length := by
        rw [hdone, ← Nat.succ_mul]
        exact Nat.mul_le_mul_right width hformer
      rw [List.drop_append_of_le_length (by omega),
        List.take_append_of_le_length (by rw [List.length_drop]; omega)]
      exact h.blocks i hformer
    · rw [List.drop_left' hdone, List.take_of_length_le]
      · exact hsorted.ordered
      · rw [hsorted.length_eq]
        exact List.length_take_le _ _

end FirstBlocks

variable (before) in
/-- Assumes: an action that arranges each block of a list. One such action after another arranges all
of them. -/
theorem forStretches_achieves {act : Nat → Nat → Array α → Run (Array α)} (hwidth : 0 < width)
    (hxs : ∀ a ∈ xs, P a)
    (hact : ∀ {ys pre block post}, (∀ a ∈ ys, P a) → ys.toList = pre ++ block ++ post →
      (∃ k, block = (xs.toList.drop (k * width)).take width) →
      Achieves I (Arranges P before pre block post) (act pre.length (pre.length + block.length) ys)) :
    Achieves I (fun ys ↦ Rearranged P before xs.toList ys.toList ∧ InBlocks before width ys.toList)
      (forStretches width xs.size act xs) := by
  have hcount (k : Nat) : k < (xs.size + width - 1) / width ↔ k * width < xs.size := by
    have h := Nat.le_div_iff_mul_le hwidth (x := k + 1) (y := xs.size + width - 1)
    rw [Nat.succ_mul] at h
    omega
  have hpasses := Achieves.foldlM_range (I := I)
    (fun k ys ↦ ∃ done, FirstBlocks P before width xs.toList k done ys)
    (fun ys k ↦ act (k * width) (min xs.size ((k + 1) * width)) ys) xs
    ((xs.size + width - 1) / width) ?_ ?_
  · refine hpasses.mono fun ys ⟨done, hblocks⟩ ↦ ⟨hblocks.rearranged, hblocks.inBlocks ?_⟩
    have h := (hcount ((xs.size + width - 1) / width)).not.mp (Nat.lt_irrefl _)
    simpa using h
  · exact ⟨[], by simp, by simpa using Rearranged.refl [], fun i hi ↦ absurd hi (Nat.not_lt_zero i)⟩
  · rintro k hk ys ⟨done, hblocks⟩
    have hstart : k * width ≤ xs.toList.length := by
      simpa using Nat.le_of_lt ((hcount k).mp hk)
    have hdone := hblocks.length_eq hstart
    have hrest : xs.toList.drop (k * width) =
        (xs.toList.drop (k * width)).take width ++ xs.toList.drop ((k + 1) * width) := by
      rw [Nat.succ_mul, ← List.drop_drop, List.take_append_drop]
    have hparts : ys.toList =
        done ++ (xs.toList.drop (k * width)).take width ++ xs.toList.drop ((k + 1) * width) := by
      rw [hblocks.parts, List.append_assoc, ← hrest]
    have hblock := hact (hblocks.rearranged.forall_mem hxs) hparts ⟨k, rfl⟩
    have hstop : done.length + ((xs.toList.drop (k * width)).take width).length =
        min xs.size ((k + 1) * width) := by
      rw [hdone, List.length_take, List.length_drop, Array.length_toList, Nat.succ_mul]
      rw [Array.length_toList] at hstart
      omega
    rw [hstop, hdone] at hblock
    exact hblock.mono fun zs ⟨s, hzs, hsorted⟩ ↦ ⟨done ++ s, hblocks.next hstart hsorted hzs⟩

theorem length_neighbour (k width : Nat) (l : List α) :
    ((l.drop (2 * k * width)).take width).length = width ∨
      (l.drop ((2 * k + 1) * width)).take width = [] := by
  have hplace : (2 * k + 1) * width = 2 * k * width + width := Nat.succ_mul _ _
  by_cases hlong : (2 * k + 1) * width ≤ l.length
  · left
    rw [List.length_take, List.length_drop]
    omega
  · right
    rw [List.drop_of_length_le (by omega), List.take_nil]

include hranks hless in
/-- Assumes: neighbouring arranged blocks, of which the first has the full width if there is a second.
They are merged if there is one. -/
theorem mergeNeighbours_achieves (hys : ∀ a ∈ ys, P a)
    (hparts : ys.toList = pre ++ (l ++ r) ++ post) (hwidth : 0 < width) (hl : Ordered before l)
    (hr : Ordered before r) (hlength : l.length ≤ width) (hfull : l.length = width ∨ r = []) :
    Achieves I (Arranges P before pre (l ++ r) post)
      (if pre.length + width < pre.length + (l ++ r).length then
        merge less ys.size pre.length (pre.length + width) (pre.length + (l ++ r).length) ys
      else pure ys) := by
  have hsize : l.length + r.length ≤ ys.size := by
    rw [← Array.length_toList, hparts]
    simp only [List.length_append]
    omega
  rw [List.length_append]
  have hadjacent : Adjacent P before pre l r post pre.length (pre.length + l.length)
      (pre.length + (l.length + r.length)) ys := ⟨hys, hparts, hl, hr, rfl, rfl, by omega⟩
  refine hadjacent.arranges_ite (fun hnot ↦ ?_) fun hwide ↦ ?_
  · refine .inr (hfull.elim (fun hsame ↦ List.length_eq_zero_iff.mp (by omega)) id)
  · have hsecond : r ≠ [] := by
      rintro rfl
      simp at hwide
      omega
    have hsame := hfull.resolve_right hsecond
    rw [← hsame]
    exact hadjacent.merge_achieves hranks hless ys.size (List.length_pos_iff.mp (by omega)) hsecond
      (by omega)

include hranks hless in
/-- Assumes: arranged blocks of a width. Merging them two by two arranges everything. -/
theorem mergeBlocks_achieves (fuel : Nat) (hwidth : 0 < width) (hfuel : xs.size ≤ width * twoTo fuel)
    (hxs : ∀ a ∈ xs, P a) (hblocks : InBlocks before width xs.toList) :
    Achieves I (fun ys ↦ StablySorted P before xs.toList ys.toList)
      (mergeBlocks less fuel width xs) := by
  induction fuel generalizing width xs with
  | zero => exact .pure (.refl (hblocks.ordered (by simpa using hfuel)))
  | succ fuel ih =>
    unfold mergeBlocks
    refine .ite (fun hwide ↦ ?_) fun hnarrow ↦
      .pure (.refl (hblocks.ordered (by simpa using Nat.not_lt.mp hnarrow)))
    refine Achieves.bind (forStretches_achieves before (by omega) hxs ?_) fun ys hys ↦ ?_
    · rintro ys pre block post hys hparts ⟨k, rfl⟩
      rw [take_two_blocks] at hparts ⊢
      exact mergeNeighbours_achieves hranks hless hys hparts hwidth (hblocks _) (hblocks _)
        (List.length_take_le _ _) (length_neighbour _ _ _)
    · obtain ⟨hmoved, hwider⟩ := hys
      have hsize : ys.size = xs.size := by simpa using hmoved.length_eq
      refine (ih (by omega) ?_ (hmoved.forall_mem hxs) hwider).mono fun zs hsorted ↦
        hmoved.sorted hsorted
      rw [twoTo_succ, Nat.mul_comm (twoTo fuel), ← Nat.mul_assoc, Nat.mul_comm width] at hfuel
      rwa [hsize]

include hranks hless in
/-- Sorting succeeds and gives the stable arrangement. -/
theorem sort_achieves (hxs : ∀ a ∈ xs, P a) :
    Achieves I (fun ys ↦ StablySorted P before xs.toList ys.toList) (sort less xs) := by
  refine Achieves.bind (forStretches_achieves before (by decide) hxs
    fun hys hparts _ ↦ insertionSort_achieves hranks hless hys hparts) fun ys ⟨hmoved, hblocks⟩ ↦ ?_
  have hlarge : ys.size < twoTo ys.size := Nat.lt_two_pow_self
  have hfuel : ys.size ≤ blockWidth * twoTo ys.size :=
    Nat.le_trans (Nat.le_of_lt hlarge) (Nat.le_mul_of_pos_left _ (by decide))
  have hmerged :=
    mergeBlocks_achieves hranks hless _ (by decide) hfuel (hmoved.forall_mem hxs) hblocks
  exact hmerged.mono fun zs hsorted ↦ hmoved.sorted hsorted

end Stretches

end Sorting

end TreeScript
