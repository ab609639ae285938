import TreeScript.Proofs.Invariant
import TreeScript.Method.Object

/-!
# Sorting keeps the elements

Sorting only moves elements about. Whatever the test says, and whatever it does when it is asked,
what comes out is what went in, each element once (`sort_perm`).
-/

set_option autoImplicit false

namespace TreeScript.Sorting

variable {α β : Type} {less : α → α → Run Bool} {xs : Array α}

/-- A computation that moves the elements of an array about, if it does not fail. -/
abbrev Rearranges (xs : Array α) (x : Run (Array α)) : Prop :=
  Maintains (fun _ ↦ True) (fun ys ↦ ys.Perm xs) x

theorem spares_anything (x : Run β) : Spares (fun _ ↦ True) x := fun _ _ ↦ .of_final trivial

theorem Rearranges.trans {ys : Array α} {x : Run (Array α)} (h : Rearranges ys x)
    (hys : ys.Perm xs) : Rearranges xs x :=
  h.mono fun _ hzs ↦ hzs.trans hys

theorem rearranges_foldlM {step : Array α → β → Run (Array α)} {bs : List β}
    (h : ∀ ys, ∀ b ∈ bs, Rearranges ys (step ys b)) : Rearranges xs (bs.foldlM step xs) :=
  Maintains.foldlM (fun ys hys b hb ↦ (h ys b hb).trans hys) xs (.refl xs)

/-! ### Insertion -/

theorem swapIfInBounds_perm (xs : Array α) (i j : Nat) : (xs.swapIfInBounds i j).Perm xs := by
  rw [Array.swapIfInBounds_def]
  split
  · split
    · exact Array.swap_perm _ _
    · exact .refl xs
  · exact .refl xs

theorem sink_perm (count j : Nat) (xs : Array α) : Rearranges xs (sink less count j xs) := by
  induction count generalizing j xs with
  | zero => exact .pure (.refl xs)
  | succ count ih =>
    refine (spares_anything (lessAt less xs j (j - 1))).bind fun goesBefore ↦ ?_
    exact .ite (fun _ ↦ (ih _ _).trans (swapIfInBounds_perm xs _ _)) fun _ ↦ .pure (.refl xs)

theorem insertionSort_perm (start stop : Nat) (xs : Array α) :
    Rearranges xs (insertionSort less start stop xs) :=
  rearranges_foldlM fun ys _ _ ↦ sink_perm _ _ ys

/-! ### Merging -/

/-- Assumes: stretches that lie side by side. To exchange them keeps all elements. -/
theorem rotate_perm {start middle stop : Nat} (hstart : start ≤ middle) (hstop : middle ≤ stop)
    (xs : Array α) : (rotate start middle stop xs).Perm xs := by
  have hparts : xs.extract 0 start ++ xs.extract start middle ++ xs.extract middle stop ++
      xs.extract stop xs.size = xs := by
    simp only [Array.extract_append_extract, Nat.zero_min, Nat.max_eq_right hstart,
      Nat.max_eq_right hstop]
    exact Array.extract_eq_self_of_le (Nat.le_max_right _ _)
  rw [Array.perm_iff_toList_perm, rotate]
  conv => rhs; rw [← hparts]
  simp only [Array.toList_append, List.append_assoc]
  refine List.Perm.append_left _ ?_
  rw [← List.append_assoc, ← List.append_assoc]
  exact List.perm_append_comm.append_right _

/-- A search ends between its bounds. -/
theorem search_mem {test : Nat → Run Bool} (fuel : Nat) {i j : Nat} (hij : i ≤ j) :
    Maintains (fun _ ↦ True) (fun place ↦ i ≤ place ∧ place ≤ j) (search test fuel i j) := by
  induction fuel generalizing i j with
  | zero => exact .pure ⟨Nat.le_refl i, hij⟩
  | succ fuel ih =>
    unfold search
    refine .ite (fun hless ↦ ?_) fun _ ↦ .pure ⟨Nat.le_refl i, hij⟩
    refine (spares_anything (test _)).bind fun holds ↦ .ite (fun _ ↦ ?_) fun _ ↦ ?_
    · exact (ih (by omega)).mono fun place hplace ↦ by omega
    · exact (ih (by omega)).mono fun place hplace ↦ by omega

/-- Assumes: stretches that lie side by side. To merge them keeps all elements. -/
theorem merge_perm (fuel : Nat) {start middle stop : Nat} (hstart : start ≤ middle)
    (hstop : middle ≤ stop) (xs : Array α) :
    Rearranges xs (merge less fuel start middle stop xs) := by
  induction fuel generalizing start middle stop xs with
  | zero => exact .pure (.refl xs)
  | succ fuel ih =>
    unfold merge
    refine .ite (fun _ ↦ ?_) fun _ ↦ .ite (fun _ ↦ ?_) fun _ ↦ ?_
    · exact (search_mem _ hstop).bind fun place hplace ↦
        .pure (rotate_perm hstart hplace.1 xs)
    · exact (search_mem _ hstart).bind fun place hplace ↦
        .pure (rotate_perm hplace.2 hstop xs)
    · dsimp only
      refine (spares_anything _).bind fun first ↦ ?_
      generalize (start + stop) / 2 = half
      -- What changes places before the halves are merged, and then the merging of the second half.
      have hrotated : (if first < middle ∧ middle < half + middle - first then
          rotate first middle (half + middle - first) xs else xs).Perm xs := by
        split
        · exact rotate_perm (by omega) (by omega) xs
        · exact .refl xs
      have hsecond (ys : Array α) : Rearranges ys
          (if half < half + middle - first ∧ half + middle - first < stop then
            merge less fuel half (half + middle - first) stop ys else pure ys) :=
        .ite (fun hinside ↦ ih (by omega) (by omega) ys) fun _ ↦ .pure (.refl ys)
      refine .ite (fun hinside ↦ ?_) fun _ ↦ ?_
      · refine Rearranges.trans ?_ hrotated
        exact (ih (by omega) (by omega) _).bind fun ys hys ↦ (hsecond ys).trans hys
      · exact (hsecond _).trans hrotated

theorem forStretches_perm {width size : Nat} {act : Nat → Nat → Array α → Run (Array α)}
    (hact : ∀ start stop ys, Rearranges ys (act start stop ys)) (xs : Array α) :
    Rearranges xs (forStretches width size act xs) :=
  rearranges_foldlM fun ys _ _ ↦ hact _ _ ys

theorem mergeBlocks_perm (fuel width : Nat) (xs : Array α) :
    Rearranges xs (mergeBlocks less fuel width xs) := by
  induction fuel generalizing width xs with
  | zero => exact .pure (.refl xs)
  | succ fuel ih =>
    unfold mergeBlocks
    refine .ite (fun _ ↦ ?_) fun _ ↦ .pure (.refl xs)
    refine (forStretches_perm (fun start stop ys ↦ ?_) xs).bind fun ys hys ↦
      (ih _ ys).trans hys
    refine .ite (fun hinside ↦ ?_) fun _ ↦ .pure (.refl ys)
    exact merge_perm _ (Nat.le_add_right _ _) (Nat.le_of_lt hinside) ys

/-- Sorting gives the elements it is given, in another order. -/
theorem sort_perm (xs : Array α) : Rearranges xs (sort less xs) :=
  (forStretches_perm (fun start stop ys ↦ insertionSort_perm start stop ys) xs).bind fun ys hys ↦
    (mergeBlocks_perm _ _ ys).trans hys

/-- What sorting gives, if it does not fail, is what there was to sort. -/
theorem perm_of_sort {ys : Array α} {m n : Machine} (h : sort less xs m = .ok ys n) :
    ys.Perm xs := by
  have hkept : Rearranges xs (sort less xs) := sort_perm xs
  specialize hkept m trivial
  rw [h] at hkept
  cases hkept with
  | ok _ hperm => exact hperm

end TreeScript.Sorting
