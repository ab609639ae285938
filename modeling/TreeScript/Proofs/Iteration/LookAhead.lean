import TreeScript.Store.Machine

/-!
# Looking ahead

An iterator that is asked whether it has another element takes it from its list, and keeps it until
it is handed out. None of this is seen from outside: what an iterator has yet to hand out does not
change when it is asked (`remaining_hasNext`), the answer is whether that is anything
(`hasNext_fst`), and the next element is the first of it (`next_eq`).
-/

set_option autoImplicit false

namespace TreeScript

namespace Iterator

theorem remaining_hasNext (it : Iterator) : it.hasNext.2.remaining = it.remaining := by
  obtain ⟨rest, peeked, done⟩ := it
  cases peeked with
  | some => rfl
  | none => cases done <;> cases rest <;> rfl

theorem hasNext_fst (it : Iterator) : it.hasNext.1 = !it.remaining.isEmpty := by
  obtain ⟨rest, peeked, done⟩ := it
  cases peeked with
  | some => rfl
  | none => cases done <;> cases rest <;> rfl

/-- An iterator that has another element is about to hand out the one it has taken. -/
theorem peeked_hasNext {it : Iterator} (h : it.hasNext.1 = true) :
    it.remaining.head? = it.hasNext.2.peeked ∧
      { it.hasNext.2 with peeked := none }.remaining = it.remaining.tail := by
  obtain ⟨rest, peeked, done⟩ := it
  cases peeked with
  | some => exact ⟨rfl, rfl⟩
  | none =>
    cases done with
    | true => cases h
    | false =>
      cases rest with
      | nil => cases h
      | cons => exact ⟨rfl, rfl⟩

/-- The next element is the first of those that are left, and the others are left then. -/
theorem next_eq (it : Iterator) :
    it.next.1 = it.remaining.head? ∧ it.next.2.remaining = it.remaining.tail := by
  unfold next
  dsimp only
  by_cases hfound : it.hasNext.1 = true
  · obtain ⟨hpeeked, hrest⟩ := peeked_hasNext hfound
    rw [if_pos hfound]
    exact ⟨hpeeked.symm, hrest⟩
  · rw [if_neg hfound]
    rw [hasNext_fst, Bool.not_eq_true, Bool.not_eq_false', List.isEmpty_iff] at hfound
    refine ⟨?_, (remaining_hasNext it).trans ?_⟩
    · rw [hfound, List.head?_nil]
    · rw [hfound, List.tail_nil]

@[simp]
theorem remaining_default : (default : Iterator).remaining = [] := rfl

theorem remaining_usedUp (it : Iterator) : it.usedUp.remaining = [] := rfl

end Iterator

end TreeScript
