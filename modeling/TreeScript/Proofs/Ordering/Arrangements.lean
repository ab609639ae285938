import Mathlib.Data.List.Basic
import Mathlib.Data.List.Permutation

/-!
# Stable arrangements

A test ranks elements if, of two of them, at most one goes before the other, and if what does not go
after an element does not go after any that this one does not go after (`Ranks`). Then a list has an
arrangement in which no element goes before an earlier one and in which those that are tied stand as
they stood (`StablySorted`).

Two arranged lists that lie side by side are arranged by exchanging the end of the first with the
beginning of the second, where the one belongs behind the other, and arranging both halves
(`StablySorted.of_exchange`). All that insertion and merging do is such an exchange.
-/

set_option autoImplicit false

namespace TreeScript

namespace Sorting

variable {α : Type}

/-- Of the elements with a property, none goes before one that goes before it, and what is at most
another is at most all that the other is at most. -/
structure Ranks (P : α → Prop) (before : α → α → Bool) : Prop where
  asymm {a b : α} : P a → P b → before a b = true → before b a = false
  trans {a b c : α} : P a → P b → P c → before b a = false → before c b = false →
    before c a = false

/-- Neither of two elements goes before the other. -/
def tied (before : α → α → Bool) (a b : α) : Bool := !before a b && !before b a

/-- No element goes before an earlier one. -/
def Ordered (before : α → α → Bool) (l : List α) : Prop := l.Pairwise fun a b ↦ before b a = false

/-- One list has the elements of another, and those that are tied stand as they do there. -/
structure Rearranged (P : α → Prop) (before : α → α → Bool) (former latter : List α) : Prop where
  perm : latter.Perm former
  stable : ∀ a, P a → latter.filter (tied before a) = former.filter (tied before a)

/-- The stable arrangement of a list. -/
structure StablySorted (P : α → Prop) (before : α → α → Bool) (former latter : List α) : Prop
    extends Rearranged P before former latter where
  ordered : Ordered before latter

variable {P : α → Prop} {before : α → α → Bool} {a b c : α} {l l' l₁ l₂ r r' r₁ r₂ s s₁ s₂ : List α}

namespace Ranks

theorem irrefl (h : Ranks P before) (ha : P a) : before a a = false := by
  by_contra hself
  rw [Bool.not_eq_false] at hself
  exact absurd (h.asymm ha ha hself) (by simp [hself])

/-- What goes before an element goes before all that the element is at most. -/
theorem before_of_before (h : Ranks P before) (ha : P a) (hb : P b) (hc : P c)
    (hab : before a b = true) (hbc : before c b = false) : before a c = true := by
  by_contra hac
  rw [Bool.not_eq_true] at hac
  exact absurd (h.trans hb hc ha hbc hac) (by simp [hab])

/-- What an element is at most comes after all that go before the element. -/
theorem before_of_le (h : Ranks P before) (ha : P a) (hb : P b) (hc : P c)
    (hab : before b a = false) (hbc : before b c = true) : before a c = true := by
  by_contra hac
  rw [Bool.not_eq_true] at hac
  exact absurd (h.trans hc ha hb hac hab) (by simp [hbc])

/-- What goes after instead of before ranks as well. -/
theorem flip (h : Ranks P before) : Ranks P fun a b ↦ before b a :=
  ⟨fun ha hb hab ↦ h.asymm hb ha hab, fun ha hb hc hab hbc ↦ h.trans hc hb ha hbc hab⟩

end Ranks

theorem tied_iff : tied before a b = true ↔ before a b = false ∧ before b a = false := by
  simp [tied]

/-- Of two elements that are tied with a third, none goes before the other. -/
theorem not_before_of_tied (h : Ranks P before) (ha : P a) (hb : P b) (hc : P c)
    (hab : tied before a b = true) (hac : tied before a c = true) : before b c = false := by
  rw [tied_iff] at hab hac
  exact h.trans hc ha hb hac.1 hab.2

namespace Rearranged

theorem refl (l : List α) : Rearranged P before l l := ⟨.refl l, fun _ _ ↦ rfl⟩

theorem trans (h : Rearranged P before l r) (h' : Rearranged P before r s) :
    Rearranged P before l s :=
  ⟨h'.perm.trans h.perm, fun a ha ↦ (h'.stable a ha).trans (h.stable a ha)⟩

theorem append (h : Rearranged P before l l') (h' : Rearranged P before r r') :
    Rearranged P before (l ++ r) (l' ++ r') :=
  ⟨h.perm.append h'.perm, fun a ha ↦ by
    rw [List.filter_append, List.filter_append, h.stable a ha, h'.stable a ha]⟩

theorem length_eq (h : Rearranged P before l r) : r.length = l.length := h.perm.length_eq

/-- Lists may be exchanged if all of the second goes before all of the first. -/
theorem exchange (hranks : Ranks P before) (hr : ∀ a ∈ r, P a) (hl : ∀ a ∈ l, P a)
    (hbefore : ∀ b ∈ r, ∀ a ∈ l, before b a = true) : Rearranged P before (l ++ r) (r ++ l) := by
  refine ⟨List.perm_append_comm, fun c hc ↦ ?_⟩
  rw [List.filter_append, List.filter_append]
  by_cases hnone : l.filter (tied before c) = []
  · rw [hnone, List.append_nil, List.nil_append]
  · -- One of the first list is tied with the element, and then none of the other is.
    obtain ⟨a, ha⟩ := List.exists_mem_of_ne_nil _ hnone
    obtain ⟨hmem, htied⟩ := List.mem_filter.mp ha
    have hother : r.filter (tied before c) = [] := by
      refine List.filter_eq_nil_iff.mpr fun b hb htied' ↦ ?_
      have hnot := not_before_of_tied hranks hc (hr b hb) (hl a hmem) htied' htied
      exact absurd (hbefore b hb a hmem) (by simp [hnot])
    rw [hother, List.append_nil, List.nil_append]

end Rearranged

theorem Ordered.left (h : Ordered before (l ++ r)) : Ordered before l := (List.pairwise_append.mp h).1

theorem Ordered.right (h : Ordered before (l ++ r)) : Ordered before r :=
  (List.pairwise_append.mp h).2.1

theorem Ordered.across (h : Ordered before (l ++ r)) : ∀ a ∈ l, ∀ b ∈ r, before b a = false :=
  (List.pairwise_append.mp h).2.2

/-- Everything in an arranged list is at most its last element. -/
theorem Ordered.le_last (h : Ordered before l) (hranks : Ranks P before) (hl : ∀ a ∈ l, P a)
    (hlast : b ∈ l.getLast?) (ha : a ∈ l) : before b a = false := by
  obtain ⟨front, rfl⟩ := List.getLast?_eq_some_iff.mp hlast
  rcases List.mem_append.mp ha with hfront | hsame
  · exact h.across a hfront b (by simp)
  · rw [List.mem_singleton.mp hsame]
    exact hranks.irrefl (hl b (by simp))

/-- The first element of an arranged list is at most everything in it. -/
theorem Ordered.first_le (h : Ordered before l) (hranks : Ranks P before) (hl : ∀ a ∈ l, P a)
    (hfirst : b ∈ l.head?) (ha : a ∈ l) : before a b = false := by
  obtain ⟨rest, rfl⟩ := List.head?_eq_some_iff.mp hfirst
  rcases List.mem_cons.mp ha with rfl | hrest
  · exact hranks.irrefl (hl a (by simp))
  · exact (List.pairwise_cons.mp h).1 a hrest

/-- If the last element of one arranged list is at most the first of another, everything in the one
is at most everything in the other. -/
theorem Ordered.le_of_ends (hranks : Ranks P before) (hmem : ∀ a ∈ l, P a) (hmem' : ∀ a ∈ r, P a)
    (hl : Ordered before l) (hr : Ordered before r)
    (hends : ∀ a ∈ l.getLast?, ∀ b ∈ r.head?, before b a = false) :
    ∀ a ∈ l, ∀ b ∈ r, before b a = false := by
  intro a ha b hb
  have hlast : l.getLast (List.ne_nil_of_mem ha) ∈ l.getLast? := List.getLast?_eq_some_getLast _
  have hfirst : r.head (List.ne_nil_of_mem hb) ∈ r.head? := List.head?_eq_some_head _
  have hbetween := hends _ hlast _ hfirst
  have hup := hranks.trans (hmem a ha) (hmem _ (List.getLast_mem _)) (hmem' _ (List.head_mem _))
    (hl.le_last hranks hmem hlast ha) hbetween
  exact hranks.trans (hmem a ha) (hmem' _ (List.head_mem _)) (hmem' b hb) hup
    (hr.first_le hranks hmem' hfirst hb)

/-- If the last element of one arranged list goes before the first of another, everything in the one
goes before everything in the other. -/
theorem Ordered.before_of_ends (hranks : Ranks P before) (hmem : ∀ a ∈ l, P a) (hmem' : ∀ a ∈ r, P a)
    (hl : Ordered before l) (hr : Ordered before r)
    (hends : ∀ a ∈ l.getLast?, ∀ b ∈ r.head?, before a b = true) :
    ∀ a ∈ l, ∀ b ∈ r, before a b = true := by
  intro a ha b hb
  have hlast : l.getLast (List.ne_nil_of_mem ha) ∈ l.getLast? := List.getLast?_eq_some_getLast _
  have hfirst : r.head (List.ne_nil_of_mem hb) ∈ r.head? := List.head?_eq_some_head _
  have hbetween := hends _ hlast _ hfirst
  have hup := hranks.before_of_le (hmem a ha) (hmem _ (List.getLast_mem _)) (hmem' _ (List.head_mem _))
    (hl.le_last hranks hmem hlast ha) hbetween
  exact hranks.before_of_before (hmem a ha) (hmem' _ (List.head_mem _)) (hmem' b hb) hup
    (hr.first_le hranks hmem' hfirst hb)

/-- Arranged lists make an arranged list if the end of the one is at most the beginning of the
other. -/
theorem Ordered.append (hranks : Ranks P before) (hmem : ∀ a ∈ l ++ r, P a) (hl : Ordered before l)
    (hr : Ordered before r) (hends : ∀ a ∈ l.getLast?, ∀ b ∈ r.head?, before b a = false) :
    Ordered before (l ++ r) :=
  List.pairwise_append.mpr ⟨hl, hr, Ordered.le_of_ends hranks (fun a ha ↦ hmem a (by simp [ha]))
    (fun a ha ↦ hmem a (by simp [ha])) hl hr hends⟩

theorem StablySorted.refl (h : Ordered before l) : StablySorted P before l l :=
  { Rearranged.refl l with ordered := h }

/-- The arrangement of a rearranged list is that of the list. -/
theorem Rearranged.sorted (h : Rearranged P before l r) (hsorted : StablySorted P before r s) :
    StablySorted P before l s :=
  { h.trans hsorted.toRearranged with ordered := hsorted.ordered }

/-- Assumes: two arranged lists, each of them cut in two. At the cuts, the last element of the first
beginning is at most the first of the second end, and the last of the second beginning goes before the
first of the first end. Then the beginnings and the ends can be arranged apart. -/
theorem StablySorted.of_exchange (hranks : Ranks P before) (hmem : ∀ a ∈ l₁ ++ l₂ ++ (r₁ ++ r₂), P a)
    (hl : Ordered before (l₁ ++ l₂)) (hr : Ordered before (r₁ ++ r₂))
    (hle : ∀ a ∈ l₁.getLast?, ∀ b ∈ r₂.head?, before b a = false)
    (hbefore : ∀ a ∈ r₁.getLast?, ∀ b ∈ l₂.head?, before a b = true)
    (hfirst : StablySorted P before (l₁ ++ r₁) s₁) (hsecond : StablySorted P before (l₂ ++ r₂) s₂) :
    StablySorted P before (l₁ ++ l₂ ++ (r₁ ++ r₂)) (s₁ ++ s₂) := by
  have hl₁ : ∀ a ∈ l₁, P a := fun a ha ↦ hmem a (by simp [ha])
  have hl₂ : ∀ a ∈ l₂, P a := fun a ha ↦ hmem a (by simp [ha])
  have hr₁ : ∀ a ∈ r₁, P a := fun a ha ↦ hmem a (by simp [ha])
  have hr₂ : ∀ a ∈ r₂, P a := fun a ha ↦ hmem a (by simp [ha])
  have hahead := Ordered.le_of_ends hranks hl₁ hr₂ hl.left hr.right hle
  have hbehind := Ordered.before_of_ends hranks hr₁ hl₂ hr.left hl.right hbefore
  have hmoved : Rearranged P before (l₁ ++ l₂ ++ (r₁ ++ r₂)) (l₁ ++ r₁ ++ (l₂ ++ r₂)) := by
    have hinner := Rearranged.exchange hranks hr₁ hl₂ hbehind
    have h := ((Rearranged.refl l₁).append hinner).append (Rearranged.refl r₂)
    simpa only [List.append_assoc] using h
  refine hmoved.sorted { hfirst.toRearranged.append hsecond.toRearranged with ordered := ?_ }
  refine List.pairwise_append.mpr ⟨hfirst.ordered, hsecond.ordered, fun a ha b hb ↦ ?_⟩
  rcases List.mem_append.mp (hfirst.perm.mem_iff.mp ha) with ha | ha <;>
    rcases List.mem_append.mp (hsecond.perm.mem_iff.mp hb) with hb | hb
  · exact hl.across a ha b hb
  · exact hahead a ha b hb
  · exact hranks.asymm (hr₁ a ha) (hl₂ b hb) (hbehind a ha b hb)
  · exact hr.across a ha b hb

/-- Assumes: values of elements, each of which some element has. If the elements are arranged by their
values, so are the values. -/
theorem StablySorted.map {β : Type} {f : β → α} (hf : ∀ a, ∃ b, f b = a) {former latter : List β}
    (h : StablySorted (fun b ↦ P (f b)) (fun b c ↦ before (f b) (f c)) former latter) :
    StablySorted P before (former.map f) (latter.map f) where
  perm := h.perm.map f
  stable a ha := by
    obtain ⟨b, rfl⟩ := hf a
    have hvalues : tied before (f b) ∘ f = tied (fun b c ↦ before (f b) (f c)) b := rfl
    rw [List.filter_map, List.filter_map, hvalues, h.stable b ha]
  ordered := List.pairwise_map.mpr h.ordered

/-! ### The first best element -/

/-- Two elements of which the second goes before the first are turned around. -/
theorem StablySorted.pair (h : StablySorted P before [a, b] l) (hba : before b a = true) :
    l = [b, a] := by
  rcases List.perm_pair.mp h.perm with rfl | rfl
  · have hordered := List.pairwise_pair.mp h.ordered
    rw [hba] at hordered
    cases hordered
  · rfl

/-- An element that is better than all earlier ones, and than which no later one is better. -/
def IsFirstBest (better : α → α → Bool) (l : List α) (best : α) : Prop :=
  ∃ earlier later, l = earlier ++ best :: later ∧ (∀ b ∈ earlier, better best b = true) ∧
    ∀ b ∈ later, better b best = false

theorem IsFirstBest.mem (h : IsFirstBest before l a) : a ∈ l := by
  obtain ⟨earlier, later, rfl, -, -⟩ := h
  simp

/-- Nothing in a list is better than its first best element. -/
theorem IsFirstBest.not_better (h : IsFirstBest before l a) (hranks : Ranks P before)
    (hl : ∀ b ∈ l, P b) (hb : b ∈ l) : before b a = false := by
  have ha := hl a h.mem
  obtain ⟨earlier, later, rfl, hearlier, hlater⟩ := h
  rcases List.mem_append.mp hb with hb' | hb'
  · exact hranks.asymm ha (hl b hb) (hearlier b hb')
  · rcases List.mem_cons.mp hb' with rfl | hb'
    · exact hranks.irrefl ha
    · exact hlater b hb'

/-- One more element is the first best one if it is better than that of the others. -/
theorem IsFirstBest.next (h : IsFirstBest before l a) (hranks : Ranks P before)
    (hl : ∀ c ∈ l, P c) (hb : P b) :
    IsFirstBest before (l ++ [b]) (if before b a then b else a) := by
  have ha := hl a h.mem
  by_cases hbetter : before b a = true
  · rw [if_pos hbetter]
    refine ⟨l, [], rfl, fun c hc ↦ ?_, nofun⟩
    exact hranks.before_of_before hb ha (hl c hc) hbetter (h.not_better hranks hl hc)
  · rw [if_neg hbetter]
    obtain ⟨earlier, later, rfl, hearlier, hlater⟩ := h
    refine ⟨earlier, later ++ [b], by simp, hearlier, fun c hc ↦ ?_⟩
    rcases List.mem_append.mp hc with hc | hc
    · exact hlater c hc
    · rwa [List.mem_singleton.mp hc, ← Bool.not_eq_true]

end Sorting

end TreeScript
