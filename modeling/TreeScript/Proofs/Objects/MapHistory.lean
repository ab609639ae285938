import TreeScript.Proofs.Numbers.Rational
import TreeScript.Proofs.Objects.Entries
import TreeScript.Store.Display

/-!
# What has happened to a map

A map with an order is determined by what has happened to its keys. `MapEvent.stay?` reads off a
list of events, the latest first, whether a key is in the map, and if so since when, by which cell
it came in, and the value that was set under it last. Numbers that a map adds by itself lie above
all numbers among its keys (`MapEvent.stay?_nextNumber`).
-/

set_option autoImplicit false

namespace TreeScript

/-! ### The highest number -/

namespace Decimal

/-- The highest of some numbers and -1. -/
def highest (numbers : List Decimal) : Decimal :=
  numbers.foldl (fun highest d ↦ if highest.lt d then d else highest) (ofInt (-1))

/-- The highest of some numbers is one of them, and none of them is higher. -/
theorem foldl_highest (numbers : List Decimal) (start : Decimal) :
    let top := numbers.foldl (fun highest d ↦ if highest.lt d then d else highest) start
    top ∈ start :: numbers ∧ ∀ d ∈ start :: numbers, d.toRat ≤ top.toRat := by
  induction numbers generalizing start with
  | nil => simp
  | cons d numbers ih =>
    rw [List.foldl_cons]
    by_cases hless : start.lt d
    · rw [if_pos hless]
      obtain ⟨hmem, hbound⟩ := ih d
      refine ⟨List.mem_cons_of_mem _ hmem, fun other hother ↦ ?_⟩
      rcases List.mem_cons.mp hother with rfl | hother
      · exact (lt_iff.mp hless).le.trans (hbound d (List.mem_cons_self ..))
      · exact hbound other hother
    · rw [if_neg hless]
      obtain ⟨hmem, hbound⟩ := ih start
      refine ⟨?_, fun other hother ↦ ?_⟩
      · rcases List.mem_cons.mp hmem with hstart | hmem
        · exact List.mem_cons.mpr (.inl hstart)
        · exact List.mem_cons_of_mem _ (List.mem_cons_of_mem _ hmem)
      · rcases List.mem_cons.mp hother with rfl | hother
        · exact hbound _ (List.mem_cons_self ..)
        · rcases List.mem_cons.mp hother with rfl | hother
          · exact (not_lt.mp (mt lt_iff.mpr hless)).trans (hbound start (List.mem_cons_self ..))
          · exact hbound other (List.mem_cons_of_mem _ hother)

theorem le_highest {numbers : List Decimal} {d : Decimal} (hd : d ∈ numbers) :
    d.toRat ≤ (highest numbers).toRat :=
  (foldl_highest numbers _).2 d (List.mem_cons_of_mem _ hd)

/-- The highest number does not depend on the order in which numbers are listed. -/
theorem highest_congr {numbers others : List Decimal} (h : ∀ d, d ∈ numbers ↔ d ∈ others) :
    highest numbers = highest others := by
  have hmem : ∀ d, d ∈ ofInt (-1) :: numbers ↔ d ∈ ofInt (-1) :: others := by
    intro d
    rw [List.mem_cons, List.mem_cons, h]
  obtain ⟨hfirst, hbound⟩ := foldl_highest numbers (ofInt (-1))
  obtain ⟨hsecond, hbound'⟩ := foldl_highest others (ofInt (-1))
  exact toRat_injective
    (le_antisymm (hbound' _ ((hmem _).mp hfirst)) (hbound _ ((hmem _).mpr hsecond)))

end Decimal

theorem Machine.numberKey?_eq_some_iff {m : Machine} {cell : CellRef} {d : Decimal} :
    m.numberKey? cell = some d ↔ m.keyId cell = .number d := by
  unfold numberKey? keyId
  cases m.content cell <;> simp [Content.keyId]

/-- The number that a map makes a key of lies above the numbers among its keys. -/
theorem Machine.highestKey_eq (m : Machine) (ref : TableRef) :
    m.highestKey ref = Decimal.highest ((m.table ref).keys.filterMap m.numberKey?) := by
  unfold Machine.highestKey Decimal.highest
  rw [List.foldl_filterMap]
  congr 1
  funext highest key
  cases m.numberKey? key <;> rfl

/-! ### Events -/

/-- What happens to a key of a map. Keys are given by what they are, and by the cell that holds
them, unless the map makes that cell. -/
inductive MapEvent where
  | entered (id : KeyId) (key : Option CellRef) (value : CellRef)
  | removed (id : KeyId)

/-- A key in a map: when it came in, the cell it was given by then, and the value that was set under
it last. -/
structure Stay where
  since : Nat
  key : Option CellRef
  value : CellRef

namespace MapEvent

/-- What events, the latest first, leave of a key. A key that is entered again stays where it came
in. -/
def stay? : List MapEvent → KeyId → Option Stay
  | [], _ => none
  | .entered id key value :: past, other =>
    if id = other then
      some (((stay? past other).map fun stay ↦ { stay with value }).getD ⟨past.length, key, value⟩)
    else stay? past other
  | .removed id :: past, other => if id = other then none else stay? past other

/-- The numbers among the keys that events leave in a map. -/
def numbers (history : List MapEvent) : List Decimal :=
  history.filterMap fun
    | .entered (.number d) _ _ => if (stay? history (.number d)).isSome then some d else none
    | _ => none

/-- The number a map makes a key of when a value is added without one. -/
def nextNumber (history : List MapEvent) : Decimal :=
  Decimal.highest (numbers history) + Decimal.ofInt 1

variable {history : List MapEvent} {id other : KeyId}

section

variable {key : Option CellRef} {value : CellRef}

theorem stay?_entered_of_ne (hne : id ≠ other) :
    stay? (.entered id key value :: history) other = stay? history other := if_neg hne

theorem stay?_entered_self (history : List MapEvent) (id : KeyId) (key : Option CellRef)
    (value : CellRef) : stay? (.entered id key value :: history) id =
      some (((stay? history id).map fun stay ↦ { stay with value }).getD
        ⟨history.length, key, value⟩) :=
  if_pos rfl

theorem stay?_entered_of_none (hnone : stay? history id = none) :
    stay? (.entered id key value :: history) id = some ⟨history.length, key, value⟩ := by
  rw [stay?_entered_self, hnone]
  rfl

theorem stay?_entered_of_some {stay : Stay} (hstay : stay? history id = some stay) :
    stay? (.entered id key value :: history) id = some { stay with value } := by
  rw [stay?_entered_self, hstay]
  rfl

/-- To enter a value does not change since when the keys are there that are in a map. -/
theorem since_entered {stay : Stay} (hstay : stay? history other = some stay) :
    ∃ stay', stay? (.entered id key value :: history) other = some stay' ∧
      stay'.since = stay.since := by
  by_cases hsame : id = other
  · subst hsame
    exact ⟨_, stay?_entered_of_some hstay, rfl⟩
  · exact ⟨stay, (stay?_entered_of_ne hsame).trans hstay, rfl⟩

theorem stay?_removed_of_ne (hne : id ≠ other) :
    stay? (.removed id :: history) other = stay? history other := if_neg hne

theorem stay?_removed_self (history : List MapEvent) (id : KeyId) :
    stay? (.removed id :: history) id = none := if_pos rfl

end

/-- A key that is in a map was entered at some time. -/
theorem exists_entered {stay : Stay} (hstay : stay? history id = some stay) :
    ∃ key value, .entered id key value ∈ history := by
  induction history generalizing stay with
  | nil => cases hstay
  | cons event past ih =>
    cases event with
    | entered id' key value =>
      by_cases hsame : id' = id
      · exact ⟨key, value, hsame ▸ List.mem_cons_self ..⟩
      · rw [stay?_entered_of_ne hsame] at hstay
        obtain ⟨key, value, hmem⟩ := ih hstay
        exact ⟨key, value, List.mem_cons_of_mem _ hmem⟩
    | removed id' =>
      by_cases hsame : id' = id
      · rw [hsame, stay?_removed_self] at hstay
        cases hstay
      · rw [stay?_removed_of_ne hsame] at hstay
        obtain ⟨key, value, hmem⟩ := ih hstay
        exact ⟨key, value, List.mem_cons_of_mem _ hmem⟩

theorem mem_numbers_iff {d : Decimal} :
    d ∈ numbers history ↔ (stay? history (.number d)).isSome := by
  unfold numbers
  rw [List.mem_filterMap]
  constructor
  · rintro ⟨event, -, hevent⟩
    split at hevent
    · split at hevent
      · rename_i hpresent
        cases hevent
        exact hpresent
      · cases hevent
    · cases hevent
  · intro hpresent
    obtain ⟨stay, hstay⟩ := Option.isSome_iff_exists.mp hpresent
    obtain ⟨key, value, hmem⟩ := exists_entered hstay
    exact ⟨_, hmem, if_pos hpresent⟩

/-- The number that a map makes a key of is new to it, whatever its keys are. -/
theorem stay?_nextNumber (history : List MapEvent) :
    stay? history (.number (nextNumber history)) = none := by
  rw [← Option.not_isSome_iff_eq_none, ← mem_numbers_iff]
  intro hmem
  have hbound := Decimal.le_highest hmem
  unfold nextNumber at hbound
  rw [Decimal.toRat_add, Decimal.toRat_ofInt] at hbound
  norm_num at hbound

/-- A key came in before now. -/
theorem since_lt_length {stay : Stay} (hstay : stay? history id = some stay) :
    stay.since < history.length := by
  induction history generalizing stay with
  | nil => cases hstay
  | cons event past ih =>
    rw [List.length_cons]
    cases event with
    | entered id' key value =>
      by_cases hsame : id' = id
      · subst hsame
        cases hpast : stay? past id' with
        | none =>
          rw [stay?_entered_of_none hpast] at hstay
          cases hstay
          exact Nat.lt_succ_self _
        | some former =>
          rw [stay?_entered_of_some hpast] at hstay
          cases hstay
          have hformer := ih hpast
          exact Nat.lt_succ_of_lt hformer
      · rw [stay?_entered_of_ne hsame] at hstay
        exact Nat.lt_succ_of_lt (ih hstay)
    | removed id' =>
      by_cases hsame : id' = id
      · rw [hsame, stay?_removed_self] at hstay
        cases hstay
      · rw [stay?_removed_of_ne hsame] at hstay
        exact Nat.lt_succ_of_lt (ih hstay)

end MapEvent

end TreeScript
