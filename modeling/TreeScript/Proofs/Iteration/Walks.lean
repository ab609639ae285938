import TreeScript.Proofs.Objects.Entries
import TreeScript.Proofs.Objects.History

/-!
# What a walk through an object meets

A walk through an object takes one turn for each place of the block that the entries lay in at the
start (`forEntries_visits`), and finds there what lies there by then. A turn may change the object.
As long as no turn removes one of its keys, the walk meets the keys that were there at the start, in
their order, each of them once, and nothing else; if besides no turn puts another value under a key
that is there, it meets the very entries. The invariant is `Table.Along`: the entries at the start
are found in the block of the walk, whether or not the object has moved to another block meanwhile.

Removing a key moves the entries behind it in the block, so a walk whose turns do that passes over
entries, and comes to places at the end that have been left.
-/

set_option autoImplicit false

namespace TreeScript

/-! ### Turns -/

/-- A turn of a loop: the machine it starts on, the element it is about, and the machine it leaves. -/
structure Turn (α : Type) where
  before : Machine
  element : α
  after : Machine

/-- Turns that are taken one after the other lead from a state and a machine to others. -/
inductive Steps {σ α : Type} (act : σ → α → Run σ) :
    σ → Machine → List (Turn α) → σ → Machine → Prop
  | done {s : σ} {m : Machine} : Steps act s m [] s m
  | turn {s s' s'' : σ} {m m' m'' : Machine} {element : α} {turns : List (Turn α)}
      (hact : act s element m = .ok s' m') (hlater : Steps act s' m' turns s'' m'') :
      Steps act s m (⟨m, element, m'⟩ :: turns) s'' m''

/-- To go through a list is to take a turn with each of its elements. -/
theorem Steps.of_foldlM {σ α : Type} {act : σ → α → Run σ} {xs : List α} {s s' : σ}
    {m m' : Machine} (h : xs.foldlM act s m = .ok s' m') :
    ∃ turns, Steps act s m turns s' m' ∧ turns.map Turn.element = xs := by
  induction xs generalizing s m with
  | nil =>
    cases h
    exact ⟨[], .done, rfl⟩
  | cons x xs ih =>
    rw [List.foldlM_cons, Run.bind_eq_ok_iff] at h
    obtain ⟨state, n, hact, hrest⟩ := h
    obtain ⟨turns, hsteps, helements⟩ := ih hrest
    exact ⟨_, .turn hact hsteps, by rw [List.map_cons, helements]⟩

/-- What is true of everything an action does is true of the turns it takes. -/
theorem Steps.forall_turns {σ α : Type} {act : σ → α → Run σ} {P : Turn α → Prop} {s s' : σ}
    {m m' : Machine} {turns : List (Turn α)}
    (hact : ∀ {s s' : σ} {element : α} {n n' : Machine}, act s element n = .ok s' n' →
      P ⟨n, element, n'⟩)
    (h : Steps act s m turns s' m') : ∀ turn ∈ turns, P turn := by
  induction h with
  | done => exact fun _ hturn ↦ nomatch hturn
  | turn hfirst _ ih => exact List.forall_mem_cons.mpr ⟨hact hfirst, ih⟩

/-- All changes of cells and tables during a turn are of some kind. -/
def Turn.Changes {α : Type} (Kind : Machine → Change → Prop) (turn : Turn α) : Prop :=
  ∃ history, turn.before.Evolves history turn.after ∧ ∀ p ∈ history, Kind p.1 p.2

/-- A change does not remove a key of an object. -/
def Change.KeepsEntries (ref : TableRef) : Change → Prop
  | .remove target _ => target ≠ ref
  | _ => True

/-- A change removes no key of an object, and puts no value under a key that is there. -/
def Change.OnlyAdds (ref : TableRef) (m : Machine) : Change → Prop
  | .remove target _ => target ≠ ref
  | .enter target key _ => target = ref → m.lookUp ref key = none
  | .overwrite .. => True

theorem Change.OnlyAdds.keepsEntries {ref : TableRef} {m : Machine} {c : Change}
    (h : c.OnlyAdds ref m) : c.KeepsEntries ref := by
  cases c with
  | remove => exact h
  | overwrite | enter => exact trivial

/-! ### The block of a walk -/

namespace Table

variable {R : Entry → Entry → Prop} {walk : Walk} {entries : List Entry} {table : Table}

/-- Some entries, up to what is related to them, are found by a walk, and in the current block they
are not overtaken by the end of the object. -/
structure Along (R : Entry → Entry → Prop) (walk : Walk) (entries : List Entry) (table : Table) :
    Prop where
  block : walk.block ≤ table.retired.size
  length : walk.block = table.retired.size → entries.length ≤ table.size
  found : ∀ i entry, entries[i]? = some entry → ∃ other, table.entryAt walk i = some other ∧
    R entry other

/-- A walk that begins finds the entries there are. -/
theorem along_walk (hR : ∀ entry, R entry entry) (hfilled : table.size ≤ table.slots.size) :
    Along R table.walk table.entries table where
  block := Nat.le_refl _
  length _ := Nat.le_of_eq (length_entries_of_le hfilled)
  found i entry hentry := by
    refine ⟨entry, ?_, hR entry⟩
    unfold entryAt walk
    rw [if_pos rfl]
    exact (getElem?_entries_eq_some_iff.mp hentry).2

/-- What a walk finds before the end of the object it still finds when an entry is added there. -/
theorem entryAt_append {i : Nat} {other : Entry} (h : table.entryAt walk i = some other)
    (hblock : walk.block ≤ table.retired.size)
    (hbefore : walk.block = table.retired.size → i < table.size) (added : Entry) :
    (table.append added).entryAt walk i = some other := by
  unfold entryAt at h ⊢
  unfold append
  split
  · split
    · dsimp only
      split at h
      · rw [if_pos ‹_›, Array.getElem?_setIfInBounds_ne (Nat.ne_of_gt (hbefore ‹_›)), h]
      · rw [if_neg ‹_›, h]
    · dsimp only
      split at h
      · rw [if_pos ‹_›, Array.getElem?_push, if_neg, h]
        exact Nat.ne_of_lt (Array.getElem?_eq_some_iff.mp h).1
      · rw [if_neg ‹_›, h]
  · -- The object moves on, and the block stays behind as it is.
    have hmoved : walk.block ≠ (table.retired.push table.slots).size := by
      rw [Array.size_push]
      omega
    dsimp only
    rw [if_neg hmoved, Array.getElem?_push]
    split at h
    · rwa [if_pos ‹_›]
    · rwa [if_neg ‹_›]

theorem retired_append (table : Table) (added : Entry) :
    table.retired.size ≤ (table.append added).retired.size := by
  unfold append
  split
  · split <;> exact Nat.le_refl _
  · rw [Array.size_push]
    exact Nat.le_succ _

/-- An entry that is added behind the others is not met by a walk that has begun. -/
theorem Along.append (h : Along R walk entries table) (added : Entry) :
    Along R walk entries (table.append added) where
  block := Nat.le_trans h.block (retired_append table added)
  length hcurrent := by
    have hsame := Nat.le_antisymm h.block (hcurrent ▸ retired_append table added)
    have hlength := h.length hsame
    rw [size_append]
    omega
  found i entry hentry := by
    obtain ⟨other, hother, hrelated⟩ := h.found i entry hentry
    refine ⟨other, entryAt_append hother h.block (fun hcurrent ↦ ?_) added, hrelated⟩
    exact Nat.lt_of_lt_of_le (List.getElem?_eq_some_iff.mp hentry).1 (h.length hcurrent)

/-- Assumes: a value set under a key, which a walk takes if the key is there. It finds what it
found. -/
theorem Along.set (h : Along R walk entries table) (id : KeyId) (key value : CellRef)
    (hR : table.get? id ≠ none → ∀ entry other, R entry other → R entry { other with value }) :
    Along R walk entries (table.set id key value) := by
  cases hindex : table.index[id]? with
  | none =>
    rw [set_of_new hindex]
    have hplaced : Along R walk entries (table.withPlace id) := ⟨h.block, h.length, h.found⟩
    exact hplaced.append _
  | some place =>
    rw [set_of_known hindex]
    refine ⟨h.block, h.length, fun i entry hentry ↦ ?_⟩
    obtain ⟨other, hother, hrelated⟩ := h.found i entry hentry
    unfold entryAt at hother ⊢
    dsimp only
    split at hother
    · rw [if_pos ‹_›, Array.getElem?_modify, hother]
      split
      · rename_i hplace
        have hthere : table.get? id ≠ none := by
          unfold get?
          rw [hindex, Option.bind_some, hplace, hother]
          exact Option.some_ne_none _
        exact ⟨_, rfl, hR hthere entry other hrelated⟩
      · exact ⟨other, rfl, hrelated⟩
    · rw [if_neg ‹_›]
      exact ⟨other, hother, hrelated⟩

end Table

/-! ### Changes -/

/-- Assumes: slots for all entries of an object. A change of it keeps that so. -/
theorem Change.filled_onTable (c : Change) {m : Machine} {ref : TableRef} {table : Table}
    (hfilled : table.size ≤ table.slots.size) :
    (c.onTable m ref table).size ≤ (c.onTable m ref table).slots.size := by
  cases c with
  | overwrite cell content => exact hfilled
  | enter target key value =>
    unfold Change.onTable
    dsimp only
    split
    · cases hindex : table.index[m.keyId key]? with
      | none =>
        rw [Table.set_of_new hindex]
        have hplaced : (table.withPlace (m.keyId key)).size ≤
            (table.withPlace (m.keyId key)).slots.size := hfilled
        exact Table.size_slots_append hplaced _
      | some place =>
        rw [Table.set_of_known hindex, Array.size_modify]
        exact hfilled
    · exact hfilled
  | remove target key =>
    unfold Change.onTable
    dsimp only
    split
    · cases hindex : table.index[m.keyId key]? with
      | none =>
        unfold Table.erase
        rw [hindex]
        exact hfilled
      | some place =>
        obtain ⟨hsize, hslots⟩ := Table.InOrder.size_erase m.keyId hindex
        rw [hsize, hslots]
        exact Nat.le_trans (Nat.sub_le _ _) hfilled
    · exact hfilled

namespace Machine

variable {R : Entry → Entry → Prop} {walk : Table.Walk} {entries : List Entry} {m n : Machine}
  {ref : TableRef} {history : List (Machine × Change)}

/-- A change of an object that does not exist changes nothing about it. -/
theorem table_after_of_none (m : Machine) (c : Change) (hnone : m.tables.size ≤ ref.index) :
    (m.after c).table ref = m.table ref := by
  rw [table_of_missing hnone, table_of_missing (by rwa [(size_after m c).2])]

/-- Assumes: changes that remove no key of an object, and that put another value under a key that is
there only where a walk may take it. A walk through the object finds what it found. -/
theorem Evolves.along (h : m.Evolves history n) (hkeeps : ∀ p ∈ history, p.2.KeepsEntries ref)
    (hR : ∀ k key value, (k, Change.enter ref key value) ∈ history → k.lookUp ref key ≠ none →
      ∀ entry other, R entry other → R entry { other with value })
    (halong : (m.table ref).Along R walk entries) : (n.table ref).Along R walk entries := by
  induction h with
  | elsewhere hcells htables =>
    rwa [table_congr htables]
  | cell m content => exact halong
  | table m => rwa [table_withTable]
  | change m c =>
    by_cases hexists : ref.index < m.tables.size
    · rw [table_after m c hexists]
      cases c with
      | overwrite cell content => exact halong
      | enter target key value =>
        unfold Change.onTable
        dsimp only
        split
        · rename_i hsame
          subst hsame
          exact halong.set _ key value (hR m key value (List.mem_singleton_self _))
        · exact halong
      | remove target key =>
        have hother : target ≠ ref := hkeeps _ (List.mem_singleton_self _)
        unfold Change.onTable
        dsimp only
        rwa [if_neg hother]
    · rwa [table_after_of_none m c (Nat.le_of_not_lt hexists)]
  | trans _ _ ihfirst ihsecond =>
    refine ihsecond (fun p hp ↦ hkeeps p (List.mem_append_right _ hp))
      (fun k key value hp ↦ hR k key value (List.mem_append_right _ hp)) (ihfirst ?_ ?_ halong)
    · exact fun p hp ↦ hkeeps p (List.mem_append_left _ hp)
    · exact fun k key value hp ↦ hR k key value (List.mem_append_left _ hp)

/-- All objects have a slot for each of their entries. -/
def Filled (m : Machine) : Prop := ∀ ref, (m.table ref).size ≤ (m.table ref).slots.size

/-- However cells and tables change, there is a slot for each entry. -/
theorem Evolves.filled (h : m.Evolves history n) (hfilled : m.Filled) : n.Filled := by
  induction h with
  | elsewhere hcells htables =>
    intro ref
    rw [table_congr htables]
    exact hfilled ref
  | cell m content => exact hfilled
  | table m =>
    intro ref
    rw [table_withTable]
    exact hfilled ref
  | change m c =>
    intro ref
    by_cases hexists : ref.index < m.tables.size
    · rw [table_after m c hexists]
      exact c.filled_onTable (hfilled ref)
    · rw [table_after_of_none m c (Nat.le_of_not_lt hexists)]
      exact hfilled ref
  | trans _ _ ihfirst ihsecond => exact ihsecond (ihfirst hfilled)

end Machine

/-! ### Walks -/

section

variable {σ : Type} {act : σ → Entry → Run σ} {ref : TableRef} {walk : Table.Walk}
  {entries : List Entry} {m m' : Machine} {s s' : σ}

/-- What a walk does at a place: it acts on the entry it finds there, if there is one. -/
def visit (ref : TableRef) (walk : Table.Walk) (act : σ → Entry → Run σ) (s : σ) (i : Nat) :
    Run σ := do
  match (← tableOf ref).entryAt walk i with
  | some entry => act s entry
  | none => return s

/-- Assumes: turns during which a walk goes on finding some entries. From a place on, it takes one
turn for each entry from there on, in their order. -/
theorem steps_of_visits (count : Nat) {i : Nat} (hcount : i + count = entries.length)
    (h : (List.range' i count).foldlM (visit ref walk act) s m = .ok s' m') :
    ∃ turns, Steps act s m turns s' m' ∧ ∀ R : Entry → Entry → Prop,
      (∀ turn ∈ turns, (turn.before.table ref).Along R walk entries →
        (turn.after.table ref).Along R walk entries) → (m.table ref).Along R walk entries →
          List.Forall₂ R (entries.drop i) (turns.map Turn.element) := by
  induction count generalizing i s m with
  | zero =>
    cases h
    refine ⟨[], .done, fun _ _ _ ↦ ?_⟩
    rw [List.drop_of_length_le (by omega)]
    exact .nil
  | succ count ih =>
    rw [List.range'_succ, List.foldlM_cons, Run.bind_eq_ok_iff] at h
    obtain ⟨state, n, hvisit, hrest⟩ := h
    obtain ⟨turns, hsteps, hfound⟩ := ih (by omega) hrest
    have hi : i < entries.length := by omega
    have hread : tableOf ref m = .ok (m.table ref) m := rfl
    unfold visit at hvisit
    rw [Run.bind_ok hread] at hvisit
    cases hentry : (m.table ref).entryAt walk i with
    | none =>
      rw [hentry] at hvisit
      cases hvisit
      refine ⟨turns, hsteps, fun _ _ halong ↦ ?_⟩
      obtain ⟨other, hother, -⟩ := halong.found i _ (List.getElem?_eq_getElem hi)
      cases hentry.symm.trans hother
    | some entry =>
      rw [hentry] at hvisit
      refine ⟨⟨m, entry, n⟩ :: turns, .turn hvisit hsteps, fun R hturns halong ↦ ?_⟩
      obtain ⟨hfirst, hlater⟩ := List.forall_mem_cons.mp hturns
      obtain ⟨other, hother, hrelated⟩ := halong.found i _ (List.getElem?_eq_getElem hi)
      cases hentry.symm.trans hother
      rw [List.drop_eq_getElem_cons hi]
      exact .cons hrelated (hfound R hlater (hfirst halong))

/-- What the turns of a walk through an object meet: as long as none of them removes a key of the
object, the keys of some entries in their order, and as long as they only add to the object, these
entries themselves. -/
structure MeetsEntries (ref : TableRef) (entries : List Entry) (turns : List (Turn Entry)) : Prop where
  keys : (∀ turn ∈ turns, turn.Changes fun _ c ↦ c.KeepsEntries ref) →
    turns.map (·.element.key) = entries.map Entry.key
  entries : (∀ turn ∈ turns, turn.Changes fun k c ↦ c.OnlyAdds ref k) →
    turns.map Turn.element = entries

/-- Assumes: an object with a slot for each of its entries, and a walk through it that does not
fail. The walk takes its turns with the entries that were there at the start. -/
theorem forEntries_visits (hfilled : (m.table ref).size ≤ (m.table ref).slots.size)
    (h : forEntries ref s act m = .ok s' m') :
    ∃ turns, Steps act s m turns s' m' ∧ MeetsEntries ref (m.table ref).entries turns := by
  have hlength := Table.length_entries_of_le hfilled
  have hwalk : (List.range' 0 (m.table ref).size).foldlM (visit ref (m.table ref).walk act) s m =
      .ok s' m' := by
    rw [← List.range_eq_range']
    exact h
  obtain ⟨turns, hsteps, hmet⟩ := steps_of_visits _ (by rw [hlength, Nat.zero_add]) hwalk
  refine ⟨turns, hsteps, fun hkeeps ↦ ?_, fun honly ↦ ?_⟩
  · have hkeys := hmet (fun entry other ↦ entry.key = other.key) (fun turn hturn halong ↦ ?_)
      (Table.along_walk (fun _ ↦ rfl) hfilled)
    · rw [List.drop_zero, List.forall₂_map_right_iff] at hkeys
      have hmaps : List.Forall₂ Eq ((m.table ref).entries.map Entry.key)
          (turns.map fun turn ↦ turn.element.key) :=
        List.forall₂_map_left_iff.mpr (List.forall₂_map_right_iff.mpr hkeys)
      exact (List.forall₂_eq_eq_eq ▸ hmaps : _ = _).symm
    · obtain ⟨history, hevolves, hkept⟩ := hkeeps turn hturn
      exact hevolves.along hkept (fun _ _ _ _ _ _ _ hsame ↦ hsame) halong
  · have hentries := hmet Eq (fun turn hturn halong ↦ ?_) (Table.along_walk (fun _ ↦ rfl) hfilled)
    · rw [List.drop_zero] at hentries
      exact (List.forall₂_eq_eq_eq ▸ hentries : _ = _).symm
    · obtain ⟨history, hevolves, hadds⟩ := honly turn hturn
      refine hevolves.along (fun p hp ↦ ?_) (fun k key value hp hthere ↦ ?_) halong
      · exact (hadds p hp).keepsEntries
      · exact absurd (hadds _ hp rfl) hthere

end

end TreeScript
