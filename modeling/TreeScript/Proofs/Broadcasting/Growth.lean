import TreeScript.Operator.Apply
import TreeScript.Proofs.Objects.Copies

/-!
# New objects from old ones

A machine grows when cells and tables are added to it and nothing else happens (`Machine.Grown`). A
loop that makes one value of each entry of an object, each time on a grown machine, makes a new
object with the keys of the old one in their order; it fails exactly if one of the values cannot be
made, and then it leaves a grown machine behind as well (`mapValues_apply`).
-/

set_option autoImplicit false

namespace TreeScript

namespace Machine

/-- Cells and tables were added to a machine, and nothing else has changed. -/
structure Grown (m n : Machine) : Prop where
  cells : m.KeepsCells n
  size : m.tables.size ≤ n.tables.size
  table : ∀ ref : TableRef, ref.index < m.tables.size → n.table ref = m.table ref
  rest : { m with cells := n.cells, tables := n.tables } = n

/-- Cells, and the tables from some number on, are still there as they were. -/
structure KeepsFrom (first : Nat) (m n : Machine) : Prop where
  cells : m.KeepsCells n
  size : m.tables.size ≤ n.tables.size
  table : ∀ ref : TableRef, first ≤ ref.index → ref.index < m.tables.size →
    n.table ref = m.table ref

/-- Cells are still there as they were, and so are the tables but for one. -/
structure AltersOnly (m : Machine) (ref : TableRef) (n : Machine) : Prop where
  cells : m.KeepsCells n
  size : m.tables.size ≤ n.tables.size
  table : ∀ other : TableRef, other ≠ ref → other.index < m.tables.size →
    n.table other = m.table other

variable {m n k : Machine} {ref : TableRef} {first : Nat}

theorem Grown.refl (m : Machine) : m.Grown m := ⟨.refl m, Nat.le_refl _, fun _ _ ↦ rfl, rfl⟩

theorem Grown.trans (h : m.Grown n) (h' : n.Grown k) : m.Grown k := by
  refine ⟨h.cells.trans h'.cells, Nat.le_trans h.size h'.size, fun ref href ↦ ?_, ?_⟩
  · rw [h'.table ref (Nat.lt_of_lt_of_le href h.size), h.table ref href]
  · rw [← h'.rest, ← h.rest]

theorem Grown.keepsFrom (h : m.Grown n) (first : Nat) : KeepsFrom first m n :=
  ⟨h.cells, h.size, fun ref _ ↦ h.table ref⟩

theorem grown_withCell (m : Machine) (content : Content) : m.Grown (m.withCell content) :=
  ⟨keepsCells_withCell m content, Nat.le_refl _, fun _ _ ↦ rfl, rfl⟩

theorem grown_withTable (m : Machine) : m.Grown m.withTable := by
  refine ⟨keepsCells_of_eq rfl, ?_, fun ref _ ↦ table_withTable m ref, rfl⟩
  exact Nat.le_of_lt (size_lt_push _ _)

/-- What is entered in a table that is not old leaves a machine grown. -/
theorem Grown.enter (h : m.Grown n) (hnew : m.tables.size ≤ ref.index) (key value : CellRef) :
    m.Grown (n.after (.enter ref key value)) := by
  refine ⟨h.cells.trans (keepsCells_of_eq rfl),
    Nat.le_trans h.size (Nat.le_of_eq (size_after n _).2.symm),
    fun other hother ↦ ?_, ?_⟩
  · rw [table_enter_of_ne, h.table other hother]
    rintro rfl
    omega
  · rw [← h.rest]
    rfl

/-- Entering a value in a table adds no other one to any table. -/
theorem mem_values_enter {target ref : TableRef} {key value cell : CellRef}
    (h : cell ∈ ((m.after (.enter target key value)).table ref).values) :
    cell = value ∧ target = ref ∨ cell ∈ (m.table ref).values := by
  by_cases hexists : ref.index < m.tables.size
  · rw [table_after _ _ hexists] at h
    unfold Change.onTable at h
    dsimp only at h
    split at h
    · exact (Table.mem_values_set h).imp_left fun hcell ↦ ⟨hcell, ‹_›⟩
    · exact .inr h
  · rw [table_of_missing] at h
    · cases h
    · rw [(size_after m _).2]
      exact Nat.le_of_not_lt hexists

/-- What is entered in a table leaves the tables behind it as they were. -/
theorem keepsFrom_enter (m : Machine) (hbefore : ref.index < first) (key value : CellRef) :
    KeepsFrom first m (m.after (.enter ref key value)) := by
  refine ⟨keepsCells_of_eq rfl, Nat.le_of_eq (size_after m _).2.symm, fun other hother _ ↦ ?_⟩
  rw [table_enter_of_ne]
  rintro rfl
  omega

theorem KeepsFrom.altersOnly (h : KeepsFrom 0 m n) (ref : TableRef) : m.AltersOnly ref n :=
  ⟨h.cells, h.size, fun other _ ↦ h.table other (Nat.zero_le _)⟩

theorem AltersOnly.trans (h : m.AltersOnly ref n) (h' : n.AltersOnly ref k) : m.AltersOnly ref k :=
  ⟨h.cells.trans h'.cells, Nat.le_trans h.size h'.size, fun other hother hold ↦
    (h'.table other hother (Nat.lt_of_lt_of_le hold h.size)).trans (h.table other hother hold)⟩

/-- A change of a table leaves the cells and the other tables alone. -/
theorem altersOnly_after {c : Change} (hcells : (m.after c).cells = m.cells)
    (hc : ∀ other, other ≠ ref → c.onTable m other (m.table other) = m.table other) :
    m.AltersOnly ref (m.after c) :=
  ⟨keepsCells_of_eq hcells, Nat.le_of_eq (size_after m c).2.symm, fun other hother hexists ↦
    (table_after m c hexists).trans (hc other hother)⟩

theorem altersOnly_enter (m : Machine) (ref : TableRef) (key value : CellRef) :
    m.AltersOnly ref (m.after (.enter ref key value)) :=
  altersOnly_after rfl fun _ hother ↦ if_neg hother.symm

theorem altersOnly_remove (m : Machine) (ref : TableRef) (key : CellRef) :
    m.AltersOnly ref (m.after (.remove ref key)) :=
  altersOnly_after rfl fun _ hother ↦ if_neg hother.symm

/-- An object in order stays so while its table and the cells of its keys stay. -/
theorem Orderly.kept (h : m.Orderly ref) (hcells : m.KeepsCells n)
    (hsize : m.tables.size ≤ n.tables.size) (htable : n.table ref = m.table ref) :
    n.Orderly ref := by
  refine ⟨Nat.lt_of_lt_of_le h.table hsize, fun entry hentry ↦ ?_, ?_⟩
  · rw [htable] at hentry
    exact Nat.lt_of_lt_of_le (h.keys entry hentry) hcells.size
  · rw [htable]
    exact h.inOrder.congr fun entry hentry ↦ hcells.keyId (h.keys entry hentry)

theorem Grown.orderly (h : m.Grown n) (horderly : m.Orderly ref) : n.Orderly ref :=
  horderly.kept h.cells h.size (h.table ref horderly.table)

theorem Grown.tableOf? (h : m.Grown n) {cell : CellRef} (hcell : cell.index < m.cells.size) :
    n.tableOf? cell = m.tableOf? cell := by
  unfold Machine.tableOf?
  rw [h.cells.content cell hcell]

theorem Grown.object (h : m.Grown n) {cell : CellRef} (hobject : m.tableOf? cell = some ref) :
    n.tableOf? cell = some ref :=
  (h.tableOf? (bound_of_object (tableOf?_eq_some_iff.mp hobject))).trans hobject

end Machine

namespace Operator

variable {m n : Machine} {ref : TableRef}

/-- What an action does with an entry of an object on every machine grown from one: it only adds to
the machine it runs on, it gives a value exactly if a condition on the entry holds, and of that
value something holds. -/
structure MakesValues (m : Machine) (first : Nat) (act : CellRef → CellRef → Run CellRef)
    (Possible : Entry → Prop) (Made : Entry → CellRef → Machine → Prop) (entry : Entry) : Prop where
  grown : ∀ k, m.Grown k → k.Grown (Outcome.final (act entry.key entry.value k))
  possible : ∀ k, m.Grown k → ((∃ z k', act entry.key entry.value k = .ok z k') ↔ Possible entry)
  made : ∀ k, m.Grown k → first ≤ k.tables.size → ∀ z k',
    act entry.key entry.value k = .ok z k' → Made entry z k'

/-- An object that was made of some entries: the keys in their order, each with a value that was
made of its entry. -/
def MadeOf (Made : Entry → CellRef → Machine → Prop) (entries : List Entry) (out : TableRef)
    (n : Machine) : Prop :=
  List.Forall₂ (fun entry made ↦ made.key = entry.key ∧ Made entry made.value n) entries
    (n.table out).entries

section

variable {act : CellRef → CellRef → Run CellRef} {Possible : Entry → Prop}
  {Made : Entry → CellRef → Machine → Prop} {first : Nat} {out : TableRef} {k : Machine}
  {done entries : List Entry} {entry : Entry} {z : CellRef}

theorem MadeOf.keys (h : MadeOf Made entries out n) : (n.table out).keys = entries.map (·.key) := by
  unfold MadeOf Table.keys at *
  generalize (n.table out).entries = made at h
  induction h with
  | nil => rfl
  | cons hmade hrest ih => rw [List.map_cons, List.map_cons, hmade.1, ih]

/-- Each entry of an object was made of one of the entries it was made of. -/
theorem MadeOf.exists_entry (h : MadeOf Made entries out n) {made : Entry}
    (hmade : made ∈ (n.table out).entries) :
    ∃ entry ∈ entries, made.key = entry.key ∧ Made entry made.value n := by
  unfold MadeOf at h
  generalize (n.table out).entries = others at h hmade
  induction h with
  | nil => cases hmade
  | @cons entry other entries others hfirst hrest ih =>
    rcases List.mem_cons.mp hmade with rfl | hmade
    · exact ⟨entry, List.mem_cons_self .., hfirst⟩
    · obtain ⟨later, hlater, hsame⟩ := ih hmade
      exact ⟨later, List.mem_cons_of_mem _ hlater, hsame⟩

theorem MadeOf.kept (h : MadeOf Made entries out n)
    (hlasting : ∀ entry z k k', Made entry z k → Machine.KeepsFrom first k k' → Made entry z k')
    (hkept : Machine.KeepsFrom first n k) (htable : k.table out = n.table out) :
    MadeOf Made entries out k := by
  unfold MadeOf
  rw [htable]
  exact h.imp fun entry made hmade ↦ ⟨hmade.1, hlasting _ _ _ _ hmade.2 hkept⟩

/-- One round of the loop over the entries of an object. -/
def makeEntry (act : CellRef → CellRef → Run CellRef) (out : TableRef) (_ : Unit) (entry : Entry) :
    Run Unit := do
  let value ← act entry.key entry.value
  setEntry out entry.key value

/-- Assumes: an object made of some entries, and a value made of another one. Once it is entered,
the object is made of all of these. -/
theorem MadeOf.enter
    (hlasting : ∀ entry z k k', Made entry z k → Machine.KeepsFrom first k k' → Made entry z k')
    (hm : m.Grown k) (hfirst : out.index < first) (hout : k.Orderly out)
    (hmade : MadeOf Made done out k)
    (hz : Made entry z k) (hkeys : ∀ other ∈ done ++ [entry], other.key.index < m.cells.size)
    (hnew : ∀ other ∈ done, m.keyId other.key ≠ m.keyId entry.key) :
    MadeOf Made (done ++ [entry]) out (k.after (.enter out entry.key z)) := by
  have hid : ∀ other ∈ done ++ [entry], k.keyId other.key = m.keyId other.key :=
    fun other hother ↦ hm.cells.keyId (hkeys other hother)
  have hkept := Machine.keepsFrom_enter k hfirst entry.key z
  have hnone : (k.table out).get? (k.keyId entry.key) = none := by
    rw [hout.inOrder.get?_eq_none_iff]
    intro made hmem
    have hkey : made.key ∈ done.map (·.key) := hmade.keys ▸ List.mem_map_of_mem hmem
    obtain ⟨other, hother, hsame⟩ := List.mem_map.mp hkey
    rw [← hsame, hid other (List.mem_append_left _ hother),
      hid entry (List.mem_append_right _ (List.mem_singleton_self _))]
    exact hnew other hother
  have hentries : ((k.after (.enter out entry.key z)).table out).entries =
      (k.table out).entries ++ [⟨entry.key, z⟩] := hout.entries_enter hnone z
  unfold MadeOf
  rw [hentries]
  have hformer := List.Forall₂.imp
    (fun former made h ↦ And.intro h.1 (hlasting former made.value _ _ h.2 hkept)) hmade
  exact List.rel_append hformer (.cons ⟨rfl, hlasting _ _ _ _ hz hkept⟩ .nil)

/-- Assumes: an object made of the entries so far, and entries with other keys. The loop adds them
to the object, unless one of them gives no value. -/
theorem mapEntries_apply
    (hmakes : ∀ entry ∈ entries, MakesValues m first act Possible Made entry)
    (hlasting : ∀ entry z k k', Made entry z k → Machine.KeepsFrom first k k' → Made entry z k')
    (hm : m.Grown n) (hn : n.Grown k) (hnew : n.tables.size ≤ out.index)
    (hfirst : out.index < first) (hsize : first ≤ k.tables.size) (hout : k.Orderly out)
    (hmade : MadeOf Made done out k)
    (hkeys : ∀ entry ∈ done ++ entries, entry.key.index < m.cells.size)
    (hdistinct : ((done ++ entries).map fun entry ↦ m.keyId entry.key).Nodup) :
    n.Grown (Outcome.final (entries.foldlM (makeEntry act out) () k)) ∧
      ((∃ k', entries.foldlM (makeEntry act out) () k = .ok () k') ↔
        ∀ entry ∈ entries, Possible entry) ∧
      ∀ k', entries.foldlM (makeEntry act out) () k = .ok () k' →
        k'.Orderly out ∧ MadeOf Made (done ++ entries) out k' := by
  -- Each round moves an entry to those that are done, and what was made of these lasts.
  induction entries generalizing done k with
  | nil =>
    refine ⟨hn, ⟨fun _ ↦ nofun, fun _ ↦ ⟨k, rfl⟩⟩, fun k' hend ↦ ?_⟩
    cases hend
    rw [List.append_nil]
    exact ⟨hout, hmade⟩
  | cons entry entries ih =>
    have hmem : entry ∈ done ++ entry :: entries := List.mem_append_right _ (List.mem_cons_self ..)
    have hmakes' := hmakes entry (List.mem_cons_self ..)
    have hk := hm.trans hn
    have hgrown := hmakes'.grown k hk
    rw [List.foldlM_cons, List.forall_mem_cons, ← hmakes'.possible k hk]
    cases hact : act entry.key entry.value k with
    | error e k' =>
      rw [hact] at hgrown
      have hround : makeEntry act out () entry k = .error e k' := Run.bind_error hact
      rw [Run.bind_error hround]
      refine ⟨hn.trans hgrown, ⟨?_, ?_⟩, fun k' hend ↦ ?_⟩
      · rintro ⟨_, hend⟩
        cases hend
      · rintro ⟨⟨_, _, hend⟩, _⟩
        cases hend
      · cases hend
    | ok z k' =>
      rw [hact] at hgrown
      have hgrown : k.Grown k' := hgrown
      have hround : makeEntry act out () entry k = .ok () (k'.after (.enter out entry.key z)) :=
        Run.bind_ok hact
      have hsplit : done ++ entry :: entries = done ++ [entry] ++ entries := by simp
      have hkey : entry.key.index < k'.cells.size :=
        Nat.lt_of_lt_of_le (hkeys entry hmem) (hk.trans hgrown).cells.size
      rw [hsplit] at hkeys hdistinct
      have hmade' : MadeOf Made (done ++ [entry]) out (k'.after (.enter out entry.key z)) := by
        refine MadeOf.enter hlasting (hk.trans hgrown) hfirst (hgrown.orderly hout)
          (hmade.kept hlasting (hgrown.keepsFrom first) (hgrown.table out hout.table))
          (hmakes'.made k hk hsize z k' hact)
          (fun other hother ↦ hkeys other (List.mem_append_left _ hother))
          fun other hother hsame ↦ ?_
        rw [List.map_append, List.map_append, List.nodup_append, List.nodup_append] at hdistinct
        exact hdistinct.1.2.2 _ (List.mem_map_of_mem hother) _ (List.mem_singleton_self _) hsame
      have hsize' : first ≤ (k'.after (.enter out entry.key z)).tables.size := by
        rw [(Machine.size_after _ _).2]
        exact Nat.le_trans hsize hgrown.size
      obtain ⟨hall, hok, hend⟩ := ih
        (fun other hother ↦ hmakes other (List.mem_cons_of_mem _ hother))
        ((hn.trans hgrown).enter hnew entry.key z) hsize'
        ((hgrown.orderly hout).after fun _ ↦ hkey) hmade' hkeys hdistinct
      rw [Run.bind_ok hround, hsplit, hok]
      exact ⟨hall, ⟨fun h ↦ ⟨⟨z, k', rfl⟩, h⟩, fun h ↦ h.2⟩, hend⟩

/-- Assumes: an object in order, and a new one. What a walk through the first one does to the new
one leaves the entries that are still to come as they are. -/
theorem walk_makeEntry (horderly : m.Orderly ref) (hm : m.Grown k)
    (hout : m.tables.size ≤ out.index) (hexists : out.index < k.tables.size)
    (hmakes : ∀ entry ∈ (m.table ref).entries, MakesValues m first act Possible Made entry) :
    forEntries ref () (makeEntry act out) k =
      (m.table ref).entries.foldlM (makeEntry act out) () k := by
  refine forEntries_eq (I := fun k ↦ m.Grown k ∧ out.index < k.tables.size)
    (fun k hk ↦ hk.1.table ref horderly.table) horderly.inOrder.length_entries ?_ ⟨hm, hexists⟩ ()
  intro entry hentry state k state' k' hk hround
  obtain ⟨z, later, hact, hentered⟩ := Run.bind_eq_ok_iff.mp hround
  cases hentered
  have hadded : k.Grown later := by
    have hgrown := (hmakes entry hentry).grown k hk.1
    rwa [hact] at hgrown
  refine ⟨(hk.1.trans hadded).enter hout _ _, ?_⟩
  change out.index < (later.after (.enter out entry.key z)).tables.size
  rw [(Machine.size_after _ _).2]
  exact Nat.lt_of_lt_of_le hk.2 hadded.size

/-- Assumes: an action that makes values of the entries of an object in order, on every machine
grown from the one the object is on. To map the values of the object only adds to a machine, and
succeeds exactly if the action does for each entry. The result is a new object with the same keys in
the same order, and with the values that were made. -/
theorem mapValues_apply (horderly : m.Orderly ref) (hm : m.Grown n)
    (hmakes : ∀ entry ∈ (m.table ref).entries,
      MakesValues m (n.tables.size + 1) act Possible Made entry)
    (hlasting : ∀ entry z k k', Made entry z k → Machine.KeepsFrom (n.tables.size + 1) k k' →
      Made entry z k') :
    n.Grown (Outcome.final (mapValues ref act n)) ∧
      ((∃ z n', mapValues ref act n = .ok z n') ↔
        ∀ entry ∈ (m.table ref).entries, Possible entry) ∧
      ∀ z n', mapValues ref act n = .ok z n' →
        n'.content z = .object ⟨n.tables.size⟩ ∧ n'.Orderly ⟨n.tables.size⟩ ∧
          MadeOf Made (m.table ref).entries ⟨n.tables.size⟩ n' := by
  let out : TableRef := ⟨n.tables.size⟩
  have hcreated : newTable n = .ok out n.withTable := rfl
  have hcount : n.withTable.tables.size = n.tables.size + 1 := Array.size_push _
  have hempty : MadeOf Made [] out n.withTable := by
    unfold MadeOf
    rw [Machine.table_new]
    exact .nil
  have hnew : n.tables.size ≤ out.index := Nat.le_refl _
  have hkeys : ∀ entry ∈ [] ++ (m.table ref).entries, entry.key.index < m.cells.size :=
    horderly.keys
  obtain ⟨hgrown, hpossible, hend⟩ := mapEntries_apply hmakes hlasting hm n.grown_withTable hnew
    (Nat.lt_succ_self _) (Nat.le_of_eq hcount.symm) n.orderly_newTable hempty hkeys
    horderly.inOrder.nodup_ids
  have hwalk : forEntries ref () (makeEntry act out) n.withTable =
      (m.table ref).entries.foldlM (makeEntry act out) () n.withTable :=
    walk_makeEntry horderly (hm.trans n.grown_withTable) hm.size
      (Nat.lt_of_lt_of_eq (Nat.lt_succ_self _) hcount.symm) hmakes
  have hmap : mapValues ref act n =
      (forEntries ref () (makeEntry act out) >>= fun _ ↦ newObject out) n.withTable :=
    Run.bind_ok hcreated
  rw [hmap]
  cases hloop : (m.table ref).entries.foldlM (makeEntry act out) () n.withTable with
  | error e k =>
    rw [hloop] at hgrown hpossible
    rw [Run.bind_error (hwalk.trans hloop), ← hpossible]
    refine ⟨hgrown, ⟨?_, ?_⟩, fun z n' hresult ↦ ?_⟩
    · rintro ⟨_, _, hresult⟩
      cases hresult
    · rintro ⟨_, hresult⟩
      cases hresult
    · cases hresult
  | ok _ k =>
    rw [hloop] at hgrown hpossible
    have hgrown : n.Grown k := hgrown
    have hheld : newObject out k = .ok ⟨k.cells.size⟩ (k.withCell (.object out)) := rfl
    obtain ⟨horder, hmade⟩ := hend k hloop
    rw [Run.bind_ok (hwalk.trans hloop), hheld, ← hpossible]
    refine ⟨hgrown.trans (k.grown_withCell _), ⟨fun _ ↦ ⟨k, rfl⟩, fun _ ↦ ⟨_, _, rfl⟩⟩,
      fun z n' hresult ↦ ?_⟩
    cases hresult
    have hkept := (k.grown_withCell (.object out)).keepsFrom (n.tables.size + 1)
    exact ⟨k.content_new _, horder.withCell _, hmade.kept hlasting hkept rfl⟩

end

end Operator

end TreeScript
