import TreeScript.Proofs.Objects.Copies
import TreeScript.Proofs.Objects.MapHistory
import TreeScript.Store.Compare

/-!
# Objects are maps with an order

A program sets, removes and adds keys of a map, makes copies of it, and goes on with all of them.
What has happened to each is a list of events (`MapStep.record`), which only the steps on that map
add to. However the steps are mixed, none of them fails, and every map shows what its events say: a
key leads to the value that was set under it last and not removed since, and the keys stand in the
order in which they came in (`maps_keep_insertion_order`). One step keeps this
(`MapAction.run_follows`): to replace a value keeps the place of the key, to remove a key keeps the
order of the others, and a value that is added without a key gets one that is not in the map.
-/

set_option autoImplicit false

namespace TreeScript

open MapEvent

/-! ### Maps and their events -/

namespace Machine

/-- A key came into a map before another one, and both are in it. -/
def Before (history : List MapEvent) (id other : KeyId) : Prop :=
  ∃ stay stay', stay? history id = some stay ∧ stay? history other = some stay' ∧
    stay.since < stay'.since

/-- The table of an object has an entry for each key that events leave, and no others, in the order
in which the keys came in. -/
structure Follows (m : Machine) (ref : TableRef) (history : List MapEvent) : Prop where
  orderly : m.Orderly ref
  listed : ∀ entry ∈ (m.table ref).entries, ∃ stay,
    stay? history (m.keyId entry.key) = some stay ∧ entry.value = stay.value ∧
      ∀ key, stay.key = some key → entry.key = key
  complete : ∀ id stay, stay? history id = some stay →
    ∃ entry ∈ (m.table ref).entries, m.keyId entry.key = id
  sorted : (m.table ref).entries.Pairwise fun a b ↦ Before history (m.keyId a.key) (m.keyId b.key)

variable {m n : Machine} {ref : TableRef} {history : List MapEvent}

/-- What keys lead to is what events leave under them. -/
theorem Follows.get? (h : m.Follows ref history) (id : KeyId) :
    (m.table ref).get? id = (stay? history id).map (·.value) := by
  cases hstay : stay? history id with
  | none =>
    rw [Option.map_none, h.orderly.inOrder.get?_eq_none_iff]
    rintro entry hentry rfl
    obtain ⟨stay, hlisted, -⟩ := h.listed entry hentry
    cases hlisted.symm.trans hstay
  | some stay =>
    obtain ⟨entry, hentry, rfl⟩ := h.complete id stay hstay
    obtain ⟨stay', hlisted, hvalue, -⟩ := h.listed entry hentry
    cases hlisted.symm.trans hstay
    rw [h.orderly.inOrder.get?_of_mem_entries hentry, hvalue]
    rfl

/-- A map follows the events of another one with the same entries. -/
theorem Follows.of_entries {other : TableRef} (h : m.Follows ref history)
    (horderly : n.Orderly other)
    (hentries : (n.table other).entries = (m.table ref).entries)
    (hkeys : ∀ entry ∈ (m.table ref).entries, n.keyId entry.key = m.keyId entry.key) :
    n.Follows other history := by
  refine ⟨horderly, fun entry hentry ↦ ?_, fun id stay hstay ↦ ?_, ?_⟩
  · rw [hentries] at hentry
    rw [hkeys entry hentry]
    exact h.listed entry hentry
  · obtain ⟨entry, hentry, hid⟩ := h.complete id stay hstay
    exact ⟨entry, hentries ▸ hentry, (hkeys entry hentry).trans hid⟩
  · rw [hentries]
    refine h.sorted.imp_of_mem fun {a b} ha hb hbefore ↦ ?_
    rwa [hkeys a ha, hkeys b hb]

/-- A map that has nothing done to it follows its events while other cells and tables come and
change. -/
theorem Follows.frame (h : m.Follows ref history) (htable : n.table ref = m.table ref)
    (hexists : ref.index < n.tables.size) (hcells : m.cells.size ≤ n.cells.size)
    (hcontent : ∀ cell : CellRef, cell.index < m.cells.size → n.content cell = m.content cell) :
    n.Follows ref history := by
  have hkeys : ∀ entry ∈ (m.table ref).entries, n.keyId entry.key = m.keyId entry.key := by
    intro entry hentry
    unfold keyId
    rw [hcontent _ (h.orderly.keys entry hentry)]
  have horderly : n.Orderly ref := by
    refine ⟨hexists, fun entry hentry ↦ ?_, ?_⟩
    · rw [htable] at hentry
      exact Nat.lt_of_lt_of_le (h.orderly.keys entry hentry) hcells
    · rw [htable]
      exact h.orderly.inOrder.congr hkeys
  exact h.of_entries horderly (by rw [htable]) hkeys

/-- A new map has no keys. -/
theorem follows_newTable (m : Machine) : m.withTable.Follows ⟨m.tables.size⟩ [] := by
  have hempty : (m.withTable.table ⟨m.tables.size⟩).entries = [] := by
    rw [table_new]
    rfl
  refine ⟨m.orderly_newTable, fun entry hentry ↦ ?_, fun id stay hstay ↦ ?_, ?_⟩
  · rw [hempty] at hentry
    cases hentry
  · cases hstay
  · rw [hempty]
    exact .nil

/-! ### Single changes -/

/-- Which of two keys came first stays so while a value is entered. -/
theorem Before.entered {id other third : KeyId} (h : Before history id other)
    (given : Option CellRef) (value : CellRef) :
    Before (.entered third given value :: history) id other := by
  obtain ⟨stay, stay', hfirst, hsecond, hless⟩ := h
  obtain ⟨later, hlater, hsame⟩ := since_entered hfirst
  obtain ⟨later', hlater', hsame'⟩ := since_entered hsecond
  exact ⟨later, later', hlater, hlater', by rw [hsame, hsame']; exact hless⟩

section

variable {key : CellRef} {given : Option CellRef}

/-- A value that is entered under a key that is not in a map comes behind all others. -/
theorem Follows.enter_new (h : m.Follows ref history) (hkey : key.index < m.cells.size)
    (hgiven : ∀ cell, given = some cell → cell = key) (value : CellRef)
    (hnew : stay? history (m.keyId key) = none) :
    (m.after (.enter ref key value)).Follows ref
      (.entered (m.keyId key) given value :: history) := by
  have hnone : (m.table ref).get? (m.keyId key) = none := by
    rw [h.get?, hnew]
    rfl
  have hentries : ((m.after (.enter ref key value)).table ref).entries =
      (m.table ref).entries ++ [⟨key, value⟩] := h.orderly.entries_enter hnone value
  have hdifferent : ∀ entry ∈ (m.table ref).entries, m.keyId key ≠ m.keyId entry.key :=
    fun entry hentry hsame ↦ h.orderly.inOrder.get?_eq_none_iff.mp hnone entry hentry hsame.symm
  have hself : stay? (.entered (m.keyId key) given value :: history) (m.keyId key) =
      some ⟨history.length, given, value⟩ := stay?_entered_of_none hnew
  refine ⟨h.orderly.after fun _ ↦ hkey, fun entry hentry ↦ ?_, fun id stay hid ↦ ?_, ?_⟩
  · rw [hentries, List.mem_append, List.mem_singleton] at hentry
    rcases hentry with hentry | rfl
    · obtain ⟨stay, hlisted, hrest⟩ := h.listed entry hentry
      exact ⟨stay, (stay?_entered_of_ne (hdifferent entry hentry)).trans hlisted, hrest⟩
    · exact ⟨_, hself, rfl, fun cell hcell ↦ (hgiven cell hcell).symm⟩
  · rw [hentries]
    by_cases hsame : m.keyId key = id
    · exact ⟨_, List.mem_append_right _ (List.mem_singleton_self _), hsame⟩
    · obtain ⟨entry, hentry, hid'⟩ :=
        h.complete id stay ((stay?_entered_of_ne hsame).symm.trans hid)
      exact ⟨entry, List.mem_append_left _ hentry, hid'⟩
  · rw [hentries, List.pairwise_append]
    refine ⟨h.sorted.imp fun hbefore ↦ hbefore.entered given value, List.pairwise_singleton _ _,
      fun a ha b hb ↦ ?_⟩
    obtain ⟨stay, hlisted, -⟩ := h.listed a ha
    rw [List.mem_singleton.mp hb]
    exact ⟨stay, _, (stay?_entered_of_ne (hdifferent a ha)).trans hlisted, hself,
      since_lt_length hlisted⟩

/-- A value that is entered under a key that is in a map replaces the one there, where it stands. -/
theorem Follows.enter_known (h : m.Follows ref history) (hkey : key.index < m.cells.size)
    (value : CellRef) {former : Stay} (hknown : stay? history (m.keyId key) = some former) :
    (m.after (.enter ref key value)).Follows ref
      (.entered (m.keyId key) given value :: history) := by
  let rewritten (entry : Entry) : Entry :=
    if m.keyId entry.key = m.keyId key then { entry with value } else entry
  have hfound : (m.table ref).get? (m.keyId key) ≠ none := by
    rw [h.get?, hknown]
    exact Option.some_ne_none _
  have hentries : ((m.after (.enter ref key value)).table ref).entries =
      (m.table ref).entries.map rewritten := by
    rw [h.orderly.table_enter, h.orderly.inOrder.entries_set_of_mem hfound]
  have hkept (entry : Entry) : (rewritten entry).key = entry.key := by
    dsimp only [rewritten]
    split <;> rfl
  refine ⟨h.orderly.after fun _ ↦ hkey, fun entry hentry ↦ ?_, fun id stay hid ↦ ?_, ?_⟩
  · rw [hentries] at hentry
    obtain ⟨entry, hbefore, rfl⟩ := List.mem_map.mp hentry
    obtain ⟨stay, hlisted, hvalue, horigin⟩ := h.listed entry hbefore
    rw [hkept]
    change ∃ stay, stay? _ (m.keyId entry.key) = some stay ∧ _
    by_cases hsame : m.keyId entry.key = m.keyId key
    · rw [hsame] at hlisted ⊢
      refine ⟨_, stay?_entered_of_some hlisted, ?_, horigin⟩
      dsimp only [rewritten]
      rw [if_pos hsame]
    · refine ⟨stay, (stay?_entered_of_ne (Ne.symm hsame)).trans hlisted, ?_, horigin⟩
      dsimp only [rewritten]
      rw [if_neg hsame]
      exact hvalue
  · have hpresent : ∃ stay, stay? history id = some stay := by
      by_cases hsame : m.keyId key = id
      -- The key was there before, with another value.
      · exact ⟨former, hsame ▸ hknown⟩
      · exact ⟨stay, (stay?_entered_of_ne hsame).symm.trans hid⟩
    obtain ⟨former', hformer⟩ := hpresent
    obtain ⟨entry, hentry, hid'⟩ := h.complete id former' hformer
    rw [hentries]
    refine ⟨_, List.mem_map_of_mem hentry, ?_⟩
    rw [hkept]
    exact hid'
  · rw [hentries, List.pairwise_map]
    refine h.sorted.imp fun {a b} hbefore ↦ ?_
    rw [hkept, hkept]
    exact hbefore.entered given value

/-- To enter a value under a key that is not in a map puts it behind all others; to enter it under
one that is replaces the value where the key stands. -/
theorem Follows.enter (h : m.Follows ref history) (hkey : key.index < m.cells.size)
    (hgiven : ∀ cell, given = some cell → cell = key) (value : CellRef) :
    (m.after (.enter ref key value)).Follows ref
      (.entered (m.keyId key) given value :: history) := by
  cases hstay : stay? history (m.keyId key) with
  | none => exact h.enter_new hkey hgiven value hstay
  | some former => exact h.enter_known hkey value hstay

end

/-- To remove a key from a map leaves the others in their order. -/
theorem Follows.remove (h : m.Follows ref history) (key : CellRef) :
    (m.after (.remove ref key)).Follows ref (.removed (m.keyId key) :: history) := by
  have horderly : (m.after (.remove ref key)).Orderly ref := h.orderly.after trivial
  have hentries := h.orderly.entries_remove key
  have hmem {entry : Entry} : entry ∈ ((m.after (.remove ref key)).table ref).entries ↔
      entry ∈ (m.table ref).entries ∧ m.keyId key ≠ m.keyId entry.key := by
    rw [hentries, List.mem_filter, decide_eq_true_eq, ne_comm]
  refine ⟨horderly, fun entry hentry ↦ ?_, fun id stay hid ↦ ?_, ?_⟩
  · obtain ⟨hformer, hne⟩ := hmem.mp hentry
    obtain ⟨stay, hlisted, hrest⟩ := h.listed entry hformer
    exact ⟨stay, (stay?_removed_of_ne hne).trans hlisted, hrest⟩
  · by_cases hsame : m.keyId key = id
    · subst hsame
      cases (stay?_removed_self history _).symm.trans hid
    · obtain ⟨entry, hentry, rfl⟩ :=
        h.complete id stay ((stay?_removed_of_ne hsame).symm.trans hid)
      exact ⟨entry, hmem.mpr ⟨hentry, hsame⟩, rfl⟩
  · have hsorted : ((m.after (.remove ref key)).table ref).entries.Pairwise fun a b ↦
        Before history (m.keyId a.key) (m.keyId b.key) := by
      rw [hentries]
      exact h.sorted.filter _
    refine hsorted.imp_of_mem fun {a b} ha hb hbefore ↦ ?_
    obtain ⟨stay, stay', hfirst, hsecond, hless⟩ := hbefore
    exact ⟨stay, stay', (stay?_removed_of_ne (hmem.mp ha).2).trans hfirst,
      (stay?_removed_of_ne (hmem.mp hb).2).trans hsecond, hless⟩

/-- The number that a map makes a key of is the one that its events say. -/
theorem Follows.highestKey (h : m.Follows ref history) :
    m.highestKey ref + Decimal.ofInt 1 = nextNumber history := by
  rw [m.highestKey_eq, nextNumber]
  congr 1
  refine Decimal.highest_congr fun d ↦ ?_
  rw [mem_numbers_iff, List.mem_filterMap]
  constructor
  · rintro ⟨key, hkey, hd⟩
    obtain ⟨entry, hentry, rfl⟩ := List.mem_map.mp hkey
    obtain ⟨stay, hlisted, -⟩ := h.listed entry hentry
    rw [numberKey?_eq_some_iff.mp hd] at hlisted
    exact Option.isSome_iff_exists.mpr ⟨stay, hlisted⟩
  · intro hpresent
    obtain ⟨stay, hstay⟩ := Option.isSome_iff_exists.mp hpresent
    obtain ⟨entry, hentry, hid⟩ := h.complete _ stay hstay
    exact ⟨entry.key, List.mem_map_of_mem hentry, numberKey?_eq_some_iff.mpr hid⟩

end Machine

/-! ### Steps -/

/-- What a program does to a map. -/
inductive MapAction where
  | set (key value : CellRef)
  | delete (key : CellRef)
  | push (value : CellRef)
  | clone

/-- A step of a program that works with several maps, given by their places. -/
structure MapStep where
  place : Nat
  action : MapAction

namespace MapAction

/-- The key an action is given. -/
def key? : MapAction → Option CellRef
  | set key _ | delete key => some key
  | push _ | clone => none

/-- Acts on a map. Answers the value that was removed, and the clones that were made. -/
def run (ref : TableRef) : MapAction → Run (Option CellRef × List TableRef)
  | set key value => do
    setEntry ref key value
    return (none, [])
  | delete key => return (← eraseEntry ref key, [])
  | push value => do
    pushEntry ref value
    return (none, [])
  | clone => return (none, [← cloneTable ref])

/-- The events of a map after an action. -/
def events (idOf : CellRef → KeyId) (history : List MapEvent) : MapAction → List MapEvent
  | set key value => .entered (idOf key) (some key) value :: history
  | delete key => .removed (idOf key) :: history
  | push value => .entered (.number (nextNumber history)) none value :: history
  | clone => history

/-- The value that an action removes. -/
def removed (idOf : CellRef → KeyId) (history : List MapEvent) : MapAction → Option CellRef
  | delete key => (stay? history (idOf key)).map (·.value)
  | _ => none

/-- The events of the clones that an action makes. -/
def clones (history : List MapEvent) : MapAction → List (List MapEvent)
  | clone => [history]
  | _ => []

end MapAction

namespace MapStep

/-- Runs steps on some maps. Answers the maps there are in the end, and for each step on a map the
value it has removed. -/
def run : List TableRef → List MapStep → Run (List TableRef × List (Option CellRef))
  | maps, [] => return (maps, [])
  | maps, step :: steps =>
    match maps[step.place]? with
    | none => run maps steps
    | some ref => do
      let (answer, clones) ← step.action.run ref
      let (maps, answers) ← run (maps ++ clones) steps
      return (maps, answer :: answers)

/-- The events of all maps after some steps, and the values that the steps remove. -/
def record (idOf : CellRef → KeyId) :
    List (List MapEvent) → List MapStep → List (List MapEvent) × List (Option CellRef)
  | histories, [] => (histories, [])
  | histories, step :: steps =>
    match histories[step.place]? with
    | none => record idOf histories steps
    | some history =>
      let after := histories.set step.place (step.action.events idOf history)
      let (histories, answers) := record idOf (after ++ step.action.clones history) steps
      (histories, step.action.removed idOf history :: answers)

end MapStep

namespace Machine

variable {m n : Machine} {ref : TableRef} {history : List MapEvent}

/-- Some maps follow their events, and no two of them are one. -/
structure AllFollow (m : Machine) (maps : List TableRef) (histories : List (List MapEvent)) :
    Prop where
  length : maps.length = histories.length
  follows : ∀ (i : Nat) (map : TableRef) (history : List MapEvent), maps[i]? = some map →
    histories[i]? = some history → m.Follows map history
  nodup : maps.Nodup

theorem allFollow_nil (m : Machine) : m.AllFollow [] [] :=
  ⟨rfl, nofun, .nil⟩

theorem Follows.singleton (h : m.Follows ref history) : m.AllFollow [ref] [history] := by
  refine ⟨rfl, fun i map history' hmap hhistory ↦ ?_, List.nodup_singleton _⟩
  obtain ⟨hlast, rfl⟩ := List.getElem?_eq_some_iff.mp hmap
  obtain rfl : i = 0 := Nat.lt_one_iff.mp hlast
  cases hhistory
  exact h

/-- What an action on a map has done: the map and the clones it has made follow their events, and
all other maps that were there are as they were. -/
structure ActsAs (m : Machine) (ref : TableRef) (history : List MapEvent) (clones : List TableRef)
    (histories : List (List MapEvent)) (n : Machine) : Prop where
  keeps : m.KeepsCells n
  tables : m.tables.size ≤ n.tables.size
  follows : n.Follows ref history
  cloned : n.AllFollow clones histories
  fresh : ∀ clone ∈ clones, m.tables.size ≤ clone.index
  others : ∀ other : TableRef, other.index < m.tables.size → other ≠ ref →
    n.table other = m.table other

/-- A single change to the table of a map, with new cells for it, does what its events say. -/
theorem ActsAs.of_change {k : Machine} {c : Change} (hkept : m.KeepsCells k)
    (htables : k.tables = m.tables) (hcells : (k.after c).cells = k.cells)
    (hfollows : (k.after c).Follows ref history)
    (hc : ∀ other, other ≠ ref → c.onTable k other (k.table other) = k.table other) :
    m.ActsAs ref history [] [] (k.after c) where
  keeps := hkept.trans (keepsCells_of_eq hcells)
  tables := by rw [(size_after k c).2, htables]
  follows := hfollows
  cloned := allFollow_nil _
  fresh := nofun
  others other hexists hother := by
    rw [table_after k c (by rwa [htables]), hc other hother, table_congr htables]

/-- A key that is removed answers what was under it. -/
theorem Follows.eraseEntry (h : m.Follows ref history) (key : CellRef) :
    eraseEntry ref key m =
      .ok ((stay? history (m.keyId key)).map (·.value)) (m.after (.remove ref key)) := by
  rw [eraseEntry_apply, h.get?]

/-- A value that is added without a key comes under the next number. -/
theorem Follows.push (h : m.Follows ref history) (value : CellRef) :
    ∃ n, pushEntry ref value m = .ok () n ∧
      m.ActsAs ref (.entered (.number (nextNumber history)) none value :: history) [] [] n := by
  let numbered := m.withCell (.number (m.highestKey ref + Decimal.ofInt 1))
  have hkept := keepsCells_withCell m (.number (m.highestKey ref + Decimal.ofInt 1))
  have hnumbered : numbered.Follows ref history :=
    h.frame rfl h.orderly.table hkept.size hkept.content
  have hid : numbered.keyId ⟨m.cells.size⟩ = .number (nextNumber history) := by
    unfold keyId
    rw [Machine.content_new, h.highestKey]
    rfl
  have hnew : m.cells.size < numbered.cells.size := size_lt_push _ _
  have hgiven : ∀ cell, (none : Option CellRef) = some cell → cell = ⟨m.cells.size⟩ := nofun
  have hfollows : (numbered.after (.enter ref ⟨m.cells.size⟩ value)).Follows ref
      (.entered (numbered.keyId ⟨m.cells.size⟩) none value :: history) :=
    hnumbered.enter hnew hgiven value
  rw [hid] at hfollows
  exact ⟨_, rfl, .of_change hkept rfl rfl hfollows fun other hother ↦ if_neg hother.symm⟩

/-- A clone follows the events of the map it was made of, which is as it was. -/
theorem Follows.clone (h : m.Follows ref history) :
    ∃ n, cloneTable ref m = .ok ⟨m.tables.size⟩ n ∧
      m.ActsAs ref history [⟨m.tables.size⟩] [history] n := by
  obtain ⟨n, hcloned, horderly, hentries, hcells, hcount, hothers⟩ := cloneTable_entries h.orderly
  have hkept : m.KeepsCells n := keepsCells_of_eq hcells
  have hdifferent {other : TableRef} (hexists : other.index < m.tables.size) :
      other ≠ ⟨m.tables.size⟩ := by
    rintro rfl
    exact Nat.lt_irrefl _ hexists
  have hfollows : n.Follows ref history :=
    h.frame (hothers ref (hdifferent h.orderly.table))
      (by rw [hcount]; exact Nat.lt_succ_of_lt h.orderly.table) hkept.size hkept.content
  refine ⟨n, hcloned, hkept, by rw [hcount]; exact Nat.le_succ _, hfollows,
    (h.of_entries horderly hentries fun entry hentry ↦ ?_).singleton, ?_,
    fun other hexists _ ↦ hothers other (hdifferent hexists)⟩
  · exact hkept.keyId (h.orderly.keys entry hentry)
  · intro clone hclone
    rw [List.mem_singleton.mp hclone]

end Machine

/-- Assumes: a map that follows its events, and a key that exists. No action on the map fails, and
the map and its clones follow the events that come of it. -/
theorem MapAction.run_follows {m : Machine} {ref : TableRef} {history : List MapEvent}
    (h : m.Follows ref history) (action : MapAction)
    (hkey : ∀ key, action.key? = some key → key.index < m.cells.size) :
    ∃ clones n, action.run ref m = .ok (action.removed m.keyId history, clones) n ∧
      m.ActsAs ref (action.events m.keyId history) clones (action.clones history) n := by
  cases action with
  | set key value =>
    exact ⟨[], m.after (.enter ref key value), rfl, .of_change (.refl m) rfl rfl
      (h.enter (hkey key rfl) (fun cell hcell ↦ (Option.some.inj hcell).symm) value)
      fun other hother ↦ if_neg hother.symm⟩
  | delete key =>
    refine ⟨[], m.after (.remove ref key), ?_, .of_change (.refl m) rfl rfl (h.remove key)
      fun other hother ↦ if_neg hother.symm⟩
    change (eraseEntry ref key >>= fun removed ↦ pure (removed, [])) m = _
    rw [Run.bind_ok (h.eraseEntry key)]
    rfl
  | push value =>
    obtain ⟨n, hpushed, hacts⟩ := h.push value
    exact ⟨[], n, (Run.bind_ok (f := fun _ ↦ pure (none, [])) hpushed).trans rfl, hacts⟩
  | clone =>
    obtain ⟨n, hcloned, hacts⟩ := h.clone
    refine ⟨[⟨m.tables.size⟩], n, ?_, hacts⟩
    change (cloneTable ref >>= fun clone ↦ pure (none, [clone])) m = _
    rw [Run.bind_ok hcloned]
    rfl

/-- What comes of an action depends on nothing about cells but what its own key is. -/
theorem MapAction.events_congr (action : MapAction) {idOf idOf' : CellRef → KeyId}
    (hkey : ∀ key, action.key? = some key → idOf key = idOf' key) (history : List MapEvent) :
    action.events idOf history = action.events idOf' history ∧
      action.removed idOf history = action.removed idOf' history := by
  cases action with
  | set key value => exact ⟨by rw [events, events, hkey key rfl], rfl⟩
  | delete key =>
    exact ⟨by rw [events, events, hkey key rfl], by rw [removed, removed, hkey key rfl]⟩
  | push value => exact ⟨rfl, rfl⟩
  | clone => exact ⟨rfl, rfl⟩

/-! ### Runs -/

namespace Machine

variable {m n : Machine} {maps : List TableRef} {histories : List (List MapEvent)}

/-- Maps that follow their events exist. -/
theorem AllFollow.exists (h : m.AllFollow maps histories) {i : Nat} {map : TableRef}
    (hmap : maps[i]? = some map) : map.index < m.tables.size := by
  obtain ⟨hi, -⟩ := List.getElem?_eq_some_iff.mp hmap
  have hhistory := List.getElem?_eq_getElem (h.length ▸ hi : i < histories.length)
  exact (h.follows i map _ hmap hhistory).orderly.table

/-- Assumes: an action on one of the maps. Afterwards all of them follow their events, the clones
that were made included. -/
theorem AllFollow.actsAs (h : m.AllFollow maps histories) {place : Nat} {ref : TableRef}
    (hplace : maps[place]? = some ref) {history : List MapEvent} {clones : List TableRef}
    {cloned : List (List MapEvent)} (hacts : m.ActsAs ref history clones cloned n) :
    n.AllFollow (maps ++ clones) (histories.set place history ++ cloned) := by
  obtain ⟨hbound, -⟩ := List.getElem?_eq_some_iff.mp hplace
  have hlength : maps.length = (histories.set place history).length := by
    rw [List.length_set, h.length]
  refine ⟨?_, fun i map history' hmap hhistory ↦ ?_, ?_⟩
  · rw [List.length_append, List.length_append, hlength, hacts.cloned.length]
  -- The map at a place is the one that was acted on, another one that was there, or a clone.
  · by_cases hi : i < maps.length
    · rw [List.getElem?_append_left hi] at hmap
      rw [List.getElem?_append_left (hlength ▸ hi), List.getElem?_set] at hhistory
      by_cases hsame : place = i
      · subst hsame
        rw [if_pos rfl, if_pos (h.length ▸ hi)] at hhistory
        cases hhistory
        cases hplace.symm.trans hmap
        exact hacts.follows
      · rw [if_neg hsame] at hhistory
        have hdifferent : map ≠ ref := by
          rintro rfl
          exact hsame ((List.getElem?_inj hbound h.nodup).mp (hplace.trans hmap.symm))
        have hexists := h.exists hmap
        exact (h.follows i map history' hmap hhistory).frame
          (hacts.others map hexists hdifferent) (Nat.lt_of_lt_of_le hexists hacts.tables)
          hacts.keeps.size hacts.keeps.content
    · rw [List.getElem?_append_right (Nat.le_of_not_lt hi)] at hmap
      rw [List.getElem?_append_right (hlength ▸ Nat.le_of_not_lt hi), ← hlength] at hhistory
      exact hacts.cloned.follows _ map history' hmap hhistory
  · rw [List.nodup_append]
    refine ⟨h.nodup, hacts.cloned.nodup, fun map hmap clone hclone ↦ ?_⟩
    rintro rfl
    obtain ⟨i, hi⟩ := List.mem_iff_getElem?.mp hmap
    exact Nat.lt_irrefl _ (Nat.lt_of_lt_of_le (h.exists hi) (hacts.fresh map hclone))

end Machine

/-- Assumes: maps that follow their events, and steps with keys that exist. No step fails, and the
maps there are in the end follow the events that come of the steps. -/
theorem MapStep.run_follows {m : Machine} {maps : List TableRef} {histories : List (List MapEvent)}
    (h : m.AllFollow maps histories) {idOf : CellRef → KeyId} {steps : List MapStep}
    (hkeys : ∀ step ∈ steps, ∀ key, step.action.key? = some key →
      key.index < m.cells.size ∧ m.keyId key = idOf key) :
    ∃ maps' n, run maps steps m = .ok (maps', (record idOf histories steps).2) n ∧
      n.AllFollow maps' (record idOf histories steps).1 ∧ m.KeepsCells n := by
  -- Cells keep what they hold, so a key is on each later machine what it was in the beginning.
  induction steps generalizing m maps histories with
  | nil => exact ⟨maps, m, rfl, h, .refl m⟩
  | cons step steps ih =>
    have hlater := fun step hstep ↦ hkeys step (List.mem_cons_of_mem _ hstep)
    cases hplace : maps[step.place]? with
    | none =>
      have hnone : histories[step.place]? = none := by
        rw [List.getElem?_eq_none_iff, ← h.length, ← List.getElem?_eq_none_iff, hplace]
      unfold run record
      rw [hplace, hnone]
      exact ih h hlater
    | some ref =>
      obtain ⟨hbound, -⟩ := List.getElem?_eq_some_iff.mp hplace
      obtain ⟨history, hhistory⟩ : ∃ history, histories[step.place]? = some history :=
        ⟨_, List.getElem?_eq_getElem (h.length ▸ hbound)⟩
      obtain ⟨clones, k, hacted, hacts⟩ :=
        step.action.run_follows (h.follows _ _ _ hplace hhistory) fun key hkey ↦
          (hkeys step (List.mem_cons_self ..) key hkey).1
      have hevents := step.action.events_congr (fun key hkey ↦
        (hkeys step (List.mem_cons_self ..) key hkey).2) history
      have hafter := h.actsAs hplace hacts
      rw [hevents.1] at hafter
      rw [hevents.2] at hacted
      obtain ⟨maps', n, hran, hfollow, hkept⟩ := ih hafter fun step' hstep key hkey ↦ by
        obtain ⟨hexists, hid⟩ := hlater step' hstep key hkey
        exact ⟨Nat.lt_of_lt_of_le hexists hacts.keeps.size, (hacts.keeps.keyId hexists).trans hid⟩
      refine ⟨maps', n, ?_, ?_, hacts.keeps.trans hkept⟩
      · unfold run record
        rw [hplace, hhistory]
        dsimp only
        rw [Run.bind_ok hacted, Run.bind_ok hran]
        rfl
      · unfold record
        rw [hhistory]
        exact hfollow

/-! ### What maps show -/

/-- Keys that programs mostly use: empty values, numbers, strings and truth values. -/
def Content.IsPlainKey : Content → Prop
  | .empty | .number _ | .string _ | .boolean _ => True
  | _ => False

namespace Machine

/-- Plain keys are told apart exactly if they are not equal. -/
theorem keyId_eq_iff_equal {n : Machine} {a b : CellRef} (ha : (n.content a).IsPlainKey)
    (hb : (n.content b).IsPlainKey) : n.keyId a = n.keyId b ↔ n.equal a b = true := by
  unfold equal keyId
  rw [equalIn]
  generalize n.content a = x at ha
  generalize n.content b = y at hb
  cases x <;> cases ha <;> cases y <;> cases hb <;> simp [Content.keyId, Content.kind]

/-- What a map shows, by what has happened to it: the keys in it, each of them once, in the order in
which they came in, by the cells they came in by, the values that were set under them last, and
nothing under other keys. -/
structure Shows (n : Machine) (ref : TableRef) (history : List MapEvent) : Prop where
  get : ∀ id, (n.table ref).get? id = (stay? history id).map (·.value)
  keys : ∀ id, id ∈ (n.table ref).keys.map n.keyId ↔ (stay? history id).isSome
  once : ((n.table ref).keys.map n.keyId).Nodup
  order : ((n.table ref).keys.map n.keyId).Pairwise (Before history)
  given : ∀ key ∈ (n.table ref).keys, ∀ stay, stay? history (n.keyId key) = some stay →
    ∀ cell, stay.key = some cell → key = cell
  size : (n.table ref).size = (n.table ref).keys.length
  values : (n.table ref).values.map some = (n.table ref).keys.map (n.lookUp ref)
  walk : forEntries ref [] (fun seen entry ↦ pure (seen ++ [(entry.key, entry.value)])) n =
    .ok ((n.table ref).keys.zip (n.table ref).values) n

variable {n : Machine} {ref : TableRef} {history : List MapEvent}

/-- A walk that collects what it meets meets the entries in their order. -/
theorem Follows.walk (h : n.Follows ref history) :
    forEntries ref [] (fun seen entry ↦ pure (seen ++ [(entry.key, entry.value)])) n =
      .ok ((n.table ref).keys.zip (n.table ref).values) n := by
  rw [forEntries_eq (I := (· = n)) (by rintro _ rfl; rfl) h.orderly.inOrder.length_entries
    (by rintro entry - seen _ _ _ rfl hseen; cases hseen; rfl) rfl]
  have hcollect : ∀ (entries : List Entry) (seen : List (CellRef × CellRef)),
      entries.foldlM (m := Run) (fun seen entry ↦ pure (seen ++ [(entry.key, entry.value)])) seen n =
        .ok (seen ++ (entries.map (·.key)).zip (entries.map (·.value))) n := by
    intro entries
    induction entries with
    | nil =>
      intro seen
      rw [List.map_nil, List.zip_nil_left, List.append_nil]
      rfl
    | cons entry entries ih =>
      intro seen
      rw [List.foldlM_cons, pure_bind, ih, List.append_assoc]
      rfl
  exact hcollect _ []

/-- A map that follows its events shows them. -/
theorem Follows.shows (h : n.Follows ref history) : n.Shows ref history := by
  have hids : (n.table ref).keys.map n.keyId =
      (n.table ref).entries.map fun entry ↦ n.keyId entry.key := List.map_map
  refine ⟨h.get?, fun id ↦ ?_, ?_, ?_, fun key hkey stay hstay ↦ ?_, ?_, ?_, h.walk⟩
  · rw [hids, List.mem_map]
    constructor
    · rintro ⟨entry, hentry, rfl⟩
      obtain ⟨stay, hlisted, -⟩ := h.listed entry hentry
      exact Option.isSome_iff_exists.mpr ⟨stay, hlisted⟩
    · intro hpresent
      obtain ⟨stay, hstay⟩ := Option.isSome_iff_exists.mp hpresent
      exact h.complete id stay hstay
  · rw [hids]
    exact h.orderly.inOrder.nodup_ids
  · rw [hids, List.pairwise_map]
    exact h.sorted
  · obtain ⟨entry, hentry, rfl⟩ := List.mem_map.mp hkey
    obtain ⟨stay', hlisted, -, hgiven⟩ := h.listed entry hentry
    cases hlisted.symm.trans hstay
    exact hgiven
  · rw [Table.keys, List.length_map, h.orderly.inOrder.length_entries]
  · rw [Table.values, Table.keys, List.map_map, List.map_map]
    refine List.map_congr_left fun entry hentry ↦ ?_
    exact (h.orderly.inOrder.get?_of_mem_entries hentry).symm

end Machine

/-- Assumes: steps on an empty map and its clones, with keys that exist. No step fails; each map
there is in the end shows what has happened to it, and each step that removes a key answers the
value that was under it. Keys are the same if they are equal, which for numbers is to stand for one
rational; and the number that a map makes a key of is never one of its keys. -/
theorem maps_keep_insertion_order {m : Machine} {steps : List MapStep}
    (hkeys : ∀ step ∈ steps, ∀ key, step.action.key? = some key → key.index < m.cells.size) :
    (∃ (maps : List TableRef) (n : Machine),
      (newTable >>= fun map ↦ MapStep.run [map] steps) m =
          .ok (maps, (MapStep.record m.keyId [[]] steps).2) n ∧
        maps.length = (MapStep.record m.keyId [[]] steps).1.length ∧
        (∀ (i : Nat) (map : TableRef) (history : List MapEvent), maps[i]? = some map →
          (MapStep.record m.keyId [[]] steps).1[i]? = some history → n.Shows map history) ∧
        m.KeepsCells n) ∧
      (∀ a b, (m.content a).IsPlainKey → (m.content b).IsPlainKey →
        (m.keyId a = m.keyId b ↔ m.equal a b = true)) ∧
      (∀ a b x y, m.content a = .number x → m.content b = .number y →
        (m.keyId a = m.keyId b ↔ x.toRat = y.toRat)) ∧
      ∀ history, stay? history (.number (nextNumber history)) = none := by
  refine ⟨?_, fun a b ↦ Machine.keyId_eq_iff_equal, fun a b x y ha hb ↦ ?_, stay?_nextNumber⟩
  · have hcreated : newTable m = .ok ⟨m.tables.size⟩ m.withTable := rfl
    have hfixed : ∀ step ∈ steps, ∀ key, step.action.key? = some key →
        key.index < m.withTable.cells.size ∧ m.withTable.keyId key = m.keyId key :=
      fun step hstep key hkey ↦ ⟨hkeys step hstep key hkey, rfl⟩
    obtain ⟨maps, n, hran, hfollow, hkept⟩ :=
      MapStep.run_follows m.follows_newTable.singleton hfixed
    exact ⟨maps, n, (Run.bind_ok hcreated).trans hran, hfollow.length,
      fun i map history hmap hhistory ↦ (hfollow.follows i map history hmap hhistory).shows,
      Machine.KeepsCells.trans (n := m.withTable) (Machine.keepsCells_of_eq rfl) hkept⟩
  · unfold Machine.keyId
    rw [ha, hb, Decimal.toRat_injective.eq_iff]
    exact KeyId.number.injEq x y ▸ Iff.rfl

/-- Cells for a key, another key and a value. -/
def keysAndValue : Machine where
  cells := #[.string "a", .number (Decimal.ofInt 10), .boolean true]

/-- Two keys are set in a map and the map is cloned; then the clone loses its first key, and the map
gets a value without a key. -/
def cloneAndPush : List MapStep :=
  [⟨0, .set ⟨0⟩ ⟨2⟩⟩, ⟨0, .set ⟨1⟩ ⟨2⟩⟩, ⟨0, .clone⟩, ⟨1, .delete ⟨0⟩⟩, ⟨0, .push ⟨1⟩⟩]

/-- What is done to a clone does not concern the map it was made of, and the other way round; and
the value without a key is under the number after the highest. -/
theorem clone_and_push :
    (∀ step ∈ cloneAndPush, ∀ key, step.action.key? = some key →
      key.index < keysAndValue.cells.size) ∧
      ∃ (map clone : TableRef) (n : Machine),
        (newTable >>= fun map ↦ MapStep.run [map] cloneAndPush) keysAndValue =
            .ok ([map, clone], [none, none, none, some ⟨2⟩, none]) n ∧
          (n.table map).get? (.string "a") = some ⟨2⟩ ∧
          (n.table clone).get? (.string "a") = none ∧
          (n.table map).get? (.number (Decimal.ofInt 11)) = some ⟨1⟩ ∧
          (n.table clone).get? (.number (Decimal.ofInt 11)) = none := by
  have hkeys : ∀ step ∈ cloneAndPush, ∀ key, step.action.key? = some key →
      key.index < keysAndValue.cells.size := by
    intro step hstep key hkey
    simp only [cloneAndPush, List.mem_cons, List.not_mem_nil, or_false] at hstep
    rcases hstep with rfl | rfl | rfl | rfl | rfl <;> cases hkey <;> decide
  refine ⟨hkeys, ?_⟩
  obtain ⟨⟨maps, n, hran, hlength, hshows, -⟩, -⟩ := maps_keep_insertion_order hkeys
  obtain ⟨map, clone, rfl⟩ := List.length_eq_two.mp (hlength.trans (by decide))
  have hmap := hshows 0 map _ rfl rfl
  have hclone := hshows 1 clone _ rfl rfl
  refine ⟨map, clone, n, hran, ?_, ?_, ?_, ?_⟩
  · exact (hmap.get _).trans (by decide)
  · exact (hclone.get _).trans (by decide)
  · exact (hmap.get _).trans (by decide)
  · exact (hclone.get _).trans (by decide)

end TreeScript
