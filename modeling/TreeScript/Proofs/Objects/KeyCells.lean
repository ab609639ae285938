import TreeScript.Proofs.Objects.ReadBack

/-!
# Keys are cells

The index of an object tells what its keys were when they were entered, while the keys themselves
are cells, which may be overwritten. An object is in order as long as none of its keys is
overwritten with another key (`Machine.Evolves.orderly`). What is entered by `o[k] = v` and by
`o.push(k, v)` has the cell of the variable `k` itself for a key (`orderly_of_written`,
`push_pair_apply`), so that an assignment to `k` is enough to put the object out of order
(`Machine.Orderly.not_inOrder`). `order_rests_on_key_cells` puts the three together.
-/

set_option autoImplicit false

namespace TreeScript

/-! ### Entering a key -/

/-- The table of an object is the one it holds. -/
theorem tableOrNew_apply {m : Machine} {owner : CellRef} {ref : TableRef}
    (hobject : m.content owner = .object ref) : tableOrNew owner m = .ok ref m := by
  have hcontent : content owner m = .ok (.object ref) m := by
    rw [← hobject]
    rfl
  unfold tableOrNew
  rw [Run.bind_ok hcontent]
  rfl

/-- On an object, `push` of two values enters the first one itself as the key. -/
theorem push_pair_apply (call : Call) {m : Machine} {owner : CellRef} {ref : TableRef}
    (hobject : m.content owner = .object ref) (key value : CellRef) :
    ObjectMethod.push.run call owner [key, value] m = .ok owner (m.after (.enter ref key value)) := by
  have htable := tableOrNew_apply hobject
  change (tableOrNew owner >>= fun ref ↦ setEntry ref key value >>= fun _ ↦ pure owner) m = _
  rw [Run.bind_ok htable]
  rfl

/-- Assumes: an assignment to an entry under a key that led nowhere. What was a key before is the
same key afterwards. -/
theorem Written.keyId {found m : Machine} {ref : TableRef} {key new cell : CellRef}
    (h : Written found ref key new cell m) (hnew : found.lookUp ref key = none) {other : CellRef}
    (hother : other.index < found.cells.size) : m.keyId other = found.keyId other := by
  refine congrArg Content.keyId (h.others other ?_)
  rintro rfl
  rw [h.fresh hnew] at hother
  exact Nat.lt_irrefl _ hother

/-- Assumes: an assignment to an entry of an object in order, under a key that led nowhere. The
object is still in order, and the cell of the key is one of its keys. -/
theorem orderly_of_written {found m : Machine} {ref : TableRef} {key new cell : CellRef}
    (h : Written found ref key new cell m) (horderly : found.Orderly ref)
    (hnew : found.lookUp ref key = none) (hbound : key.index < found.cells.size) :
    m.Orderly ref ∧ key ∈ (m.table ref).keys := by
  have hroom : found.cells.size < m.cells.size := by
    have hlast := h.bound
    rwa [h.fresh hnew] at hlast
  have hkeys : ∀ entry ∈ (m.table ref).entries, entry.key.index < found.cells.size := by
    intro entry hentry
    rw [h.added hnew] at hentry
    rcases horderly.inOrder.key_of_set hentry with hkey | ⟨former, hformer, hkey⟩
    · rw [hkey]
      exact hbound
    · rw [← hkey]
      exact horderly.keys former hformer
  refine ⟨⟨Machine.table_exists h.leads, fun entry hentry ↦ ?_, ?_⟩, ?_⟩
  · exact Nat.lt_trans (hkeys entry hentry) hroom
  · have hset := horderly.inOrder.set key cell
    rw [← h.added hnew] at hset
    exact hset.congr fun entry hentry ↦ h.keyId hnew (hkeys entry hentry)
  · rw [h.added hnew]
    exact horderly.inOrder.mem_keys_set hnew key cell

/-! ### Overwriting a key -/

/-- Assumes: an object in order. Overwriting one of its keys with another key puts it out of order:
the index still leads from what the key was. -/
theorem Machine.Orderly.not_inOrder {m : Machine} {ref : TableRef} {key : CellRef}
    (h : m.Orderly ref) (hkey : key ∈ (m.table ref).keys) {content : Content}
    (hother : content.keyId ≠ m.keyId key) :
    ¬(m.table ref).InOrder (m.after (.overwrite key content)).keyId := by
  obtain ⟨entry, hentry, rfl⟩ := List.mem_map.mp hkey
  obtain ⟨i, hi, hslot⟩ := Table.mem_entries_iff.mp hentry
  intro hafter
  have hindex := h.inOrder.indexed i entry hi hslot
  obtain ⟨-, other, hsecond, hid⟩ := hafter.entered _ i hindex
  cases hslot.symm.trans hsecond
  refine hother (Eq.trans ?_ hid)
  refine congrArg Content.keyId (Eq.symm ?_)
  rw [Machine.content_overwrite_self (h.keys entry hentry)]

/-- Assumes: an object in order. It stays in order in every evaluation that overwrites none of its
keys with another key. But when `o.push(k, v)` or `o[k] = v` enters a key, it is the cell of the
variable `k`; and an assignment to a variable the cell of which is a key, of a value that is another
key, puts the object out of order: the entry is found under the former key, and what is found under
the present one is what was there before. -/
theorem order_rests_on_key_cells {m : Machine} {ref : TableRef} (horderly : m.Orderly ref) :
    (∀ (n : Nat) (site : Site) (mode : Mode) (node : Node), ∃ history,
      m.Evolves history (Outcome.final ((interp n).eval site mode node m)) ∧
        ((∀ p ∈ history, p.2.KeepsKeys ref p.1) →
          (Outcome.final ((interp n).eval site mode node m)).Orderly ref)) ∧
    (∀ (call : Call) (owner key value : CellRef), m.content owner = .object ref →
      key.index < m.cells.size → m.lookUp ref key = none →
      ∃ m', ObjectMethod.push.run call owner [key, value] m = .ok owner m' ∧
        m'.Orderly ref ∧ key ∈ (m'.table ref).keys) ∧
    (∀ (n : Nat) (site : Site) (operator name index : String) (node : Node) (start : Machine)
      (new owner key : CellRef), (interp (n + 2)).Assigning site operator node start new m →
      m.visible? site name = some owner → m.content owner = .object ref → m.Intact ref →
      m.visible? site index = some key → m.PlainKey key → key.index < m.cells.size →
      m.lookUp ref key = none →
      ∃ cell m', (interp (n + 2)).assign site operator (entryChain name (.index (.identifier index)))
          node start = .ok cell m' ∧
        m'.visible? site index = some key ∧ m'.options = m.options ∧
        m'.keyId key = m.keyId key ∧ m'.Orderly ref ∧ key ∈ (m'.table ref).keys) ∧
    (∀ (n : Nat) (site : Site) (operator index : String) (node : Node) (start : Machine)
      (new key : CellRef), (interp (n + 1)).Assigning site operator node start new m →
      m.visible? site index = some key → key ∈ (m.table ref).keys → m.keyId new ≠ m.keyId key →
      ∃ m', (interp (n + 1)).assign site operator (.identifier index) node start = .ok key m' ∧
        ¬(m'.table ref).InOrder m'.keyId ∧
        (m'.table ref).get? (m.keyId key) = m.lookUp ref key ∧
        m'.lookUp ref key = m.lookUp ref new) := by
  refine ⟨fun n site mode node ↦ ?_, ?_, ?_, ?_⟩
  · obtain ⟨history, hevolves⟩ := evaluation_evolves n site mode node m
    exact ⟨history, hevolves, fun hkeeps ↦ hevolves.orderly hkeeps horderly⟩
  · intro call owner key value hobject hbound hnew
    obtain ⟨hafter, hkey⟩ := horderly.enter hnew hbound value
    exact ⟨_, push_pair_apply call hobject key value, hafter, hkey⟩
  · intro n site operator name index node start new owner key hassigning hvisible hobject hintact
      hindex hplain hbound hnew
    obtain ⟨found, hcomes, hfound⟩ := Interp.comesTo_index n
      (nofun : Mode.createIfMissing ≠ .createNew) hassigning.debugger hvisible hindex
    have horderly' : found.Orderly ref := horderly.unwound hfound
    have hobject' : found.content owner = .object ref := (hfound.content owner).trans hobject
    have hnew' : found.lookUp ref key = none := by
      rw [← hfound]
      exact hnew
    have hbound' : key.index < found.cells.size := by
      rw [hfound.cells]
      exact hbound
    have hstep : ∀ args, Node.index (.identifier index) ≠ .call args := nofun
    obtain ⟨cell, m', hassigned, hwritten⟩ := assign_entry hassigning.plain hstep hassigning.value
      hcomes hobject' (hintact.unwound hfound) (hplain.unwound hfound)
    obtain ⟨hafter, hkey⟩ := orderly_of_written hwritten horderly' hnew' hbound'
    refine ⟨cell, m', hassigned, ?_, ?_, ?_, hafter, hkey⟩
    · rw [hwritten.elsewhere.visible?, hfound.visible?, hindex]
    · rw [hwritten.elsewhere.options, hfound.options]
    · rw [hwritten.keyId hnew' hbound']
      exact congrArg Content.keyId (hfound.content key)
  · intro n site operator index node start new key hassigning hindex hkey hother
    obtain ⟨m', hassigned, hm'⟩ := Interp.assign_variable hassigning hindex
    obtain ⟨entry, hentry, rfl⟩ := List.mem_map.mp hkey
    have htable : m'.table ref = m.table ref := hm'.table ref
    have hids : m'.keyId = (m.after (.overwrite entry.key (m.content new))).keyId :=
      funext fun cell ↦ congrArg Content.keyId (hm'.content cell)
    have hpresent : m'.keyId entry.key = m.keyId new := by
      rw [hids]
      refine congrArg Content.keyId ?_
      rw [Machine.content_overwrite_self (horderly.keys entry hentry)]
    refine ⟨m', hassigned, ?_, ?_, ?_⟩
    · rw [htable, hids]
      exact horderly.not_inOrder hkey hother
    · rw [htable]
      rfl
    · unfold Machine.lookUp
      rw [htable, hpresent]

/-- A machine on which the variable `o` holds an object without entries and `k` holds a string. -/
def keyedObject : Machine where
  cells := #[.object ⟨0⟩, .string "a"]
  tables := #[{}]
  scopes := #[Std.TreeMap.insert (Std.TreeMap.insert {} "o" ⟨0⟩) "k" ⟨1⟩]
  traces := #[{}]
  contexts := #[{ source := "main", globals := ⟨0⟩, trace := ⟨0⟩ }]

/-- After `o[k] = true` the object is in order; after `k = false` it is no more. -/
theorem renamed_key_breaks_order :
    ∃ cell m₁ m₂, (interp 2).assign heldSite "=" (entryChain "o" (.index (.identifier "k")))
        (.boolean true) keyedObject = .ok cell m₁ ∧
      m₁.Orderly ⟨0⟩ ∧
      (interp 2).assign heldSite "=" (.identifier "k") (.boolean false) m₁ = .ok ⟨1⟩ m₂ ∧
      ¬(m₂.table ⟨0⟩).InOrder m₂.keyId := by
  obtain ⟨m, hvalue, hm⟩ := Interp.value_boolean (m := keyedObject) 1 heldSite true rfl
  have horderly : m.Orderly ⟨0⟩ := Machine.Orderly.unwound (Machine.orderly_of_empty (by decide) rfl) hm
  have hintact : m.Intact ⟨0⟩ := Machine.Intact.unwound (Machine.intact_of_empty (by decide) rfl) hm
  have hobject : m.content ⟨0⟩ = .object ⟨0⟩ := hm.content ⟨0⟩
  have hkey : m.content ⟨1⟩ = .string "a" := hm.content ⟨1⟩
  have hdebugger : m.options.debugger = none := by
    rw [hm.options]
    rfl
  have howner : m.visible? heldSite "o" = some ⟨0⟩ := by
    rw [hm.visible?]
    decide
  have hindex : m.visible? heldSite "k" = some ⟨1⟩ := by
    rw [hm.visible?]
    decide
  have hbound : 1 < m.cells.size := by
    rw [hm.cells]
    decide
  have hnew : m.lookUp ⟨0⟩ ⟨1⟩ = none := by
    unfold Machine.lookUp
    rw [hm.table ⟨0⟩]
    exact Table.get?_empty _
  obtain ⟨-, -, hentering, -⟩ := order_rests_on_key_cells horderly
  obtain ⟨cell, m₁, hassigned, hindex', hoptions, hid, horderly', hmember⟩ :=
    hentering 0 heldSite "=" "o" "k" (.boolean true) keyedObject _ ⟨0⟩ ⟨1⟩
      ⟨.inr rfl, hvalue, hdebugger⟩ howner hobject hintact hindex
      (Machine.plainKey_of_text hkey (by decide)) hbound hnew
  have hdebugger' : m₁.options.debugger = none := by
    rw [hoptions]
    exact hdebugger
  -- The value of the second assignment is evaluated on a machine where all of this still holds.
  obtain ⟨k, hvalue', hk⟩ := Interp.value_boolean 1 heldSite false hdebugger'
  have hroom : 1 < m₁.cells.size := by
    obtain ⟨entry, hentry, hsame⟩ := List.mem_map.mp hmember
    have hentered := horderly'.keys entry hentry
    rwa [hsame] at hentered
  have hlater : k.Orderly ⟨0⟩ := by
    have hevolves : m₁.Evolves [] k := .trans (.cell m₁ _) (.elsewhere hk.cells (by rw [← hk]))
    exact hevolves.orderly (fun _ h ↦ nomatch h) horderly'
  have hvisible : k.visible? heldSite "k" = some ⟨1⟩ := (hk.visible? heldSite "k").trans hindex'
  have hother : k.keyId ⟨m₁.cells.size⟩ ≠ k.keyId ⟨1⟩ := by
    have hfalse : k.keyId ⟨m₁.cells.size⟩ = .boolean false := by
      unfold Machine.keyId
      rw [hk.content, Machine.content_new]
      rfl
    have hformer : k.keyId ⟨1⟩ = .string "a" := by
      unfold Machine.keyId at *
      rw [hk.content, Machine.content_old hroom, hid, hkey]
      rfl
    rw [hfalse, hformer]
    nofun
  obtain ⟨-, -, -, hassigning⟩ := order_rests_on_key_cells hlater
  obtain ⟨m₂, hassigned', hbroken, -, -⟩ := hassigning 1 heldSite "=" "k" (.boolean false) m₁ _ ⟨1⟩
    ⟨.inr rfl, hvalue', by rw [hk.options]; exact hdebugger'⟩ hvisible
    (by rw [hk.table]; exact hmember) hother
  exact ⟨cell, m₁, m₂, hassigned, horderly', hassigned', hbroken⟩

end TreeScript
