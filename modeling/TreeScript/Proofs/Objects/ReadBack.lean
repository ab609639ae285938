import TreeScript.Proofs.Objects.History
import TreeScript.Proofs.Objects.Variables

/-!
# What is assigned to an entry can be read back

A chain `x.k` or `x[k]` comes to a value and to a key before it looks the key up on the value
(`Chain.Seeks`). On an object, a plain key is looked up among the entries (`access_of_plain`); the
keys that are not plain are the empty ones and the names of methods, which come before all entries.
So an assignment writes to the cell that the object has under the key, or enters a new one
(`Chain.Seeks.creating`), and reading gives the cell the object has there (`Chain.Seeks.present`).
`assigned_entry_reads_back` puts the two together: what was written is read again, on every machine
to which the history leads as long as its changes spare the key.
-/

set_option autoImplicit false

namespace TreeScript

/-- A key that objects look up among their entries: it is neither empty nor the name of a method. -/
structure Machine.PlainKey (m : Machine) (key : CellRef) : Prop where
  holds : (m.content key).isEmpty = false
  free : Method.find? .object (m.display key) = none

/-- An object exists with slots for all of its entries, and all cells that its keys lead to exist.
-/
structure Machine.Intact (m : Machine) (ref : TableRef) : Prop where
  table : ref.index < m.tables.size
  size : (m.table ref).size ≤ (m.table ref).slots.size
  places : ∀ (id : KeyId) (i : Nat), (m.table ref).index[id]? = some i →
    i < (m.table ref).slots.size
  values : ∀ (id : KeyId) (cell : CellRef), (m.table ref).get? id = some cell →
    cell.index < m.cells.size

/-- A string that is not the name of a method is a plain key. -/
theorem Machine.plainKey_of_text {m : Machine} {key : CellRef} {text : String}
    (htext : m.content key = .string text) (hfree : Method.find? .object text = none) :
    m.PlainKey key := by
  have hshown : m.display key = text := by
    unfold Machine.display Machine.displayDepth Machine.displayIn
    rw [htext]
  exact ⟨by rw [htext]; rfl, by rw [hshown]; exact hfree⟩

/-- Whether a key is plain depends neither on the stack traces nor on the log. -/
theorem Machine.PlainKey.unwound {m n : Machine} {key : CellRef} (h : m.PlainKey key)
    (hn : m.Unwound n) : n.PlainKey key where
  holds := by
    rw [hn.content]
    exact h.holds
  free := by
    rw [(Alike.of_unwound hn).display]
    exact h.free

/-- Whether an object is intact depends neither on the stack traces nor on the log. -/
theorem Machine.Intact.unwound {m n : Machine} {ref : TableRef} (h : m.Intact ref)
    (hn : m.Unwound n) : n.Intact ref := by
  rw [← hn]
  exact ⟨h.table, h.size, h.places, h.values⟩

/-- An object without entries is intact. -/
theorem Machine.intact_of_empty {m : Machine} {ref : TableRef} (hexists : ref.index < m.tables.size)
    (htable : m.table ref = {}) : m.Intact ref := by
  refine ⟨hexists, ?_, fun id i hindex ↦ ?_, fun id cell hfound ↦ ?_⟩
  · rw [htable]
    exact Nat.le_refl 0
  · rw [htable] at hindex
    simp at hindex
  · rw [htable, Table.get?_empty] at hfound
    cases hfound

/-- Two machines differ at most in the cells, the tables, the recorded stack traces and the log. -/
def Machine.SameElsewhere (m n : Machine) : Prop :=
  { m with cells := n.cells, tables := n.tables, traces := n.traces, log := n.log } = n

/-- What names stand for depends neither on the cells nor on the tables. -/
theorem Machine.SameElsewhere.visible? {m n : Machine} (h : m.SameElsewhere n) (site : Site)
    (name : String) : n.visible? site name = m.visible? site name := by
  rw [← h]
  rfl

theorem Machine.SameElsewhere.options {m n : Machine} (h : m.SameElsewhere n) :
    n.options = m.options := by
  rw [← h]

namespace Chain

variable {chain : Chain} {interp : Interp} {name : String} {step : Node}

/-- Looks a key up on a value, or adds it where the mode says so. -/
def atKey (chain : Chain) (i : Nat) (isFinal : Bool) (value key : CellRef) (r : Resolution) :
    Run Resolution := do
  if let some found ← access value key then
    logStep i (← display key) "access on previous value"
    return { r with value := some found }
  if chain.mode.creates then
    let created ← newEmpty
    if !(← createEntry value key created isFinal) then
      let m ← get
      chain.raise .typeMismatch
        ("Cannot create [" ++ m.display key ++ "] on value of type " ++ m.typeName value ++ ": " ++
          chain.origin.code)
    logStep i (← display key) "created on previous value"
    return { r with value := some created }
  chain.createName i isFinal (← display key) r

/-- A step that is no call evaluates its key and goes on there. -/
theorem resolveStep_key (hstep : ∀ args, step ≠ .call args) (i : Nat) (isFinal : Bool)
    (before : Node) (value : CellRef) (r : Resolution) :
    chain.resolveStep interp i isFinal before step value r = (do
      let key ← chain.stepKey interp step
      chain.atKey i isFinal value key r) := by
  unfold resolveStep
  split
  · exact absurd rfl (hstep _)
  · rfl

/-- A chain of a name and a key has come to a value, and to the key to look up on it. -/
structure Seeks (chain : Chain) (interp : Interp) (name : String) (step : Node) (m : Machine)
    (value key : CellRef) (found : Machine) : Prop where
  led : ∃ r n, chain.head interp false name m = .ok r n ∧ r.value = some value ∧
    chain.stepKey interp step n = .ok key found

/-- What a chain gives once it has come to a value and a key. -/
theorem Seeks.resolve {m found : Machine} {value key : CellRef}
    (h : chain.Seeks interp name step m value key found) (hstep : ∀ args, step ≠ .call args)
    {cell : CellRef} {P : Machine → Prop}
    (hlooked : ∀ r, ∃ m', chain.atKey 1 true value key r found =
      .ok { r with value := some cell } m' ∧ P m') :
    ∃ m', TreeScript.resolve interp chain.site chain.origin chain.mode
      [.identifier name, step] m = .ok cell m' ∧ P m' := by
  obtain ⟨r, n, hhead, hvalue, hkey⟩ := h.led
  have hremembered : (remember n r).value = some value := by
    unfold remember
    split
    · exact hvalue
    · exact hvalue
  obtain ⟨m', hresult, hm'⟩ := hlooked (remember n r)
  have hadvanced : chain.advance interp 1 true (.identifier name) step r n =
      .ok { remember n r with value := some cell } m' := by
    unfold advance takeStep
    rw [Run.get_bind, hremembered]
    dsimp only
    rw [resolveStep_key hstep, Run.bind_ok hkey]
    exact hresult
  refine ⟨m', ?_, hm'⟩
  rw [resolve_cons]
  dsimp only
  rw [List.isEmpty_cons, Run.bind_ok hhead, resolveSteps_cons]
  rw [List.isEmpty_nil, Run.bind_ok hadvanced]
  rfl

/-- Assumes: a name that is visible, and a chain of the name and a key that leads somewhere. The
chain has come to the cell of the name and to a key. -/
theorem Seeks.of_resolve {m m' : Machine} {value cell : CellRef} (hmode : chain.mode ≠ .createNew)
    (hstep : ∀ args, step ≠ .call args) (hvisible : m.visible? chain.site name = some value)
    (h : TreeScript.resolve interp chain.site chain.origin chain.mode [.identifier name, step] m =
      .ok cell m') :
    ∃ key found, chain.Seeks interp name step m value key found := by
  obtain ⟨n, hhead, -⟩ := chain.head_of_visible interp hmode false hvisible
  rw [resolve_cons] at h
  dsimp only at h
  rw [List.isEmpty_cons, Run.bind_ok hhead, resolveSteps_cons, Run.bind_eq_ok_iff] at h
  obtain ⟨r, k, hadvanced, -⟩ := h
  have hremembered : (remember n { chain.start with value := some value }).value = some value := by
    unfold remember
    split
    · rfl
    · rfl
  unfold advance takeStep at hadvanced
  rw [Run.get_bind, hremembered] at hadvanced
  dsimp only at hadvanced
  rw [resolveStep_key hstep, Run.bind_eq_ok_iff] at hadvanced
  obtain ⟨key, found, hkey, -⟩ := hadvanced
  exact ⟨key, found, ⟨_, n, hhead, rfl, hkey⟩⟩

/-! ### Looking up a plain key -/

variable {m : Machine} {value key : CellRef} {ref : TableRef}

/-- On an object, a plain key leads to what the object has under it. -/
theorem access_of_plain (hobject : m.content value = .object ref) (hplain : m.PlainKey key) :
    access value key m = .ok (m.lookUp ref key) m := by
  unfold access
  rw [Run.get_bind, hplain.holds]
  dsimp only
  rw [hobject]
  simp only [Content.kind, hplain.free]
  rfl

/-- A plain key that an object has is found, in any mode. -/
theorem atKey_present (chain : Chain) (i : Nat) (isFinal : Bool)
    (hobject : m.content value = .object ref) (hplain : m.PlainKey key) {cell : CellRef}
    (hfound : m.lookUp ref key = some cell) (r : Resolution) :
    ∃ m', chain.atKey i isFinal value key r m = .ok { r with value := some cell } m' ∧
      m.Unwound m' := by
  obtain ⟨m', hlog, hunwound⟩ := logStep_apply i (m.display key) "access on previous value" m
  refine ⟨m', ?_, hunwound⟩
  unfold atKey
  rw [Run.bind_ok (access_of_plain hobject hplain), hfound]
  dsimp only
  change (logStep i (m.display key) "access on previous value" >>= _) m = _
  rw [Run.bind_ok hlog]
  rfl

/-- A new empty cell is as empty as it was before. -/
theorem content_withEmpty (m : Machine) (cell : CellRef) :
    (m.withCell .empty).content cell = m.content cell := by
  rw [Machine.content_withCell]
  split
  · rename_i hnew
    exact (Machine.content_of_missing (Nat.le_of_eq hnew.symm)).symm
  · rfl

/-- The machine on which an object has got a new empty cell under a key. -/
def entered (m : Machine) (ref : TableRef) (key : CellRef) : Machine :=
  (m.withCell .empty).after (.enter ref key ⟨m.cells.size⟩)

/-- Assumes: a mode that creates. A plain key that an object does not have is entered at the end of
a chain with a new cell. -/
theorem atKey_absent (hcreates : chain.mode.creates = true) (i : Nat)
    (hobject : m.content value = .object ref) (hplain : m.PlainKey key)
    (habsent : m.lookUp ref key = none) (r : Resolution) :
    ∃ m', chain.atKey i true value key r m = .ok { r with value := some ⟨m.cells.size⟩ } m' ∧
      (entered m ref key).Unwound m' := by
  obtain ⟨m', hlog, hunwound⟩ := logStep_apply i ((entered m ref key).display key)
    "created on previous value" (entered m ref key)
  have hcreated : createEntry value key ⟨m.cells.size⟩ true (m.withCell .empty) =
      .ok true (entered m ref key) := by
    have hcontent : content value (m.withCell .empty) = .ok (.object ref) (m.withCell .empty) := by
      rw [← hobject, ← content_withEmpty m value]
      rfl
    unfold createEntry
    rw [Run.bind_ok hcontent]
    rfl
  refine ⟨m', ?_, hunwound⟩
  unfold atKey
  rw [Run.bind_ok (access_of_plain hobject hplain), habsent]
  dsimp only
  rw [if_pos hcreates, Run.bind_ok (newEmpty_apply m), Run.bind_ok hcreated]
  change (logStep i ((entered m ref key).display key) "created on previous value" >>= _)
    (entered m ref key) = _
  rw [Run.bind_ok hlog]
  rfl

/-- The new cell stands under the key in the table of the object. -/
theorem table_entered (hexists : ref.index < m.tables.size) (key : CellRef) :
    (entered m ref key).table ref = (m.table ref).set (m.keyId key) key ⟨m.cells.size⟩ := by
  have hsame : (m.withCell .empty).keyId key = m.keyId key :=
    congrArg Content.keyId (content_withEmpty m key)
  have hkept : ref.index < (m.withCell .empty).tables.size := hexists
  unfold entered
  rw [Machine.table_after _ _ hkept]
  unfold Change.onTable
  dsimp only
  rw [if_pos rfl, hsame]
  rfl

/-- A key that was entered leads to the new cell. -/
theorem get?_entered (hintact : m.Intact ref) (key : CellRef) :
    ((entered m ref key).table ref).get? (m.keyId key) = some ⟨m.cells.size⟩ := by
  rw [table_entered hintact.table]
  exact Table.get?_set_self hintact.size hintact.places _ _ _

/-- Assumes: an object with something under a plain key. A chain that has come to the object and to
the key gives what is there, in any mode. -/
theorem Seeks.present {found : Machine} (h : chain.Seeks interp name step m value key found)
    (hstep : ∀ args, step ≠ .call args) (hobject : found.content value = .object ref)
    (hplain : found.PlainKey key) {cell : CellRef} (hfound : found.lookUp ref key = some cell) :
    ∃ m', TreeScript.resolve interp chain.site chain.origin chain.mode
      [.identifier name, step] m = .ok cell m' ∧ found.Unwound m' :=
  h.resolve hstep (atKey_present chain 1 true hobject hplain hfound)

/-- What a chain to a key leaves behind: the cells hold what they held, and the key leads to a cell
that exists: the one it led to before, or a new one. -/
structure Placed (found : Machine) (ref : TableRef) (key cell : CellRef) (m : Machine) : Prop where
  elsewhere : found.SameElsewhere m
  content : m.content = found.content
  bound : cell.index < m.cells.size
  leads : (m.table ref).get? (found.keyId key) = some cell
  kept : ∀ former, found.lookUp ref key = some former → cell = former
  fresh : found.lookUp ref key = none → cell = ⟨found.cells.size⟩
  added : found.lookUp ref key = none →
    m.table ref = (found.table ref).set (found.keyId key) key cell

/-- Assumes: a mode that creates, and an object that is intact. A chain that has come to the object
and to a plain key gives a cell that the object then has under the key. -/
theorem Seeks.creating {found : Machine} (h : chain.Seeks interp name step m value key found)
    (hstep : ∀ args, step ≠ .call args) (hcreates : chain.mode.creates = true)
    (hobject : found.content value = .object ref) (hintact : found.Intact ref)
    (hplain : found.PlainKey key) :
    ∃ cell m', TreeScript.resolve interp chain.site chain.origin chain.mode
      [.identifier name, step] m = .ok cell m' ∧ Placed found ref key cell m' := by
  cases hfound : found.lookUp ref key with
  | some cell =>
    obtain ⟨m', hresolved, hunwound⟩ := h.present hstep hobject hplain hfound
    have hpresent : found.lookUp ref key ≠ none := by
      rw [hfound]
      nofun
    refine ⟨cell, m', hresolved, ?_, funext hunwound.content, ?_, ?_, ?_, (absurd · hpresent),
      (absurd · hpresent)⟩
    · unfold Machine.SameElsewhere
      rw [← hunwound]
    · rw [hunwound.cells]
      exact hintact.values _ cell hfound
    · rw [hunwound.table]
      exact hfound
    · intro former hformer
      exact Option.some.inj (hfound.symm.trans hformer)
  | none =>
    obtain ⟨m', hresolved, hunwound⟩ := h.resolve hstep (atKey_absent hcreates 1 hobject hplain hfound)
    refine ⟨_, m', hresolved, ?_, funext fun cell ↦ ?_, ?_, ?_, ?_, fun _ ↦ rfl, fun _ ↦ ?_⟩
    · unfold Machine.SameElsewhere
      rw [← hunwound]
      rfl
    · rw [hunwound.content]
      exact content_withEmpty found cell
    · rw [hunwound.cells]
      exact size_lt_push _ _
    · rw [hunwound.table]
      exact get?_entered hintact key
    · intro former hformer
      rw [hfound] at hformer
      cases hformer
    · rw [hunwound.table]
      exact table_entered hintact.table key

end Chain

/-! ### Evaluating a chain to a key -/

/-- The chain `name.k` or `name[k]`. -/
def entryChain (name : String) (step : Node) : Node := .access [.identifier name, step]

namespace Interp

variable {interp : Interp} {site : Site} {mode : Mode} {name : String} {step : Node}
  {m found : Machine} {value key : CellRef} {ref : TableRef}

/-- The evaluation of a chain of a name and a key has come to a value, and to the key to look up on
it. -/
structure ComesTo (interp : Interp) (site : Site) (mode : Mode) (name : String) (step : Node)
    (m : Machine) (value key : CellRef) (found : Machine) : Prop where
  led : ∃ depth n style n', Visit.record site (entryChain name step) m = .ok depth n ∧
    Visit.announce site (entryChain name step) n = .ok style n' ∧
    Chain.Seeks ⟨entryChain name step, site, mode⟩ interp name step n' value key found

/-- Assumes: a name that is visible at a site where no debugger is at work, and a step the key of
which is found. The evaluation of a chain of the two comes to the cell of the name and to the key.
-/
theorem comesTo_of_key {Q : Machine → Prop} (hmode : mode ≠ .createNew)
    (hdebugger : m.options.debugger = none) (hvisible : m.visible? site name = some value)
    (hkey : ∀ (chain : Chain) (n : Machine), chain.site = site → m.Unwound n →
      ∃ found, chain.stepKey interp step n = .ok key found ∧ Q found) :
    ∃ found, interp.ComesTo site mode name step m value key found ∧ Q found := by
  let chain : Chain := { origin := entryChain name step, site, mode }
  obtain ⟨depth, recorded, style, announced, hrecord, hannounce, hentered⟩ :=
    Visit.record_announce_apply site chain.origin hdebugger
  obtain ⟨n, hhead, hn⟩ :=
    chain.head_of_visible interp hmode false ((hentered.visible? site name).trans hvisible)
  obtain ⟨found, hstep, hQ⟩ := hkey chain n rfl (hentered.trans hn)
  exact ⟨found, ⟨depth, recorded, style, announced, hrecord, hannounce, _, n, hhead, rfl, hstep⟩, hQ⟩

/-- Assumes: a name that is visible at a site where no debugger is at work. The evaluation of a
chain of the name and a field comes to the cell of the name and to the text of the field. -/
theorem comesTo_field (interp : Interp) (hmode : mode ≠ .createNew)
    (hdebugger : m.options.debugger = none) (hvisible : m.visible? site name = some value)
    (field : String) :
    ∃ found, interp.ComesTo site mode name (.identifier field) m value ⟨m.cells.size⟩ found ∧
      (m.withCell (.string field)).Unwound found := by
  refine comesTo_of_key hmode hdebugger hvisible fun chain n _ hn ↦ ?_
  refine ⟨n.withCell (.string field), ?_, hn.withCell _⟩
  rw [← hn.cells]
  rfl

/-- Assumes: names that are visible at a site where no debugger is at work. The evaluation of a
chain of one name, indexed with the other, comes to their cells: the variable itself is the key. -/
theorem comesTo_index (n : Nat) (hmode : mode ≠ .createNew) (hdebugger : m.options.debugger = none)
    (hvisible : m.visible? site name = some value) {index : String}
    (hindex : m.visible? site index = some key) :
    ∃ found, (TreeScript.interp (n + 1)).ComesTo site mode name (.index (.identifier index)) m value
        key found ∧
      m.Unwound found := by
  refine comesTo_of_key hmode hdebugger hvisible fun chain k hsite hk ↦ ?_
  have hhalts : k.options.debugger = none := by
    rw [hk.options]
    exact hdebugger
  obtain ⟨found, hvalue, hfound⟩ := value_variable n (nofun : Mode.required ≠ .createNew) hhalts
    ((hk.visible? site index).trans hindex)
  refine ⟨found, ?_, hk.trans hfound⟩
  subst hsite
  exact hvalue

/-- Assumes: a name that is visible, and a chain of the name and a key that has a value. Its
evaluation has come to the cell of the name and to a key. -/
theorem comesTo_of_value {n : Nat} {cell : CellRef} {last : Machine} (hmode : mode ≠ .createNew)
    (hstep : ∀ args, step ≠ .call args) (hvisible : m.visible? site name = some value)
    (h : (TreeScript.interp (n + 1)).value site (entryChain name step) mode m = .ok cell last) :
    ∃ key found, (TreeScript.interp n).ComesTo site mode name step m value key found := by
  change ((TreeScript.interp n).evalNode site mode (entryChain name step) >>= _) m = _ at h
  rw [Run.bind_eq_ok_iff] at h
  obtain ⟨result, m', hevaluated, -⟩ := h
  obtain ⟨depth, recorded, style, announced, done, hrecord, hannounce, hnode⟩ :=
    Visit.evalNode_parts hevaluated
  change (resolve (TreeScript.interp n) site (entryChain name step) mode [.identifier name, step]
    >>= _) announced = _ at hnode
  rw [Run.bind_eq_ok_iff] at hnode
  obtain ⟨target, m', hresolved, -⟩ := hnode
  let chain : Chain := { origin := entryChain name step, site, mode }
  have hchain : chain.mode ≠ .createNew := hmode
  obtain ⟨key, found, hseeks⟩ := Chain.Seeks.of_resolve hchain hstep
    (Visit.visible?_announced hrecord hannounce hvisible) hresolved
  exact ⟨key, found, ⟨depth, recorded, style, announced, hrecord, hannounce, hseeks⟩⟩

/-- An evaluation comes to one value and one key. -/
theorem ComesTo.unique {value' key' : CellRef} {found' : Machine}
    (h : interp.ComesTo site mode name step m value key found)
    (h' : interp.ComesTo site mode name step m value' key' found') :
    value = value' ∧ key = key' ∧ found = found' := by
  obtain ⟨depth, n, style, k, hrecord, hannounce, ⟨r, l, hhead, hvalue, hkey⟩⟩ := h.led
  obtain ⟨depth', n', style', k', hrecord', hannounce', ⟨r', l', hhead', hvalue', hkey'⟩⟩ := h'.led
  cases hrecord.symm.trans hrecord'
  cases hannounce.symm.trans hannounce'
  cases hhead.symm.trans hhead'
  cases hvalue.symm.trans hvalue'
  cases hkey.symm.trans hkey'
  exact ⟨rfl, rfl, rfl⟩

/-- The evaluation of a chain gives what the chain leads to, and changes nothing but stack traces
and the log after that. -/
theorem ComesTo.evaluates (h : interp.ComesTo site mode name step m value key found)
    {Q : CellRef → Machine → Prop}
    (hresolved : ∀ n, Chain.Seeks ⟨entryChain name step, site, mode⟩ interp name step n value key
      found → ∃ cell m', resolve interp site (entryChain name step) mode [.identifier name, step] n =
        .ok cell m' ∧ Q cell m') :
    ∃ cell m' last, interp.evalNode site mode (entryChain name step) m =
      .ok { value := cell } last ∧ Q cell m' ∧ m'.Unwound last := by
  obtain ⟨depth, n, style, n', hrecord, hannounce, hseeks⟩ := h.led
  obtain ⟨cell, m', hcell, hQ⟩ := hresolved n' hseeks
  have hnode : interp.node site mode (entryChain name step) n' = .ok { value := cell } m' := by
    change (resolve interp site (entryChain name step) mode [.identifier name, step] >>= _) n' = _
    rw [Run.bind_ok hcell]
    rfl
  obtain ⟨last, heval, hlast⟩ := Visit.evalNode_ok hrecord hannounce hnode
  exact ⟨cell, m', last, heval, hQ, hlast⟩

/-- Assumes: an object with something under a plain key. The evaluation of a chain that has come to
the object and to the key gives what is there. -/
theorem ComesTo.present (h : interp.ComesTo site mode name step m value key found)
    (hstep : ∀ args, step ≠ .call args) (hobject : found.content value = .object ref)
    (hplain : found.PlainKey key) {cell : CellRef} (hfound : found.lookUp ref key = some cell) :
    ∃ last, interp.evalNode site mode (entryChain name step) m = .ok { value := cell } last ∧
      found.Unwound last := by
  obtain ⟨cell', m', last, hevaluated, ⟨rfl, hunwound⟩, hlast⟩ := h.evaluates
    (Q := fun other m' ↦ other = cell ∧ found.Unwound m') fun n hseeks ↦ by
      obtain ⟨m', hresolved, hunwound⟩ := hseeks.present hstep hobject hplain hfound
      exact ⟨cell, m', hresolved, rfl, hunwound⟩
  exact ⟨last, hevaluated, hunwound.trans hlast⟩

/-- Assumes: a mode that creates, and an object that is intact. The evaluation of a chain that has
come to the object and to a plain key gives a cell that the object then has under the key. -/
theorem ComesTo.creating (h : interp.ComesTo site mode name step m value key found)
    (hstep : ∀ args, step ≠ .call args) (hcreates : mode.creates = true)
    (hobject : found.content value = .object ref) (hintact : found.Intact ref)
    (hplain : found.PlainKey key) :
    ∃ cell last, interp.evalNode site mode (entryChain name step) m = .ok { value := cell } last ∧
      Chain.Placed found ref key cell last := by
  obtain ⟨cell, m', last, hevaluated, hplaced, hlast⟩ := h.evaluates
    fun n hseeks ↦ hseeks.creating hstep hcreates hobject hintact hplain
  refine ⟨cell, last, hevaluated, ?_, ?_, ?_, ?_, hplaced.kept, hplaced.fresh, fun habsent ↦ ?_⟩
  · have helsewhere := hplaced.elsewhere
    unfold Machine.SameElsewhere at *
    rw [← hlast, ← helsewhere]
  · exact (funext hlast.content).trans hplaced.content
  · rw [hlast.cells]
    exact hplaced.bound
  · rw [hlast.table]
    exact hplaced.leads
  · rw [hlast.table]
    exact hplaced.added habsent

/-! ### Assigning to an entry -/

/-- Nothing is to be said against an assignment to an entry. -/
theorem assignmentHint?_entryChain (name : String) {step : Node} (hstep : ∀ args, step ≠ .call args) :
    assignmentHint? (entryChain name step) = none := by
  cases step with
  | call args => exact absurd rfl (hstep args)
  | _ => rfl

end Interp

/-- What an assignment to an entry leaves behind: the key leads to a cell that holds the new
content, and the other cells hold what they held. The cell is the one the key led to before, or a
new one. -/
structure Written (found : Machine) (ref : TableRef) (key new cell : CellRef) (m : Machine) :
    Prop where
  elsewhere : found.SameElsewhere m
  bound : cell.index < m.cells.size
  content : m.content cell = found.content new
  others : ∀ other, other ≠ cell → m.content other = found.content other
  leads : (m.table ref).get? (found.keyId key) = some cell
  kept : ∀ former, found.lookUp ref key = some former → cell = former
  fresh : found.lookUp ref key = none → cell = ⟨found.cells.size⟩
  added : found.lookUp ref key = none →
    m.table ref = (found.table ref).set (found.keyId key) key cell

/-- Assumes: an assignment that has evaluated its value, and has come to an intact object and a
plain key. It succeeds: it writes the value to a cell that the object then has under the key. -/
theorem assign_entry {n : Nat} {site : Site} {operator name : String} {step value : Node}
    {m evaluated found : Machine} {new owner key : CellRef} {ref : TableRef}
    (hoperator : operator = "" ∨ operator = "=") (hstep : ∀ args, step ≠ .call args)
    (hvalue : (interp (n + 1)).value site value .required m = .ok new evaluated)
    (hcomes : (interp n).ComesTo site .createIfMissing name step evaluated owner key found)
    (hobject : found.content owner = .object ref) (hintact : found.Intact ref)
    (hplain : found.PlainKey key) :
    ∃ cell m', (interp (n + 1)).assign site operator (entryChain name step) value m = .ok cell m' ∧
      Written found ref key new cell m' := by
  obtain ⟨cell, last, hevaluated, hplaced⟩ :=
    hcomes.creating hstep rfl hobject hintact hplain
  have htarget : (interp (n + 1)).value site (entryChain name step) .createIfMissing evaluated =
      .ok cell last := by
    change ((interp n).evalNode site .createIfMissing (entryChain name step) >>= _) evaluated = _
    rw [Run.bind_ok hevaluated]
    rfl
  obtain ⟨m', hassigned, hunwound⟩ :=
    Interp.assign_ok hoperator (Interp.assignmentHint?_entryChain name hstep) hvalue htarget
  refine ⟨cell, m', hassigned, ?_, ?_, ?_, fun other hother ↦ ?_, ?_, hplaced.kept, hplaced.fresh,
    fun habsent ↦ ?_⟩
  · have helsewhere := hplaced.elsewhere
    unfold Machine.SameElsewhere at *
    rw [← hunwound, ← helsewhere]
    rfl
  · rw [hunwound.cells, (Machine.size_after _ _).1]
    exact hplaced.bound
  · rw [hunwound.content, Machine.content_overwrite_self hplaced.bound,
      hplaced.content]
  · have hkept : ¬(Change.overwrite cell (last.content new)).Overwrites other := hother.symm
    rw [hunwound.content, Machine.content_after hkept, hplaced.content]
  · rw [hunwound.table]
    exact hplaced.leads
  · rw [hunwound.table]
    exact hplaced.added habsent

namespace Written

variable {found m : Machine} {ref : TableRef} {key new cell : CellRef}

/-- Assumes: that the object is in order after the assignment. The key is among its keys. -/
theorem mem_keys (h : Written found ref key new cell m)
    (horder : (m.table ref).InOrder m.keyId) :
    ∃ other ∈ (m.table ref).keys, m.keyId other = found.keyId key := by
  obtain ⟨entry, hentry, hid, -⟩ := horder.mem_entries h.leads
  exact ⟨entry.key, List.mem_map_of_mem hentry, hid⟩

/-- Assumes: a history that spares the key, and a chain that comes to the object and to the key once
more. It gives the cell that was written, which holds the value until it is overwritten. -/
theorem reads_back (h : Written found ref key new cell m) {step : Node}
    (hstep : ∀ args, step ≠ .call args) {history : List (Machine × Change)} {later : Machine}
    (hevolves : m.Evolves history later)
    (hspares : ∀ p ∈ history, p.2.Spares ref (found.keyId key) p.1) {k : Nat} {reader : Site}
    {name : String} {start : Machine} {owner' key' : CellRef}
    (hcomes : (interp k).ComesTo reader .required name step start owner' key' later)
    (hobject : later.content owner' = .object ref) (hplain : later.PlainKey key')
    (hsame : later.keyId key' = found.keyId key) :
    ∃ last, (interp (k + 1)).eval reader .required (entryChain name step) start =
        .ok { value := cell } last ∧
      ((∀ p ∈ history, ¬p.2.Overwrites cell) → last.content cell = found.content new) := by
  have hfound : later.lookUp ref key' = some cell := by
    unfold Machine.lookUp
    rw [hsame, hevolves.get? hspares h.leads]
  obtain ⟨last, hevaluated, hunwound⟩ := hcomes.present hstep hobject hplain hfound
  refine ⟨last, hevaluated, fun huntouched ↦ ?_⟩
  rw [hunwound.content, hevolves.content huntouched h.bound, h.content]

end Written

/-- Assumes: an assignment to an entry that has succeeded. It has evaluated its value and, where the
name is visible, has come to a key on what the name stands for. If that is an intact object and the
key is plain, the cell that was written holds the value, and the object has it under the key. The
same chain, evaluated later with the same object and key, gives that very cell, whatever else has
been done meanwhile that spares the key; and the cell holds the value until it is overwritten. -/
theorem assigned_entry_reads_back {n : Nat} {site : Site} {operator name : String}
    {step value : Node} {m m' : Machine} {cell : CellRef}
    (hoperator : operator = "" ∨ operator = "=") (hstep : ∀ args, step ≠ .call args)
    (hassigned : (interp (n + 1)).assign site operator (entryChain name step) value m =
      .ok cell m') :
    ∃ new evaluated, (interp (n + 1)).value site value .required m = .ok new evaluated ∧
      ∀ owner, evaluated.visible? site name = some owner → ∃ key found,
        (interp n).ComesTo site .createIfMissing name step evaluated owner key found ∧
        ∀ ref, found.content owner = .object ref → found.Intact ref → found.PlainKey key →
          m'.content cell = found.content new ∧
          (m'.table ref).get? (found.keyId key) = some cell ∧
          ((m'.table ref).InOrder m'.keyId →
            ∃ other ∈ (m'.table ref).keys, m'.keyId other = found.keyId key) ∧
          ∀ (history : List (Machine × Change)) (later : Machine), m'.Evolves history later →
            (∀ p ∈ history, p.2.Spares ref (found.keyId key) p.1) →
            ∀ (k : Nat) (reader : Site) (start : Machine) (owner' key' : CellRef),
              (interp k).ComesTo reader .required name step start owner' key' later →
              later.content owner' = .object ref → later.PlainKey key' →
              later.keyId key' = found.keyId key →
              ∃ last, (interp (k + 1)).eval reader .required (entryChain name step) start =
                  .ok { value := cell } last ∧
                ((∀ p ∈ history, ¬p.2.Overwrites cell) → last.content cell = found.content new) := by
  obtain ⟨new, evaluated, written, last, hvalue, htarget⟩ :=
    Interp.assign_parts (Interp.assignmentHint?_entryChain name hstep) hassigned
  refine ⟨new, evaluated, hvalue, fun owner hvisible ↦ ?_⟩
  obtain ⟨key, found, hcomes⟩ := Interp.comesTo_of_value
    (nofun : Mode.createIfMissing ≠ .createNew) hstep hvisible htarget
  refine ⟨key, found, hcomes, fun ref hobject hintact hplain ↦ ?_⟩
  obtain ⟨cell', m'', hassigned', hwritten⟩ :=
    assign_entry hoperator hstep hvalue hcomes hobject hintact hplain
  cases hassigned.symm.trans hassigned'
  exact ⟨hwritten.content, hwritten.leads, hwritten.mem_keys, fun history later hevolves hspares k
    reader start owner' key' hagain hobject' hplain' hsame ↦
      hwritten.reads_back hstep hevolves hspares hagain hobject' hplain' hsame⟩

/-- A machine on which the variable `o` holds an object without entries. -/
def heldObject : Machine where
  cells := #[.object ⟨0⟩]
  tables := #[{}]
  scopes := #[Std.TreeMap.insert {} "o" ⟨0⟩]
  traces := #[{}]
  contexts := #[{ source := "main", globals := ⟨0⟩, trace := ⟨0⟩ }]

def heldSite : Site := ⟨⟨0⟩, (heldObject.context ⟨0⟩).frame⟩

/-- After `o.k = true` the chain `o.k` gives the cell that was written, and the cell holds `true`.
-/
theorem field_reads_back :
    ∃ cell m' last, (interp 1).assign heldSite "=" (entryChain "o" (.identifier "k")) (.boolean true)
        heldObject = .ok cell m' ∧
      (interp 1).eval heldSite .required (entryChain "o" (.identifier "k")) m' =
        .ok { value := cell } last ∧
      last.content cell = .boolean true := by
  obtain ⟨evaluated, hvalue, hevaluated⟩ :=
    Interp.value_boolean (m := heldObject) 0 heldSite true rfl
  have hstep : ∀ args, Node.identifier "k" ≠ .call args := nofun
  have hdebugger : evaluated.options.debugger = none := by
    rw [hevaluated.options]
    rfl
  have hvisible : evaluated.visible? heldSite "o" = some ⟨0⟩ := by
    rw [hevaluated.visible?]
    decide
  have hcells : evaluated.cells = #[.object ⟨0⟩, .boolean true] := hevaluated.cells
  -- The assignment comes to the object and the key `k`, which leads nowhere yet.
  obtain ⟨found, hcomes, hfound⟩ := (interp 0).comesTo_field
    (nofun : Mode.createIfMissing ≠ .createNew) hdebugger hvisible "k"
  rw [hcells] at hcomes
  have hcontent (cell : CellRef) : found.content cell =
      (#[.object ⟨0⟩, .boolean true, .string "k"] : Array Content)[cell.index]?.getD .empty := by
    rw [hfound.content]
    unfold Machine.content Machine.withCell
    rw [hcells]
    rfl
  have hkey : found.content ⟨2⟩ = .string "k" := hcontent _
  have hobject : found.content ⟨0⟩ = .object ⟨0⟩ := hcontent _
  have hempty : found.table ⟨0⟩ = {} := (hfound.table ⟨0⟩).trans (hevaluated.table ⟨0⟩)
  have hintact : found.Intact ⟨0⟩ := by
    refine Machine.intact_of_empty ?_ hempty
    rw [← hfound, ← hevaluated]
    exact Nat.zero_lt_one
  obtain ⟨cell, m', hassigned, hwritten⟩ := assign_entry (.inr rfl) hstep hvalue hcomes hobject
    hintact (Machine.plainKey_of_text hkey (by decide))
  have hother : (⟨0⟩ : CellRef) ≠ cell := by
    have habsent : found.lookUp ⟨0⟩ ⟨2⟩ = none := by
      unfold Machine.lookUp
      rw [hempty]
      exact Table.get?_empty _
    have hsize : found.cells.size = 3 := by
      rw [hfound.cells]
      unfold Machine.withCell
      rw [hcells]
      rfl
    rw [hwritten.fresh habsent, hsize]
    decide
  have hdebugger' : m'.options.debugger = none := by
    rw [hwritten.elsewhere.options, hfound.options]
    exact hdebugger
  have hvisible' : m'.visible? heldSite "o" = some ⟨0⟩ := by
    rw [hwritten.elsewhere.visible?, hfound.visible?]
    exact hvisible
  -- So does the chain that is read after it.
  obtain ⟨later, hagain, hlater⟩ := (interp 0).comesTo_field
    (nofun : Mode.required ≠ .createNew) hdebugger' hvisible' "k"
  have hkey' : later.content ⟨m'.cells.size⟩ = .string "k" := by
    rw [hlater.content, Machine.content_new]
  have hobject' : later.content ⟨0⟩ = .object ⟨0⟩ := by
    rw [hlater.content, Machine.content_old (Nat.zero_lt_of_lt hwritten.bound),
      hwritten.others _ hother, hobject]
  have hevolves : m'.Evolves [] later :=
    .trans (.cell m' (.string "k")) (.elsewhere hlater.cells (by rw [← hlater]))
  have hsame : later.keyId ⟨m'.cells.size⟩ = found.keyId ⟨2⟩ := by
    unfold Machine.keyId
    rw [hkey, hkey']
  -- What the theorem says is evaluated is what has been evaluated above.
  obtain ⟨new, evaluated', hvalue', hread⟩ := assigned_entry_reads_back (.inr rfl) hstep hassigned
  cases hvalue.symm.trans hvalue'
  obtain ⟨key, found', hcomes', hread⟩ := hread ⟨0⟩ hvisible
  obtain ⟨-, rfl, rfl⟩ := hcomes.unique hcomes'
  obtain ⟨-, -, -, hread⟩ := hread ⟨0⟩ hobject hintact (Machine.plainKey_of_text hkey (by decide))
  obtain ⟨last, hreading, hholds⟩ := hread [] later hevolves (fun _ h ↦ nomatch h) 0 heldSite m'
    ⟨0⟩ ⟨m'.cells.size⟩ hagain hobject' (Machine.plainKey_of_text hkey' (by decide)) hsame
  exact ⟨cell, m', last, hassigned, hreading, (hholds fun _ h ↦ nomatch h).trans (hcontent ⟨1⟩)⟩

/-- The name of a method is no plain key: `o.size = true` succeeds, but the cell it writes is not
what `o.size` gives afterwards, and the object has got no entry. -/
theorem method_name_is_not_read_back :
    ∃ cell m' other last, (interp 1).assign heldSite "=" (entryChain "o" (.identifier "size"))
        (.boolean true) heldObject = .ok cell m' ∧
      (interp 1).value heldSite (entryChain "o" (.identifier "size")) .required m' =
        .ok other last ∧
      other ≠ cell ∧ (m'.table ⟨0⟩).size = 0 := by
  refine ⟨⟨3⟩, _, ⟨5⟩, _, Outcome.eq_ok ?_, Outcome.eq_ok ?_, ?_, ?_⟩
  · decide +kernel
  · decide +kernel
  · decide
  · decide +kernel

end TreeScript
