import TreeScript.Proofs.InjectedSymbols
import TreeScript.Proofs.Objects.Copies

/-!
# How a literal object is built

A literal object is put together of portions: the objects it extends and the fields it takes over,
in the order they are declared in, and then its other entries (`portions`). Each portion evaluates
expressions and then writes values under keys of the object. `Gathers` follows the portions one
after the other, with the values that are written and with what happens between the writes; and the
literal is assembled exactly if its portions can be followed to the end (`assemble_eq_ok_iff`).

If what happens between the writes leaves the object alone, then the object has under each key what
was written last, and no other keys (`Gathers.building`). The initialiser is left for then: all that
is still to be done is one call of the last one there is, without arguments
(`last_writer_wins_and_initialiser_is_last`).
-/

set_option autoImplicit false

namespace TreeScript

/-! ### Writes -/

/-- A value that is entered under a key: what the key is looked up by, the cells of the two, and
what the value holds. -/
structure Write where
  id : KeyId
  key : CellRef
  value : CellRef
  content : Content

/-- The last value that is written under a key. -/
def lastWrite? (writes : List Write) (id : KeyId) : Option Write :=
  writes.reverse.find? fun write ↦ write.id == id

theorem lastWrite?_append (writes : List Write) (write : Write) (id : KeyId) :
    lastWrite? (writes ++ [write]) id =
      if write.id = id then some write else lastWrite? writes id := by
  unfold lastWrite?
  rw [List.reverse_append, List.reverse_singleton, List.singleton_append, List.find?_cons]
  by_cases hid : write.id = id
  · rw [if_pos hid, beq_iff_eq.mpr hid]
  · rw [if_neg hid, beq_eq_false_iff_ne.mpr hid]

theorem lastWrite?_eq_some {writes : List Write} {id : KeyId} {write : Write}
    (h : lastWrite? writes id = some write) : write ∈ writes ∧ write.id = id := by
  unfold lastWrite? at h
  have hid := List.find?_some h
  exact ⟨List.mem_reverse.mp (List.mem_of_find?_eq_some h), beq_iff_eq.mp hid⟩

namespace Machine

/-- What an object brings along when another one extends it, in its own order. -/
def writesOf (m : Machine) (source : TableRef) : List Write :=
  (m.table source).entries.map fun entry ↦
    ⟨m.keyId entry.key, entry.key, entry.value, m.content entry.value⟩

/-- Values are entered in an object one after the other. -/
def afterWrites (m : Machine) (ref : TableRef) (writes : List Write) : Machine :=
  writes.foldl (fun m write ↦ m.after (.enter ref write.key write.value)) m

/-- On its way to another one, a machine leaves an object alone: its table, and what its own cell
and the cells of its keys hold, and some cells that are to be its keys. -/
structure LeavesObject (m : Machine) (result : CellRef) (ref : TableRef) (waiting : List CellRef)
    (n : Machine) : Prop where
  table : n.table ref = m.table ref
  own : n.content result = m.content result
  keys : ∀ key ∈ (m.table ref).keys, n.content key = m.content key
  waiting : ∀ key ∈ waiting, n.content key = m.content key

/-- What an object has under a key holds what it held. -/
def KeepsValue (m : Machine) (ref : TableRef) (id : KeyId) (n : Machine) : Prop :=
  ∀ value, (m.table ref).get? id = some value → n.content value = m.content value

/-- An object has under each key the cell that was written last, and no keys under which nothing was
written. -/
structure HasLast (m : Machine) (result : CellRef) (ref : TableRef) (writes : List Write) :
    Prop where
  object : m.content result = .object ref
  leads : ∀ id, (m.table ref).get? id = (lastWrite? writes id).map (·.value)
  keys : ∀ key ∈ (m.table ref).keys, ∃ write ∈ writes, m.keyId key = write.id

/-- What was written last under a key holds what it held then. -/
def HoldsLast (m : Machine) (writes : List Write) (id : KeyId) : Prop :=
  ∀ write, lastWrite? writes id = some write → m.content write.value = write.content

/-- An object that is being built, and is in order. -/
structure Building (m : Machine) (result : CellRef) (ref : TableRef) (writes : List Write) : Prop
    extends HasLast m result ref writes where
  table : ref.index < m.tables.size
  inOrder : (m.table ref).InOrder m.keyId

variable {m n : Machine} {result : CellRef} {ref : TableRef} {waiting : List CellRef}
  {writes : List Write}

/-- A new object has no keys. -/
theorem building_new (m : Machine) :
    (m.withTable.withCell (.object ⟨m.tables.size⟩)).Building ⟨m.cells.size⟩ ⟨m.tables.size⟩
      [] := by
  have hnew := m.orderly_newTable
  refine ⟨⟨m.withTable.content_new _, fun id ↦ ?_, fun key hkey ↦ ?_⟩, hnew.table,
    (hnew.withCell _).inOrder⟩
  · exact (congrArg (Table.get? · id) m.table_new).trans (Table.get?_empty id)
  · change key ∈ (m.withTable.table _).keys at hkey
    rw [m.table_new] at hkey
    cases hkey

/-- An object that is left alone has what it had. -/
theorem Building.kept (h : m.Building result ref writes)
    (hleaves : m.LeavesObject result ref waiting n) (htables : m.tables.size ≤ n.tables.size) :
    n.Building result ref writes := by
  have hkeys : ∀ entry ∈ (m.table ref).entries, n.keyId entry.key = m.keyId entry.key :=
    fun entry hentry ↦ congrArg Content.keyId (hleaves.keys _ (List.mem_map_of_mem hentry))
  refine ⟨⟨hleaves.own.trans h.object, fun id ↦ ?_, fun key hkey ↦ ?_⟩,
    Nat.lt_of_lt_of_le h.table htables, ?_⟩
  · rw [hleaves.table]
    exact h.leads id
  · rw [hleaves.table] at hkey
    obtain ⟨write, hmem, hid⟩ := h.keys key hkey
    exact ⟨write, hmem, (congrArg Content.keyId (hleaves.keys key hkey)).trans hid⟩
  · rw [hleaves.table]
    exact h.inOrder.congr hkeys

/-- Assumes: a key that reads as it is to be looked up. What is entered under it is written last. -/
theorem Building.enter (h : m.Building result ref writes) {write : Write}
    (hid : m.keyId write.key = write.id) :
    (m.after (.enter ref write.key write.value)).Building result ref (writes ++ [write]) := by
  have htable : (m.after (.enter ref write.key write.value)).table ref =
      (m.table ref).set (m.keyId write.key) write.key write.value := by
    rw [table_after _ _ h.table]
    exact if_pos rfl
  refine ⟨⟨h.object, fun id ↦ ?_, fun key hkey ↦ ?_⟩, ?_, ?_⟩
  · rw [htable, lastWrite?_append, hid]
    by_cases hsame : write.id = id
    · rw [if_pos hsame, hsame]
      exact h.inOrder.get?_set_self id _ _
    · rw [if_neg hsame, ← h.leads]
      exact h.inOrder.get?_set _ _ (Ne.symm hsame)
  · rw [htable] at hkey
    obtain ⟨entry, hentry, rfl⟩ := List.mem_map.mp hkey
    rcases h.inOrder.key_of_set hentry with hnew | ⟨former, hformer, hold⟩
    · exact ⟨write, List.mem_append_right _ (List.mem_singleton_self _), by rw [hnew]; exact hid⟩
    · obtain ⟨other, hother, hsame⟩ := h.keys former.key (List.mem_map_of_mem hformer)
      exact ⟨other, List.mem_append_left _ hother, by rw [← hold]; exact hsame⟩
  · rw [(size_after m _).2]
    exact h.table
  · rw [htable]
    exact h.inOrder.set write.key write.value

/-- The same for values that are entered one after the other. -/
theorem Building.afterWrites (h : m.Building result ref writes) {more : List Write}
    (hmore : ∀ write ∈ more, m.keyId write.key = write.id) :
    (m.afterWrites ref more).Building result ref (writes ++ more) := by
  induction more generalizing m writes with
  | nil => rwa [List.append_nil]
  | cons write more ih =>
    obtain ⟨hid, hrest⟩ := List.forall_mem_cons.mp hmore
    rw [List.append_cons]
    exact ih (h.enter hid) hrest

theorem cells_afterWrites (m : Machine) (ref : TableRef) (writes : List Write) :
    (m.afterWrites ref writes).cells = m.cells := by
  unfold afterWrites
  induction writes generalizing m with
  | nil => rfl
  | cons write writes ih => exact ih (m.after (.enter ref write.key write.value))

theorem content_afterWrites (m : Machine) (ref : TableRef) (writes : List Write) (cell : CellRef) :
    (m.afterWrites ref writes).content cell = m.content cell :=
  content_congr (cells_afterWrites m ref writes) cell

/-- What was written last holds what it held, as long as what the object has under the key does. -/
theorem Building.holdsLast_kept (h : m.Building result ref writes) {id : KeyId}
    (hholds : m.HoldsLast writes id) (hkept : m.KeepsValue ref id n) : n.HoldsLast writes id := by
  intro write hlast
  have hfound : (m.table ref).get? id = some write.value := by rw [h.leads, hlast]; rfl
  rw [hkept _ hfound]
  exact hholds write hlast

/-- Values that are entered hold what they held when they were. -/
theorem HoldsLast.afterWrites {id : KeyId} (h : m.HoldsLast writes id) {more : List Write}
    (hmore : ∀ write ∈ more, m.content write.value = write.content) :
    (m.afterWrites ref more).HoldsLast (writes ++ more) id := by
  intro write hlast
  rw [content_afterWrites]
  unfold lastWrite? at hlast
  rw [List.reverse_append, List.find?_append] at hlast
  rcases Option.or_eq_some_iff.mp hlast with hnew | ⟨-, hold⟩
  · exact hmore write (lastWrite?_eq_some hnew).1
  · exact h write hold

end Machine

/-- To merge an object is to enter what it brings along. -/
theorem mergeInto_eq_ok (ref source : TableRef) (m : Machine) :
    mergeInto ref source m = .ok () (m.afterWrites ref (m.writesOf source)) := by
  have hloop (entries : List Entry) (k : Machine) :
      (forIn entries PUnit.unit fun (entry : Entry) _ ↦ do
        setEntry ref entry.key entry.value
        return .yield PUnit.unit) k = .ok PUnit.unit
          (entries.foldl (fun k entry ↦ k.after (.enter ref entry.key entry.value)) k) := by
    induction entries generalizing k with
    | nil => rfl
    | cons entry entries ih =>
      rw [List.forIn_cons]
      exact ih (k.after (.enter ref entry.key entry.value))
  unfold mergeInto Machine.afterWrites Machine.writesOf
  have hread : tableOf source m = .ok (m.table source) m := rfl
  rw [Run.bind_ok hread, Run.bind_ok (hloop _ m), List.foldl_map]
  rfl

/-! ### Portions -/

/-- A key that is a string loses a dollar sign at its beginning. -/
def Content.undollared : Content → Content
  | .string s => .string (if Text.hasPrefix s "$" then Text.dropPrefix s "$" else s)
  | content => content

/-- The cell of a key without the dollar sign. -/
def undollar (key : CellRef) : Run CellRef := do
  match ← content key with
  | .string s => if Text.hasPrefix s "$" then newString (Text.dropPrefix s "$") else pure key
  | _ => pure key

theorem undollar_apply {named own : CellRef} {m n : Machine} (h : undollar named m = .ok own n) :
    n.content own = (m.content named).undollared ∧ n.tables = m.tables := by
  unfold undollar at h
  rw [Run.bind_ok (show content named m = .ok (m.content named) m from rfl)] at h
  generalize hcontent : m.content named = held at h
  cases held with
  | string s =>
    unfold Content.undollared
    dsimp only at h ⊢
    by_cases hprefix : Text.hasPrefix s "$" = true
    · rw [if_pos hprefix] at h
      cases h
      rw [if_pos hprefix]
      exact ⟨m.content_new _, rfl⟩
    · rw [if_neg hprefix] at h
      cases h
      rw [if_neg hprefix]
      exact ⟨hcontent, rfl⟩
  | _ =>
    cases h
    exact ⟨hcontent, rfl⟩

/-- What a literal object is put together of. -/
inductive Portion where
  /-- An object that is extended. -/
  | base (node : Node)
  /-- A field that is taken over from the arguments. -/
  | field (name : String)
  /-- What stands in place of a list of names. -/
  | malformed (node : Node)
  | entry (key value : Node)

namespace Interp

/-- The expressions of an entry that extends. -/
def sourcesOf : Node → List Node
  | .array elements => elements
  | node => [node]

/-- The fields that are listed by an entry that takes over fields. -/
def fieldsOf (node : Node) : List Portion :=
  match node with
  | .array elements => elements.map fun
    | .identifier name => .field name
    | _ => .malformed node
  | _ => [.malformed node]

/-- The portions that an entry brings along in front of all entries that are not directives. -/
def inherited (entry : Node × Node) : List Portion :=
  match directive? entry.1 with
  | some .bases => (sourcesOf entry.2).map .base
  | some .fields => fieldsOf entry.2
  | _ => []

/-- The portion that an entry is itself, if it is no directive. -/
def declared (entry : Node × Node) : List Portion :=
  if (directive? entry.1).isNone then [.entry entry.1 entry.2] else []

/-- The portions of a literal object, in the order in which they are added. -/
def portions (entries : List (Node × Node)) : List Portion :=
  entries.flatMap inherited ++ entries.flatMap declared

/-- Adds a portion to an object. -/
def add (interp : Interp) (site : Site) (result : CellRef) (ref : TableRef) : Portion → Run Unit
  | .base node => do
    let base ← interp.extendsSource site node
    match (← get).tableOf? base with
    | some source => mergeInto ref source
    | none =>
      let type := (← get).typeName base
      site.raise .construction ("Invalid $extends value, expected an object: " ++ type)
  | .field name => do
    let m ← get
    let args := (m.lookUpName site.frame "args").bind m.tableOf?
    match args.bind fun args => m.lookUpText args name with
    | some value => setText ref name (← copy value)
    | none =>
      site.raise .construction ("Invalid $fields value, field not found in args: " ++ name)
  | .malformed node =>
    site.raise .construction
      ("Invalid $fields value, expected a list of identifiers: " ++ node.code)
  | .entry key value => interp.addEntry site ref result key value

section Adding

variable (interp : Interp) (site : Site) (result : CellRef) (ref : TableRef)

/-- Adds portions one after the other. -/
def addAll : List Portion → Run Unit
  | [] => pure ()
  | portion :: portions => do
    interp.add site result ref portion
    addAll portions

theorem addAll_append (portions more : List Portion) :
    interp.addAll site result ref (portions ++ more) = (do
      interp.addAll site result ref portions
      interp.addAll site result ref more) := by
  induction portions with
  | nil => rfl
  | cons portion portions ih =>
    rw [List.cons_append, addAll, addAll, bind_assoc]
    exact bind_congr fun _ ↦ ih

theorem addAll_singleton (portion : Portion) :
    interp.addAll site result ref [portion] = interp.add site result ref portion :=
  bind_pure _

/-- A loop that adds in each pass the portions of one element adds those of all. -/
theorem forIn_eq_addAll {α : Type} (portionsOf : α → List Portion)
    {body : α → PUnit → Run (ForInStep PUnit)} (xs : List α)
    (h : ∀ x ∈ xs, body x ⟨⟩ =
      interp.addAll site result ref (portionsOf x) >>= fun _ ↦ pure (.yield ⟨⟩)) :
    forIn xs ⟨⟩ body = interp.addAll site result ref (xs.flatMap portionsOf) := by
  induction xs with
  | nil => rfl
  | cons x xs ih =>
    obtain ⟨hx, hxs⟩ := List.forall_mem_cons.mp h
    rw [List.forIn_cons, List.flatMap_cons, addAll_append, hx, bind_assoc]
    refine bind_congr fun _ ↦ ?_
    rw [pure_bind]
    exact ih hxs

theorem extend_eq_addAll (node : Node) :
    interp.extend site ref node = interp.addAll site result ref ((sourcesOf node).map .base) := by
  rw [List.map_eq_flatMap]
  have hloop (sources : List Node) :
      (do
        for source in sources do
          let base ← interp.extendsSource site source
          match (← get).tableOf? base with
          | some baseRef => mergeInto ref baseRef
          | none =>
            let type := (← get).typeName base
            site.raise .construction ("Invalid $extends value, expected an object: " ++ type)) =
        interp.addAll site result ref (sources.flatMap fun source ↦ [.base source]) := by
    refine (bind_pure _).trans
      (forIn_eq_addAll interp site result ref _ sources fun source _ ↦ ?_)
    rw [addAll_singleton]
    unfold add
    rw [bind_assoc]
    refine bind_congr fun base ↦ ?_
    rw [bind_assoc]
    refine bind_congr fun m ↦ ?_
    split
    · rfl
    · rw [bind_assoc]
  cases node <;> exact hloop _

theorem copyFields_eq_addAll (node : Node) :
    copyFields site ref node = interp.addAll site result ref (fieldsOf node) := by
  cases node with
  | array elements =>
    unfold fieldsOf
    dsimp only
    rw [List.map_eq_flatMap]
    refine (bind_pure _).trans
      (forIn_eq_addAll interp site result ref _ elements fun element _ ↦ ?_)
    rw [addAll_singleton]
    cases element with
    | identifier name =>
      unfold add
      dsimp only
      rw [bind_assoc]
      refine bind_congr fun m ↦ ?_
      generalize (((m.lookUpName site.frame "args").bind m.tableOf?).bind fun args ↦
        m.lookUpText args name) = found
      cases found with
      | some value => exact (bind_assoc ..).symm
      | none => rfl
    | _ => rfl
  | _ => exact (addAll_singleton interp site result ref (.malformed _)).symm

theorem addEntry_eq (key value : Node) :
    interp.addEntry site ref result key value = (do
      let inner ← site.forkSelf result
      let named ← interp.entryKey inner key
      let own ← undollar named
      let given ← interp.value inner value
      setEntry ref own (← copy given)) := by
  unfold addEntry undollar
  refine bind_congr fun inner ↦ bind_congr fun named ↦ ?_
  rw [bind_assoc]
  refine bind_congr fun content ↦ ?_
  cases content with
  | string s =>
    dsimp only
    split <;> rfl
  | _ => rfl

/-- To assemble a literal object is to add its portions to a new object. -/
theorem assemble_eq (entries : List (Node × Node)) :
    interp.assemble site entries = (do
      let ref ← newTable
      let result ← newObject ref
      interp.addAll site result ref (portions entries)
      return result) := by
  unfold assemble
  refine bind_congr fun ref ↦ bind_congr fun result ↦ ?_
  unfold portions
  rw [addAll_append, bind_assoc]
  rw [forIn_eq_addAll interp site result ref inherited entries ?first,
    forIn_eq_addAll interp site result ref declared entries ?second]
  case first =>
    rintro ⟨key, value⟩ -
    unfold inherited
    dsimp only
    generalize directive? key = directive
    cases directive with
    | none => rfl
    | some directive =>
      cases directive with
      | bases => rw [← extend_eq_addAll]
      | fields => rw [← copyFields_eq_addAll]
      | initialiser => rfl
  case second =>
    rintro ⟨key, value⟩ -
    unfold declared
    dsimp only
    split
    · rw [addAll_singleton]
      rfl
    · rfl

end Adding

end Interp

/-! ### Evaluation between the writes -/

/-- What happens between two writes, and the keys that are made already. -/
structure Interlude where
  before : Machine
  after : Machine
  waiting : List CellRef := []

/-- An interlude leaves an object alone. -/
def Interlude.Spares (interlude : Interlude) (result : CellRef) (ref : TableRef) : Prop :=
  interlude.before.LeavesObject result ref interlude.waiting interlude.after

/-- An interlude leaves alone what an object has under a key. -/
def Interlude.Keeps (interlude : Interlude) (ref : TableRef) (id : KeyId) : Prop :=
  interlude.before.KeepsValue ref id interlude.after

/-- Portions are evaluated and added to an object one after the other. The interludes and the writes
are listed in their order. -/
inductive Interp.Gathers (interp : Interp) (site : Site) (result : CellRef) (ref : TableRef) :
    List Portion → Machine → List Interlude → List Write → Machine → Prop
  | done (m : Machine) : Gathers interp site result ref [] m [] [] m
  /-- All that an object has is written, in the order it has it in. -/
  | base {node : Node} {portions : List Portion} {base : CellRef} {source : TableRef}
      {m k n : Machine} {interludes : List Interlude} {writes : List Write}
      (hbase : interp.extendsSource site node m = .ok base k)
      (hobject : k.tableOf? base = some source)
      (hrest : Gathers interp site result ref portions (k.afterWrites ref (k.writesOf source))
        interludes writes n) :
    Gathers interp site result ref (.base node :: portions) m
      ({ before := m, after := k } :: interludes) (k.writesOf source ++ writes) n
  /-- An argument is written under its name. -/
  | field {name : String} {portions : List Portion} {args : TableRef} {value : CellRef}
      {m k n : Machine} {write : Write} {interludes : List Interlude} {writes : List Write}
      (hargs : (m.lookUpName site.frame "args").bind m.tableOf? = some args)
      (hvalue : m.lookUpText args name = some value)
      (hk : k = (m.withCell (m.content value)).withCell (.string name))
      (hwrite : write =
        ⟨.string name, ⟨(m.withCell (m.content value)).cells.size⟩, ⟨m.cells.size⟩,
          m.content value⟩)
      (hrest : Gathers interp site result ref portions (k.afterWrites ref [write]) interludes writes
        n) :
    Gathers interp site result ref (.field name :: portions) m
      ({ before := m, after := k } :: interludes) (write :: writes) n
  /-- A value is written under its key, which has lost the dollar sign in front of it. -/
  | entry {key value : Node} {portions : List Portion} {inner : Site} {named own given : CellRef}
      {m forked keyed ready valued k n : Machine} {write : Write} {interludes : List Interlude}
      {writes : List Write}
      (hforked : site.forkSelf result m = .ok inner forked)
      (hkey : interp.entryKey inner key forked = .ok named keyed)
      (hown : undollar named keyed = .ok own ready)
      (hvalue : interp.value inner value .required ready = .ok given valued)
      (hk : k = valued.withCell (valued.content given))
      (hwrite : write =
        ⟨(keyed.content named).undollared.keyId, own, ⟨valued.cells.size⟩, valued.content given⟩)
      (hrest : Gathers interp site result ref portions (k.afterWrites ref [write]) interludes writes
        n) :
    Gathers interp site result ref (.entry key value :: portions) m
      ({ before := m, after := ready } :: { before := ready, after := k, waiting := [own] } ::
        interludes) (write :: writes) n

namespace Interp

variable {interp : Interp} {site : Site} {result : CellRef} {ref : TableRef}
  {portions : List Portion} {m n : Machine} {interludes : List Interlude} {writes : List Write}

/-- Portions that are gathered have been added. -/
theorem Gathers.addAll (h : interp.Gathers site result ref portions m interludes writes n) :
    interp.addAll site result ref portions m = .ok () n := by
  induction h with
  | done m => rfl
  | @base node portions base source m k n interludes writes hbase hobject hrest ih =>
    have hadded : interp.add site result ref (.base node) m =
        .ok () (k.afterWrites ref (k.writesOf source)) := by
      rw [add]
      rw [Run.bind_ok hbase, Run.get_bind, hobject]
      exact mergeInto_eq_ok ref source k
    rw [Interp.addAll, Run.bind_ok hadded]
    exact ih
  | @field name portions args value m k n write interludes writes hargs hvalue hk hwrite hrest ih =>
    have hadded : interp.add site result ref (.field name) m =
        .ok () (k.afterWrites ref [write]) := by
      rw [add]
      rw [Run.get_bind, hargs, Option.bind_some, hvalue, hk, hwrite]
      rfl
    rw [Interp.addAll, Run.bind_ok hadded]
    exact ih
  | @entry key value portions inner named own given m forked keyed ready valued k n write interludes
      writes hforked hkey hown hvalue hk hwrite hrest ih =>
    have hadded : interp.add site result ref (.entry key value) m =
        .ok () (k.afterWrites ref [write]) := by
      rw [add]
      rw [addEntry_eq, Run.bind_ok hforked, Run.bind_ok hkey, Run.bind_ok hown, Run.bind_ok hvalue,
        hk, hwrite]
      rfl
    rw [Interp.addAll, Run.bind_ok hadded]
    exact ih

/-- Portions that have been added can be followed one by one. -/
theorem exists_gathers (h : interp.addAll site result ref portions m = .ok () n) :
    ∃ interludes writes, interp.Gathers site result ref portions m interludes writes n := by
  induction portions generalizing m with
  | nil =>
    cases h
    exact ⟨[], [], .done _⟩
  | cons portion portions ih =>
    rw [Interp.addAll] at h
    obtain ⟨_, added, hadded, hrest⟩ := Run.bind_eq_ok_iff.mp h
    obtain ⟨interludes, writes, hgathers⟩ := ih hrest
    cases portion with
    | base node =>
      rw [add] at hadded
      obtain ⟨base, k, hbase, hmerged⟩ := Run.bind_eq_ok_iff.mp hadded
      rw [Run.get_bind] at hmerged
      cases hobject : k.tableOf? base with
      | some source =>
        rw [hobject] at hmerged
        cases (mergeInto_eq_ok ref source k).symm.trans hmerged
        exact ⟨_, _, .base hbase hobject hgathers⟩
      | none =>
        rw [hobject] at hmerged
        cases hmerged
    | field name =>
      rw [add] at hadded
      rw [Run.get_bind] at hadded
      cases hargs : (m.lookUpName site.frame "args").bind m.tableOf? with
      | none =>
        rw [hargs] at hadded
        cases hadded
      | some args =>
        rw [hargs, Option.bind_some] at hadded
        cases hvalue : m.lookUpText args name with
        | none =>
          rw [hvalue] at hadded
          cases hadded
        | some value =>
          rw [hvalue] at hadded
          cases hadded
          exact ⟨_, _, .field hargs hvalue rfl rfl hgathers⟩
    | malformed node =>
      cases hadded
    | entry key value =>
      rw [add] at hadded
      rw [addEntry_eq] at hadded
      obtain ⟨inner, forked, hforked, hadded⟩ := Run.bind_eq_ok_iff.mp hadded
      obtain ⟨named, keyed, hkey, hadded⟩ := Run.bind_eq_ok_iff.mp hadded
      obtain ⟨own, ready, hown, hadded⟩ := Run.bind_eq_ok_iff.mp hadded
      obtain ⟨given, valued, hvalue, hadded⟩ := Run.bind_eq_ok_iff.mp hadded
      cases hadded
      exact ⟨_, _, .entry hforked hkey hown hvalue rfl rfl hgathers⟩

/-- A literal object is assembled exactly if its portions can be followed to the end, from a new
object on. -/
theorem assemble_eq_ok_iff {entries : List (Node × Node)} :
    interp.assemble site entries m = .ok result n ↔
      result = ⟨m.cells.size⟩ ∧ ∃ interludes writes,
        interp.Gathers site ⟨m.cells.size⟩ ⟨m.tables.size⟩ (Interp.portions entries)
          (m.withTable.withCell (.object ⟨m.tables.size⟩)) interludes writes n := by
  have htable : newTable m = .ok ⟨m.tables.size⟩ m.withTable := rfl
  have hobject : newObject ⟨m.tables.size⟩ m.withTable =
      .ok ⟨m.cells.size⟩ (m.withTable.withCell (.object ⟨m.tables.size⟩)) := rfl
  rw [assemble_eq, Run.bind_ok htable, Run.bind_ok hobject]
  constructor
  · intro h
    obtain ⟨_, gathered, hadded, hresult⟩ := Run.bind_eq_ok_iff.mp h
    cases hresult
    exact ⟨rfl, exists_gathers hadded⟩
  · rintro ⟨rfl, interludes, writes, hgathers⟩
    rw [Run.bind_ok hgathers.addAll]
    rfl

end Interp

/-! ### What is evaluated loses no objects -/

namespace Machine.Evolved

variable {m n : Machine} {α : Type}

theorem tables_size (h : m.Evolved n) : m.tables.size ≤ n.tables.size := by
  obtain ⟨history, h⟩ := h
  induction h with
  | elsewhere hcells htables => exact Nat.le_of_eq (congrArg Array.size htables.symm)
  | cell m content => exact Nat.le_refl _
  | table m => exact Nat.le_of_lt (size_lt_push _ _)
  | change m c => exact Nat.le_of_eq (size_after m c).2.symm
  | trans hfirst hsecond ihfirst ihsecond => exact Nat.le_trans ihfirst ihsecond

/-- What runs alike on alike machines evolves its own. -/
theorem of_runs {x : Run α} {R : Machine → α → α → Prop} {a : α}
    (h : Tracking.evolving.comparison.Runs m R x x) (hx : x m = .ok a n) : m.Evolved n := by
  have hlater := (h.now ⟨.refl m, trivial⟩).later
  rwa [hx] at hlater

end Machine.Evolved

/-! ### The object that is gathered -/

section Gathered

variable {fuel : Nat} {site : Site} {result : CellRef} {ref : TableRef} {portions : List Portion}
  {m n : Machine} {interludes : List Interlude} {writes former : List Write}

open Comparison in
/-- Assumes: an object that is left alone between the writes. It has under each key what was written
last, and if that was left alone as well, it holds what it held when it was written. -/
theorem Interp.Gathers.building
    (h : (interp fuel).Gathers site result ref portions m interludes writes n)
    (hspares : ∀ interlude ∈ interludes, interlude.Spares result ref)
    (hbuilding : m.Building result ref former) :
    n.Building result ref (former ++ writes) ∧
      ∀ id, m.HoldsLast former id → (∀ interlude ∈ interludes, interlude.Keeps ref id) →
        n.HoldsLast (former ++ writes) id := by
  have hsites (k : Machine) (s : Site) : Tracking.evolving.comparison.Sites k s s :=
    .retraced s.frame.trace
  induction h generalizing former with
  | done m => exact ⟨by rwa [List.append_nil], fun id hholds _ ↦ by rwa [List.append_nil]⟩
  | @base node portions base source m k n interludes writes hbase hobject hrest ih =>
    obtain ⟨hspared, hspares⟩ := List.forall_mem_cons.mp hspares
    have hevolved : m.Evolved k :=
      .of_runs (Comparison.extendsSource (evaluates_evolving fuel) (hsites m site) node) hbase
    have hkept := hbuilding.kept hspared hevolved.tables_size
    have hwrites : ∀ write ∈ k.writesOf source,
        k.keyId write.key = write.id ∧ k.content write.value = write.content := by
      intro write hwrite
      obtain ⟨entry, -, rfl⟩ := List.mem_map.mp hwrite
      exact ⟨rfl, rfl⟩
    obtain ⟨hbuilt, hholdsLast⟩ :=
      ih hspares (hkept.afterWrites fun write hwrite ↦ (hwrites write hwrite).1)
    rw [← List.append_assoc]
    refine ⟨hbuilt, fun id hholds hkeeps ↦ ?_⟩
    obtain ⟨hkeep, hkeeps⟩ := List.forall_mem_cons.mp hkeeps
    exact hholdsLast id ((hbuilding.holdsLast_kept hholds hkeep).afterWrites
      fun write hwrite ↦ (hwrites write hwrite).2) hkeeps
  | @field name portions args value m k n write interludes writes hargs hvalue hk hwrite hrest ih =>
    obtain ⟨hspared, hspares⟩ := List.forall_mem_cons.mp hspares
    have hkept := hbuilding.kept hspared (by rw [hk]; exact Nat.le_refl _)
    have hid : k.keyId write.key = write.id := by
      rw [hk, hwrite]
      exact congrArg Content.keyId (Machine.content_new _ _)
    have hcontent : k.content write.value = write.content := by
      rw [hk, hwrite, Machine.content_old (size_lt_push _ _)]
      exact Machine.content_new _ _
    obtain ⟨hbuilt, hholdsLast⟩ :=
      ih hspares (hkept.afterWrites (List.forall_mem_singleton.mpr hid))
    rw [List.append_cons]
    refine ⟨hbuilt, fun id hholds hkeeps ↦ ?_⟩
    obtain ⟨hkeep, hkeeps⟩ := List.forall_mem_cons.mp hkeeps
    exact hholdsLast id ((hbuilding.holdsLast_kept hholds hkeep).afterWrites
      (List.forall_mem_singleton.mpr hcontent)) hkeeps
  | @entry key value portions inner named own given m forked keyed ready valued k n write interludes
      writes hforked hkey hown hvalue hk hwrite hrest ih =>
    obtain ⟨hfirst, hspares⟩ := List.forall_mem_cons.mp hspares
    obtain ⟨hsecond, hspares⟩ := List.forall_mem_cons.mp hspares
    obtain ⟨hundollared, htables⟩ := undollar_apply hown
    have hforked : m.Evolved forked := .of_runs (Comparison.forkSelf (hsites m site) result) hforked
    have hkeyed : forked.Evolved keyed :=
      .of_runs (Comparison.entryKey (evaluates_evolving fuel) (hsites forked inner) key) hkey
    have hvalued : ready.Evolved valued :=
      .of_runs ((evaluates_evolving fuel).value (hsites ready inner) value .required) hvalue
    have hready := hbuilding.kept hfirst (htables ▸ (hforked.trans hkeyed).tables_size)
    have hkept := hready.kept hsecond (hk ▸ hvalued.tables_size)
    have hid : k.keyId write.key = write.id := by
      rw [hwrite, ← hundollared]
      exact congrArg Content.keyId (hsecond.waiting own (List.mem_singleton_self own))
    have hcontent : k.content write.value = write.content := by
      rw [hk, hwrite]
      exact Machine.content_new _ _
    obtain ⟨hbuilt, hholdsLast⟩ :=
      ih hspares (hkept.afterWrites (List.forall_mem_singleton.mpr hid))
    rw [List.append_cons]
    refine ⟨hbuilt, fun id hholds hkeeps ↦ ?_⟩
    obtain ⟨hkeep, hkeeps⟩ := List.forall_mem_cons.mp hkeeps
    obtain ⟨hkeep', hkeeps⟩ := List.forall_mem_cons.mp hkeeps
    have hheld := hready.holdsLast_kept (hbuilding.holdsLast_kept hholds hkeep) hkeep'
    exact hholdsLast id (hheld.afterWrites (List.forall_mem_singleton.mpr hcontent)) hkeeps

end Gathered

/-! ### The initialiser -/

/-- What is left to be done once an object has been gathered: nothing, or the call of the last
initialiser there is, without arguments, which begins when its expression has been evaluated. -/
inductive Interp.Closes (interp : Interp) (site : Site) (entries : List (Node × Node))
    (result : CellRef) (gathered : Machine) : List Interlude → Run CellRef → Machine → Prop
  | plain (hentry : initialiser? entries = none) :
    Closes interp site entries result gathered [] (pure result) gathered
  | initialiser {key node : Node} {inner : Site} {init : CellRef} {forked called : Machine}
      (hentry : initialiser? entries = some (key, node))
      (hforked : site.forkSelf result gathered = .ok inner forked)
      (hinit : interp.value inner node .required forked = .ok init called) :
    Closes interp site entries result gathered [{ before := gathered, after := called }] (do
      let _ ← interp.call inner "$init" (.self result) init []
      return result) called

section

variable {site : Site} {entries : List (Node × Node)} {m gathered last : Machine}
  {result : CellRef} {ref : TableRef} {interludes closing : List Interlude} {writes : List Write}
  {finish : Run CellRef}

theorem Interp.Closes.initialise {interp : Interp}
    (h : interp.Closes site entries result gathered closing finish last) :
    interp.initialise site entries result gathered = finish last := by
  unfold Interp.initialise
  cases h with
  | plain hentry =>
    rw [hentry]
  | initialiser hentry hforked hinit =>
    rw [hentry]
    dsimp only
    rw [Run.bind_ok hforked, Run.bind_ok hinit]

/-- An object that is left alone until its initialiser is called is still what was gathered. -/
theorem Interp.Closes.hasLast {fuel : Nat}
    (h : (interp fuel).Closes site entries result gathered closing finish last)
    (hspares : ∀ interlude ∈ closing, interlude.Spares result ref)
    (hbuilding : gathered.Building result ref writes) :
    last.HasLast result ref writes ∧
      ∀ id, gathered.HoldsLast writes id → (∀ interlude ∈ closing, interlude.Keeps ref id) →
        last.HoldsLast writes id := by
  have hsites (k : Machine) (s : Site) : Tracking.evolving.comparison.Sites k s s :=
    .retraced s.frame.trace
  cases h with
  | plain hentry => exact ⟨hbuilding.toHasLast, fun id hholds _ ↦ hholds⟩
  | @initialiser key node inner init forked _ hentry hforked hinit =>
    have hspared := List.forall_mem_singleton.mp hspares
    have hevolved : gathered.Evolved last :=
      .trans (.of_runs (Comparison.forkSelf (hsites gathered site) result) hforked)
        (.of_runs ((evaluates_evolving fuel).value (hsites forked inner) node .required) hinit)
    refine ⟨(hbuilding.kept hspared hevolved.tables_size).toHasLast, fun id hholds hkeeps ↦ ?_⟩
    have hkept := List.forall_mem_singleton.mp hkeeps
    exact hbuilding.holdsLast_kept hholds hkept

/-- A literal object that is evaluated was gathered, and what was left to be done then was done. -/
theorem Interp.exists_construction {interp : Interp} {out : CellRef} {n : Machine}
    (h : interp.mapLiteral site entries m = .ok out n) :
    ∃ interludes writes gathered closing finish last,
      interp.Gathers site ⟨m.cells.size⟩ ⟨m.tables.size⟩ (portions entries)
        (m.withTable.withCell (.object ⟨m.tables.size⟩)) interludes writes gathered ∧
      interp.Closes site entries ⟨m.cells.size⟩ gathered closing finish last ∧
      finish last = .ok out n := by
  rw [mapLiteral_eq] at h
  obtain ⟨result, gathered, hassembled, hfinished⟩ := Run.bind_eq_ok_iff.mp h
  obtain ⟨rfl, interludes, writes, hgathers⟩ := assemble_eq_ok_iff.mp hassembled
  obtain ⟨closing, finish, last, hcloses⟩ :
      ∃ closing finish last,
        interp.Closes site entries ⟨m.cells.size⟩ gathered closing finish last := by
    unfold Interp.initialise at hfinished
    cases hentry : initialiser? entries with
    | none => exact ⟨_, _, _, .plain hentry⟩
    | some entry =>
      rw [hentry] at hfinished
      obtain ⟨inner, forked, hforked, hfinished⟩ := Run.bind_eq_ok_iff.mp hfinished
      obtain ⟨init, called, hinit, -⟩ := Run.bind_eq_ok_iff.mp hfinished
      exact ⟨_, _, _, .initialiser hentry hforked hinit⟩
  exact ⟨interludes, writes, gathered, closing, finish, last, hgathers, hcloses,
    hcloses.initialise.symm.trans hfinished⟩

/-- Assumes: a literal object the portions of which can be followed to the end, and the initialiser
of which, if there is one, can be evaluated, all of it leaving the object alone between the writes.
Then all that is still to be done is to call the last initialiser, without arguments. At this time
the object has under each key the cell that was written last, and no other keys; and the cell holds
what it held when it was written, if that was left alone as well. -/
theorem last_writer_wins_and_initialiser_is_last {fuel : Nat}
    (hgathers : (interp fuel).Gathers site ⟨m.cells.size⟩ ⟨m.tables.size⟩ (Interp.portions entries)
      (m.withTable.withCell (.object ⟨m.tables.size⟩)) interludes writes gathered)
    (hcloses : (interp fuel).Closes site entries ⟨m.cells.size⟩ gathered closing finish last)
    (hspares : ∀ interlude ∈ interludes ++ closing,
      interlude.Spares ⟨m.cells.size⟩ ⟨m.tables.size⟩) :
    (interp fuel).mapLiteral site entries m = finish last ∧
      last.HasLast ⟨m.cells.size⟩ ⟨m.tables.size⟩ writes ∧
      ∀ id, (∀ interlude ∈ interludes ++ closing, interlude.Keeps ⟨m.tables.size⟩ id) →
        last.HoldsLast writes id := by
  have hassembled : (interp fuel).assemble site entries m = .ok ⟨m.cells.size⟩ gathered :=
    Interp.assemble_eq_ok_iff.mpr ⟨rfl, interludes, writes, hgathers⟩
  obtain ⟨hbuilding, hholds⟩ :=
    hgathers.building (fun _ hmem ↦ hspares _ (List.mem_append_left _ hmem)) m.building_new
  obtain ⟨hlast, hholds'⟩ :=
    hcloses.hasLast (fun _ hmem ↦ hspares _ (List.mem_append_right _ hmem)) hbuilding
  refine ⟨?_, hlast, fun id hkeeps ↦ ?_⟩
  · rw [Interp.mapLiteral_eq, Run.bind_ok hassembled]
    exact hcloses.initialise
  · refine hholds' id (hholds id ?_ ?_) fun _ hmem ↦ hkeeps _ (List.mem_append_right _ hmem)
    · exact fun write hnone ↦ absurd hnone (Option.some_ne_none write).symm
    · exact fun _ hmem ↦ hkeeps _ (List.mem_append_left _ hmem)

end

/-! ### An object whose parts do not touch it -/

/-- Cells are added, and neither the objects nor the options change. -/
structure Machine.AddsCells (m n : Machine) : Prop where
  cells : m.KeepsCells n
  tables : n.tables = m.tables
  options : n.options = m.options

namespace Machine.AddsCells

variable {m n k : Machine} {result : CellRef} {ref : TableRef} {waiting : List CellRef}

theorem trans (h : m.AddsCells n) (h' : n.AddsCells k) : m.AddsCells k :=
  ⟨h.cells.trans h'.cells, h'.tables.trans h.tables, h'.options.trans h.options⟩

theorem withCell (m : Machine) (content : Content) : m.AddsCells (m.withCell content) :=
  ⟨keepsCells_withCell m content, rfl, rfl⟩

theorem unwound (h : m.Unwound n) : m.AddsCells n :=
  ⟨keepsCells_of_eq h.cells, by rw [← h], by rw [← h]⟩

theorem orderly (h : m.AddsCells n) (horderly : m.Orderly ref) : n.Orderly ref :=
  horderly.congr h.tables h.cells.size fun entry hentry ↦
    congrArg Content.keyId (h.cells.content _ (horderly.keys entry hentry))

/-- Cells that are added leave an object in order alone. -/
theorem leavesObject (h : m.AddsCells n) (horderly : m.Orderly ref)
    (hresult : result.index < m.cells.size) (hwaiting : ∀ key ∈ waiting, key.index < m.cells.size) :
    m.LeavesObject result ref waiting n := by
  refine ⟨?_, h.cells.content result hresult, fun key hkey ↦ ?_,
    fun key hkey ↦ h.cells.content key (hwaiting key hkey)⟩
  · rw [table_congr h.tables]
  · obtain ⟨entry, hentry, rfl⟩ := List.mem_map.mp hkey
    exact h.cells.content _ (horderly.keys entry hentry)

end Machine.AddsCells

/-- A fork with a `self` adds a scope only. -/
theorem Site.forkSelf_apply (site : Site) (object : CellRef) (m : Machine) :
    ∃ inner n, site.forkSelf object m = .ok inner n ∧ m.AddsCells n := by
  have hput (frame : Frame) (k : Machine) : ∃ n, frame.putSelf object k = .ok () n ∧
      k.AddsCells n := by
    unfold Frame.putSelf
    rw [Run.get_bind]
    cases k.lookUpName frame "self" with
    | none => exact ⟨_, rfl, Machine.keepsCells_of_eq rfl, rfl, rfl⟩
    | some former => exact ⟨_, rfl, Machine.keepsCells_of_eq rfl, rfl, rfl⟩
  let frame : Frame :=
    { top := ⟨m.scopes.size⟩, outer := site.frame.scopes, trace := site.frame.trace }
  let inner : Site := { site with frame }
  have hforked : site.fork m = .ok inner (m.withScope {}) := rfl
  have hscope : m.AddsCells (m.withScope {}) := ⟨Machine.keepsCells_of_eq rfl, rfl, rfl⟩
  obtain ⟨n, hself, hadds⟩ := hput inner.frame (m.withScope {})
  refine ⟨inner, n, ?_, hscope.trans hadds⟩
  unfold Site.forkSelf
  rw [Run.bind_ok hforked, Run.bind_ok hself]
  rfl

/-- Losing the dollar sign, a key gets a new cell at most. -/
theorem undollar_addsCells {named : CellRef} {m : Machine} (hnamed : named.index < m.cells.size) :
    ∃ own n, undollar named m = .ok own n ∧ m.AddsCells n ∧ own.index < n.cells.size := by
  unfold undollar
  rw [Run.bind_ok (show content named m = .ok (m.content named) m from rfl)]
  have hsame : ∃ own n, (pure named : Run CellRef) m = .ok own n ∧ m.AddsCells n ∧
      own.index < n.cells.size :=
    ⟨named, m, rfl, ⟨.refl m, rfl, rfl⟩, hnamed⟩
  cases m.content named with
  | string s =>
    dsimp only
    by_cases hprefix : Text.hasPrefix s "$" = true
    · rw [if_pos hprefix]
      exact ⟨⟨m.cells.size⟩, _, rfl, .withCell m _, size_lt_push _ _⟩
    · rw [if_neg hprefix]
      exact hsame
  | _ => exact hsame

/-- Assumes: no debugger, and an object in order. A truth value under a name is gathered without
touching the object. -/
theorem Interp.Gathers.boolean (n : Nat) (site : Site) {result : CellRef} {ref : TableRef}
    {m : Machine} (hdebugger : m.options.debugger = none) (horderly : m.Orderly ref)
    (hresult : result.index < m.cells.size) (name : String) (b : Bool) :
    ∃ (interludes : List Interlude) (write : Write) (k : Machine),
      (∀ interlude ∈ interludes, interlude.Spares result ref) ∧
      write.id = (Content.undollared (.string name)).keyId ∧ write.content = .boolean b ∧
      k.options.debugger = none ∧ k.Orderly ref ∧ result.index < k.cells.size ∧
      ∀ {portions more writes last},
        (interp (n + 1)).Gathers site result ref portions k more writes last →
        (interp (n + 1)).Gathers site result ref
          (.entry (.identifier name) (.boolean b) :: portions) m (interludes ++ more)
          (write :: writes) last := by
  obtain ⟨inner, forked, hforked, hfork⟩ := site.forkSelf_apply result m
  let keyed := forked.withCell (.string name)
  have hkey : (interp (n + 1)).entryKey inner (.identifier name) forked =
      .ok ⟨forked.cells.size⟩ keyed := rfl
  have hnamed : keyed.content ⟨forked.cells.size⟩ = .string name := forked.content_new _
  have hmade : (⟨forked.cells.size⟩ : CellRef).index < keyed.cells.size := size_lt_push _ _
  obtain ⟨own, ready, hown, hundollar, hbound⟩ := undollar_addsCells hmade
  have hready : m.AddsCells ready := (hfork.trans (.withCell forked _)).trans hundollar
  obtain ⟨valued, hvalue, hunwound⟩ :=
    Interp.value_boolean n inner b (hready.options ▸ hdebugger)
  have hheld : valued.content ⟨ready.cells.size⟩ = .boolean b := by
    rw [hunwound.content, Machine.content_new]
  let k := valued.withCell (valued.content ⟨ready.cells.size⟩)
  have hk : ready.AddsCells k :=
    ((Machine.AddsCells.withCell ready _).trans (.unwound hunwound)).trans (.withCell valued _)
  have hgrown : m.AddsCells k := hready.trans hk
  let write : Write := ⟨(keyed.content ⟨forked.cells.size⟩).undollared.keyId, own,
    ⟨valued.cells.size⟩, valued.content ⟨ready.cells.size⟩⟩
  refine ⟨[{ before := m, after := ready }, { before := ready, after := k, waiting := [own] }],
    write, k.afterWrites ref [write], ?_, congrArg (fun c ↦ (Content.undollared c).keyId) hnamed,
    hheld, hgrown.options ▸ hdebugger, ?_, Nat.lt_of_lt_of_le hresult hgrown.cells.size,
    fun hrest ↦ .entry hforked hkey hown hvalue rfl rfl hrest⟩
  · refine List.forall_mem_cons.mpr ⟨hready.leavesObject horderly hresult nofun,
      List.forall_mem_singleton.mpr ?_⟩
    exact hk.leavesObject (hready.orderly horderly)
      (Nat.lt_of_lt_of_le hresult hready.cells.size) (List.forall_mem_singleton.mpr hbound)
  · have hkeeps : Change.KeepsKeys ref k (.enter ref own ⟨valued.cells.size⟩) :=
      fun _ ↦ Nat.lt_of_lt_of_le hbound hk.cells.size
    exact (hgrown.orderly horderly).after hkeeps

/-- Assumes: no debugger. A function evaluates to a new cell. -/
theorem Interp.value_function (n : Nat) (site : Site) (params : List String) (body : Node)
    {m : Machine} (hdebugger : m.options.debugger = none) :
    ∃ m', (interp (n + 1)).value site (.function params body) .required m =
        .ok ⟨m.cells.size⟩ m' ∧ m.AddsCells m' := by
  let closure : Closure := { params, body, context := site.context, frame := site.frame }
  let made : Machine :=
    { m.withCell (.function ⟨m.stamps⟩ closure) with stamps := m.stamps + 1 }
  obtain ⟨m', hvalue, hunwound⟩ : ∃ m', (interp (n + 1)).value site (.function params body)
      .required m = .ok ⟨m.cells.size⟩ m' ∧ made.Unwound m' := by
    refine value_of_construct hdebugger fun k hk ↦
      ⟨{ k.withCell (.function ⟨k.stamps⟩ closure) with stamps := k.stamps + 1 }, ?_, ?_⟩
    · rw [← hk.cells]
      rfl
    · rw [← hk]
      rfl
  have hmade : m.AddsCells made :=
    ⟨(Machine.keepsCells_withCell m _).trans (Machine.keepsCells_of_eq rfl), rfl, rfl⟩
  exact ⟨m', hvalue, hmade.trans (.unwound hunwound)⟩

/-- Of `$init`, `x` and `$x`, the last one is what the object has under `x` when the initialiser is
called, though that stands first. -/
theorem initialiser_finds_last_entry :
    let entries : List (Node × Node) :=
      [(.identifier "$init", .function [] .null), (.identifier "x", .boolean true),
        (.identifier "$x", .boolean false)]
    let site : Site := { context := ⟨0⟩, frame := { top := ⟨0⟩, outer := [], trace := ⟨0⟩ } }
    ∃ (inner : Site) (init : CellRef) (last : Machine) (writes : List Write) (write : Write),
      (interp 3).mapLiteral site entries {} = (do
        let _ ← (interp 3).call inner "$init" (.self ⟨0⟩) init []
        return (⟨0⟩ : CellRef)) last ∧
      last.HasLast ⟨0⟩ ⟨0⟩ writes ∧ lastWrite? writes (.string "x") = some write ∧
      write.content = .boolean false := by
  intro entries site
  let start : Machine := (Machine.withTable {}).withCell (.object ⟨0⟩)
  have hnew : start.Orderly ⟨0⟩ := (Machine.orderly_newTable {}).withCell (.object ⟨0⟩)
  have hbound : (⟨0⟩ : CellRef).index < start.cells.size := Nat.one_pos
  obtain ⟨first, write, m, hspares, -, -, hdebugger, horderly, hresult, hgather⟩ :=
    Interp.Gathers.boolean 2 site rfl hnew hbound "x" true
  obtain ⟨second, write', k, hspares', hid, hcontent, hdebugger, horderly, hresult, hgather'⟩ :=
    Interp.Gathers.boolean 2 site hdebugger horderly hresult "$x" false
  obtain ⟨inner, forked, hforked, hfork⟩ := site.forkSelf_apply ⟨0⟩ k
  obtain ⟨last, hinit, hfunction⟩ :=
    Interp.value_function 2 inner [] .null (hfork.options ▸ hdebugger)
  have hgathers := hgather (hgather' (.done k))
  have hcloses : (interp 3).Closes site entries ⟨0⟩ k _ _ last :=
    .initialiser rfl hforked hinit
  have hclosing : ({ before := k, after := last } : Interlude).Spares ⟨0⟩ ⟨0⟩ :=
    (hfork.trans hfunction).leavesObject horderly hresult nofun
  have hall : ∀ interlude ∈ (first ++ (second ++ [])) ++ [{ before := k, after := last }],
      interlude.Spares ⟨0⟩ ⟨0⟩ := by
    rw [List.append_nil]
    exact List.forall_mem_append.mpr ⟨List.forall_mem_append.mpr ⟨hspares, hspares'⟩,
      List.forall_mem_singleton.mpr hclosing⟩
  obtain ⟨hrun, hlast, -⟩ :=
    last_writer_wins_and_initialiser_is_last (m := {}) hgathers hcloses hall
  refine ⟨inner, _, last, [write, write'], write', hrun, hlast, ?_, hcontent⟩
  have htext : (if Text.hasPrefix "$x" "$" then Text.dropPrefix "$x" "$" else "$x") = "x" := by
    decide
  have hkey : write'.id = .string "x" := hid.trans (congrArg KeyId.string htext)
  exact (lastWrite?_append [write] write' _).trans (if_pos hkey)

end TreeScript
