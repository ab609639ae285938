import Std.Data.HashMap
import TreeScript.Store.Content

/-!
Objects: tables of entries in insertion order with an index from key to position. Keys are cells,
which may be overwritten later; the index keeps what they were when they were entered.

The entries lie in a block of slots. Entries are changed, and moved down after a deletion, inside
the block; when it is full the table moves to a larger block and the old one stays as it was. A
`Walk` reads the block it was started on, so it sees the changes made there while it goes on.
-/

set_option autoImplicit false

namespace TreeScript

structure Entry where
  key : CellRef
  value : CellRef
deriving DecidableEq, Inhabited

structure Table where
  /-- The current block. Slots from `size` on are left over from deletions. -/
  slots : Array Entry := #[]
  size : Nat := 0
  capacity : Nat := 0
  index : Std.HashMap KeyId Nat := {}
  /-- The blocks the table has moved away from, oldest first. -/
  retired : Array (Array Entry) := #[]
deriving Inhabited

namespace Table

/-- The capacity of the block that replaces a full one. -/
def grow (capacity : Nat) : Nat :=
  if capacity < 256 then max 1 (2 * capacity) else capacity + (capacity + 768) / 4

def entries (table : Table) : List Entry := (table.slots.take table.size).toList

def keys (table : Table) : List CellRef := table.entries.map (·.key)

def values (table : Table) : List CellRef := table.entries.map (·.value)

def get? (table : Table) (id : KeyId) : Option CellRef :=
  (table.index[id]?).bind fun i => (table.slots[i]?).map (·.value)

/-- Adds an entry at the end. -/
def append (table : Table) (entry : Entry) : Table :=
  if table.size < table.capacity then
    if table.size < table.slots.size then
      { table with slots := table.slots.setIfInBounds table.size entry, size := table.size + 1 }
    else { table with slots := table.slots.push entry, size := table.size + 1 }
  else
    { table with
      slots := (table.slots.take table.size).push entry
      size := table.size + 1
      capacity := grow table.capacity
      retired := table.retired.push table.slots }

/-- Replaces the value under a key, which keeps its place, or enters the key at the end. -/
def set (table : Table) (id : KeyId) (key value : CellRef) : Table :=
  match table.index[id]? with
  | some i => { table with slots := table.slots.modify i fun entry => { entry with value } }
  | none => { table with index := table.index.insert id table.size }.append ⟨key, value⟩

/-- Moves the entries behind a position one place down. -/
def shiftDown (slots : Array Entry) (start count : Nat) : Array Entry :=
  (List.range count).foldl
    (fun slots j => slots.setIfInBounds (start + j) (slots[start + j + 1]?.getD default)) slots

/-- Enters the positions of the entries from `start` on. -/
def reindex (index : Std.HashMap KeyId Nat) (idOf : CellRef → KeyId) (slots : Array Entry)
    (start stop : Nat) : Std.HashMap KeyId Nat :=
  (List.range (stop - start)).foldl
    (fun index j =>
      match slots[start + j]? with
      | some entry => index.insert (idOf entry.key) (start + j)
      | none => index)
    index

/-- Removes a key. The entries behind it move down, and their keys are entered as they are now. -/
def erase (table : Table) (idOf : CellRef → KeyId) (id : KeyId) : Table × Option CellRef :=
  match table.index[id]? with
  | none => (table, none)
  | some i =>
    let removed := (table.slots[i]?).map (·.value)
    let size := table.size - 1
    let slots := shiftDown table.slots i (size - i)
    ({ table with slots, size, index := reindex (table.index.erase id) idOf slots i size }, removed)

/-- A walk over the entries a table had when it was started. -/
structure Walk where
  block : Nat
  length : Nat

def walk (table : Table) : Walk := ⟨table.retired.size, table.size⟩

/-- The entry a walk finds at a position now. -/
def entryAt (table : Table) (walk : Walk) (i : Nat) : Option Entry :=
  if walk.block = table.retired.size then table.slots[i]?
  else (table.retired[walk.block]?).bind (·[i]?)

end Table

end TreeScript
