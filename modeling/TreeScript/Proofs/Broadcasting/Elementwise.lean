import Mathlib.Logic.Relation
import TreeScript.Proofs.Broadcasting.Leaves

/-!
# Operators work on objects value by value

An operator that takes no objects works on the values inside them, at every depth. Operands that are
trees are walked through together: at each level all operands that are objects are replaced by their
values under one key, and the others stay (`Machine.valueAt`). The operands have to be compatible
(`Machine.Compatible`), and what the walk ends at are the leaves (`Machine.LeadsTo`). The result is
a new tree with the keys of the first operand that is an object, in their order, and with what the
operator makes of the leaves (`Machine.Elementwise`). `broadcasting_is_elementwise` says that the
operators in question give such a result exactly if the operands are compatible and the operator
succeeds on all leaves, and that in any case they change nothing that was there before.

Trees are made of objects in order: their keys have not been overwritten since they were entered. An
object with a key that was is not even compatible with itself (`broadcast_overwritten_key`).
-/

set_option autoImplicit false

namespace TreeScript

namespace Machine

/-! ### Trees -/

/-- A value that nests objects at most so deep. Its objects are in order, and its plain values are
held by cells that exist. -/
inductive Tree (m : Machine) : Nat → CellRef → Prop where
  | leaf {depth : Nat} {cell : CellRef} (hcell : cell.index < m.cells.size)
      (hplain : m.tableOf? cell = none) : Tree m depth cell
  | object {depth : Nat} {cell : CellRef} {ref : TableRef} (hobject : m.tableOf? cell = some ref)
      (horderly : m.Orderly ref)
      (hvalues : ∀ entry ∈ (m.table ref).entries, Tree m depth entry.value) :
      Tree m (depth + 1) cell

/-- All plain values within a value satisfy a condition. -/
def LeavesAre (m : Machine) (Leaf : Content → Prop) (cell : CellRef) : Prop :=
  ∀ part, Relation.ReflTransGen m.Part cell part → m.tableOf? part = none → Leaf (m.content part)

/-- The value under a key of an object. A plain value stands for itself under all keys. -/
def valueAt (m : Machine) (id : KeyId) (cell : CellRef) : CellRef :=
  match m.tableOf? cell with
  | some ref => ((m.table ref).get? id).getD cell
  | none => cell

/-- All operands that are objects have the keys of a given one. -/
def SameKeys (m : Machine) (args : List CellRef) (ref : TableRef) : Prop :=
  ∀ arg ∈ args, ∀ other, m.tableOf? arg = some other →
    ∀ id, (m.table other).get? id = none ↔ (m.table ref).get? id = none

/-- Operands that an operator can take together value by value. Plain values are; and where there
are objects they have to have the same keys, and the values under each key have to be compatible,
with each other and with the operands that are plain. -/
inductive Compatible (m : Machine) : List CellRef → Prop where
  | leaves {args : List CellRef} (hplain : ∀ arg ∈ args, m.tableOf? arg = none) : Compatible m args
  | objects {args : List CellRef} {ref : TableRef} (hfirst : args.findSome? m.tableOf? = some ref)
      (hkeys : m.SameKeys args ref)
      (hvalues : ∀ id, (m.table ref).get? id ≠ none → Compatible m (args.map (m.valueAt id))) :
      Compatible m args

/-- The plain values that operands lead to under the same keys. -/
inductive LeadsTo (m : Machine) : List CellRef → List CellRef → Prop where
  | leaves {args : List CellRef} (hplain : ∀ arg ∈ args, m.tableOf? arg = none) : LeadsTo m args args
  | objects {args leaves : List CellRef} {ref : TableRef} {id : KeyId}
      (hfirst : args.findSome? m.tableOf? = some ref) (hid : (m.table ref).get? id ≠ none)
      (hvalues : LeadsTo m (args.map (m.valueAt id)) leaves) : LeadsTo m args leaves

/-- A value on a machine is what an operator makes of operands on an earlier one. Of plain operands
it makes what it gives for them on some machine grown from that; and of others a new object,
numbered from `first` on, with the keys of the first object among them in the same order, and under
each key what it makes of the values. -/
inductive Elementwise (m : Machine) (apply : List CellRef → Run CellRef) (first : Nat)
    (n : Machine) : List CellRef → CellRef → Prop where
  | leaves {args : List CellRef} {out result : CellRef} {k k' : Machine}
      (hplain : ∀ arg ∈ args, m.tableOf? arg = none) (hk : m.Grown k)
      (hresult : apply args k = .ok result k') (hcell : out.index < n.cells.size)
      (hcontent : n.content out = k'.content result) : Elementwise m apply first n args out
  | objects {args : List CellRef} {out : CellRef} {ref made : TableRef}
      (hfirst : args.findSome? m.tableOf? = some ref) (hobject : n.content out = .object made)
      (hnew : first ≤ made.index) (horderly : n.Orderly made)
      (hkeys : (n.table made).keys = (m.table ref).keys)
      (hvalues : ∀ id value, (n.table made).get? id = some value →
        Elementwise m apply first n (args.map (m.valueAt id)) value) :
      Elementwise m apply first n args out

variable {m n k : Machine} {args leaves : List CellRef} {out cell : CellRef} {ref : TableRef}
  {apply : List CellRef → Run CellRef} {first depth : Nat} {id : KeyId} {Leaf : Content → Prop}

/-- What an operator has made stays while older tables change. -/
theorem Elementwise.kept (h : m.Elementwise apply first n args out) (hkept : KeepsFrom first n k) :
    m.Elementwise apply first k args out := by
  induction h with
  | leaves hplain hk hresult hcell hcontent =>
    exact .leaves hplain hk hresult (Nat.lt_of_lt_of_le hcell hkept.cells.size)
      ((hkept.cells.content _ hcell).trans hcontent)
  | @objects args out ref made hfirst hobject hnew horderly hkeys hvalues ih =>
    have htable := hkept.table made hnew horderly.table
    have hcell := Machine.bound_of_object hobject
    refine .objects hfirst ((hkept.cells.content out hcell).trans hobject) hnew
      (horderly.kept hkept.cells hkept.size htable) (by rw [htable, hkeys]) fun id value hvalue ↦ ?_
    rw [htable] at hvalue
    exact ih id value hvalue

theorem Elementwise.weaken {earlier : Nat} (h : m.Elementwise apply first n args out)
    (hearlier : earlier ≤ first) : m.Elementwise apply earlier n args out := by
  induction h with
  | leaves hplain hk hresult hcell hcontent => exact .leaves hplain hk hresult hcell hcontent
  | objects hfirst hobject hnew horderly hkeys hvalues ih =>
    exact .objects hfirst hobject (Nat.le_trans hearlier hnew) horderly hkeys ih

theorem valueAt_plain (hplain : m.tableOf? cell = none) (id : KeyId) : m.valueAt id cell = cell := by
  unfold valueAt
  rw [hplain]

theorem valueAt_object {value : CellRef} (hobject : m.tableOf? cell = some ref)
    (hvalue : (m.table ref).get? id = some value) : m.valueAt id cell = value := by
  unfold valueAt
  rw [hobject]
  exact congrArg (Option.getD · cell) hvalue

theorem valueAt_entry {entry : Entry} (hobject : m.tableOf? cell = some ref)
    (horderly : m.Orderly ref) (hentry : entry ∈ (m.table ref).entries) :
    m.valueAt (m.keyId entry.key) cell = entry.value :=
  valueAt_object hobject (horderly.inOrder.get?_of_mem_entries hentry)

theorem LeavesAre.leaf (h : m.LeavesAre Leaf cell) (hplain : m.tableOf? cell = none) :
    Leaf (m.content cell) :=
  h cell .refl hplain

/-- The value under a key is within the object, or is the value itself. -/
theorem LeavesAre.valueAt (h : m.LeavesAre Leaf cell)
    (horderly : ∀ ref, m.tableOf? cell = some ref → m.Orderly ref) (id : KeyId) :
    m.LeavesAre Leaf (m.valueAt id cell) := by
  cases hobject : m.tableOf? cell with
  | none => rwa [valueAt_plain hobject]
  | some ref =>
    cases hvalue : (m.table ref).get? id with
    | none =>
      have hself : m.valueAt id cell = cell := by
        unfold Machine.valueAt
        rw [hobject]
        exact congrArg (Option.getD · cell) hvalue
      rwa [hself]
    | some value =>
      rw [valueAt_object hobject hvalue]
      have hpart : m.Part cell value :=
        ⟨ref, tableOf?_eq_some_iff.mp hobject, (horderly ref hobject).inOrder.mem_values hvalue⟩
      exact fun part hwithin ↦ h part (.head hpart hwithin)

/-- A single object among operands has the same keys as itself. -/
theorem sameKeys_of_single (hsingle : ∀ arg ∈ args, ∀ other, m.tableOf? arg = some other →
    other = ref) : m.SameKeys args ref := by
  intro arg harg other hother
  rw [hsingle arg harg other hother]
  exact fun _ ↦ Iff.rfl

/-- The values under a key of trees, one of which is an object with that key, are trees that are
less deep. -/
theorem tree_valueAt (htree : m.Tree (depth + 1) cell)
    (hid : ∀ ref, m.tableOf? cell = some ref → (m.table ref).get? id ≠ none) :
    m.Tree depth (m.valueAt id cell) := by
  cases htree with
  | leaf hcell hplain =>
    rw [valueAt_plain hplain]
    exact .leaf hcell hplain
  | @object _ _ ref hobject horderly hvalues =>
    obtain ⟨value, hvalue⟩ := Option.ne_none_iff_exists'.mp (hid ref hobject)
    obtain ⟨entry, hentry, -, rfl⟩ := horderly.inOrder.mem_entries hvalue
    rw [valueAt_object hobject hvalue]
    exact hvalues entry hentry

theorem Tree.mono {deeper : Nat} (htree : m.Tree depth cell) (hdepth : depth ≤ deeper) :
    m.Tree deeper cell := by
  induction htree generalizing deeper with
  | leaf hcell hplain => exact .leaf hcell hplain
  | object hobject horderly _ ih =>
    obtain ⟨deeper, rfl⟩ : ∃ less, deeper = less + 1 := ⟨deeper - 1, by omega⟩
    exact .object hobject horderly fun entry hentry ↦
      ih entry hentry (Nat.le_of_succ_le_succ hdepth)

theorem Tree.orderly (htree : m.Tree depth cell) (hobject : m.tableOf? cell = some ref) :
    m.Orderly ref := by
  cases htree with
  | leaf hcell hplain => cases hplain.symm.trans hobject
  | object hobject' horderly hvalues =>
    cases hobject.symm.trans hobject'
    exact horderly

theorem Tree.bound (htree : m.Tree depth cell) : cell.index < m.cells.size := by
  cases htree with
  | leaf hcell hplain => exact hcell
  | object hobject horderly hvalues => exact bound_of_object (tableOf?_eq_some_iff.mp hobject)

theorem tree_zero (htree : m.Tree 0 cell) : m.tableOf? cell = none := by
  cases htree with
  | leaf hcell hplain => exact hplain

end Machine

namespace Operator

variable {m n k : Machine} {args : List CellRef} {op : Operator} {call : Call} {ref : TableRef}
  {depth fuel : Nat} {Leaf : Content → Prop}

/-! ### One level -/

/-- What an operator with actions does with as many operands as it takes. -/
def dispatch (op : Operator) (call : Call) (fuel : Nat) : List CellRef → Run CellRef
  | [cell] => op.dispatch1 fuel cell
  | [left, right] => op.dispatch2 call fuel left right
  | _ => newEmpty

/-- As many operands as an operator takes. -/
def IsCount (count : Nat) : Prop := count = 1 ∨ count = 2

theorem dispatch_cases (hcount : IsCount args.length) :
    (∃ cell, args = [cell]) ∨ ∃ left right, args = [left, right] :=
  hcount.imp List.length_eq_one_iff.mp List.length_eq_two.mp

/-- An elementwise operator on plain values is settled. -/
theorem IsElementwise.settled_dispatch (h : op.IsElementwise) (call : Call) (fuel : Nat)
    (hcount : IsCount args.length) (hbound : ∀ arg ∈ args, arg.index < m.cells.size)
    (hplain : ∀ arg ∈ args, m.tableOf? arg = none) :
    m.Settled (op.dispatch call (fuel + 1) args) := by
  rcases dispatch_cases hcount with ⟨cell, rfl⟩ | ⟨left, right, rfl⟩
  · exact h.settled_dispatch1 fuel (hbound cell (by simp)) (hplain cell (by simp))
  · exact h.settled_dispatch2 call fuel (hbound left (by simp)) (hbound right (by simp))
      (hplain left (by simp)) (hplain right (by simp))

/-- An operator spreads over objects whose leaves satisfy a condition: it finds no rule where an
object is among the operands, and on leaves it is settled. -/
structure Spreads (op : Operator) (Leaf : Content → Prop) : Prop where
  single : op.unaryRule? "object" = none
  pair : op.binaryRule? "object" "object" = none
  left : ∀ content, Leaf content → op.binaryRule? content.typeName "object" = none
  right : ∀ content, Leaf content → op.binaryRule? "object" content.typeName = none
  settled : ∀ (m : Machine) (call : Call) (fuel : Nat) (args : List CellRef), IsCount args.length →
    (∀ arg ∈ args, arg.index < m.cells.size) → (∀ arg ∈ args, m.tableOf? arg = none) →
    (∀ arg ∈ args, Leaf (m.content arg)) → m.Settled (op.dispatch call (fuel + 1) args)

/-- An elementwise operator spreads over all objects. -/
theorem IsElementwise.spreads (h : op.IsElementwise) : op.Spreads fun _ ↦ True where
  single := h.unaryRule?_eq_none (x := .object ⟨0⟩) rfl
  pair := h.binaryRule?_eq_none (x := .object ⟨0⟩) (y := .object ⟨0⟩) (.inl rfl)
  left _ _ := h.binaryRule?_eq_none (y := .object ⟨0⟩) (.inr rfl)
  right _ _ := h.binaryRule?_eq_none (x := .object ⟨0⟩) (.inl rfl)
  settled _ call fuel _ hcount hbound hplain _ := h.settled_dispatch call fuel hcount hbound hplain

/-- On plain values the fuel does not matter. -/
theorem dispatch_plain (fuel fuel' : Nat) (hcount : IsCount args.length)
    (hplain : ∀ arg ∈ args, k.tableOf? arg = none) :
    op.dispatch call (fuel + 1) args k = op.dispatch call (fuel' + 1) args k := by
  rcases dispatch_cases hcount with ⟨cell, rfl⟩ | ⟨left, right, rfl⟩
  · have hcell := hplain cell (by simp)
    change op.dispatch1 (fuel + 1) cell k = op.dispatch1 (fuel' + 1) cell k
    rw [dispatch1, dispatch1, Run.get_bind, Run.get_bind, hcell]
    cases op.unaryRule? (k.typeName cell) <;> rfl
  · have hleft := hplain left (by simp)
    have hright := hplain right (by simp)
    change op.dispatch2 call (fuel + 1) left right k = op.dispatch2 call (fuel' + 1) left right k
    rw [dispatch2, dispatch2, Run.get_bind, Run.get_bind, hleft, hright]

theorem typeName_object {cell : CellRef} (hobject : m.tableOf? cell = some ref) :
    m.typeName cell = "object" := by
  unfold Machine.typeName
  rw [Machine.tableOf?_eq_some_iff.mp hobject]
  rfl

/-- Two objects in order are taken together if they have the same keys, and else the operator fails
at once. -/
theorem requireSameKeys_apply (op : Operator) {s t : TableRef} (hs : m.Orderly s)
    (ht : m.Orderly t) :
    ((∀ id, (m.table s).get? id = none ↔ (m.table t).get? id = none) ∧
      op.requireSameKeys s t m = .ok () m) ∨
    (¬(∀ id, (m.table s).get? id = none ↔ (m.table t).get? id = none) ∧
      ∃ e, op.requireSameKeys s t m = .error e m) := by
  have hiff := hs.inOrder.same_keys_iff ht.inOrder
  unfold requireSameKeys
  rw [Run.get_bind]
  dsimp only
  by_cases hsize : (m.table s).size = (m.table t).size
  · have hmissing : ((m.table s).keys.any fun key ↦ (m.lookUp t key).isNone) = true ↔
        ¬∀ entry ∈ (m.table s).entries, (m.table t).get? (m.keyId entry.key) ≠ none := by
      rw [Table.keys, List.any_map, List.any_eq_true]
      push Not
      refine exists_congr fun entry ↦ and_congr_right fun _ ↦ ?_
      exact Option.isNone_iff_eq_none
    by_cases hkeys : ∀ entry ∈ (m.table s).entries, (m.table t).get? (m.keyId entry.key) ≠ none
    · refine .inl ⟨hiff.mpr ⟨hsize, hkeys⟩, ?_⟩
      rw [if_neg (not_not_intro hsize), if_neg fun h ↦ hmissing.mp h hkeys]
      rfl
    · refine .inr ⟨fun hsame ↦ hkeys (hiff.mp hsame).2, ?_⟩
      rw [if_neg (not_not_intro hsize), if_pos (hmissing.mpr hkeys)]
      exact ⟨_, rfl⟩
  · refine .inr ⟨fun hsame ↦ hsize (hiff.mp hsame).1, ?_⟩
    rw [if_pos hsize]
    exact ⟨_, rfl⟩

/-- An operator maps the values of one of its operands, an object: under each key it works on the
values of all operands. -/
def MapsValues (m : Machine) (op : Operator) (call : Call) (fuel : Nat) (args : List CellRef)
    (ref : TableRef) (n : Machine) : Prop :=
  ∃ act, op.dispatch call (fuel + 1) args n = mapValues ref act n ∧
    ∀ entry ∈ (m.table ref).entries, ∀ k, m.Grown k → act entry.key entry.value k =
      op.dispatch call fuel (args.map (m.valueAt (m.keyId entry.key))) k

section

variable {cell left right : CellRef} {s t : TableRef}

theorem Spreads.mapsValues_single (h : op.Spreads Leaf) (call : Call) (fuel : Nat)
    (hobject : m.tableOf? cell = some ref) (horderly : m.Orderly ref) (hn : m.Grown n) :
    MapsValues m op call fuel [cell] ref n := by
  refine ⟨fun _ value ↦ op.dispatch1 fuel value, ?_, fun entry hentry k _ ↦ ?_⟩
  · have hlater := hn.object hobject
    change op.dispatch1 (fuel + 1) cell n = _
    rw [dispatch1, Run.get_bind, typeName_object hlater, h.single, hlater]
  · rw [List.map_singleton, Machine.valueAt_entry hobject horderly hentry]
    rfl

/-- A plain operand is taken together with all values of an object to its right. -/
theorem Spreads.mapsValues_right (h : op.Spreads Leaf) (call : Call) (fuel : Nat)
    (hplain : m.tableOf? left = none) (hbound : left.index < m.cells.size)
    (hleaf : Leaf (m.content left))
    (hobject : m.tableOf? right = some ref) (horderly : m.Orderly ref) (hn : m.Grown n) :
    MapsValues m op call fuel [left, right] ref n := by
  refine ⟨fun _ value ↦ op.dispatch2 call fuel left value, ?_, fun entry hentry k _ ↦ ?_⟩
  · have hlater := hn.object hobject
    change op.dispatch2 call (fuel + 1) left right n = _
    have hnone : op.binaryRule? (n.typeName left) (n.typeName right) = none := by
      rw [typeName_object hlater, Machine.typeName, hn.cells.content left hbound]
      exact h.left _ hleaf
    rw [dispatch2, Run.get_bind, hnone, hn.tableOf? hbound, hplain, hlater]
  · rw [List.map_cons, List.map_singleton, Machine.valueAt_plain hplain,
      Machine.valueAt_entry hobject horderly hentry]
    rfl

/-- All values of an object are taken together with a plain operand to its right. -/
theorem Spreads.mapsValues_left (h : op.Spreads Leaf) (call : Call) (fuel : Nat)
    (hobject : m.tableOf? left = some ref) (horderly : m.Orderly ref)
    (hplain : m.tableOf? right = none) (hbound : right.index < m.cells.size)
    (hleaf : Leaf (m.content right)) (hn : m.Grown n) :
    MapsValues m op call fuel [left, right] ref n := by
  refine ⟨fun _ value ↦ op.dispatch2 call fuel value right, ?_, fun entry hentry k _ ↦ ?_⟩
  · have hlater := hn.object hobject
    change op.dispatch2 call (fuel + 1) left right n = _
    have hnone : op.binaryRule? (n.typeName left) (n.typeName right) = none := by
      rw [typeName_object hlater, Machine.typeName, hn.cells.content right hbound]
      exact h.right _ hleaf
    rw [dispatch2, Run.get_bind, hnone, hlater, hn.tableOf? hbound, hplain]
  · rw [List.map_cons, List.map_singleton, Machine.valueAt_entry hobject horderly hentry,
      Machine.valueAt_plain hplain]
    rfl

theorem sameKeys_pair_iff (hleft : m.tableOf? left = some s) (hright : m.tableOf? right = some t) :
    m.SameKeys [left, right] s ↔ ∀ id, (m.table s).get? id = none ↔ (m.table t).get? id = none := by
  constructor
  · intro hsame id
    exact (hsame right (by simp) t hright id).symm
  · intro hsame arg harg other hother id
    rcases List.mem_pair.mp harg with rfl | rfl
    · cases hleft.symm.trans hother
      exact Iff.rfl
    · cases hright.symm.trans hother
      exact (hsame id).symm

/-- Two objects are taken together value by value if they have the same keys. -/
theorem Spreads.dispatch_pair (h : op.Spreads Leaf) (call : Call) (fuel : Nat)
    (hleft : m.tableOf? left = some s) (hs : m.Orderly s) (hright : m.tableOf? right = some t)
    (ht : m.Orderly t) (hn : m.Grown n) :
    (m.SameKeys [left, right] s ∧ MapsValues m op call fuel [left, right] s n) ∨
      (¬m.SameKeys [left, right] s ∧
        ∃ e, op.dispatch call (fuel + 1) [left, right] n = .error e n) := by
  have hlater := hn.object hleft
  have hrun : op.dispatch call (fuel + 1) [left, right] n =
      op.dispatch2 call (fuel + 1) left right n := rfl
  rw [dispatch2, Run.get_bind, typeName_object hlater, typeName_object (hn.object hright), h.pair,
    hlater, hn.object hright] at hrun
  have hrequired := op.requireSameKeys_apply (hn.orderly hs) (hn.orderly ht)
  rw [hn.table s hs.table, hn.table t ht.table] at hrequired
  rw [sameKeys_pair_iff hleft hright]
  -- The walk looks each key up on the machine it has come to, where the tables are as they were.
  rcases hrequired with ⟨hagree, hpassed⟩ | ⟨hdisagree, e, hfailed⟩
  · refine .inl ⟨hagree, _, hrun.trans (Run.bind_ok hpassed), fun entry hentry k hk ↦ ?_⟩
    have hpresent := (hagree (m.keyId entry.key)).not.mp
      (by rw [hs.inOrder.get?_of_mem_entries hentry]; exact Option.some_ne_none _)
    obtain ⟨other, hother⟩ := Option.ne_none_iff_exists'.mp hpresent
    have hfound : k.lookUp t entry.key = some other := by
      unfold Machine.lookUp
      rw [hk.table t ht.table, hk.cells.keyId (hs.keys entry hentry), hother]
    rw [Run.get_bind, hfound, List.map_cons, List.map_singleton,
      Machine.valueAt_entry hleft hs hentry, Machine.valueAt_object hright hother]
    rfl
  · exact .inr ⟨hdisagree, e, hrun.trans (Run.bind_error hfailed)⟩

end

/-- What an operator does at a level with an object. If all objects have the same keys, it maps the
values of the first one. Else it fails and changes nothing. -/
theorem Spreads.dispatch_objects (h : op.Spreads Leaf) (call : Call) (fuel : Nat)
    (hcount : IsCount args.length) (htrees : ∀ arg ∈ args, m.Tree depth arg)
    (hleaves : ∀ arg ∈ args, m.LeavesAre Leaf arg)
    (hfirst : args.findSome? m.tableOf? = some ref) (hn : m.Grown n) :
    (m.SameKeys args ref ∧ MapsValues m op call fuel args ref n) ∨
      (¬m.SameKeys args ref ∧ ∃ e, op.dispatch call (fuel + 1) args n = .error e n) := by
  rcases dispatch_cases hcount with ⟨cell, rfl⟩ | ⟨left, right, rfl⟩
  · have hcell : m.tableOf? cell = some ref := by simpa using hfirst
    have horderly := (htrees cell (by simp)).orderly hcell
    refine .inl ⟨Machine.sameKeys_of_single ?_, h.mapsValues_single call fuel hcell horderly hn⟩
    simp [hcell]
  · have htree := htrees left (by simp)
    have htree' := htrees right (by simp)
    cases hleft : m.tableOf? left with
    | none =>
      have hright : m.tableOf? right = some ref := by
        rwa [List.findSome?_cons, hleft, List.findSome?_singleton] at hfirst
      refine .inl ⟨Machine.sameKeys_of_single ?_,
        h.mapsValues_right call fuel hleft htree.bound ((hleaves left (by simp)).leaf hleft) hright
          (htree'.orderly hright) hn⟩
      simp [hleft, hright]
    | some s =>
      obtain rfl : s = ref := by simpa [List.findSome?, hleft] using hfirst
      cases hright : m.tableOf? right with
      | none =>
        refine .inl ⟨Machine.sameKeys_of_single ?_,
          h.mapsValues_left call fuel hleft (htree.orderly hleft) hright htree'.bound
            ((hleaves right (by simp)).leaf hright) hn⟩
        simp [hleft, hright]
      | some t =>
        exact h.dispatch_pair call fuel hleft (htree.orderly hleft) hright (htree'.orderly hright) hn

/-! ### All levels -/

/-- Operands on which an operator has to succeed: they are compatible, and it does on all leaves. -/
def Succeeds (m : Machine) (apply : List CellRef → Run CellRef) (args : List CellRef) : Prop :=
  m.Compatible args ∧ ∀ leaves, m.LeadsTo args leaves → ∃ out n, apply leaves m = .ok out n

variable {apply : List CellRef → Run CellRef}

/-- Plain operands are all leaves there are. -/
theorem succeeds_leaves (hplain : ∀ arg ∈ args, m.tableOf? arg = none) :
    Succeeds m apply args ↔ ∃ out n, apply args m = .ok out n := by
  constructor
  · intro hsucceeds
    exact hsucceeds.2 args (.leaves hplain)
  · intro hsucceeds
    refine ⟨.leaves hplain, fun leaves hleads ↦ ?_⟩
    cases hleads with
    | leaves => exact hsucceeds
    | objects hfirst =>
      obtain ⟨arg, harg, hobject⟩ := List.exists_of_findSome?_eq_some hfirst
      cases (hplain arg harg).symm.trans hobject

/-- Where there is an object, an operator has to succeed on the values under each of its keys. -/
theorem succeeds_objects (horderly : m.Orderly ref) (hfirst : args.findSome? m.tableOf? = some ref)
    (hkeys : m.SameKeys args ref) :
    Succeeds m apply args ↔ ∀ entry ∈ (m.table ref).entries,
      Succeeds m apply (args.map (m.valueAt (m.keyId entry.key))) := by
  obtain ⟨first, hmem, hobject⟩ := List.exists_of_findSome?_eq_some hfirst
  constructor
  · rintro ⟨hcompatible, hleaves⟩ entry hentry
    have hid : (m.table ref).get? (m.keyId entry.key) ≠ none := by
      rw [horderly.inOrder.get?_of_mem_entries hentry]
      exact Option.some_ne_none _
    refine ⟨?_, fun leaves hleads ↦ hleaves leaves (.objects hfirst hid hleads)⟩
    cases hcompatible with
    | leaves hplain => cases (hplain first hmem).symm.trans hobject
    | objects hfirst' hkeys' hvalues =>
      cases hfirst.symm.trans hfirst'
      exact hvalues _ hid
  · intro hentries
    have hids : ∀ id, (m.table ref).get? id ≠ none → Succeeds m apply (args.map (m.valueAt id)) := by
      intro id hid
      obtain ⟨value, hvalue⟩ := Option.ne_none_iff_exists'.mp hid
      obtain ⟨entry, hentry, rfl, -⟩ := horderly.inOrder.mem_entries hvalue
      exact hentries entry hentry
    refine ⟨.objects hfirst hkeys fun id hid ↦ (hids id hid).1, fun leaves hleads ↦ ?_⟩
    cases hleads with
    | leaves hplain => cases (hplain first hmem).symm.trans hobject
    | objects hfirst' hid hvalues =>
      cases hfirst.symm.trans hfirst'
      exact (hids _ hid).2 leaves hvalues

/-- A computation works elementwise: it only adds to the machine, and succeeds exactly if it has to,
with an elementwise result. -/
structure WorksElementwise (m : Machine) (apply : List CellRef → Run CellRef) (args : List CellRef)
    (run : Run CellRef) (n : Machine) : Prop where
  grown : n.Grown (Outcome.final (run n))
  succeeds : (∃ out n', run n = .ok out n') ↔ Succeeds m apply args
  elementwise : ∀ out n', run n = .ok out n' → m.Elementwise apply n.tables.size n' args out

section

variable {run : Run CellRef}

theorem WorksElementwise.of_error {e : Failure} (hrun : run n = .error e n)
    (hnever : ¬Succeeds m apply args) : WorksElementwise m apply args run n where
  grown := by
    rw [hrun]
    exact .refl n
  succeeds := by
    refine ⟨?_, fun hsucceeds ↦ absurd hsucceeds hnever⟩
    rintro ⟨out, n', hend⟩
    cases hrun.symm.trans hend
  elementwise out n' hend := by cases hrun.symm.trans hend

/-- What is settled on plain operands works elementwise. -/
theorem WorksElementwise.of_settled (hplain : ∀ arg ∈ args, m.tableOf? arg = none)
    (happly : ∀ k, m.Grown k → run k = apply args k) (hsettled : m.Settled run) (hn : m.Grown n) :
    WorksElementwise m apply args run n := by
  rcases hsettled with hvalue | hfailure
  · obtain ⟨content, hresult⟩ := hvalue n hn
    obtain ⟨content', hresult'⟩ := hvalue m (.refl m)
    have hsucceeds : Succeeds m apply args :=
      (succeeds_leaves hplain).mpr ⟨_, _, (happly m (.refl m)).symm.trans hresult'⟩
    refine ⟨?_, ⟨fun _ ↦ hsucceeds, fun _ ↦ ⟨_, _, hresult⟩⟩, fun out n' hend ↦ ?_⟩
    · rw [hresult]
      exact n.grown_withCell content
    · cases hresult.symm.trans hend
      exact .leaves hplain hn ((happly n hn).symm.trans hresult) (size_lt_push _ _) rfl
  · obtain ⟨e, hresult⟩ := hfailure n hn
    obtain ⟨e', hresult'⟩ := hfailure m (.refl m)
    refine .of_error hresult fun hsucceeds ↦ ?_
    obtain ⟨out, n', hend⟩ := (succeeds_leaves hplain).mp hsucceeds
    cases ((happly m (.refl m)).symm.trans hresult').symm.trans hend

/-- To map the values of an object works elementwise, if to work on the values under each key
does. -/
theorem WorksElementwise.of_mapsValues {call : Call} (horderly : m.Orderly ref)
    (hfirst : args.findSome? m.tableOf? = some ref) (hkeys : m.SameKeys args ref)
    (hmaps : MapsValues m op call fuel args ref n) (hn : m.Grown n)
    (hinside : ∀ entry ∈ (m.table ref).entries, ∀ k, m.Grown k →
      WorksElementwise m apply (args.map (m.valueAt (m.keyId entry.key)))
        (op.dispatch call fuel (args.map (m.valueAt (m.keyId entry.key)))) k) :
    WorksElementwise m apply args (op.dispatch call (fuel + 1) args) n := by
  obtain ⟨act, hrun, hact⟩ := hmaps
  let Made (entry : Entry) (z : CellRef) (k : Machine) : Prop :=
    m.Elementwise apply (n.tables.size + 1) k (args.map (m.valueAt (m.keyId entry.key))) z
  have hmakes : ∀ entry ∈ (m.table ref).entries, MakesValues m (n.tables.size + 1) act
      (fun entry ↦ Succeeds m apply (args.map (m.valueAt (m.keyId entry.key)))) Made entry := by
    intro entry hentry
    refine ⟨fun k hk ↦ ?_, fun k hk ↦ ?_, fun k hk hsize z k' hend ↦ ?_⟩
    · rw [hact entry hentry k hk]
      exact (hinside entry hentry k hk).grown
    · rw [hact entry hentry k hk]
      exact (hinside entry hentry k hk).succeeds
    · rw [hact entry hentry k hk] at hend
      exact ((hinside entry hentry k hk).elementwise z k' hend).weaken hsize
  obtain ⟨hgrown, hpossible, hmade⟩ :=
    mapValues_apply horderly hn hmakes fun entry z k k' hz hkept ↦ hz.kept hkept
  rw [← hrun] at hgrown hpossible
  refine ⟨hgrown, hpossible.trans (succeeds_objects horderly hfirst hkeys).symm,
    fun out n' hend ↦ ?_⟩
  have hadded : m.Grown n' := by
    rw [hend] at hgrown
    exact hn.trans hgrown
  obtain ⟨hcontent, horder, hvalues⟩ := hmade out n' (hrun.symm.trans hend)
  refine .objects hfirst hcontent (Nat.le_refl _) horder hvalues.keys fun id value hvalue ↦ ?_
  obtain ⟨made, hmade, rfl, rfl⟩ := horder.inOrder.mem_entries hvalue
  obtain ⟨entry, hentry, hkey, hz⟩ := hvalues.exists_entry hmade
  rw [hkey, hadded.cells.keyId (horderly.keys entry hentry)]
  exact hz.weaken (Nat.le_succ _)

end

/-- Assumes: an operator that spreads over objects with certain leaves, and operands that are trees of
such leaves, less deep than the fuel. On every machine grown from theirs it works elementwise. -/
theorem Spreads.worksElementwise (h : op.Spreads Leaf) {count : Nat}
    (happly : ∀ leaves k fuel, leaves.length = count → m.Grown k →
      (∀ leaf ∈ leaves, leaf.index < m.cells.size ∧ m.tableOf? leaf = none) →
      op.dispatch call (fuel + 1) leaves k = apply leaves k)
    (hop : IsCount count) (hargs : args.length = count) (htrees : ∀ arg ∈ args, m.Tree depth arg)
    (hleaves : ∀ arg ∈ args, m.LeavesAre Leaf arg) (hfuel : depth < fuel) (hn : m.Grown n) :
    WorksElementwise m apply args (op.dispatch call fuel args) n := by
  -- Each level takes one unit of fuel, and its values are trees that are one level less deep.
  induction fuel generalizing args depth n with
  | zero => exact absurd hfuel (Nat.not_lt_zero _)
  | succ fuel ih =>
    have hcount : IsCount args.length := hargs ▸ hop
    by_cases hplain : ∀ arg ∈ args, m.tableOf? arg = none
    · have hbound := fun arg harg ↦ (htrees arg harg).bound
      exact .of_settled hplain
        (fun k hk ↦ happly args k fuel hargs hk fun leaf hmem ↦ ⟨hbound leaf hmem, hplain leaf hmem⟩)
        (h.settled m call fuel args hcount hbound hplain fun arg harg ↦
          (hleaves arg harg).leaf (hplain arg harg)) hn
    · obtain ⟨ref, hfirst⟩ : ∃ ref, args.findSome? m.tableOf? = some ref := by
        rw [← Option.ne_none_iff_exists', Ne, List.findSome?_eq_none_iff]
        exact hplain
      obtain ⟨first, hmem, hobject⟩ := List.exists_of_findSome?_eq_some hfirst
      have horderly := (htrees first hmem).orderly hobject
      obtain ⟨depth, rfl⟩ : ∃ less, depth = less + 1 := by
        cases depth with
        | zero => cases (Machine.tree_zero (htrees first hmem)).symm.trans hobject
        | succ less => exact ⟨less, rfl⟩
      rcases h.dispatch_objects call fuel hcount htrees hleaves hfirst hn with
        ⟨hkeys, hmaps⟩ | ⟨hkeys, e, hrun⟩
      · refine .of_mapsValues horderly hfirst hkeys hmaps hn fun entry hentry k hk ↦ ?_
        refine ih ((List.length_map _).trans hargs) (fun arg harg ↦ ?_) (fun arg harg ↦ ?_)
          (Nat.lt_of_succ_lt_succ hfuel) hk
        · obtain ⟨former, hformer, rfl⟩ := List.mem_map.mp harg
          refine Machine.tree_valueAt (htrees former hformer) fun other hother ↦ ?_
          rw [Ne, hkeys former hformer other hother, horderly.inOrder.get?_of_mem_entries hentry]
          exact Option.some_ne_none _
        · obtain ⟨former, hformer, rfl⟩ := List.mem_map.mp harg
          exact (hleaves former hformer).valueAt (fun _ ↦ (htrees former hformer).orderly) _
      · refine .of_error hrun ?_
        rintro ⟨hcompatible, -⟩
        cases hcompatible with
        | leaves hplain' => exact absurd hplain' hplain
        | objects hfirst' hkeys' =>
          cases hfirst.symm.trans hfirst'
          exact absurd hkeys' hkeys

/-- To evaluate an operator on as many operands as it takes is to dispatch on them. -/
theorem evaluate_eq_dispatch {symbol : String} {fixity : Fixity}
    (hcount : args.length = fixity.arity) (hop : standard.find? symbol fixity = some op)
    (hfixity : op.fixity = fixity) (hacts : op.actions.isEmpty = false) (n : Machine) :
    standard.evaluate call symbol fixity args n = op.dispatch call call.fuel args n := by
  have hsame : args.length = op.arity := by rw [hcount, Operator.arity, hfixity]
  unfold OperatorTable.evaluate
  rw [hop]
  dsimp only
  unfold Operator.evaluate
  rw [if_neg (not_not_intro hsame), if_neg (by rw [hacts]; exact Bool.false_ne_true)]
  rfl

/-- The operators of the language that take no objects, on operands that are trees. They only add to
the machine. They succeed exactly if the operands are compatible, and the operator succeeds on all
leaves these lead to; and the result is a new tree with what the operator makes of the leaves. -/
theorem broadcasting_is_elementwise {call : Call} {symbol : String} {fixity : Fixity}
    (hsymbol : (symbol, fixity) ∈ elementwise) (hcount : args.length = fixity.arity)
    (htrees : ∀ arg ∈ args, m.Tree depth arg) (hfuel : depth < call.fuel) :
    m.Grown (Outcome.final (standard.evaluate call symbol fixity args m)) ∧
      ((∃ out n, standard.evaluate call symbol fixity args m = .ok out n) ↔
        m.Compatible args ∧ ∀ leaves, m.LeadsTo args leaves →
          ∃ out n, standard.evaluate call symbol fixity leaves m = .ok out n) ∧
      ∀ out n, standard.evaluate call symbol fixity args m = .ok out n →
        m.Elementwise (standard.evaluate call symbol fixity) m.tables.size n args out := by
  obtain ⟨op, hop, hfixity, helementwise⟩ := find?_elementwise hsymbol
  have happly (leaves : List CellRef) (k : Machine) (hleaves : leaves.length = fixity.arity) :
      standard.evaluate call symbol fixity leaves k = op.dispatch call call.fuel leaves k :=
    evaluate_eq_dispatch hleaves hop hfixity helementwise.acts k
  have hone : IsCount fixity.arity := by cases fixity <;> simp [IsCount, Fixity.arity]
  rw [happly args m hcount]
  have hworks : WorksElementwise m (standard.evaluate call symbol fixity) args
      (op.dispatch call call.fuel args) m := by
    refine helementwise.spreads.worksElementwise (fun leaves k fuel hleaves hk hplain ↦ ?_) hone
      hcount htrees (fun _ _ _ _ _ ↦ trivial) hfuel (.refl m)
    obtain ⟨less, hless⟩ : ∃ less, call.fuel = less + 1 := ⟨call.fuel - 1, by omega⟩
    rw [happly leaves k hleaves, hless]
    refine dispatch_plain fuel less (hleaves ▸ hone) fun leaf hmem ↦ ?_
    rw [hk.tableOf? (hplain leaf hmem).1]
    exact (hplain leaf hmem).2
  exact ⟨hworks.grown, hworks.succeeds, hworks.elementwise⟩

/-- An object with a key that was overwritten is not compatible with itself, since the key is looked
up where it no longer is: an operator that takes no objects fails on the two. -/
theorem broadcast_overwritten_key {cell key : CellRef} {symbol : String}
    (hsymbol : (symbol, .infixOp) ∈ elementwise) (hobject : m.tableOf? cell = some ref)
    (hkey : key ∈ (m.table ref).keys) (hlost : m.lookUp ref key = none) (hfuel : 0 < call.fuel) :
    ∃ e, standard.evaluate call symbol .infixOp [cell, cell] m = .error e m := by
  obtain ⟨op, hop, hfixity, helementwise⟩ := find?_elementwise hsymbol
  obtain ⟨less, hless⟩ : ∃ less, call.fuel = less + 1 := ⟨call.fuel - 1, by omega⟩
  have hrequired : ∃ e, op.requireSameKeys ref ref m = .error e m := by
    have hany : ((m.table ref).keys.any fun key ↦ (m.lookUp ref key).isNone) = true :=
      List.any_eq_true.mpr ⟨key, hkey, Option.isNone_iff_eq_none.mpr hlost⟩
    unfold requireSameKeys
    rw [Run.get_bind]
    dsimp only
    rw [if_neg (not_not_intro rfl), if_pos hany]
    exact ⟨_, rfl⟩
  obtain ⟨e, hfailed⟩ := hrequired
  refine ⟨e, ?_⟩
  rw [evaluate_eq_dispatch rfl hop hfixity helementwise.acts, hless]
  change op.dispatch2 call (less + 1) cell cell m = _
  rw [dispatch2, Run.get_bind, typeName_object hobject, helementwise.spreads.pair, hobject]
  exact Run.bind_error hfailed

/-- An object that has another one inside, both with the same one key. The cells of the key and of a
number come first, then those of the objects, the inner one first. -/
def nestedObject : Machine where
  cells := #[.string "a", .number (Decimal.ofInt 7), .object ⟨0⟩, .object ⟨1⟩]
  tables := #[({} : Table).set (.string "a") ⟨0⟩ ⟨1⟩, ({} : Table).set (.string "a") ⟨0⟩ ⟨2⟩]

/-- The one entry of each of these objects. -/
theorem nestedObject_entry (value : CellRef) (ref : TableRef) (hbound : ref.index < 2)
    (htable : nestedObject.table ref = ({} : Table).set (.string "a") ⟨0⟩ value) :
    nestedObject.Orderly ref ∧ (nestedObject.table ref).entries = [⟨⟨0⟩, value⟩] ∧
      ∀ id, (nestedObject.table ref).get? id = if id = .string "a" then some value else none := by
  have hempty := Table.inOrder_empty nestedObject.keyId
  have hentries : (nestedObject.table ref).entries = [⟨⟨0⟩, value⟩] := by
    rw [htable]
    exact hempty.entries_set_of_new (Table.get?_empty _) ⟨0⟩ value
  refine ⟨⟨hbound, fun entry hentry ↦ ?_, ?_⟩, hentries, fun id ↦ ?_⟩
  · rw [hentries] at hentry
    rw [List.mem_singleton.mp hentry]
    exact Nat.zero_lt_succ 3
  · rw [htable]
    exact hempty.set ⟨0⟩ value
  · rw [htable]
    by_cases hid : id = .string "a"
    · rw [if_pos hid, hid]
      exact hempty.get?_set_self _ ⟨0⟩ value
    · rw [if_neg hid, hempty.get?_set ⟨0⟩ value hid]
      exact Table.get?_empty id

/-- The object minus the one inside it: both have the key, under which the one has an object and the
other a number. -/
theorem nested_minus_inner :
    ("-", .infixOp) ∈ elementwise ∧ (∀ arg ∈ [⟨3⟩, ⟨2⟩], nestedObject.Tree 2 arg) ∧
      ∃ out n,
        standard.evaluate (Call.detached 20 3) "-" .infixOp [⟨3⟩, ⟨2⟩] nestedObject = .ok out n ∧
        nestedObject.Elementwise (standard.evaluate (Call.detached 20 3) "-" .infixOp) 2 n
          [⟨3⟩, ⟨2⟩] out := by
  obtain ⟨hinner, hentries, hget⟩ := nestedObject_entry ⟨1⟩ ⟨0⟩ (by decide) rfl
  obtain ⟨houter, hentries', hget'⟩ := nestedObject_entry ⟨2⟩ ⟨1⟩ (by decide) rfl
  have hsymbol : ("-", .infixOp) ∈ elementwise := by decide
  have hplain : nestedObject.tableOf? ⟨1⟩ = none := rfl
  have htree (depth : Nat) : nestedObject.Tree (depth + 1) ⟨2⟩ := by
    refine .object rfl hinner fun entry hentry ↦ ?_
    rw [hentries] at hentry
    rw [List.mem_singleton.mp hentry]
    exact .leaf (by decide) rfl
  have htree' : nestedObject.Tree 2 ⟨3⟩ := by
    refine .object rfl houter fun entry hentry ↦ ?_
    rw [hentries'] at hentry
    rw [List.mem_singleton.mp hentry]
    exact htree 0
  have htrees : ∀ arg ∈ [⟨3⟩, ⟨2⟩], nestedObject.Tree 2 arg := by simp [htree, htree']
  have hvalues : [⟨3⟩, ⟨2⟩].map (nestedObject.valueAt (.string "a")) = [⟨2⟩, ⟨1⟩] := by
    change [((nestedObject.table ⟨1⟩).get? (.string "a")).getD ⟨3⟩,
      ((nestedObject.table ⟨0⟩).get? (.string "a")).getD ⟨2⟩] = _
    rw [hget', hget]
    rfl
  have hvalues' : [⟨2⟩, ⟨1⟩].map (nestedObject.valueAt (.string "a")) = [⟨1⟩, ⟨1⟩] := by
    change [((nestedObject.table ⟨0⟩).get? (.string "a")).getD ⟨2⟩, ⟨1⟩] = _
    rw [hget]
    rfl
  have hleaf : ∃ out n,
      standard.evaluate (Call.detached 20 3) "-" .infixOp [⟨1⟩, ⟨1⟩] nestedObject = .ok out n := by
    have hop : between "-" 110 [numeric2 .subtract] ∈ standardOperators := by
      simp [standardOperators]
    have hfound : standard.find? "-" .infixOp = some (between "-" 110 [numeric2 .subtract]) :=
      find?_standard hop
    rw [evaluate_eq_dispatch rfl hfound rfl rfl]
    exact ⟨_, _, rfl⟩
  have hbelow : Succeeds nestedObject (standard.evaluate (Call.detached 20 3) "-" .infixOp)
      [⟨2⟩, ⟨1⟩] := by
    refine (succeeds_objects hinner rfl ?_).mpr fun entry hentry ↦ ?_
    · intro arg harg other hother
      rcases List.mem_pair.mp harg with rfl | rfl <;> cases hother
      exact fun _ ↦ Iff.rfl
    · rw [hentries] at hentry
      rw [List.mem_singleton.mp hentry]
      change Succeeds _ _ ([⟨2⟩, ⟨1⟩].map (nestedObject.valueAt (.string "a")))
      rw [hvalues', succeeds_leaves (by simp [hplain])]
      exact hleaf
  have hall : Succeeds nestedObject (standard.evaluate (Call.detached 20 3) "-" .infixOp)
      [⟨3⟩, ⟨2⟩] := by
    refine (succeeds_objects houter rfl ?_).mpr fun entry hentry ↦ ?_
    · intro arg harg other hother id
      rcases List.mem_pair.mp harg with rfl | rfl <;> cases hother
      · exact Iff.rfl
      · simp [hget, hget']
    · rw [hentries'] at hentry
      rw [List.mem_singleton.mp hentry]
      change Succeeds _ _ ([⟨3⟩, ⟨2⟩].map (nestedObject.valueAt (.string "a")))
      rwa [hvalues]
  have hfuel : 2 < (Call.detached 20 3).fuel := by decide
  obtain ⟨-, hsucceeds, helementwise⟩ := broadcasting_is_elementwise hsymbol rfl htrees hfuel
  obtain ⟨out, n, hresult⟩ := hsucceeds.mpr hall
  exact ⟨hsymbol, htrees, out, n, hresult, helementwise out n hresult⟩

end Operator

end TreeScript
