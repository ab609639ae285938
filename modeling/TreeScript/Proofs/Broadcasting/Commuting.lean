import Mathlib.Data.Nat.Bitwise
import TreeScript.Proofs.Broadcasting.Elementwise
import TreeScript.Proofs.Equality.Bisimilarity
import TreeScript.Proofs.Numbers.Rational

/-!
# Operands in either order

On numbers `+`, `*`, `&` and `|` do not mind the order of their operands, nor do `&` and `|` on
truth values (`Operator.Commutative`). The same is true of objects with such values inside
(`commuting_operands`): if the operator succeeds in one order it succeeds in the other, and what it
makes in the two orders is equal. It need not be the same: its keys are in the order of the left
operand.

Operands are compatible in any order, and lead to the same leaves in reverse
(`Machine.Compatible.reverse`, `Machine.LeadsTo.reverse`). So one order succeeds where the other
does (`Operator.Commutes.succeeds_reverse`), and the values that are made of the same operands in
the two orders are related by a bisimulation (`Operator.Commutes.bisimulation`).
-/

set_option autoImplicit false

namespace TreeScript

def Content.IsNumber (content : Content) : Prop := ∃ d, content = .number d

def Content.IsBoolean (content : Content) : Prop := ∃ b, content = .boolean b

/-! ### Operands in reverse -/

namespace Machine

variable {m n : Machine} {args leaves : List CellRef} {cell : CellRef} {ref : TableRef}
  {Leaf : Content → Prop}

/-- Where there is an object among operands, there is a first one in the other order too. All
objects having the same keys, it has the keys of the first one in this order. -/
theorem SameKeys.reverse (h : m.SameKeys args ref) (hfirst : args.findSome? m.tableOf? = some ref) :
    ∃ last, args.reverse.findSome? m.tableOf? = some last ∧ m.SameKeys args.reverse last ∧
      ∀ id, (m.table last).get? id = none ↔ (m.table ref).get? id = none := by
  obtain ⟨first, hmem, hobject⟩ := List.exists_of_findSome?_eq_some hfirst
  have hsome : args.reverse.findSome? m.tableOf? ≠ none := by
    rw [Ne, List.findSome?_eq_none_iff]
    intro hnone
    cases (hnone first (List.mem_reverse.mpr hmem)).symm.trans hobject
  obtain ⟨last, hlast⟩ := Option.ne_none_iff_exists'.mp hsome
  obtain ⟨arg, harg, hother⟩ := List.exists_of_findSome?_eq_some hlast
  have hsame := h arg (List.mem_reverse.mp harg) last hother
  refine ⟨last, hlast, fun arg' harg' other hother' id ↦ ?_, hsame⟩
  rw [h arg' (List.mem_reverse.mp harg') other hother' id, hsame id]

/-- Operands that are compatible are so in the other order. -/
theorem Compatible.reverse (h : m.Compatible args) : m.Compatible args.reverse := by
  induction h with
  | leaves hplain => exact .leaves fun arg harg ↦ hplain arg (List.mem_reverse.mp harg)
  | objects hfirst hkeys hvalues ih =>
    obtain ⟨last, hlast, hkeys', hsame⟩ := hkeys.reverse hfirst
    refine .objects hlast hkeys' fun id hid ↦ ?_
    rw [List.map_reverse]
    exact ih id fun hnone ↦ hid ((hsame id).mpr hnone)

/-- In the other order compatible operands lead to the same leaves, in the other order. -/
theorem LeadsTo.reverse (h : m.LeadsTo args leaves) (hcompatible : m.Compatible args) :
    m.LeadsTo args.reverse leaves.reverse := by
  induction h with
  | leaves hplain => exact .leaves fun arg harg ↦ hplain arg (List.mem_reverse.mp harg)
  | @objects args leaves ref id hfirst hid hvalues ih =>
    cases hcompatible with
    | leaves hplain =>
      obtain ⟨first, hmem, hobject⟩ := List.exists_of_findSome?_eq_some hfirst
      cases (hplain first hmem).symm.trans hobject
    | objects hfirst' hkeys hinside =>
      cases hfirst.symm.trans hfirst'
      obtain ⟨last, hlast, -, hsame⟩ := hkeys.reverse hfirst
      refine .objects hlast (fun hnone ↦ hid ((hsame id).mp hnone)) ?_
      rw [List.map_reverse]
      exact ih (hinside id hid)

/-- A tree whose plain values satisfy a condition. -/
structure TreeOf (m : Machine) (Leaf : Content → Prop) (cell : CellRef) : Prop where
  tree : ∃ depth, m.Tree depth cell
  leaves : m.LeavesAre Leaf cell

theorem TreeOf.orderly (h : m.TreeOf Leaf cell) (hobject : m.tableOf? cell = some ref) :
    m.Orderly ref := by
  obtain ⟨depth, htree⟩ := h.tree
  exact htree.orderly hobject

theorem TreeOf.bound (h : m.TreeOf Leaf cell) : cell.index < m.cells.size := by
  obtain ⟨depth, htree⟩ := h.tree
  exact htree.bound

theorem TreeOf.valueAt (h : m.TreeOf Leaf cell) (id : KeyId) :
    m.TreeOf Leaf (m.valueAt id cell) := by
  refine ⟨?_, h.leaves.valueAt (fun _ ↦ h.orderly) id⟩
  obtain ⟨depth, htree⟩ := h.tree
  cases htree with
  | leaf hcell hplain => exact ⟨depth, by rw [valueAt_plain hplain]; exact .leaf hcell hplain⟩
  | @object less _ ref hobject horderly hvalues =>
    cases hvalue : (m.table ref).get? id with
    | none =>
      have hself : m.valueAt id cell = cell := by
        unfold Machine.valueAt
        rw [hobject]
        exact congrArg (Option.getD · cell) hvalue
      exact ⟨less + 1, hself.symm ▸ .object hobject horderly hvalues⟩
    | some value =>
      obtain ⟨entry, hentry, -, rfl⟩ := horderly.inOrder.mem_entries hvalue
      exact ⟨less, valueAt_object hobject hvalue ▸ hvalues entry hentry⟩

/-- A plain value has one leaf, itself. -/
theorem leavesAre_plain (hplain : m.tableOf? cell = none) (hleaf : Leaf (m.content cell)) :
    m.LeavesAre Leaf cell := by
  intro part hwithin _
  rcases hwithin.cases_head with rfl | ⟨value, ⟨ref, hobject, -⟩, -⟩
  · exact hleaf
  · cases hplain.symm.trans (tableOf?_eq_some_iff.mpr hobject)

/-- The leaves of an object are those of its values. -/
theorem leavesAre_object (hobject : m.tableOf? cell = some ref)
    (hvalues : ∀ entry ∈ (m.table ref).entries, m.LeavesAre Leaf entry.value) :
    m.LeavesAre Leaf cell := by
  intro part hwithin hplain
  rcases hwithin.cases_head with rfl | ⟨value, ⟨other, hother, hvalue⟩, hrest⟩
  · cases hplain.symm.trans hobject
  · cases hobject.symm.trans (tableOf?_eq_some_iff.mpr hother)
    obtain ⟨entry, hentry, rfl⟩ := List.mem_map.mp hvalue
    exact hvalues entry hentry part hrest hplain

theorem forall_valueAt (h : ∀ arg ∈ args, m.TreeOf Leaf arg) (id : KeyId) :
    ∀ arg ∈ args.map (m.valueAt id), m.TreeOf Leaf arg :=
  List.forall_mem_map.mpr fun arg harg ↦ (h arg harg).valueAt id

/-- The leaves that operands lead to are leaves of theirs, as many as there are operands. -/
theorem LeadsTo.leaf (h : m.LeadsTo args leaves) (htrees : ∀ arg ∈ args, m.TreeOf Leaf arg) :
    leaves.length = args.length ∧ ∀ leaf ∈ leaves, Leaf (m.content leaf) := by
  induction h with
  | leaves hplain =>
    exact ⟨rfl, fun leaf hmem ↦ (htrees leaf hmem).leaves.leaf (hplain leaf hmem)⟩
  | @objects args leaves ref id hfirst hid hvalues ih =>
    rw [← args.length_map (m.valueAt id)]
    exact ih (forall_valueAt htrees id)

/-- Objects in order with the same keys, on machines that agree on the cells of these, have values
under the same ones. -/
theorem Orderly.get?_eq_none_congr {made : TableRef} {id : KeyId} (h : m.Orderly ref)
    (hmade : n.Orderly made) (hcells : m.KeepsCells n)
    (hkeys : (n.table made).keys = (m.table ref).keys) :
    (n.table made).get? id = none ↔ (m.table ref).get? id = none := by
  have hids {k : Machine} {ref : TableRef} (horderly : k.Orderly ref) :
      (k.table ref).get? id = none ↔ ∀ key ∈ (k.table ref).keys, k.keyId key ≠ id := by
    rw [horderly.inOrder.get?_eq_none_iff, Table.keys, List.forall_mem_map]
  rw [hids hmade, hids h, hkeys]
  refine forall₂_congr fun key hkey ↦ ?_
  obtain ⟨entry, hentry, rfl⟩ := List.mem_map.mp hkey
  rw [hcells.keyId (h.keys entry hentry)]

end Machine

namespace Operator

variable {m n : Machine} {op : Operator} {call : Call} {args : List CellRef} {a b out : CellRef}
  {Leaf : Content → Prop} {f : Content → Content → Except NumberError Content}

/-! ### Operators that compute a function of their leaves -/

/-- Makes a cell for a value that may not exist. -/
def allocate (result : Except NumberError Content) : Run CellRef := do alloc (← Run.ofNumber result)

theorem allocate_eq_ok_iff {result : Except NumberError Content} :
    allocate result m = .ok out n ↔
      ∃ content, result = .ok content ∧ out = ⟨m.cells.size⟩ ∧ n = m.withCell content := by
  cases result with
  | error e => exact ⟨nofun, nofun⟩
  | ok content =>
    constructor
    · intro h
      cases h
      exact ⟨content, rfl, rfl, rfl⟩
    · rintro ⟨_, ⟨⟩, rfl, rfl⟩
      rfl

theorem settled_allocate (m : Machine) (result : Except NumberError Content) :
    m.Settled (allocate result) := by
  cases result with
  | ok content => exact Machine.settled_of_alloc fun k _ ↦ ⟨content, rfl⟩
  | error e => exact Machine.settled_of_fail fun k _ ↦ ⟨_, rfl⟩

/-- An operator between leaves computes a function of what they hold, which makes plain values; and
it has no rule where one of its operands is an object. -/
structure Computes (op : Operator) (Leaf : Content → Prop)
    (f : Content → Content → Except NumberError Content) : Prop where
  single : ∀ type, op.unaryRule? type = none
  pair : op.binaryRule? "object" "object" = none
  left : ∀ content, Leaf content → op.binaryRule? content.typeName "object" = none
  right : ∀ content, Leaf content → op.binaryRule? "object" content.typeName = none
  leaves : ∀ (k : Machine) (call : Call) (fuel : Nat) (left right : CellRef),
    Leaf (k.content left) → Leaf (k.content right) →
      op.dispatch2 call (fuel + 1) left right k = allocate (f (k.content left) (k.content right)) k
  plain : ∀ x y z, f x y = .ok z → z.Same z

theorem Computes.spreads (h : op.Computes Leaf f) : op.Spreads Leaf where
  single := h.single _
  pair := h.pair
  left := h.left
  right := h.right
  settled m call fuel args hcount hbound hplain hleaf := by
    rcases dispatch_cases hcount with ⟨cell, rfl⟩ | ⟨left, right, rfl⟩
    · refine Machine.settled_of_fail fun k hk ↦ ?_
      change ∃ e, op.dispatch1 (fuel + 1) cell k = _
      rw [dispatch1, Run.get_bind, h.single,
        (hk.tableOf? (hbound cell (by simp))).trans (hplain cell (by simp))]
      exact ⟨_, rfl⟩
    · refine (settled_allocate m (f (m.content left) (m.content right))).congr fun k hk ↦ ?_
      have hleft := hk.cells.content left (hbound left (by simp))
      have hright := hk.cells.content right (hbound right (by simp))
      rw [← hleft, ← hright]
      refine h.leaves k call fuel left right ?_ ?_
      · rw [hleft]
        exact hleaf left (by simp)
      · rw [hright]
        exact hleaf right (by simp)

/-- An operator between leaves computes a function that does not mind the order. -/
structure Commutes (op : Operator) (Leaf : Content → Prop)
    (f : Content → Content → Except NumberError Content) : Prop extends op.Computes Leaf f where
  swap : ∀ x y, Leaf x → Leaf y → (f x y).toOption = (f y x).toOption

/-- Of two leaves the operator makes the same value in the other order. -/
theorem Commutes.swap_ok (h : op.Commutes Leaf f) {x y z : Content} (hx : Leaf x) (hy : Leaf y)
    (hresult : f x y = .ok z) : f y x = .ok z := by
  have hsame := h.swap x y hx hy
  rw [hresult] at hsame
  generalize f y x = other at hsame
  cases other <;> cases hsame
  rfl

/-! ### Both orders -/

/-- Where an operator succeeds on trees, it does in the other order. -/
theorem Commutes.succeeds_reverse (h : op.Commutes Leaf f) (hpair : args.length = 2)
    (htrees : ∀ arg ∈ args, m.TreeOf Leaf arg) (hsucceeds : Succeeds m (op.dispatch call 1) args) :
    Succeeds m (op.dispatch call 1) args.reverse := by
  obtain ⟨hcompatible, hleaves⟩ := hsucceeds
  refine ⟨hcompatible.reverse, fun leaves hleads ↦ ?_⟩
  have hback := hleads.reverse hcompatible.reverse
  rw [List.reverse_reverse] at hback
  obtain ⟨hlength, hleaf⟩ := hback.leaf htrees
  obtain ⟨x, y, rfl⟩ : ∃ x y, leaves = [x, y] := by
    rw [← List.length_eq_two, ← hpair, ← hlength, List.length_reverse]
  have hx := hleaf x (by simp)
  have hy := hleaf y (by simp)
  obtain ⟨out, n, hresult⟩ := hleaves _ hback
  obtain ⟨content, hvalue, -, -⟩ :=
    allocate_eq_ok_iff.mp ((h.leaves m call 0 y x hy hx).symm.trans hresult)
  refine ⟨_, _,
    (h.leaves m call 0 x y hx hy).trans (allocate_eq_ok_iff.mpr ⟨content, ?_, rfl, rfl⟩)⟩
  exact h.swap_ok hy hx hvalue

/-- What an operator has made of leaves is the value of the function it computes. -/
theorem Computes.content_of_leaves (h : op.Computes Leaf f)
    (htrees : ∀ arg ∈ [a, b], m.TreeOf Leaf arg) (hplain : ∀ arg ∈ [a, b], m.tableOf? arg = none)
    (hmade : m.Elementwise (op.dispatch call 1) 0 n [a, b] out) :
    f (m.content a) (m.content b) = .ok (n.content out) := by
  cases hmade with
  | @leaves _ _ result k k' _ hk hresult hcell hcontent =>
    have hleaf (cell : CellRef) (hcell : cell ∈ [a, b]) :
        k.content cell = m.content cell ∧ Leaf (k.content cell) := by
      have hsame := hk.cells.content cell (htrees cell hcell).bound
      exact ⟨hsame, hsame ▸ (htrees cell hcell).leaves.leaf (hplain cell hcell)⟩
    obtain ⟨ha, ha'⟩ := hleaf a (by simp)
    obtain ⟨hb, hb'⟩ := hleaf b (by simp)
    obtain ⟨content, hvalue, rfl, rfl⟩ :=
      allocate_eq_ok_iff.mp ((h.leaves k call 0 a b ha' hb').symm.trans hresult)
    rw [hcontent, ← ha, ← hb, hvalue, Machine.content_new]
  | objects hfirst =>
    obtain ⟨arg, harg, hobject⟩ := List.exists_of_findSome?_eq_some hfirst
    cases (hplain arg harg).symm.trans hobject

/-- Two values on a machine are made of the same two operands, in one order and in the other. -/
def MadeInBothOrders (m : Machine) (op : Operator) (call : Call) (Leaf : Content → Prop)
    (n : Machine) (out out' : CellRef) : Prop :=
  ∃ args, args.length = 2 ∧ (∀ arg ∈ args, m.TreeOf Leaf arg) ∧ m.Compatible args ∧
    m.Elementwise (op.dispatch call 1) 0 n args out ∧
    m.Elementwise (op.dispatch call 1) 0 n args.reverse out'

theorem MadeInBothOrders.symm {out' : CellRef} (h : MadeInBothOrders m op call Leaf n out out') :
    MadeInBothOrders m op call Leaf n out' out := by
  obtain ⟨args, hpair, htrees, hcompatible, hmade, hmade'⟩ := h
  refine ⟨args.reverse, (List.length_reverse ..).trans hpair,
    fun arg harg ↦ htrees arg (List.mem_reverse.mp harg), hcompatible.reverse, hmade', ?_⟩
  rwa [List.reverse_reverse]

/-- What is made in both orders is the same plain value, or two objects in order that have the same
keys and under each of them values that are made in both orders. -/
theorem Commutes.cases (h : op.Commutes Leaf f) (hgrown : m.Grown n) {out out' : CellRef}
    (hmade : MadeInBothOrders m op call Leaf n out out') :
    (n.content out).Same (n.content out') ∨
      ∃ s t, n.content out = .object s ∧ n.content out' = .object t ∧ n.Orderly s ∧ n.Orderly t ∧
        (∀ id, (n.table s).get? id = none ↔ (n.table t).get? id = none) ∧
        ∀ id value other, (n.table s).get? id = some value → (n.table t).get? id = some other →
          MadeInBothOrders m op call Leaf n value other := by
  obtain ⟨args, hpair, htrees, hcompatible, hfirst, hsecond⟩ := hmade
  cases hcompatible with
  | leaves hplain =>
    obtain ⟨a, b, rfl⟩ := List.length_eq_two.mp hpair
    have hab := h.content_of_leaves htrees hplain hfirst
    have hba := h.content_of_leaves (a := b) (b := a)
      (fun arg harg ↦ htrees arg (List.mem_reverse.mp harg))
      (fun arg harg ↦ hplain arg (List.mem_reverse.mp harg)) hsecond
    have hleaf {cell : CellRef} (hcell : cell ∈ [a, b]) : Leaf (m.content cell) :=
      (htrees cell hcell).leaves.leaf (hplain cell hcell)
    have hsame := h.swap_ok (hleaf (by simp)) (hleaf (by simp)) hab
    rw [hba] at hsame
    rw [Except.ok.inj hsame]
    exact .inl (h.plain _ _ _ hab)
  | @objects _ ref hobject hkeys hvalues =>
    obtain ⟨last, hlast, -, hsame⟩ := hkeys.reverse hobject
    obtain ⟨arg, harg, href⟩ := List.exists_of_findSome?_eq_some hobject
    obtain ⟨arg', harg', hother⟩ := List.exists_of_findSome?_eq_some hlast
    cases hfirst with
    | leaves hplain => cases (hplain arg harg).symm.trans href
    | @objects _ _ ref' made hobject' hcontent hnew horderly hmade hinside =>
    cases hobject.symm.trans hobject'
    cases hsecond with
    | leaves hplain => cases (hplain arg' harg').symm.trans hother
    | @objects _ _ last' made' hlast' hcontent' hnew' horderly' hmade' hinside' =>
    cases hlast.symm.trans hlast'
    have hleft := (htrees arg harg).orderly href
    have hright := (htrees arg' (List.mem_reverse.mp harg')).orderly hother
    refine .inr ⟨made, made', hcontent, hcontent', horderly, horderly', fun id ↦ ?_,
      fun id value other hvalue hvalue' ↦ ?_⟩
    · rw [hleft.get?_eq_none_congr horderly hgrown.cells hmade,
        hright.get?_eq_none_congr horderly' hgrown.cells hmade', hsame id]
    · have hid : (m.table ref).get? id ≠ none := by
        rw [Ne, ← hleft.get?_eq_none_congr horderly hgrown.cells hmade, hvalue]
        exact Option.some_ne_none _
      refine ⟨args.map (m.valueAt id), (List.length_map _).trans hpair,
        Machine.forall_valueAt htrees id, hvalues id hid, hinside id value hvalue, ?_⟩
      rw [← List.map_reverse]
      exact hinside' id other hvalue'

/-- Values that are made in both orders are equal. -/
theorem Commutes.equal (h : op.Commutes Leaf f) (hgrown : m.Grown n) {out out' : CellRef}
    (hmade : MadeInBothOrders m op call Leaf n out out') : n.equal out out' = true := by
  refine Machine.equal_of_bisimulation (R := MadeInBothOrders m op call Leaf n) ?_ ?_ hmade
  · intro x y hxy
    rcases h.cases hgrown hxy with hsame | ⟨s, t, hs, ht, horderly, horderly', hkeys, hvalues⟩
    · exact .same hsame
    · obtain ⟨hsizes, -⟩ := (horderly.inOrder.same_keys_iff horderly'.inOrder).mp hkeys
      refine .objects hs ht hsizes fun entry hentry ↦ ?_
      have hvalue := horderly.inOrder.get?_of_mem_entries hentry
      have hpresent : (n.table t).get? (n.keyId entry.key) ≠ none := by
        rw [Ne, ← hkeys, hvalue]
        exact Option.some_ne_none _
      obtain ⟨value, hother⟩ := Option.ne_none_iff_exists'.mp hpresent
      obtain ⟨other, hmem, hid, rfl⟩ := horderly'.inOrder.mem_entries hother
      exact ⟨other, hmem, hid, hvalues _ _ _ hvalue hother⟩
  · intro x y t hxy hobject
    rcases h.cases hgrown hxy with hsame | ⟨s, t', hs, ht, horderly, horderly', hkeys, hvalues⟩
    · exact absurd hobject (hsame.not_object.2 t)
    · cases hobject.symm.trans ht
      exact horderly'.inOrder

/-- Assumes: an operator that commutes on leaves, and two trees of such leaves, less deep than the
fuel. It works on them elementwise, on every machine grown from theirs. -/
theorem Commutes.works (h : op.Commutes Leaf f) {depth : Nat} (hpair : args.length = 2)
    (htrees : ∀ arg ∈ args, m.Tree depth arg) (hleaves : ∀ arg ∈ args, m.LeavesAre Leaf arg)
    (hfuel : depth < call.fuel) (hn : m.Grown n) :
    WorksElementwise m (op.dispatch call 1) args (op.dispatch call call.fuel args) n := by
  refine h.spreads.worksElementwise (fun leaves k fuel hcount hk hplain ↦ ?_) (.inr rfl) hpair
    htrees
    hleaves hfuel hn
  refine dispatch_plain fuel 0 (.inr hcount) fun leaf hmem ↦ ?_
  rw [hk.tableOf? (hplain leaf hmem).1]
  exact (hplain leaf hmem).2

/-- Two operands in reverse succeed on every machine grown from theirs on which they do as they
are. -/
theorem Commutes.dispatch_reverse (h : op.Commutes Leaf f) {depth : Nat} (hpair : args.length = 2)
    (htrees : ∀ arg ∈ args, m.Tree depth arg) (hleaves : ∀ arg ∈ args, m.LeavesAre Leaf arg)
    (hfuel : depth < call.fuel) (hn : m.Grown n)
    (hresult : ∃ out k, op.dispatch call call.fuel args m = .ok out k) :
    ∃ out k, op.dispatch call call.fuel args.reverse n = .ok out k := by
  have hback {arg : CellRef} (harg : arg ∈ args.reverse) : arg ∈ args := List.mem_reverse.mp harg
  have hsucceeds := (h.works hpair htrees hleaves hfuel (.refl m)).succeeds.mp hresult
  refine (h.works ((List.length_reverse ..).trans hpair) (fun arg harg ↦ htrees arg (hback harg))
    (fun arg harg ↦ hleaves arg (hback harg)) hfuel hn).succeeds.mpr ?_
  exact h.succeeds_reverse hpair (fun arg harg ↦ ⟨⟨depth, htrees arg harg⟩, hleaves arg harg⟩)
    hsucceeds

/-- What an operator makes of two operands is equal to what it then makes of them in reverse. -/
theorem Commutes.equal_reverse (h : op.Commutes Leaf f) {depth : Nat} (hpair : args.length = 2)
    (htrees : ∀ arg ∈ args, m.Tree depth arg) (hleaves : ∀ arg ∈ args, m.LeavesAre Leaf arg)
    (hfuel : depth < call.fuel) {out out' : CellRef} {k : Machine}
    (hresult : op.dispatch call call.fuel args m = .ok out n)
    (hresult' : op.dispatch call call.fuel args.reverse n = .ok out' k) :
    k.equal out out' = true ∧ k.equal out' out = true := by
  have hback {arg : CellRef} (harg : arg ∈ args.reverse) : arg ∈ args := List.mem_reverse.mp harg
  have hfirst := h.works hpair htrees hleaves hfuel (.refl m)
  have hgrown : m.Grown n := by
    have hadded := hfirst.grown
    rwa [hresult] at hadded
  have hsecond := h.works ((List.length_reverse ..).trans hpair)
    (fun arg harg ↦ htrees arg (hback harg)) (fun arg harg ↦ hleaves arg (hback harg)) hfuel hgrown
  have hgrown' : n.Grown k := by
    have hadded := hsecond.grown
    rwa [hresult'] at hadded
  have hboth : MadeInBothOrders m op call Leaf k out out' := by
    refine ⟨args, hpair, fun arg harg ↦ ⟨⟨depth, htrees arg harg⟩, hleaves arg harg⟩,
      (hfirst.succeeds.mp ⟨out, n, hresult⟩).1, ?_, ?_⟩
    · have hmade := (hfirst.elementwise out n hresult).kept (hgrown'.keepsFrom _)
      exact hmade.weaken (Nat.zero_le _)
    · exact (hsecond.elementwise out' k hresult').weaken (Nat.zero_le _)
  exact ⟨h.equal (hgrown.trans hgrown') hboth, h.equal (hgrown.trans hgrown') hboth.symm⟩

/-! ### The operators of the language -/

/-- Computes a number out of two. -/
def ofNumbers (g : Decimal → Decimal → Except NumberError Decimal) :
    Content → Content → Except NumberError Content
  | .number a, .number b => (g a b).map .number
  | _, _ => .ok .empty

theorem ofNumbers_number (g : Decimal → Decimal → Except NumberError Decimal) (a b : Decimal) :
    ofNumbers g (.number a) (.number b) = (g a b).map .number := rfl

/-- Computes a truth value out of two. -/
def ofTruths (g : Bool → Bool → Bool) : Content → Content → Except NumberError Content
  | .boolean a, .boolean b => .ok (.boolean (g a b))
  | _, _ => .ok .empty

/-- An operator whose rule for two numbers makes the same number of them in both orders, or fails in
both, commutes on numbers. -/
theorem commutes_numbers {rule : BinaryRule} {g : Decimal → Decimal → Except NumberError Decimal}
    (hsingle : ∀ type, op.unaryRule? type = none)
    (hpair : op.binaryRule? "object" "object" = none)
    (hleft : op.binaryRule? "number" "object" = none)
    (hright : op.binaryRule? "object" "number" = none)
    (hrule : op.binaryRule? "number" "number" = some rule)
    (hcompute : ∀ scale a b, rule.arithmetic? scale a b = some (g a b))
    (hswap : ∀ a b, (g a b).toOption = (g b a).toOption) :
    op.Commutes Content.IsNumber (ofNumbers g) where
  single := hsingle
  pair := hpair
  left := by
    rintro _ ⟨d, rfl⟩
    exact hleft
  right := by
    rintro _ ⟨d, rfl⟩
    exact hright
  leaves k call fuel left right := by
    rintro ⟨a, ha⟩ ⟨b, hb⟩
    rw [dispatch2_numbers call fuel hrule (hcompute call.scale a b) ha hb, ha, hb, ofNumbers_number]
    cases g a b <;> rfl
  plain x y z hresult := by
    unfold ofNumbers at hresult
    split at hresult
    · rename_i a b
      cases hg : g a b with
      | error e =>
        rw [hg] at hresult
        cases hresult
      | ok d =>
        rw [hg] at hresult
        cases hresult
        exact .number d
    · cases hresult
      exact .empty
  swap := by
    rintro _ _ ⟨a, rfl⟩ ⟨b, rfl⟩
    have hboth := hswap a b
    rw [ofNumbers_number, ofNumbers_number]
    generalize g a b = first at hboth
    generalize g b a = second at hboth
    cases first <;> cases second <;> cases hboth <;> rfl

/-- An operator whose rule for two truth values does not mind their order commutes on truth
values. -/
theorem commutes_truths {rule : BinaryRule} {g : Bool → Bool → Bool}
    (hsingle : ∀ type, op.unaryRule? type = none)
    (hpair : op.binaryRule? "object" "object" = none)
    (hleft : op.binaryRule? "boolean" "object" = none)
    (hright : op.binaryRule? "object" "boolean" = none)
    (hrule : op.binaryRule? "boolean" "boolean" = some rule)
    (hcompute : ∀ call symbol left right (k : Machine), rule.apply call symbol left right k =
      newBoolean (g (k.isTrue left) (k.isTrue right)) k)
    (hswap : ∀ a b, g a b = g b a) : op.Commutes Content.IsBoolean (ofTruths g) where
  single := hsingle
  pair := hpair
  left := by
    rintro _ ⟨b, rfl⟩
    exact hleft
  right := by
    rintro _ ⟨b, rfl⟩
    exact hright
  leaves k call fuel left right := by
    rintro ⟨a, ha⟩ ⟨b, hb⟩
    have htypes : k.typeName left = "boolean" ∧ k.typeName right = "boolean" := by
      unfold Machine.typeName
      rw [ha, hb]
      exact ⟨rfl, rfl⟩
    have htruths : k.isTrue left = a ∧ k.isTrue right = b := by
      unfold Machine.isTrue
      rw [Machine.isTrueIn, Machine.isTrueIn, ha, hb]
      exact ⟨rfl, rfl⟩
    rw [dispatch2, Run.get_bind, htypes.1, htypes.2, hrule, ha, hb]
    dsimp only
    rw [hcompute, htruths.1, htruths.2]
    rfl
  plain x y z hresult := by
    unfold ofTruths at hresult
    split at hresult
    · cases hresult
      exact .boolean _
    · cases hresult
      exact .empty
  swap := by
    rintro _ _ ⟨a, rfl⟩ ⟨b, rfl⟩
    exact congrArg (fun c ↦ some (Content.boolean c)) (hswap a b)

end Operator

namespace Bits

theorem and_comm (a b : Int) : and a b = and b a := by
  cases a <;> cases b <;> simp only [and, Nat.land_comm, Nat.lor_comm]

theorem or_comm (a b : Int) : or a b = or b a := by
  cases a <;> cases b <;> simp only [or, Nat.land_comm, Nat.lor_comm]

end Bits

/-- A rule for whole numbers that does not mind their order makes the same number in both orders,
and fails in both if one of the numbers is not whole. -/
theorem BinaryRule.wholeNumbers_swap {g : Int → Int → Int} (h : ∀ x y, g x y = g y x)
    (a b : Decimal) :
    (wholeNumbers a b fun x y ↦ .ok (g x y)).toOption =
      (wholeNumbers b a fun x y ↦ .ok (g x y)).toOption := by
  unfold wholeNumbers
  cases ha : a.whole <;> cases hb : b.whole <;> first | rfl | skip
  rename_i x y
  exact congrArg (fun z ↦ some (Decimal.ofInt z)) (h x y)

namespace Operator

variable {m n : Machine} {call : Call} {a b : CellRef} {Leaf : Content → Prop} {depth : Nat}

/-- The operators of the language that do not mind the order of their operands, with the plain
values they are about: numbers, whole or not, and truth values. On numbers that are not whole `&`
and `|` fail in both orders. -/
inductive Commutative : String → (Content → Prop) → Prop where
  | sum : Commutative "+" Content.IsNumber
  | product : Commutative "*" Content.IsNumber
  | wholeAnd : Commutative "&" Content.IsNumber
  | wholeOr : Commutative "|" Content.IsNumber
  | truthAnd : Commutative "&" Content.IsBoolean
  | truthOr : Commutative "|" Content.IsBoolean

/-- An operator of the language that takes operands in either order is found under its symbol. -/
theorem find?_commuting (op : Operator) {f : Content → Content → Except NumberError Content}
    (hmem : op ∈ standardOperators) (hfixity : op.fixity = .infixOp)
    (hacts : op.actions.isEmpty = false) (h : op.Commutes Leaf f) :
    ∃ op' f', standard.find? op.symbol .infixOp = some op' ∧ op'.fixity = .infixOp ∧
      op'.actions.isEmpty = false ∧ op'.Commutes Leaf f' :=
  ⟨op, f, hfixity ▸ find?_standard hmem, hfixity, hacts, h⟩

theorem Commutative.find? {symbol : String} (h : Commutative symbol Leaf) :
    ∃ op f, standard.find? symbol .infixOp = some op ∧ op.fixity = .infixOp ∧
      op.actions.isEmpty = false ∧ op.Commutes Leaf f := by
  cases h with
  | sum =>
    refine find?_commuting plus plus_mem rfl rfl
      (commutes_numbers (fun _ ↦ rfl) rfl rfl rfl rfl (fun _ _ _ ↦ rfl) fun a b ↦ ?_)
    have hsum : a + b = b + a := Decimal.toRat_injective (by simp [add_comm])
    rw [hsum]
  | product =>
    refine find?_commuting times times_mem rfl rfl
      (commutes_numbers (fun _ ↦ rfl) rfl rfl rfl rfl (fun _ _ _ ↦ rfl) fun a b ↦ ?_)
    have hproduct : a * b = b * a := Decimal.toRat_injective (by simp [mul_comm])
    rw [hproduct]
  | wholeAnd =>
    exact find?_commuting (between "&" 70 [numeric2 .bitAnd, boolean2 .and])
      (by simp [standardOperators]) rfl rfl (commutes_numbers (fun _ ↦ rfl) rfl rfl rfl rfl
        (fun _ _ _ ↦ rfl) (BinaryRule.wholeNumbers_swap Bits.and_comm))
  | wholeOr =>
    exact find?_commuting (between "|" 50 [numeric2 .bitOr, boolean2 .or])
      (by simp [standardOperators]) rfl rfl (commutes_numbers (fun _ ↦ rfl) rfl rfl rfl rfl
        (fun _ _ _ ↦ rfl) (BinaryRule.wholeNumbers_swap Bits.or_comm))
  | truthAnd =>
    exact find?_commuting (between "&" 70 [numeric2 .bitAnd, boolean2 .and])
      (by simp [standardOperators]) rfl rfl (commutes_truths (fun _ ↦ rfl) rfl rfl rfl rfl
        (fun _ _ _ _ _ ↦ rfl) Bool.and_comm)
  | truthOr =>
    exact find?_commuting (between "|" 50 [numeric2 .bitOr, boolean2 .or])
      (by simp [standardOperators]) rfl rfl (commutes_truths (fun _ ↦ rfl) rfl rfl rfl rfl
        (fun _ _ _ _ _ ↦ rfl) Bool.or_comm)

/-- Assumes: an operator that does not mind the order of its operands on certain plain values, and
two trees of such values, less deep than the fuel. The operator succeeds on them in one order
exactly if it does in the other; and what it makes of them in the two orders is equal, either way
round. -/
theorem commuting_operands {symbol : String} (hsymbol : Commutative symbol Leaf)
    (ha : m.Tree depth a) (hb : m.Tree depth b) (hleaves : m.LeavesAre Leaf a)
    (hleaves' : m.LeavesAre Leaf b) (hfuel : depth < call.fuel) :
    ((∃ out n, standard.evaluate call symbol .infixOp [a, b] m = .ok out n) ↔
        ∃ out n, standard.evaluate call symbol .infixOp [b, a] m = .ok out n) ∧
      ∀ out n, standard.evaluate call symbol .infixOp [a, b] m = .ok out n →
        ∃ out' n', standard.evaluate call symbol .infixOp [b, a] n = .ok out' n' ∧
          n'.equal out out' = true ∧ n'.equal out' out = true := by
  obtain ⟨op, f, hop, hfixity, hacts, hcommutes⟩ := hsymbol.find?
  have happly {args : List CellRef} (hpair : args.length = 2) :
      standard.evaluate call symbol .infixOp args = op.dispatch call call.fuel args :=
    funext (evaluate_eq_dispatch hpair hop hfixity hacts)
  have htrees : ∀ arg ∈ [a, b], m.Tree depth arg := by simp [ha, hb]
  have htrees' : ∀ arg ∈ [b, a], m.Tree depth arg := by simp [ha, hb]
  have hall : ∀ arg ∈ [a, b], m.LeavesAre Leaf arg := by simp [hleaves, hleaves']
  have hall' : ∀ arg ∈ [b, a], m.LeavesAre Leaf arg := by simp [hleaves, hleaves']
  rw [happly rfl, happly rfl]
  refine ⟨⟨hcommutes.dispatch_reverse rfl htrees hall hfuel (.refl m),
    hcommutes.dispatch_reverse rfl htrees' hall' hfuel (.refl m)⟩, fun out n hresult ↦ ?_⟩
  have hgrown : m.Grown n := by
    have hadded := (hcommutes.works rfl htrees hall hfuel (.refl m)).grown
    rwa [hresult] at hadded
  obtain ⟨out', n', hresult'⟩ :=
    hcommutes.dispatch_reverse rfl htrees hall hfuel hgrown ⟨out, n, hresult⟩
  exact ⟨out', n', hresult', hcommutes.equal_reverse rfl htrees hall hfuel hresult hresult'⟩

/-- Objects with the same two keys, entered in different orders. The cells of the keys and of two
numbers come first. -/
def keyedBothWays : Machine where
  cells := #[.string "a", .string "b", .number (Decimal.ofInt 1), .number (Decimal.ofInt 2),
    .object ⟨0⟩, .object ⟨1⟩]
  tables := #[(({} : Table).set (.string "a") ⟨0⟩ ⟨2⟩).set (.string "b") ⟨1⟩ ⟨3⟩,
    (({} : Table).set (.string "b") ⟨1⟩ ⟨2⟩).set (.string "a") ⟨0⟩ ⟨3⟩]

/-- An object whose first key has the one number, and whose second key the other, is in order, and a
tree of numbers. -/
theorem keyedBothWays_object (cell first second : CellRef) (ref : TableRef)
    (hobject : keyedBothWays.tableOf? cell = some ref) (href : ref.index < 2)
    (hfirst : first.index < 6) (hsecond : second.index < 6)
    (hdifferent : keyedBothWays.keyId first ≠ keyedBothWays.keyId second)
    (htable : keyedBothWays.table ref = (({} : Table).set (keyedBothWays.keyId first) first ⟨2⟩).set
      (keyedBothWays.keyId second) second ⟨3⟩) :
    keyedBothWays.Orderly ref ∧ keyedBothWays.Tree 1 cell ∧
      keyedBothWays.LeavesAre Content.IsNumber cell ∧
      (keyedBothWays.table ref).entries = [⟨first, ⟨2⟩⟩, ⟨second, ⟨3⟩⟩] := by
  have hentries : (keyedBothWays.table ref).entries = [⟨first, ⟨2⟩⟩, ⟨second, ⟨3⟩⟩] := by
    rw [htable]
    exact Table.entries_set_set hdifferent ⟨2⟩ ⟨3⟩
  have hall {P : Entry → Prop} (h : P ⟨first, ⟨2⟩⟩) (h' : P ⟨second, ⟨3⟩⟩) :
      ∀ entry ∈ (keyedBothWays.table ref).entries, P entry := by
    rw [hentries]
    intro entry hentry
    rcases List.mem_pair.mp hentry with rfl | rfl
    · exact h
    · exact h'
  have horderly : keyedBothWays.Orderly ref := by
    refine ⟨href, hall hfirst hsecond, ?_⟩
    rw [htable]
    exact ((Table.inOrder_empty keyedBothWays.keyId).set first ⟨2⟩).set second ⟨3⟩
  have hone : keyedBothWays.content ⟨2⟩ = .number (Decimal.ofInt 1) := rfl
  have htwo : keyedBothWays.content ⟨3⟩ = .number (Decimal.ofInt 2) := rfl
  have hnumbers : (2 < keyedBothWays.cells.size) ∧ 3 < keyedBothWays.cells.size := by decide
  exact ⟨horderly, .object hobject horderly (hall (.leaf hnumbers.1 rfl) (.leaf hnumbers.2 rfl)),
    Machine.leavesAre_object hobject (hall (Machine.leavesAre_plain rfl ⟨_, hone⟩)
      (Machine.leavesAre_plain rfl ⟨_, htwo⟩)), hentries⟩

/-- The two objects have a sum in either order, and the sums are equal. -/
theorem equal_sums :
    Commutative "+" Content.IsNumber ∧ keyedBothWays.Tree 1 ⟨4⟩ ∧ keyedBothWays.Tree 1 ⟨5⟩ ∧
      keyedBothWays.LeavesAre Content.IsNumber ⟨4⟩ ∧ keyedBothWays.LeavesAre Content.IsNumber ⟨5⟩ ∧
      ∃ out n out' n',
        standard.evaluate (Call.detached 20 3) "+" .infixOp [⟨4⟩, ⟨5⟩] keyedBothWays = .ok out n ∧
        standard.evaluate (Call.detached 20 3) "+" .infixOp [⟨5⟩, ⟨4⟩] n = .ok out' n' ∧
        n'.equal out out' = true ∧ n'.equal out' out = true := by
  have hdifferent : keyedBothWays.keyId ⟨0⟩ ≠ keyedBothWays.keyId ⟨1⟩ := by
    simp [keyedBothWays, Machine.keyId, Machine.content, Content.keyId]
  obtain ⟨hs, htree, hleaves, hentries⟩ := keyedBothWays_object ⟨4⟩ ⟨0⟩ ⟨1⟩ ⟨0⟩ rfl (by decide)
    (by decide) (by decide) hdifferent rfl
  obtain ⟨ht, htree', hleaves', hentries'⟩ := keyedBothWays_object ⟨5⟩ ⟨1⟩ ⟨0⟩ ⟨1⟩ rfl (by decide)
    (by decide) (by decide) hdifferent.symm rfl
  obtain ⟨op, f, hop, hfixity, hacts, hcommutes⟩ := Commutative.sum.find?
  have hfuel : 1 < (Call.detached 20 3).fuel := by decide
  obtain ⟨-, hequal⟩ := commuting_operands Commutative.sum htree htree' hleaves hleaves' hfuel
  obtain rfl := Option.some.inj (hop.symm.trans (find?_standard plus_mem))
  have hkeys : keyedBothWays.SameKeys [⟨4⟩, ⟨5⟩] ⟨0⟩ := by
    refine (sameKeys_pair_iff rfl rfl).mpr fun id ↦ ?_
    rw [hs.inOrder.get?_eq_none_iff, ht.inOrder.get?_eq_none_iff, hentries, hentries']
    simp [and_comm]
  have hother (first value : CellRef)
      (hentry : ⟨first, value⟩ ∈ (keyedBothWays.table ⟨1⟩).entries) :
      keyedBothWays.valueAt (keyedBothWays.keyId first) ⟨5⟩ = value :=
    Machine.valueAt_entry rfl ht hentry
  have hsucceeds :
      Succeeds keyedBothWays (plus.dispatch (Call.detached 20 3) 1) [⟨4⟩, ⟨5⟩] := by
    refine (succeeds_objects hs rfl hkeys).mpr fun entry hentry ↦ ?_
    have hleft : keyedBothWays.valueAt (keyedBothWays.keyId entry.key) ⟨4⟩ = entry.value :=
      Machine.valueAt_entry rfl hs hentry
    rw [List.map_cons, List.map_singleton, hleft]
    rw [hentries] at hentry
    rcases List.mem_pair.mp hentry with rfl | rfl
    · rw [hother ⟨0⟩ ⟨3⟩ (by rw [hentries']; simp)]
      exact (succeeds_leaves (by decide)).mpr ⟨_, _, rfl⟩
    · rw [hother ⟨1⟩ ⟨2⟩ (by rw [hentries']; simp)]
      exact (succeeds_leaves (by decide)).mpr ⟨_, _, rfl⟩
  have htrees : ∀ arg ∈ [⟨4⟩, ⟨5⟩], keyedBothWays.Tree 1 arg := by simp [htree, htree']
  have hall : ∀ arg ∈ [⟨4⟩, ⟨5⟩], keyedBothWays.LeavesAre Content.IsNumber arg := by
    simp [hleaves, hleaves']
  have hworks := hcommutes.works rfl htrees hall hfuel (.refl keyedBothWays)
  obtain ⟨out, n, hresult⟩ := hworks.succeeds.mpr hsucceeds
  rw [← evaluate_eq_dispatch rfl hop hfixity hacts] at hresult
  obtain ⟨out', n', hresult'⟩ := hequal out n hresult
  exact ⟨.sum, htree, htree', hleaves, hleaves', out, n, out', n', hresult, hresult'⟩

end Operator

end TreeScript
