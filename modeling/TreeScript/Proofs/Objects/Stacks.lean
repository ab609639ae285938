import TreeScript.Proofs.Equality.Bisimilarity
import TreeScript.Proofs.Objects.Concatenation

/-!
# Arrays are stacks and lists

An object in order with the keys 0, 1 and so on has an item under each of them
(`Machine.IsStack`). `push` enters a value under the next number, and `pop` takes out what is under
the highest one. In whichever order the keys were entered, they are 0, 1 and so on again after each
call (`IsStack.step`), and so after any number of them (`IsStack.runs`).

The operator `::` puts the items of one array behind those of another one (`joined_arrays`), and
arrays of the same items are equal (`IsArrayOf.equal`). So it does not matter which of three arrays
are joined first (`joined_assoc`), and an array without items is neutral on both sides
(`joined_nil`). `arrays_are_stacks_and_lists` puts all of this together.
-/

set_option autoImplicit false

namespace TreeScript

namespace Machine

variable {m : Machine} {self : CellRef} {ref : TableRef} {items : List CellRef}

/-! ### What is under a number -/

/-- What stands in an object under the number of a place. -/
def itemAt? (m : Machine) (cell : CellRef) (place : Nat) : Option CellRef :=
  (m.tableOf? cell).bind fun ref ↦ (m.table ref).get? (.number (Decimal.ofInt place))

theorem itemAt?_of_object (hobject : m.content self = .object ref) (place : Nat) :
    m.itemAt? self place = (m.table ref).get? (.number (Decimal.ofInt place)) := by
  rw [itemAt?, tableOf?_eq_some_iff.mpr hobject]
  rfl

/-- An object in order with the keys 0, 1 and so on, each with an item under it. The keys may have
been entered in any order. -/
structure IsStack (m : Machine) (cell : CellRef) (ref : TableRef) (items : List CellRef) :
    Prop where
  object : m.content cell = .object ref
  orderly : m.Orderly ref
  keys : m.HasIndexKeys ref
  size : (m.table ref).size = items.length
  item : ∀ place, m.itemAt? cell place = items[place]?

/-- Assumes: an object in order, where the numbers from 0 up to some number lead to items, and
nothing else does. It has them as its keys. -/
theorem isStack_of_get? (hobject : m.content self = .object ref) (horderly : m.Orderly ref)
    (hplaces : ∀ i : Nat, (m.table ref).get? (.number (Decimal.ofInt i)) = items[i]?)
    (hnumbers : ∀ id, (m.table ref).get? id ≠ none → ∃ i : Nat, id = .number (Decimal.ofInt i)) :
    m.IsStack self ref items := by
  let indices := (List.range items.length).map fun (i : Nat) ↦ KeyId.number (Decimal.ofInt i)
  have hmem (id : KeyId) : id ∈ indices ↔ (m.table ref).get? id ≠ none := by
    rw [List.mem_map]
    constructor
    · rintro ⟨i, hi, rfl⟩
      rw [hplaces, List.getElem?_eq_getElem (List.mem_range.mp hi)]
      exact nofun
    · intro hfound
      obtain ⟨i, rfl⟩ := hnumbers id hfound
      rw [hplaces, Ne, List.getElem?_eq_none_iff, not_le] at hfound
      exact ⟨i, List.mem_range.mpr hfound, rfl⟩
  have hdistinct : indices.Nodup :=
    List.nodup_range.map fun i j hsame ↦ Decimal.ofInt_natCast_inj.mp (KeyId.number.inj hsame)
  have hsize : (m.table ref).size = items.length := by
    rw [horderly.size_eq hdistinct hmem, List.length_map, List.length_range]
  refine ⟨hobject, horderly, fun id ↦ ?_, hsize, fun i ↦ ?_⟩
  · rw [horderly.mem_keyIds_iff, ← hmem, List.mem_map, hsize]
    simp only [List.mem_range, eq_comm]
  · rw [itemAt?_of_object hobject, hplaces]

namespace IsStack

theorem get? (h : m.IsStack self ref items) (place : Nat) :
    (m.table ref).get? (.number (Decimal.ofInt place)) = items[place]? :=
  (itemAt?_of_object h.object place).symm.trans (h.item place)

/-- Only numbers of places lead to something. -/
theorem exists_place (h : m.IsStack self ref items) {id : KeyId}
    (hfound : (m.table ref).get? id ≠ none) : ∃ i : Nat, id = .number (Decimal.ofInt i) := by
  obtain ⟨i, -, hid⟩ := (h.keys id).mp (h.orderly.mem_keyIds_iff.mpr hfound)
  exact ⟨i, hid⟩

end IsStack

/-- An object with the keys 0, 1 and so on has some items. -/
theorem HasIndexKeys.exists_items (h : m.HasIndexKeys ref) (hobject : m.content self = .object ref)
    (horderly : m.Orderly ref) : ∃ items, m.IsStack self ref items := by
  let found (i : Nat) := (m.table ref).get? (.number (Decimal.ofInt i))
  have hfound (i : Nat) : found i ≠ none ↔ i < (m.table ref).size := by
    rw [← horderly.mem_keyIds_iff, h]
    constructor
    · rintro ⟨j, hj, hsame⟩
      exact Decimal.ofInt_natCast_inj.mp (KeyId.number.inj hsame) ▸ hj
    · exact fun hi ↦ ⟨i, hi, rfl⟩
  let items := (List.range (m.table ref).size).map fun i ↦ (found i).getD default
  refine ⟨items, isStack_of_get? hobject horderly (fun i ↦ ?_) fun id hid ↦ ?_⟩
  · rw [List.getElem?_map]
    by_cases hi : i < (m.table ref).size
    · obtain ⟨item, hitem⟩ := Option.ne_none_iff_exists'.mp ((hfound i).mpr hi)
      rw [List.getElem?_range hi, Option.map_some, hitem]
      exact hitem
    · rw [List.getElem?_eq_none (by rw [List.length_range]; omega)]
      exact not_not.mp fun hsome ↦ hi ((hfound i).mp hsome)
  · obtain ⟨i, -, rfl⟩ := (h id).mp (horderly.mem_keyIds_iff.mpr hid)
    exact ⟨i, rfl⟩

/-- The number of a place of an array leads to the item there. -/
theorem HasItems.get? (h : m.HasItems ref items) (place : Nat) :
    (m.table ref).get? (.number (Decimal.ofInt place)) = items[place]? := by
  by_cases hplace : place < items.length
  · rw [List.getElem?_eq_getElem hplace]
    refine h.inIndexOrder.get? h.orderly ?_
    rw [h.values, List.getElem?_eq_getElem hplace]
  · rw [List.getElem?_eq_none (Nat.le_of_not_lt hplace)]
    refine not_not.mp fun hfound ↦ hplace ?_
    obtain ⟨i, hi, hsame⟩ := (h.hasIndexKeys _).mp (h.orderly.mem_keyIds_iff.mpr hfound)
    rw [Decimal.ofInt_natCast_inj.mp (KeyId.number.inj hsame), ← h.size]
    exact hi

theorem HasItems.isStack (h : m.HasItems ref items) (hobject : m.content self = .object ref) :
    m.IsStack self ref items :=
  ⟨hobject, h.orderly, h.hasIndexKeys, h.size, fun place ↦
    (itemAt?_of_object hobject place).trans (h.get? place)⟩

end Machine

/-! ### Pushing and popping -/

/-- A call on an object: `push` of a value, or `pop`. -/
inductive StackCall where
  | push (value : CellRef)
  | pop

namespace StackCall

def run (call : Call) (self : CellRef) : StackCall → Run CellRef
  | push value => ObjectMethod.run call .push self [value]
  | pop => ObjectMethod.run call .pop self []

/-- What becomes of the items of a stack, the last of which is on top. -/
def after (items : List CellRef) : StackCall → List CellRef
  | push value => items ++ [value]
  | pop => items.dropLast

/-- What a stack of some items answers: itself when a value is pushed, and the item on top when one
is popped, if there is one. -/
def answer (self : CellRef) (items : List CellRef) : StackCall → Option CellRef
  | push _ => some self
  | pop => items.getLast?

/-- What the calls of a list answer one after the other. -/
def answers (self : CellRef) : List CellRef → List StackCall → List (Option CellRef)
  | _, [] => []
  | items, call :: calls => call.answer self items :: answers self (call.after items) calls

end StackCall

/-- What stands in a list with one element more. -/
theorem getElem?_concat {α : Type} (xs : List α) (x : α) (i : Nat) :
    (xs ++ [x])[i]? = if i = xs.length then some x else xs[i]? := by
  rw [List.getElem?_append]
  grind

namespace Machine

variable {m n k : Machine} {call : Call} {self : CellRef} {ref : TableRef} {items : List CellRef}

/-- An answer between two machines: a cell, or else a new cell that is empty. -/
inductive Gives (m n : Machine) : Option CellRef → CellRef → Prop
  | cell (item : CellRef) : Gives m n (some item) item
  | null {answer : CellRef} (hnew : m.cells.size ≤ answer.index)
      (hexists : answer.index < n.cells.size) (hempty : n.content answer = .empty) :
      Gives m n none answer

theorem Gives.later {expected : Option CellRef} {answer : CellRef}
    (h : m.Gives n expected answer) (hkept : n.KeepsCells k) : m.Gives k expected answer := by
  cases h with
  | cell => exact .cell _
  | null hnew hexists hempty =>
    exact .null hnew (Nat.lt_of_lt_of_le hexists hkept.size)
      ((hkept.content _ hexists).trans hempty)

theorem Gives.earlier {expected : Option CellRef} {answer : CellRef}
    (h : n.Gives k expected answer) (hkept : m.KeepsCells n) : m.Gives k expected answer := by
  cases h with
  | cell => exact .cell _
  | null hnew hexists hempty => exact .null (Nat.le_trans hkept.size hnew) hexists hempty

/-- A run on a stack comes to an end with an answer, and leaves alone all but the object, which is a
stack again. -/
def Restacks (m : Machine) (self : CellRef) (ref : TableRef) (x : Run CellRef)
    (expected : Option CellRef) (items : List CellRef) : Prop :=
  ∃ answer n, x m = .ok answer n ∧ m.AltersOnly ref n ∧ n.IsStack self ref items ∧
    m.Gives n expected answer

namespace IsStack

/-- A new cell leaves a stack as it is. -/
theorem withCell (h : m.IsStack self ref items) (content : Content) :
    (m.withCell content).IsStack self ref items := by
  refine isStack_of_get? ?_ (h.orderly.withCell _) h.get? fun id ↦ h.exists_place
  rw [(m.keepsCells_withCell _).content self (bound_of_object h.object), h.object]

/-- What is entered under the next number is on top. -/
theorem enter (h : m.IsStack self ref items) {key : CellRef} (hbound : key.index < m.cells.size)
    (hid : m.keyId key = .number (Decimal.ofInt items.length)) (value : CellRef) :
    (m.after (.enter ref key value)).IsStack self ref (items ++ [value]) := by
  have hfound := h.orderly.get?_enter key value
  rw [hid] at hfound
  refine isStack_of_get? h.object (h.orderly.after fun _ ↦ hbound) (fun i ↦ ?_) fun id hsome ↦ ?_
  · rw [hfound, getElem?_concat, h.get?]
    simp only [KeyId.number.injEq, Decimal.ofInt_natCast_inj]
  · rw [hfound] at hsome
    split at hsome
    · exact ⟨_, ‹_›⟩
    · exact h.exists_place hsome

/-- Without its highest key, a stack has the items below the one on top. -/
theorem remove {top : CellRef} (h : m.IsStack self ref (items ++ [top])) {key : CellRef}
    (hid : m.keyId key = .number (Decimal.ofInt items.length)) :
    (m.after (.remove ref key)).IsStack self ref items := by
  have hleft := h.orderly.get?_remove key
  rw [hid] at hleft
  refine isStack_of_get? h.object (h.orderly.after trivial) (fun i ↦ ?_) fun id hsome ↦ ?_
  · rw [hleft, h.get?, getElem?_concat]
    simp only [KeyId.number.injEq, Decimal.ofInt_natCast_inj]
    split
    · rename_i hlast
      rw [List.getElem?_eq_none hlast.ge]
    · rfl
  · rw [hleft] at hsome
    split at hsome
    · exact absurd rfl hsome
    · exact h.exists_place hsome

/-- A value that is pushed is on top. -/
theorem push (h : m.IsStack self ref items) (call : Call) (value : CellRef) :
    m.Restacks self ref (StackCall.run call self (.push value)) (some self) (items ++ [value]) := by
  let numbered := m.withCell (.number (Decimal.ofInt items.length))
  have hpushed : pushEntry ref value m = .ok ()
      (numbered.after (.enter ref ⟨m.cells.size⟩ value)) := by
    unfold numbered
    rw [← h.size, ← h.keys.nextKey]
    rfl
  have hbound : m.cells.size < numbered.cells.size := size_lt_push _ _
  have hid : numbered.keyId ⟨m.cells.size⟩ = .number (Decimal.ofInt items.length) :=
    congrArg Content.keyId (m.content_new _)
  refine ⟨self, _, ?_, ?_, (h.withCell _).enter hbound hid value, .cell self⟩
  · change (tableOrNew self >>= fun ref ↦ pushEntry ref value >>= fun _ ↦ pure self) m = _
    rw [Run.bind_ok (tableOrNew_apply h.object), Run.bind_ok hpushed]
    rfl
  · exact (((m.grown_withCell _).keepsFrom 0).altersOnly ref).trans (altersOnly_enter _ ref _ _)

theorem pop_eq (h : m.IsStack self ref items) (call : Call) (hfew : items.length ≤ twoTo 63) :
    StackCall.run call self .pop m = if items.length = 0 then newEmpty m else
      (newNumber (m.highestKey ref) >>= fun key ↦ eraseEntry ref key >>= fun removed ↦
        match removed with
        | some item => pure item
        | none => newEmpty) m := by
  change ObjectMethod.popEntry self [] m = _
  unfold ObjectMethod.popEntry
  rw [Run.bind_ok (tableOrNew_apply h.object), Run.get_bind, h.size,
    h.keys.isArray (h.size.symm ▸ hfew)]
  split <;> rfl

/-- Assumes: no more items than a word counts. The item on top is popped, if there is one. -/
theorem pop (h : m.IsStack self ref items) (call : Call) (hfew : items.length ≤ twoTo 63) :
    m.Restacks self ref (StackCall.run call self .pop) items.getLast? items.dropLast := by
  have hrun := h.pop_eq call hfew
  rcases List.eq_nil_or_concat items with rfl | ⟨former, top, hitems⟩
  · have hnew : m.cells.size < (m.withCell .empty).cells.size := size_lt_push _ _
    exact ⟨_, _, hrun, ((m.grown_withCell .empty).keepsFrom 0).altersOnly ref, h.withCell _,
      .null (Nat.le_refl _) hnew (m.content_new _)⟩
  · rw [List.concat_eq_append] at hitems
    subst hitems
    let numbered := m.withCell (.number (Decimal.ofInt former.length))
    have hnumbered : numbered.IsStack self ref (former ++ [top]) := h.withCell _
    have hid : numbered.keyId ⟨m.cells.size⟩ = .number (Decimal.ofInt former.length) :=
      congrArg Content.keyId (m.content_new _)
    have hmade : newNumber (m.highestKey ref) m = .ok ⟨m.cells.size⟩ numbered := by
      rw [h.keys.highestKey, h.size, List.length_append, List.length_singleton, Nat.cast_succ,
        add_sub_cancel_right]
      rfl
    have herased : eraseEntry ref ⟨m.cells.size⟩ numbered =
        .ok (some top) (numbered.after (.remove ref ⟨m.cells.size⟩)) := by
      rw [eraseEntry_apply, hid, hnumbered.get?, List.getElem?_concat_length]
    rw [if_neg (by simp), Run.bind_ok hmade, Run.bind_ok herased] at hrun
    rw [List.getLast?_concat, List.dropLast_concat]
    refine ⟨top, _, hrun, ?_, hnumbered.remove hid, .cell top⟩
    exact (((m.grown_withCell _).keepsFrom 0).altersOnly ref).trans (altersOnly_remove _ ref _)

/-- Assumes: no more items at any time than a word counts. -/
theorem step (h : m.IsStack self ref items) (call : Call) (hfew : items.length ≤ twoTo 63)
    (stackCall : StackCall) :
    m.Restacks self ref (stackCall.run call self) (stackCall.answer self items)
      (stackCall.after items) := by
  cases stackCall with
  | push value => exact h.push call value
  | pop => exact h.pop call hfew

/-- Assumes: no more items at any time than a word counts. Every list of calls leaves a stack, and
answers what a stack answers. -/
theorem runs (h : m.IsStack self ref items) (call : Call) (calls : List StackCall)
    (hfew : items.length + calls.length ≤ twoTo 63) :
    ∃ answers n, calls.mapM (StackCall.run call self) m = .ok answers n ∧ m.AltersOnly ref n ∧
      n.IsStack self ref (calls.foldl StackCall.after items) ∧
      List.Forall₂ (m.Gives n) (StackCall.answers self items calls) answers := by
  induction calls generalizing m items with
  | nil => exact ⟨[], m, rfl, ((Grown.refl m).keepsFrom 0).altersOnly ref, h, .nil⟩
  | cons first calls ih =>
    rw [List.length_cons] at hfew
    obtain ⟨answer, n, hfirst, halters, hn, hanswer⟩ := h.step call (by omega) first
    have hmore : (first.after items).length ≤ items.length + 1 := by
      cases first <;> simp [StackCall.after]
      omega
    obtain ⟨answers, k, hrest, halters', hk, hanswers⟩ := ih hn (by omega)
    refine ⟨answer :: answers, k, ?_, halters.trans halters', hk, ?_⟩
    · rw [List.mapM_cons, Run.bind_ok hfirst, Run.bind_ok hrest]
      rfl
    · refine .cons (hanswer.later halters'.cells) (hanswers.imp fun _ _ hgives ↦ ?_)
      exact hgives.earlier halters.cells

end IsStack

end Machine

/-! ### Joining -/

namespace Machine

variable {m : Machine} {a b : CellRef} {items : List CellRef}

/-- Arrays of the same items are equal. -/
theorem IsArrayOf.equal (ha : m.IsArrayOf a items) (hb : m.IsArrayOf b items) :
    m.equal a b = true := by
  obtain ⟨ref, hobject, hfirst⟩ := ha
  obtain ⟨table, hobject', hsecond⟩ := hb
  unfold Machine.equal
  rw [equalIn_objects (tableOf?_eq_some_iff.mpr hobject) (tableOf?_eq_some_iff.mpr hobject')]
  split
  · rfl
  · rw [if_neg (not_not_intro (hfirst.size.trans hsecond.size.symm))]
    refine foldl_compareNext_true (fun pair hpair ↦ ?_) _
    obtain ⟨entry, hentry, rfl⟩ := List.mem_map.mp hpair
    have hvalue := hfirst.orderly.inOrder.get?_of_mem_entries hentry
    have hid : m.keyId entry.key ∈ m.keyIds ref :=
      List.mem_map_of_mem (List.mem_map_of_mem hentry)
    obtain ⟨i, -, hnumber⟩ := (hfirst.hasIndexKeys _).mp hid
    refine ⟨entry.value, ?_, fun assumed ↦ by rw [equalIn_self]⟩
    change (m.table table).get? (m.keyId entry.key) = some entry.value
    rw [hnumber] at hvalue ⊢
    rw [hsecond.get?, ← hfirst.get?, hvalue]

theorem IsArrayOf.itemAt? (h : m.IsArrayOf a items) (place : Nat) :
    m.itemAt? a place = items[place]? := by
  obtain ⟨ref, hobject, hitems⟩ := h
  exact (hitems.isStack hobject).item place

end Machine

namespace Operator

variable {call : Call} {m : Machine} {a b c left right : CellRef} {as bs cs : List CellRef}

/-- The operator `::` of the language. -/
def joined (call : Call) (left right : CellRef) : Run CellRef :=
  standard.evaluate call "::" .infixOp [left, right]

/-- Assumes: arrays with no more items in all than a word counts. The items of the second one are
put behind those of the first one, in a new array. -/
theorem joined_arrays (hfuel : call.fuel ≠ 0) (hleft : m.IsArrayOf left as)
    (hright : m.IsArrayOf right bs) (hfew : as.length + bs.length ≤ twoTo 63) :
    ∃ out n, joined call left right m = .ok out n ∧ m.Grown n ∧ n.IsArrayOf out (as ++ bs) := by
  obtain ⟨source, hsource, hfirst⟩ := hleft
  obtain ⟨target, htarget, hsecond⟩ := hright
  have harray := hfirst.isArray (by omega)
  have harray' := hsecond.isArray (by omega)
  obtain ⟨out, n, hjoined, hitems⟩ := Machine.appendValues_array hsource hfirst (by omega) htarget
    hsecond.orderly.table harray'
  obtain ⟨out', n', ref, hjoined', -, hbuilt, -⟩ := joins_arrays hfuel hsource htarget
    hfirst.orderly hsecond.orderly (by rw [harray, harray', Bool.true_and])
  rw [← evaluate_joins hfuel] at hjoined
  cases hjoined.symm.trans hjoined'
  rw [hsecond.values] at hitems
  exact ⟨out, n, hjoined, hbuilt.grown, hitems⟩

/-- Three values joined from the left, and joined from the right. -/
def joinedBothWays (call : Call) (a b c : CellRef) : Run (CellRef × CellRef) := do
  let fromLeft ← joined call (← joined call a b) c
  let fromRight ← joined call a (← joined call b c)
  return (fromLeft, fromRight)

/-- Assumes: arrays with no more items in all than a word counts. It does not matter which of them
are joined first. -/
theorem joined_assoc (hfuel : call.fuel ≠ 0) (ha : m.IsArrayOf a as) (hb : m.IsArrayOf b bs)
    (hc : m.IsArrayOf c cs) (hfew : as.length + bs.length + cs.length ≤ twoTo 63) :
    ∃ fromLeft fromRight n, joinedBothWays call a b c m = .ok (fromLeft, fromRight) n ∧
      m.Grown n ∧ n.IsArrayOf fromLeft (as ++ bs ++ cs) ∧ n.equal fromLeft fromRight = true := by
  obtain ⟨ab, k, hab, hk, hfirst⟩ := joined_arrays hfuel ha hb (by omega)
  obtain ⟨fromLeft, k', hleft, hk', hmade⟩ := joined_arrays hfuel hfirst
    (hc.kept (hk.keepsFrom 0)) (by rw [List.length_append]; omega)
  have hlater := hk.trans hk'
  obtain ⟨bc, l, hbc, hl, hsecond⟩ := joined_arrays hfuel (hb.kept (hlater.keepsFrom 0))
    (hc.kept (hlater.keepsFrom 0)) (by omega)
  obtain ⟨fromRight, n, hright, hn, hmade'⟩ := joined_arrays hfuel
    (ha.kept ((hlater.trans hl).keepsFrom 0)) hsecond (by rw [List.length_append]; omega)
  have hkept := hmade.kept ((hl.trans hn).keepsFrom 0)
  refine ⟨fromLeft, fromRight, n, ?_, (hlater.trans hl).trans hn, hkept, hkept.equal ?_⟩
  · unfold joinedBothWays
    rw [Run.bind_ok hab, Run.bind_ok hleft, Run.bind_ok hbc, Run.bind_ok hright]
    rfl
  · rwa [List.append_assoc]

/-- Assumes: arrays, one of which has no items. Joined in either order, the other one comes out. -/
theorem joined_nil (hfuel : call.fuel ≠ 0) (hempty : m.IsArrayOf b []) (ha : m.IsArrayOf a as)
    (hfew : as.length ≤ twoTo 63) :
    (∃ out n, joined call b a m = .ok out n ∧ m.Grown n ∧ n.equal out a = true) ∧
      ∃ out n, joined call a b m = .ok out n ∧ m.Grown n ∧ n.equal out a = true := by
  constructor
  · obtain ⟨out, n, hjoined, hgrown, hmade⟩ :=
      joined_arrays hfuel hempty ha (by rw [List.length_nil]; omega)
    exact ⟨out, n, hjoined, hgrown, hmade.equal (ha.kept (hgrown.keepsFrom 0))⟩
  · obtain ⟨out, n, hjoined, hgrown, hmade⟩ :=
      joined_arrays hfuel ha hempty (by rw [List.length_nil]; omega)
    rw [List.append_nil] at hmade
    exact ⟨out, n, hjoined, hgrown, hmade.equal (ha.kept (hgrown.keepsFrom 0))⟩

end Operator

open Operator in
/-- Assumes: objects in order, with no more items at any time than a word counts. An object with the
keys 0, 1 and so on is a stack for every list of calls of `push` with one argument and of `pop`
without arguments: it keeps such keys, with the items of the stack under them, the calls answer what
a stack answers, and all else stays. Two arrays whose keys were entered in this order are joined to
one with the items of the first and then those of the second; it does not matter which of three are
joined first, and to join an array without items gives an array that is equal to the other one. -/
theorem arrays_are_stacks_and_lists {call : Call} (hfuel : call.fuel ≠ 0) :
    (∀ (m : Machine) (self : CellRef) (ref : TableRef), m.content self = .object ref →
      m.Orderly ref → m.HasIndexKeys ref → ∃ items, m.IsStack self ref items ∧
        ∀ calls : List StackCall, items.length + calls.length ≤ twoTo 63 →
          ∃ answers n, calls.mapM (StackCall.run call self) m = .ok answers n ∧
            m.AltersOnly ref n ∧ n.IsStack self ref (calls.foldl StackCall.after items) ∧
            List.Forall₂ (m.Gives n) (StackCall.answers self items calls) answers) ∧
    (∀ (m : Machine) (a b : CellRef) (as bs : List CellRef), m.IsArrayOf a as → m.IsArrayOf b bs →
      as.length + bs.length ≤ twoTo 63 → ∃ out n, joined call a b m = .ok out n ∧ m.Grown n ∧
        n.IsArrayOf out (as ++ bs) ∧ ∀ i, n.itemAt? out i =
          if i < as.length then m.itemAt? a i else m.itemAt? b (i - as.length)) ∧
    (∀ (m : Machine) (a b c : CellRef) (as bs cs : List CellRef), m.IsArrayOf a as →
      m.IsArrayOf b bs → m.IsArrayOf c cs → as.length + bs.length + cs.length ≤ twoTo 63 →
        ∃ fromLeft fromRight n, joinedBothWays call a b c m = .ok (fromLeft, fromRight) n ∧
          m.Grown n ∧ n.equal fromLeft fromRight = true) ∧
    (∀ (m : Machine) (a empty : CellRef) (as : List CellRef), m.IsArrayOf a as →
      m.IsArrayOf empty [] → as.length ≤ twoTo 63 →
        (∃ out n, joined call empty a m = .ok out n ∧ m.Grown n ∧ n.equal out a = true) ∧
          ∃ out n, joined call a empty m = .ok out n ∧ m.Grown n ∧ n.equal out a = true) := by
  refine ⟨fun m self ref hobject horderly hkeys ↦ ?_, fun m a b as bs ha hb hfew ↦ ?_,
    fun m a b c as bs cs ha hb hc hfew ↦ ?_, fun m a empty as ha hempty hfew ↦ ?_⟩
  · obtain ⟨items, hstack⟩ := hkeys.exists_items hobject horderly
    exact ⟨items, hstack, fun calls hfew ↦ hstack.runs call calls hfew⟩
  · obtain ⟨out, n, hjoined, hgrown, hmade⟩ := joined_arrays hfuel ha hb hfew
    refine ⟨out, n, hjoined, hgrown, hmade, fun i ↦ ?_⟩
    rw [hmade.itemAt?, ha.itemAt?, hb.itemAt?, List.getElem?_append]
  · obtain ⟨fromLeft, fromRight, n, hjoined, hgrown, -, hequal⟩ := joined_assoc hfuel ha hb hc hfew
    exact ⟨fromLeft, fromRight, n, hjoined, hgrown, hequal⟩
  · exact joined_nil hfuel hempty ha hfew

/-- Of an array of two texts the second one is popped. After another value is pushed there are two
to be popped, and the next answer is empty. -/
theorem array_of_texts_is_a_stack :
    ∃ self n ref answers k last, newArray [⟨2⟩, ⟨3⟩] keysAndTexts = .ok self n ∧
      [.pop, .push ⟨2⟩, .pop, .pop, .pop].mapM (StackCall.run (.detached 20 1) self) n =
        .ok answers k ∧
      answers = [⟨3⟩, self, ⟨2⟩, ⟨2⟩, last] ∧ k.content last = .empty ∧ k.IsStack self ref [] ∧
      ∃ out l, Operator.joined (.detached 20 1) self self n = .ok out l ∧
        l.itemAt? out 2 = some ⟨2⟩ := by
  obtain ⟨self, n, hmade, -, harray⟩ := Machine.newArray_items [⟨2⟩, ⟨3⟩] keysAndTexts
  have hfuel : (Call.detached 20 1).fuel ≠ 0 := Nat.one_ne_zero
  obtain ⟨hstacks, hjoins, -⟩ := arrays_are_stacks_and_lists hfuel
  have harray' := harray
  obtain ⟨ref, hobject, hitems⟩ := harray
  obtain ⟨items, hstack, hruns⟩ := hstacks n self ref hobject hitems.orderly hitems.hasIndexKeys
  have hsame : items = [⟨2⟩, ⟨3⟩] := List.ext_getElem? fun i ↦ by
    rw [← hstack.item, (hitems.isStack hobject).item]
  subst hsame
  obtain ⟨answers, k, hran, -, hleft, hanswers⟩ :=
    hruns [.pop, .push ⟨2⟩, .pop, .pop, .pop] (by decide)
  obtain ⟨out, l, hjoined, -, -, hplaces⟩ := hjoins n self self _ _ harray' harray' (by decide)
  have hgiven : List.Forall₂ (n.Gives k) [some ⟨3⟩, some self, some ⟨2⟩, some ⟨2⟩, none] answers :=
    hanswers
  simp only [List.forall₂_cons_left_iff, List.forall₂_nil_left_iff] at hgiven
  obtain ⟨_, _, ⟨⟩, ⟨_, _, ⟨⟩, ⟨_, _, ⟨⟩, ⟨_, _, ⟨⟩, ⟨last, _, hlast, rfl, rfl⟩, rfl⟩, rfl⟩,
    rfl⟩, rfl⟩ := hgiven
  cases hlast with
  | null hnew hexists hempty =>
    exact ⟨self, n, ref, _, k, _, hmade, hran, rfl, hempty, hleft, out, l, hjoined,
      (hplaces 2).trans (harray'.itemAt? 0)⟩

end TreeScript
