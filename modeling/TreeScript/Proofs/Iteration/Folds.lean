import TreeScript.Proofs.Iteration.Methods
import TreeScript.Proofs.Objects.Concatenation
import TreeScript.Proofs.Ordering.SortByFunction

/-!
# Folds with a value to start from

The values of an object are combined by a function that is called for one after the other. If the
function has no side effects and never fails (`Machine.CombinesBy`), the calls have an operation for
their meaning: what a value stands for is combined with what another one stands for. Then a fold from
some value gives the fold of the operation over the values (`foldlM_foldTurn`), from the left for
`reduce` and `foldl` and over the values in reverse order for `foldr`.

The methods ask for values before they look at the one to start from. So an object without values
gives the empty value, whatever it is to be folded from, while a fold over two arrays that both have
values is the fold over the second from what the first one gives (`folds_start_from_given_value`).
-/

set_option autoImplicit false

namespace TreeScript

/-- An object with values is there. -/
theorem Machine.bound_of_values {m : Machine} {ref : TableRef} (hsome : (m.table ref).values ≠ []) :
    ref.index < m.tables.size := by
  refine Nat.lt_of_not_le fun hnone ↦ hsome ?_
  rw [table_of_missing hnone]
  rfl

/-! ### Values and what they stand for -/

section

variable {α : Type} {m n : Machine} {I : Machine → Prop} {call : Call} {function acc : CellRef}
  {Stands : Machine → CellRef → α → Prop} {op : α → α → α} {values : List CellRef} {as : List α}
  {a b : α} {x : Run CellRef}

/-- A run comes to an end with a value that stands for something, leaves alone what there is, and
keeps an invariant. -/
def Machine.Yields (m : Machine) (I : Machine → Prop) (Stands : Machine → CellRef → α → Prop)
    (x : Run CellRef) (a : α) : Prop :=
  ∃ out n, x m = .ok out n ∧ I n ∧ KeepsFrom 0 m n ∧ Stands n out a

/-- A function without side effects that never fails. It combines any two values by an operation on
what they stand for, on all machines on which an invariant holds that no call breaks. Making values
does not break it either, and as long as cells and tables stay, values stand for the same. -/
structure Machine.CombinesBy (m : Machine) (I : Machine → Prop) (call : Call) (function : CellRef)
    (Stands : Machine → CellRef → α → Prop) (op : α → α → α) : Prop where
  begins : I m
  grows : ∀ k n, I k → k.Grown n → I n
  stays : ∀ k n value a, I k → KeepsFrom 0 k n → Stands k value a → Stands n value a
  answers : ∀ name k x y a b, I k → Stands k x a → Stands k y b →
    k.Yields I Stands (call.invoke name function [x, y]) (op a b)

/-- A cell that holds an object with values, which stand for something one by one. -/
def Machine.HoldsValues (m : Machine) (Stands : Machine → CellRef → α → Prop) (self : CellRef)
    (as : List α) : Prop :=
  ∃ ref, m.content self = .object ref ∧ (m.table ref).values ≠ [] ∧
    List.Forall₂ (Stands m) (m.table ref).values as

theorem Machine.Yields.bind {f : CellRef → Run CellRef} (h : m.Yields I Stands x a)
    (hf : ∀ out n, I n → KeepsFrom 0 m n → Stands n out a → n.Yields I Stands (f out) b) :
    m.Yields I Stands (x >>= f) b := by
  obtain ⟨out, n, hx, hn, hkept, hout⟩ := h
  obtain ⟨result, k, hresult, hk, hkept', hstands⟩ := hf out n hn hkept hout
  exact ⟨result, k, (Run.bind_ok hx).trans hresult, hk, hkept.trans hkept', hstands⟩

theorem Machine.Yields.congr {y : Run CellRef} (h : m.Yields I Stands x a) (hsame : y m = x m) :
    m.Yields I Stands y a := by
  obtain ⟨out, n, hx, hrest⟩ := h
  exact ⟨out, n, hsame.trans hx, hrest⟩

namespace Machine.CombinesBy

theorem after (h : m.CombinesBy I call function Stands op) (hn : I n) :
    n.CombinesBy I call function Stands op := ⟨hn, h.grows, h.stays, h.answers⟩

/-- Values stand for the same on a machine that keeps what there is. -/
theorem stays_all (h : m.CombinesBy I call function Stands op) (hkept : KeepsFrom 0 m n)
    (hvalues : List.Forall₂ (Stands m) values as) : List.Forall₂ (Stands n) values as :=
  hvalues.imp fun value a ↦ h.stays m n value a h.begins hkept

theorem holdsValues (h : m.CombinesBy I call function Stands op) {self : CellRef}
    (hkept : KeepsFrom 0 m n) (hself : m.HoldsValues Stands self as) :
    n.HoldsValues Stands self as := by
  obtain ⟨ref, hobject, hsome, hvalues⟩ := hself
  have htable := hkept.table ref (Nat.zero_le _) (bound_of_values hsome)
  have hcell := hkept.cells.content self (bound_of_object hobject)
  exact ⟨ref, hcell.trans hobject, by rwa [htable], by rw [htable]; exact h.stays_all hkept hvalues⟩

/-- Combining values one by one gives the fold of the operation. -/
theorem foldlM_foldTurn (h : m.CombinesBy I call function Stands op) (name : String)
    (hvalues : List.Forall₂ (Stands m) values as) (hacc : Stands m acc a) :
    m.Yields I Stands (values.foldlM (ObjectMethod.foldTurn call name function) acc)
      (as.foldl op a) := by
  induction values generalizing m acc a as with
  | nil =>
    cases hvalues
    exact ⟨acc, m, rfl, h.begins, (Grown.refl m).keepsFrom 0, hacc⟩
  | cons value values ih =>
    obtain ⟨b, bs, hvalue, hrest, rfl⟩ := List.forall₂_cons_left_iff.mp hvalues
    rw [List.foldlM_cons, List.foldl_cons]
    refine (h.answers name m acc value a b h.begins hacc hvalue).bind fun out n hn hkept hout ↦ ?_
    exact ih (h.after hn) (h.stays_all hkept hrest) hout

end Machine.CombinesBy

end

/-! ### The methods -/

namespace ObjectMethod

variable {α : Type} {m : Machine} {I : Machine → Prop} {call : Call}
  {self left right function acc : CellRef} {ref : TableRef}
  {Stands : Machine → CellRef → α → Prop} {op : α → α → α} {as bs : List α} {a : α}

theorem foldValues_nil (call : Call) (name : String) (acc function : CellRef) (m : Machine) :
    foldValues call name [] [acc, function] m = newEmpty m := rfl

/-- A fold over values, from one to start with, takes all of them. -/
theorem foldValues_given {values : List CellRef} (call : Call) (name : String)
    (acc function : CellRef) (m : Machine) (hsome : values ≠ []) :
    foldValues call name values [acc, function] m =
      values.foldlM (foldTurn call name function) acc m := by
  cases values with
  | nil => exact absurd rfl hsome
  | cons first rest => rfl

/-- A fold goes through the values from the left. -/
def FromLeft (method : ObjectMethod) : Prop := method = .reduce ∨ method = .foldl

theorem run_fromLeft {method : ObjectMethod} (hmethod : method.FromLeft)
    (hself : m.content self = .object ref) (args : List CellRef) :
    run call method self args m = foldValues call method.name (m.table ref).values args m := by
  rcases hmethod with rfl | rfl <;> exact Run.bind_ok (valuesOf_of_object hself)

theorem run_foldr (hself : m.content self = .object ref) (args : List CellRef) :
    run call .foldr self args m = foldValues call "foldr" (m.table ref).values.reverse args m :=
  Run.bind_ok (valuesOf_of_object hself)

section

variable (hcombines : m.CombinesBy I call function Stands op) (hacc : Stands m acc a)

include hcombines hacc

theorem yields_fromLeft {method : ObjectMethod} (hmethod : method.FromLeft)
    (hself : m.HoldsValues Stands self as) :
    m.Yields I Stands (run call method self [acc, function]) (as.foldl op a) := by
  obtain ⟨ref, hobject, hsome, hvalues⟩ := hself
  refine (hcombines.foldlM_foldTurn method.name hvalues hacc).congr ?_
  rw [run_fromLeft hmethod hobject]
  exact foldValues_given call _ acc function m hsome

theorem yields_foldr (hself : m.HoldsValues Stands self as) :
    m.Yields I Stands (run call .foldr self [acc, function]) (as.reverse.foldl op a) := by
  obtain ⟨ref, hobject, hsome, hvalues⟩ := hself
  refine (hcombines.foldlM_foldTurn "foldr" (List.rel_reverse hvalues) hacc).congr ?_
  rw [run_foldr hobject]
  exact foldValues_given call _ acc function m (mt List.reverse_eq_nil_iff.mp hsome)

/-- A fold over one object that starts from what the fold over another one gives. -/
theorem yields_parts_fromLeft {method : ObjectMethod} (hmethod : method.FromLeft)
    (hleft : m.HoldsValues Stands left as) (hright : m.HoldsValues Stands right bs) :
    m.Yields I Stands (do
      let part ← run call method left [acc, function]
      run call method right [part, function]) (bs.foldl op (as.foldl op a)) :=
  (yields_fromLeft hcombines hacc hmethod hleft).bind fun _ _ hn hkept hpart ↦
    yields_fromLeft (hcombines.after hn) hpart hmethod (hcombines.holdsValues hkept hright)

theorem yields_parts_foldr (hleft : m.HoldsValues Stands left as)
    (hright : m.HoldsValues Stands right bs) :
    m.Yields I Stands (do
      let part ← run call .foldr right [acc, function]
      run call .foldr left [part, function]) (as.reverse.foldl op (bs.reverse.foldl op a)) :=
  (yields_foldr hcombines hacc hright).bind fun _ _ hn hkept hpart ↦
    yields_foldr (hcombines.after hn) hpart (hcombines.holdsValues hkept hleft)

end

end ObjectMethod

/-! ### Two arrays -/

namespace Machine

variable {m : Machine} {ref source : TableRef}

/-- The keys of an array are numbers, so that they are in cells that are there. -/
theorem bound_of_isArray (harray : m.isArray ref = true) :
    ∀ entry ∈ (m.table ref).entries, entry.key.index < m.cells.size := by
  intro entry hentry
  rcases isArray_iff.mp harray with hempty | hcounts
  · unfold Table.entries at hentry
    rw [hempty] at hentry
    simp at hentry
  · obtain ⟨k, hk⟩ := hcounts.naturals _ (List.mem_map_of_mem (List.mem_map_of_mem hentry))
    refine bound_of_content fun hnone ↦ ?_
    unfold keyId at hk
    rw [hnone] at hk
    cases hk

/-- Assumes: an array with keys that are different from each other. A clone of it has its values. -/
theorem clone_array (harray : m.isArray source = true) (hdistinct : (m.keyIds source).Nodup) :
    ∃ n, cloneTable source m = .ok ⟨m.tables.size⟩ n ∧ m.BuiltFrom ⟨m.tables.size⟩ n ∧
      (n.table ⟨m.tables.size⟩).values = (m.table source).values := by
  have hbound := bound_of_isArray harray
  have hkeys : ∀ write ∈ m.withTable.writesOf source, write.key.index < m.withTable.cells.size ∧
      m.withTable.keyId write.key = write.id := by
    intro write hwrite
    obtain ⟨entry, hentry, rfl⟩ := List.mem_map.mp hwrite
    rw [table_withTable] at hentry
    exact ⟨hbound entry hentry, rfl⟩
  have hcreated : newTable m = .ok ⟨m.tables.size⟩ m.withTable := rfl
  have hcloned : cloneTable source m = .ok ⟨m.tables.size⟩
      (m.withTable.afterWrites ⟨m.tables.size⟩ (m.withTable.writesOf source)) := by
    unfold cloneTable
    rw [Run.bind_ok hcreated, Run.bind_ok (mergeInto_eq_ok ..)]
    rfl
  rw [keyIds, Table.keys, List.map_map] at hdistinct
  obtain ⟨n, hcloned', -, hentries, -⟩ := cloneTable_of_distinct hbound hdistinct
  cases hcloned.symm.trans hcloned'
  exact ⟨_, hcloned, (m.builtFrom_newTable.afterWrites hkeys).1,
    congrArg (List.map Entry.value) hentries⟩

end Machine

open Machine

/-- Assumes: two arrays, the first one with keys that are different from each other, and the second
one with values. The operator `::` makes a new object, which has the values of both. -/
theorem Operator.joins_values {m : Machine} {call : Call} {left right : CellRef}
    {source target : TableRef} (hfuel : call.fuel ≠ 0) (hleft : m.content left = .object source)
    (hright : m.content right = .object target) (hsource : m.isArray source = true)
    (htarget : m.isArray target = true) (hdistinct : (m.keyIds source).Nodup)
    (hsome : (m.table target).values ≠ []) :
    ∃ joined n ref, standard.evaluate call "::" .infixOp [left, right] m = .ok joined n ∧
      m.Grown n ∧ n.content joined = .object ref ∧
      (n.table ref).values = (m.table source).values ++ (m.table target).values := by
  obtain ⟨n, hcloned, hclone, hvalues⟩ := clone_array hsource hdistinct
  obtain ⟨k, hpushed, hbuilt, hadded⟩ := hclone.pushAll (m.table target).values
  have hread : tableOf target n = .ok (m.table target) n := by
    rw [← hclone.grown.table target (bound_of_values hsome)]
    rfl
  have hjoined : appendValues left right m = newObject ⟨m.tables.size⟩ k := by
    unfold appendValues appendObjects
    rw [Run.get_bind, tableOf?_eq_some_iff.mpr hleft, tableOf?_eq_some_iff.mpr hright]
    dsimp only
    rw [hsource, htarget, Run.bind_ok hcloned, if_pos (Bool.and_self true), Run.bind_ok hread,
      Run.bind_ok hpushed]
  refine ⟨⟨k.cells.size⟩, k.withCell (.object ⟨m.tables.size⟩), ⟨m.tables.size⟩, ?_,
    hbuilt.grown.trans (k.grown_withCell _), k.content_new _, hadded.trans (by rw [hvalues])⟩
  rw [evaluate_joins hfuel, hjoined]
  rfl

namespace ObjectMethod

variable {α : Type} {m : Machine} {I : Machine → Prop} {call : Call} {function acc : CellRef}
  {Stands : Machine → CellRef → α → Prop} {op : α → α → α} {a : α}

/-- Assumes: a function without side effects that never fails. Folds of an object that has values
start from the value that is given and take all others: `reduce` and `foldl` from the left, `foldr`
in reverse order. An object without values gives the empty value, whatever is given. The fold over
two arrays that are joined, the keys of the first one different from each other, is the one over the
second from what the fold over the first gives (for `foldr` the other way round), if both have
values. -/
theorem folds_start_from_given_value (hcombines : m.CombinesBy I call function Stands op)
    (hacc : Stands m acc a) (hfuel : call.fuel ≠ 0) :
    (∀ self as, m.HoldsValues Stands self as →
      (∀ method, FromLeft method →
        m.Yields I Stands (run call method self [acc, function]) (as.foldl op a)) ∧
      m.Yields I Stands (run call .foldr self [acc, function]) (as.reverse.foldl op a)) ∧
    (∀ self ref, m.content self = .object ref → (m.table ref).values = [] →
      ∀ method, FromLeft method ∨ method = .foldr →
        run call method self [acc, function] m = newEmpty m) ∧
    (∀ left right source target as bs, m.content left = .object source →
      m.content right = .object target → m.isArray source = true → m.isArray target = true →
      (m.keyIds source).Nodup → m.HoldsValues Stands left as → m.HoldsValues Stands right bs →
      ∃ joined n, Operator.standard.evaluate call "::" .infixOp [left, right] m = .ok joined n ∧
        (∀ method, FromLeft method →
          n.Yields I Stands (run call method joined [acc, function]) ((as ++ bs).foldl op a) ∧
          n.Yields I Stands (do
            let part ← run call method left [acc, function]
            run call method right [part, function]) ((as ++ bs).foldl op a)) ∧
        n.Yields I Stands (run call .foldr joined [acc, function]) ((as ++ bs).reverse.foldl op a) ∧
        n.Yields I Stands (do
          let part ← run call .foldr right [acc, function]
          run call .foldr left [part, function]) ((as ++ bs).reverse.foldl op a)) := by
  refine ⟨fun self as hself ↦ ⟨fun method hmethod ↦ ?_, ?_⟩, fun self ref hself hnone method ↦ ?_,
    fun left right source target as bs hleft hright hsource htarget hdistinct has hbs ↦ ?_⟩
  · exact yields_fromLeft hcombines hacc hmethod hself
  · exact yields_foldr hcombines hacc hself
  · rintro (hmethod | rfl)
    · rw [run_fromLeft hmethod hself, hnone]
      exact foldValues_nil call _ acc function m
    · rw [run_foldr hself, hnone]
      exact foldValues_nil call _ acc function m
  · obtain ⟨_, hsame, hsome, hlater⟩ := hbs
    cases hright.symm.trans hsame
    obtain ⟨_, hsame', hsome', hformer⟩ := has
    cases hleft.symm.trans hsame'
    obtain ⟨joined, n, ref, hjoined, hgrown, hcell, hvalues⟩ :=
      Operator.joins_values hfuel hleft hright hsource htarget hdistinct hsome
    have hkept := hgrown.keepsFrom 0
    have hafter := hcombines.after (hcombines.grows m n hcombines.begins hgrown)
    have hseed := hcombines.stays m n acc a hcombines.begins hkept hacc
    have hboth : n.HoldsValues Stands joined (as ++ bs) := by
      refine ⟨ref, hcell, ?_, ?_⟩
      · rw [hvalues]
        exact List.append_ne_nil_of_left_ne_nil hsome' _
      · rw [hvalues]
        exact hcombines.stays_all hkept (List.rel_append hformer hlater)
    have has := hcombines.holdsValues hkept ⟨source, hleft, hsome', hformer⟩
    have hbs := hcombines.holdsValues hkept ⟨target, hright, hsome, hlater⟩
    refine ⟨joined, n, hjoined, fun method hmethod ↦ ⟨?_, ?_⟩, ?_, ?_⟩
    · exact yields_fromLeft hafter hseed hmethod hboth
    · rw [List.foldl_append]
      exact yields_parts_fromLeft hafter hseed hmethod has hbs
    · exact yields_foldr hafter hseed hboth
    · rw [List.reverse_append, List.foldl_append]
      exact yields_parts_foldr hafter hseed has hbs

end ObjectMethod

/-! ### Differences -/

/-- The function that the operator `-` stands for combines numbers by their difference. -/
theorem Machine.combinesBy_differences {m : Machine} {function : CellRef} {stamp : Stamp} {fuel : Nat}
    {site : Site} {call : Call} (hcall : (interp (fuel + 3)).callFrom site m = .ok call m)
    (hfunction : m.content function = .native stamp (.operator "-" .infixOp)) :
    m.CombinesBy (KeepsFrom 0 m) call function (fun k value d ↦ k.content value = .number d)
      fun a b ↦ a - b := by
  refine ⟨(Grown.refl m).keepsFrom 0, fun k n hk hgrown ↦ hk.trans (hgrown.keepsFrom 0),
    fun k n value a _ hkept hvalue ↦ ?_, fun name k x y a b hk hx hy ↦ ?_⟩
  · have hbound := bound_of_content (by rw [hvalue]; exact nofun : k.content value ≠ .empty)
    exact (hkept.cells.content value hbound).trans hvalue
  · have hbound := bound_of_content (by rw [hfunction]; exact nofun : m.content function ≠ .empty)
    have hfuel : 0 < (interp (fuel + 2)).fuel := Nat.succ_pos _
    obtain ⟨out, n, hrun, hn, hout⟩ := Interp.callValue_minus hfuel site name .none
      ((hk.cells.content function hbound).trans hfunction) hx hy
    cases hcall
    exact ⟨out, n, hrun, hk.trans hn, hn, hout⟩

namespace ObjectMethod

/-- An array of 2 and 1, folded from 2 by the operator `-`, gives 2 - 2 - 1 from either side. -/
theorem fold_subtracts_all_values : ∃ self m call,
    newArray [⟨0⟩, ⟨1⟩] numbersAndMinus = .ok self m ∧
      (interp 3).callFrom ⟨⟨0⟩, default⟩ m = .ok call m ∧
      (∃ out n, run call .foldl self [⟨0⟩, ⟨2⟩] m = .ok out n ∧
        n.content out = .number (Decimal.ofInt (-1))) ∧
      ∃ out n, run call .foldr self [⟨0⟩, ⟨2⟩] m = .ok out n ∧
        n.content out = .number (Decimal.ofInt (-1)) := by
  obtain ⟨self, m, hmade, hgrown, ref, hself, hitems⟩ :=
    Machine.newArray_items [⟨0⟩, ⟨1⟩] numbersAndMinus
  have hcells : ∀ i < 3, m.content ⟨i⟩ = numbersAndMinus.content ⟨i⟩ := fun i hi ↦
    hgrown.cells.content ⟨i⟩ hi
  obtain ⟨call, hcall⟩ : ∃ call, (interp 3).callFrom ⟨⟨0⟩, default⟩ m = .ok call m := ⟨_, rfl⟩
  have hfuel : call.fuel ≠ 0 := by
    cases hcall
    exact Nat.succ_ne_zero _
  have hcombines := Machine.combinesBy_differences hcall (hcells 2 (by decide))
  have hvalues : m.HoldsValues (fun k value d ↦ k.content value = .number d) self
      [Decimal.ofInt 2, Decimal.ofInt 1] := by
    refine ⟨ref, hself, by rw [hitems.values]; exact nofun, ?_⟩
    rw [hitems.values]
    exact .cons (hcells 0 (by decide)) (.cons (hcells 1 (by decide)) .nil)
  have hacc : m.content ⟨0⟩ = .number (Decimal.ofInt 2) := hcells 0 (by decide)
  obtain ⟨hfolds, -, -⟩ := folds_start_from_given_value hcombines hacc hfuel
  obtain ⟨hleft, out, n, hrun, -, -, hout⟩ := hfolds self _ hvalues
  obtain ⟨out', n', hrun', -, -, hout'⟩ := hleft .foldl (.inr rfl)
  exact ⟨self, m, call, hmade, hcall, ⟨out', n', hrun', hout'⟩, out, n, hrun, hout⟩

end ObjectMethod

end TreeScript
