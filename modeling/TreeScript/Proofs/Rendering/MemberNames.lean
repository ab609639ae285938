import Mathlib.Data.List.Induction
import TreeScript.Proofs.Rendering.Export

/-!
# The members of an exported object

An object that is no array is exported with a member for each of its entries, under the text of the
key. As keys, the number 1 and the text "1" are different, but their texts are the same, and then the
later entry takes over the member of the earlier one (`Json.lookup_setMembers`). So the export keeps
every entry exactly if the texts of the keys are different from each other
(`Machine.entries_are_exported_under_texts_of_keys`).

That the value of an entry is exported inside of its object makes no difference to an export that
succeeds (`Machine.exportIn_ok_mono`), and only an object that is inside itself makes it fail
(`Machine.circular_of_exportIn_eq_error`).
-/

set_option autoImplicit false

open Relation (ReflTransGen TransGen)

namespace TreeScript

namespace Json

/-! ### Members -/

/-- A member that is set has its place behind the others, unless its name is taken. -/
theorem names_setMember (name : String) (value : Json) (acc : List (String × Json)) :
    (setMember name value acc).map Prod.fst =
      if name ∈ acc.map Prod.fst then acc.map Prod.fst else acc.map Prod.fst ++ [name] := by
  induction acc with
  | nil => rfl
  | cons member acc ih =>
    rw [setMember]
    by_cases hsame : member.1 = name
    · rw [if_pos hsame, if_pos (by rw [← hsame]; exact List.mem_cons_self ..)]
      exact congrArg (· :: acc.map Prod.fst) hsame.symm
    · rw [if_neg hsame, List.map_cons, List.map_cons, ih]
      by_cases hmem : name ∈ acc.map Prod.fst
      · rw [if_pos hmem, if_pos (List.mem_cons_of_mem _ hmem)]
      · have hnew : name ∉ member.1 :: acc.map Prod.fst :=
          List.not_mem_cons_of_ne_of_not_mem (Ne.symm hsame) hmem
        rw [if_neg hmem, if_neg hnew]
        rfl

theorem lookup_cons_eq (name other : String) (value : Json) (acc : List (String × Json)) :
    ((name, value) :: acc).lookup other = if other = name then some value else acc.lookup other := by
  rw [List.lookup_cons]
  by_cases h : other = name
  · rw [if_pos h, beq_iff_eq.mpr h]
  · rw [if_neg h, beq_false_of_ne h]

theorem lookup_setMember (name other : String) (value : Json) (acc : List (String × Json)) :
    (setMember name value acc).lookup other =
      if other = name then some value else acc.lookup other := by
  induction acc with
  | nil => exact lookup_cons_eq ..
  | cons member acc ih =>
    obtain ⟨former, json⟩ := member
    rw [setMember]
    by_cases hsame : former = name
    · rw [if_pos hsame, lookup_cons_eq, lookup_cons_eq, hsame]
      split <;> rfl
    · rw [if_neg hsame, lookup_cons_eq, lookup_cons_eq, ih]
      by_cases hother : other = former
      · rw [if_pos hother, if_pos hother, if_neg (hother ▸ hsame)]
      · rw [if_neg hother, if_neg hother]

/-- The members that come of setting some, one after the other. -/
def setMembers (members : List (String × Json)) : List (String × Json) :=
  members.foldl (fun acc (name, value) ↦ setMember name value acc) []

theorem setMembers_append (members : List (String × Json)) (name : String) (value : Json) :
    setMembers (members ++ [(name, value)]) = setMember name value (setMembers members) :=
  List.foldl_append

/-- Members have their names in the order in which these come up. -/
theorem names_setMembers (members : List (String × Json)) :
    (setMembers members).map Prod.fst = (members.map Prod.fst).eraseDups := by
  induction members using List.reverseRecOn with
  | nil => rfl
  | append_singleton members member ih =>
    obtain ⟨name, value⟩ := member
    rw [setMembers_append, names_setMember, ih, List.map_append, List.eraseDups_append]
    simp only [List.mem_eraseDups, List.map_cons, List.map_nil]
    by_cases hmem : name ∈ members.map Prod.fst
    · rw [if_pos hmem]
      simp [List.removeAll, hmem]
    · rw [if_neg hmem]
      simp [List.removeAll, hmem, List.eraseDups_cons]

/-- A member has the value that was set last under its name. -/
theorem lookup_setMembers (members : List (String × Json)) (name : String) :
    (setMembers members).lookup name = members.reverse.lookup name := by
  induction members using List.reverseRecOn with
  | nil => rfl
  | append_singleton members member ih =>
    obtain ⟨other, value⟩ := member
    rw [setMembers_append, lookup_setMember, ih, List.reverse_append]
    exact (lookup_cons_eq ..).symm

theorem nodup_names_setMembers (members : List (String × Json)) :
    ((setMembers members).map Prod.fst).Nodup := by
  induction members using List.reverseRecOn with
  | nil => exact .nil
  | append_singleton members member ih =>
    obtain ⟨name, value⟩ := member
    rw [setMembers_append, names_setMember]
    split
    · exact ih
    · rename_i hnew
      exact List.nodup_append.mpr ⟨ih, List.nodup_singleton _, fun other hother _ hname hsame ↦
        hnew (List.mem_singleton.mp hname ▸ hsame ▸ hother)⟩

/-- All members stay as they are if their names are different from each other, and only then. -/
theorem setMembers_eq_iff (members : List (String × Json)) :
    setMembers members = members ↔ (members.map Prod.fst).Nodup :=
  ⟨fun h ↦ h ▸ nodup_names_setMembers members, fun h ↦ foldl_setMember h⟩

end Json

namespace Machine

variable {m : Machine} {cell : CellRef} {ref : TableRef} {json : Json} {outer fewer : List TableRef}
  {fuel more : Nat}

/-! ### Objects -/

theorem mapM_congr {α β ε : Type} {f g : α → Except ε β} {xs : List α} (h : ∀ x ∈ xs, f x = g x) :
    xs.mapM f = xs.mapM g := by
  induction xs with
  | nil => rfl
  | cons x xs ih =>
    obtain ⟨hx, hxs⟩ := List.forall_mem_cons.mp h
    rw [List.mapM_cons, List.mapM_cons, hx, ih hxs]

theorem objectExport_congr {label : CellRef → String}
    {answer answer' : CellRef → Except ExportError Json}
    (h : ∀ value ∈ (m.table ref).values, answer value = answer' value) :
    m.objectExport ref label answer = m.objectExport ref label answer' := by
  have hentries : (m.table ref).entries.mapM (fun entry ↦ do
        return (label entry.key, ← answer entry.value)) =
      (m.table ref).entries.mapM (fun entry ↦ do
        return (label entry.key, ← answer' entry.value)) :=
    mapM_congr fun entry hentry ↦ by rw [h _ (List.mem_map_of_mem hentry)]
  unfold objectExport
  rw [mapM_congr h, hentries]

/-- The export of an object that is not around itself. -/
theorem exportIn_object (hcell : m.content cell = .object ref) (hnew : ref ∉ outer) (fuel : Nat) :
    m.exportIn (fuel + 1) outer cell =
      m.objectExport ref m.display (m.exportIn fuel (ref :: outer)) := by
  rw [exportIn, hcell]
  dsimp only
  rw [if_neg (by rwa [List.contains_iff_mem])]
  rfl

theorem exportIn_circular (hcell : m.content cell = .object ref) (hinside : ref ∈ outer)
    (fuel : Nat) : m.exportIn (fuel + 1) outer cell = .error .circular := by
  rw [exportIn, hcell]
  dsimp only
  rw [if_pos (List.contains_iff_mem.mpr hinside)]

/-- The export of a value that is no object does not depend on where it is. -/
theorem exportIn_of_tableOf?_eq_none (hcell : m.tableOf? cell = none) (fuel more : Nat)
    (outer fewer : List TableRef) :
    ∃ json, m.exportIn (fuel + 1) outer cell = .ok json ∧
      m.exportIn (more + 1) fewer cell = .ok json := by
  rw [exportIn, exportIn]
  cases hcontent : m.content cell with
  | object ref => cases hcell.symm.trans (tableOf?_eq_some_iff.mpr hcontent)
  | _ => exact ⟨_, rfl, rfl⟩

/-- An export that succeeds does so with more steps, and inside of fewer objects. -/
theorem exportIn_ok_mono (h : m.exportIn fuel outer cell = .ok json) (hfuel : fuel ≤ more)
    (houter : ∀ ref ∈ fewer, ref ∈ outer) : m.exportIn more fewer cell = .ok json := by
  induction fuel generalizing more outer fewer cell json with
  | zero => cases h
  | succ fuel ih =>
    obtain ⟨more, rfl⟩ : ∃ less, more = less + 1 := ⟨more - 1, by omega⟩
    cases hcell : m.tableOf? cell with
    | none =>
      obtain ⟨json', hformer, hlater⟩ := exportIn_of_tableOf?_eq_none hcell fuel more outer fewer
      cases hformer.symm.trans h
      exact hlater
    | some ref =>
      rw [tableOf?_eq_some_iff] at hcell
      by_cases hinside : ref ∈ outer
      · cases (exportIn_circular hcell hinside fuel).symm.trans h
      · rw [exportIn_object hcell hinside] at h
        rw [exportIn_object hcell (mt (houter ref) hinside), ← h]
        refine objectExport_congr fun value hvalue ↦ ?_
        obtain ⟨inner, hinner⟩ := objectExport_eq_ok h value hvalue
        rw [hinner]
        exact ih hinner (Nat.le_of_succ_le_succ hfuel) fun other hother ↦
          List.mem_cons.mpr ((List.mem_cons.mp hother).imp_right (houter other))

/-- Assumes: different objects of the machine around a value, each of which leads to it, and a step
for each table that is not among them. If the export of the value fails, an object within it is inside
itself. -/
theorem circular_of_exportIn_eq_error {error : ExportError}
    (h : m.exportIn fuel outer cell = .error error) (hdistinct : outer.Nodup)
    (hexist : ∀ ref ∈ outer, ref.index < m.tables.size)
    (houter : ∀ around ∈ outer, ∀ inner, m.content cell = .object inner →
      TransGen m.HasObjectValue around inner)
    (hfuel : m.tables.size < fuel + outer.length) :
    ∃ part ref, ReflTransGen m.Part cell part ∧ m.content part = .object ref ∧
      TransGen m.HasObjectValue ref ref := by
  induction fuel generalizing outer cell with
  | zero =>
    have hlength := length_le_tables hdistinct hexist
    omega
  | succ fuel ih =>
    cases hcell : m.tableOf? cell with
    | none =>
      obtain ⟨json, hok, -⟩ := exportIn_of_tableOf?_eq_none hcell fuel fuel outer outer
      cases hok.symm.trans h
    | some ref =>
      rw [tableOf?_eq_some_iff] at hcell
      by_cases hinside : ref ∈ outer
      · exact ⟨cell, ref, .refl, hcell, houter ref hinside ref hcell⟩
      · rw [exportIn_object hcell hinside] at h
        obtain ⟨value, hvalue, hfails⟩ := objectExport_eq_error h
        obtain ⟨entry, hentry, rfl⟩ := List.mem_map.mp hvalue
        obtain ⟨part, inner, hwithin, hcircle⟩ := ih hfails
          (List.nodup_cons.mpr ⟨hinside, hdistinct⟩)
          (List.forall_mem_cons.mpr ⟨exists_of_mem_entries hentry, hexist⟩)
          (List.forall_mem_cons.mpr ⟨fun inner hinner ↦ .single ⟨_, hvalue, hinner⟩,
            fun around haround inner hinner ↦
              (houter around haround ref hcell).tail ⟨_, hvalue, hinner⟩⟩)
          (by rw [List.length_cons]; omega)
        exact ⟨part, inner, .head ⟨ref, hcell, hvalue⟩ hwithin, hcircle⟩

/-- No object within a value is inside itself by way of values. -/
def Acyclic (m : Machine) (cell : CellRef) : Prop :=
  ∀ part ref, ReflTransGen m.Part cell part → m.content part = .object ref →
    ¬TransGen m.HasObjectValue ref ref

/-- An entry is exported as a member: its key by its text, and its value as it is exported by itself. -/
def ExportsEntry (m : Machine) (entry : Entry) (member : String × Json) : Prop :=
  member.1 = m.display entry.key ∧ m.exportIn (m.tables.size + 1) [] entry.value = .ok member.2

/-- Assumes: an object that is no array, and in which no object is inside itself. It is exported as an
object, to which each entry gives a member under the text of its key. The names of the members are in
the order in which they come up, and each member is that of the last entry under its name. So there is
a member for each entry, in their order, exactly if the texts of the keys are different from each
other. -/
theorem entries_are_exported_under_texts_of_keys (hcell : m.content cell = .object ref)
    (hobject : m.isArray ref = false) (hacyclic : m.Acyclic cell) :
    ∃ entries members, List.Forall₂ m.ExportsEntry (m.table ref).entries entries ∧
      m.exportIn (m.tables.size + 1) [] cell = .ok (.object members) ∧
      members.map Prod.fst = ((m.table ref).keys.map m.display).eraseDups ∧
      (∀ name, members.lookup name = entries.reverse.lookup name) ∧
      (members = entries ↔ ((m.table ref).keys.map m.display).Nodup) := by
  have hexport := exportIn_object hcell (List.not_mem_nil (a := ref)) m.tables.size
  cases hanswer : m.exportIn (m.tables.size + 1) [] cell with
  | error error =>
    obtain ⟨part, inner, hwithin, hpart, hcircle⟩ :=
      circular_of_exportIn_eq_error hanswer .nil nofun nofun (Nat.lt_succ_self _)
    exact absurd hcircle (hacyclic part inner hwithin hpart)
  | ok json =>
    rw [hanswer, objectExport, hobject, if_neg Bool.false_ne_true] at hexport
    cases hentries : (m.table ref).entries.mapM (fun entry ↦ do
        return (m.display entry.key, ← m.exportIn m.tables.size [ref] entry.value)) with
    | error error =>
      rw [hentries] at hexport
      cases hexport
    | ok entries =>
      rw [hentries] at hexport
      cases hexport
      have hmembers : List.Forall₂ m.ExportsEntry (m.table ref).entries entries := by
        refine (forall₂_of_mapM_eq_ok hentries).imp fun entry member hmember ↦ ?_
        cases hvalue : m.exportIn m.tables.size [ref] entry.value with
        | error error =>
          rw [hvalue] at hmember
          cases hmember
        | ok inner =>
          rw [hvalue] at hmember
          cases hmember
          exact ⟨rfl, exportIn_ok_mono hvalue (Nat.le_succ _) nofun⟩
      have hnames : entries.map Prod.fst = (m.table ref).keys.map m.display := by
        have hsame : List.Forall₂ Eq ((m.table ref).entries.map fun entry ↦ m.display entry.key)
            (entries.map Prod.fst) := List.forall₂_map_left_iff.mpr <|
          List.forall₂_map_right_iff.mpr (hmembers.imp fun _ _ hmember ↦ hmember.1.symm)
        rw [List.forall₂_eq_eq_eq] at hsame
        rw [Table.keys, List.map_map]
        exact hsame.symm
      rw [← hnames]
      exact ⟨entries, Json.setMembers entries, hmembers, rfl, Json.names_setMembers entries,
        Json.lookup_setMembers entries, Json.setMembers_eq_iff entries⟩

/-- An object with the empty value, a number and a text for keys, and truth values. -/
def mixedKeys : Machine where
  cells := #[.object ⟨0⟩, .empty, .number (Decimal.ofInt 1), .string "one", .boolean true,
    .boolean false]
  tables := #[
    { slots := #[⟨⟨1⟩, ⟨4⟩⟩, ⟨⟨2⟩, ⟨5⟩⟩, ⟨⟨3⟩, ⟨4⟩⟩], size := 3, capacity := 4
      index := .ofList [(.empty, 0), (.number (Decimal.ofInt 1), 1), (.string "one", 2)] }]

/-- Keys of three kinds, the texts of which are different, give three members. -/
theorem mixed_keys_are_exported :
    mixedKeys.exportIn (mixedKeys.tables.size + 1) [] ⟨0⟩ =
      .ok (.object [("null", .bool true), ("1", .bool false), ("one", .bool true)]) := by
  have hacyclic : mixedKeys.Acyclic ⟨0⟩ := by
    intro part ref _ _ hcircle
    obtain ⟨inner, ⟨value, hvalue, hinner⟩, -⟩ := TransGen.head'_iff.mp hcircle
    obtain ⟨i⟩ := ref
    match i with
    | 0 =>
      have hvalues : (mixedKeys.table ⟨0⟩).values = [⟨4⟩, ⟨5⟩, ⟨4⟩] := rfl
      rw [hvalues] at hvalue
      simp only [List.mem_cons, List.not_mem_nil, or_false] at hvalue
      rcases hvalue with rfl | rfl | rfl <;> cases hinner
    | i + 1 => exact absurd hvalue List.not_mem_nil
  have hcell : mixedKeys.content ⟨0⟩ = .object ⟨0⟩ := rfl
  have hobject : mixedKeys.isArray ⟨0⟩ = false := by decide
  obtain ⟨entries, members, hentries, hexport, -, -, hall⟩ :=
    entries_are_exported_under_texts_of_keys hcell hobject hacyclic
  have hrows : (mixedKeys.table ⟨0⟩).entries = [⟨⟨1⟩, ⟨4⟩⟩, ⟨⟨2⟩, ⟨5⟩⟩, ⟨⟨3⟩, ⟨4⟩⟩] := rfl
  have hmember {key value : CellRef} {member : String × Json} {name : String} {json : Json}
      (hmember : mixedKeys.ExportsEntry ⟨key, value⟩ member) (hname : mixedKeys.display key = name)
      (hjson : mixedKeys.exportIn 2 [] value = .ok json) : member = (name, json) :=
    Prod.ext (hmember.1.trans hname) (Except.ok.inj (hmember.2.symm.trans hjson))
  rw [hexport, hall.mpr (by decide)]
  rw [hrows] at hentries
  match entries, hentries with
  | _, .cons hfirst (.cons hsecond (.cons hthird .nil)) =>
    have hnull : mixedKeys.display ⟨1⟩ = "null" := by decide
    have hnumber : mixedKeys.display ⟨2⟩ = "1" := by decide
    have htext : mixedKeys.display ⟨3⟩ = "one" := by decide
    rw [hmember hfirst hnull rfl, hmember hsecond hnumber rfl, hmember hthird htext rfl]

end Machine

end TreeScript
