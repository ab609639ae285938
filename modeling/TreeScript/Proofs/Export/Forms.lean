import TreeScript.Proofs.Broadcasting.Elementwise
import TreeScript.Proofs.Export.NumberText

/-!
# The JSON form of a value

A value that is a tree of nothing, truth values, strings, numbers, arrays and objects with strings
for keys (`Machine.Portable`) has a form in JSON, which is the same tree (`Machine.HasForm`,
`Tree.exists_form`). The form nests as deep as the value (`HasForm.tree_iff`), its numbers are read
back from their text (`HasForm.numbers`), and it stays the form of the value while cells and tables
are added to the machine (`HasForm.grown`).
-/

set_option autoImplicit false

namespace TreeScript

/-! ### Lists side by side -/

section

variable {α β γ : Type} {xs : List α} {ys : List β}

/-- Of two lists of one length, each has an element beside each of the other. -/
theorem exists_right_of_mem (hlength : xs.length = ys.length) {x : α} (hx : x ∈ xs) :
    ∃ y, (x, y) ∈ xs.zip ys := by
  obtain ⟨i, hi, rfl⟩ := List.mem_iff_getElem.mp hx
  exact ⟨ys[i], List.mem_iff_getElem.mpr ⟨i, by rw [List.length_zip]; omega, List.getElem_zip⟩⟩

theorem exists_left_of_mem (hlength : xs.length = ys.length) {y : β} (hy : y ∈ ys) :
    ∃ x, (x, y) ∈ xs.zip ys := by
  obtain ⟨i, hi, rfl⟩ := List.mem_iff_getElem.mp hy
  exact ⟨xs[i], List.mem_iff_getElem.mpr ⟨i, by rw [List.length_zip]; omega, List.getElem_zip⟩⟩

/-- Lists that are mapped to the same agree place by place. -/
theorem eq_of_mem_zip {f : α → γ} {g : β → γ} (h : xs.map f = ys.map g) {pair : α × β}
    (hpair : pair ∈ xs.zip ys) : f pair.1 = g pair.2 := by
  induction xs generalizing ys with
  | nil => cases hpair
  | cons x xs ih =>
    cases ys with
    | nil => cases hpair
    | cons y ys =>
      rw [List.map_cons, List.map_cons] at h
      obtain ⟨hfirst, hrest⟩ := List.cons.inj h
      rcases List.mem_cons.mp hpair with rfl | hpair
      · exact hfirst
      · exact ih hrest hpair

theorem map_eq_of_zip {f : α → γ} {g : β → γ} (hlength : xs.length = ys.length)
    (h : ∀ pair ∈ xs.zip ys, f pair.1 = g pair.2) : xs.map f = ys.map g := by
  induction xs generalizing ys with
  | nil => rw [List.eq_nil_of_length_eq_zero hlength.symm, List.map_nil, List.map_nil]
  | cons x xs ih =>
    obtain ⟨y, ys, rfl⟩ := List.exists_cons_of_length_eq_add_one hlength.symm
    obtain ⟨hfirst, hrest⟩ := List.forall_mem_cons.mp h
    rw [List.map_cons, List.map_cons, hfirst, ih (Nat.succ.inj hlength) hrest]

/-- Where there is something for each element, there is a list of it. -/
theorem exists_list {P : α → β → Prop} (h : ∀ x ∈ xs, ∃ y, P x y) :
    ∃ ys : List β, ys.length = xs.length ∧ ∀ pair ∈ xs.zip ys, P pair.1 pair.2 := by
  induction xs with
  | nil => exact ⟨[], rfl, nofun⟩
  | cons x xs ih =>
    obtain ⟨⟨y, hy⟩, hxs⟩ := List.forall_mem_cons.mp h |>.imp_right ih
    obtain ⟨ys, hlength, hys⟩ := hxs
    refine ⟨y :: ys, congrArg Nat.succ hlength, ?_⟩
    exact List.forall_mem_cons.mpr ⟨hy, hys⟩

/-- A computation that gives a value for each element gives the list of them. -/
theorem mapM_eq_ok {ε : Type} {f : α → Except ε β} (hlength : xs.length = ys.length)
    (h : ∀ pair ∈ xs.zip ys, f pair.1 = .ok pair.2) : xs.mapM f = .ok ys := by
  induction xs generalizing ys with
  | nil =>
    rw [List.eq_nil_of_length_eq_zero hlength.symm]
    rfl
  | cons x xs ih =>
    obtain ⟨y, ys, rfl⟩ := List.exists_cons_of_length_eq_add_one hlength.symm
    obtain ⟨hfirst, hrest⟩ := List.forall_mem_cons.mp h
    rw [List.mapM_cons, hfirst, ih (Nat.succ.inj hlength) hrest]
    rfl

end

/-! ### Containers -/

namespace Json

variable {json : Json}

/-- An array no longer than a word counts, or an object with members. There is no object without
members: as a value it is an array. -/
inductive IsContainer : Json → Prop where
  | array {items : List Json} (hsize : items.length ≤ twoTo 63) : IsContainer (.array items)
  | object {members : List (String × Json)} (hmembers : members ≠ []) :
      IsContainer (.object members)

/-- What stands as a key in front of each part of a container. -/
def labels : Json → List Content
  | .array items => (List.range items.length).map fun (i : Nat) ↦ .number (Decimal.ofInt i)
  | .object members => members.map fun member ↦ .string member.1
  | _ => []

def parts : Json → List Json
  | .array items => items
  | .object members => members.map Prod.snd
  | _ => []

theorem length_labels (json : Json) : json.labels.length = json.parts.length := by
  cases json <;> simp [labels, parts]

theorem IsContainer.depth_le_succ_iff (h : json.IsContainer) {limit : Nat} :
    json.depth ≤ limit + 1 ↔ ∀ part ∈ json.parts, part.depth ≤ limit := by
  cases h with
  | @array items =>
    rw [depth, Nat.add_le_add_iff_right]
    exact ⟨fun hdepth part hpart ↦ Nat.le_trans (depth_le_depthAll hpart) hdepth, depthAll_le⟩
  | @object members =>
    rw [depth, Nat.add_le_add_iff_right]
    refine ⟨fun hdepth part hpart ↦ ?_, fun hparts ↦ depthMembers_le fun member hmember ↦ ?_⟩
    · obtain ⟨member, hmember, rfl⟩ := List.mem_map.mp hpart
      exact Nat.le_trans (depth_le_depthMembers hmember) hdepth
    · exact hparts _ (List.mem_map_of_mem hmember)

theorem IsContainer.depth_pos (h : json.IsContainer) : 0 < json.depth := by
  cases h <;> exact Nat.zero_lt_succ _

end Json

/-! ### Values -/

namespace Machine

/-- A value that JSON can show if it can show what is in it: nothing, a truth value, a string, a
number with no more decimal places than a number may have, an array, or an object with strings for
keys. No object has more entries than a word counts. -/
inductive Portable (m : Machine) (cell : CellRef) : Prop where
  | empty (h : m.content cell = .empty)
  | boolean {b : Bool} (h : m.content cell = .boolean b)
  | string {s : String} (h : m.content cell = .string s)
  | number {d : Decimal} (h : m.content cell = .number d) (hscale : d.scale ≤ twoTo 31)
  | array {ref : TableRef} (h : m.content cell = .object ref)
      (hkeys : ∀ (i : Nat) (key : CellRef), (m.table ref).keys[i]? = some key →
        m.content key = .number (Decimal.ofInt i))
      (hsize : (m.table ref).size ≤ twoTo 63)
  | object {ref : TableRef} (h : m.content cell = .object ref)
      (hkeys : ∀ key ∈ (m.table ref).keys, ∃ name, m.content key = .string name)

/-- An object that has a string among its keys. -/
def HasNames (m : Machine) (cell : CellRef) : Prop :=
  ∃ ref, m.content cell = .object ref ∧ ∃ key ∈ (m.table ref).keys, ∃ name,
    m.content key = .string name

/-- A value is the same tree as a JSON value. -/
inductive HasForm (m : Machine) : CellRef → Json → Prop where
  | null {cell : CellRef} (hcell : cell.index < m.cells.size) (h : m.content cell = .empty) :
      HasForm m cell .null
  | bool {cell : CellRef} {b : Bool} (h : m.content cell = .boolean b) : HasForm m cell (.bool b)
  | number {cell : CellRef} {d : Decimal} (h : m.content cell = .number d)
      (hscale : d.scale ≤ twoTo 31) : HasForm m cell (.number d.text)
  | string {cell : CellRef} {s : String} (h : m.content cell = .string s) :
      HasForm m cell (.string s)
  | container {cell : CellRef} {ref : TableRef} {json : Json} (h : m.content cell = .object ref)
      (horderly : m.Orderly ref) (hjson : json.IsContainer)
      (hkeys : (m.table ref).keys.map m.content = json.labels)
      (hvalues : ∀ pair ∈ (m.table ref).values.zip json.parts, HasForm m pair.1 pair.2) :
      HasForm m cell json

variable {m n : Machine} {cell : CellRef} {ref : TableRef} {json : Json}

theorem length_values_eq (hkeys : (m.table ref).keys.map m.content = json.labels) :
    (m.table ref).values.length = json.parts.length := by
  have hlength := congrArg List.length hkeys
  rw [List.length_map, Table.keys, List.length_map, json.length_labels] at hlength
  rw [Table.values, List.length_map, hlength]

/-- The entries of an object have the names and the values of the members beside them. -/
theorem entry_of_member {members : List (String × Json)}
    (hkeys : (m.table ref).keys.map m.content = (Json.object members).labels)
    {pair : Entry × (String × Json)} (hpair : pair ∈ (m.table ref).entries.zip members) :
    m.content pair.1.key = .string pair.2.1 ∧
      (pair.1.value, pair.2.2) ∈ (m.table ref).values.zip (Json.object members).parts := by
  refine ⟨eq_of_mem_zip ((List.map_map ..).symm.trans hkeys) hpair, ?_⟩
  rw [Table.values, Json.parts, List.zip_map]
  exact List.mem_map_of_mem hpair

/-- No two members of an object in order have the same name. -/
theorem nodup_names {members : List (String × Json)} (horderly : m.Orderly ref)
    (hkeys : (m.table ref).keys.map m.content = (Json.object members).labels) :
    (members.map Prod.fst).Nodup := by
  have hids : (m.table ref).entries.map (fun entry ↦ m.keyId entry.key) =
      (members.map Prod.fst).map KeyId.string := by
    have hlabels := congrArg (List.map Content.keyId) hkeys
    rw [Table.keys, List.map_map, List.map_map, Json.labels, List.map_map] at hlabels
    rw [List.map_map]
    exact hlabels
  exact (hids ▸ horderly.inOrder.nodup_ids).of_map

theorem HasForm.grown (h : m.HasForm cell json) (hm : m.Grown n) : n.HasForm cell json := by
  have hkept {cell : CellRef} {content : Content} (h : m.content cell = content)
      (hholds : content ≠ .empty) : n.content cell = content :=
    (hm.cells.content cell (bound_of_content (h ▸ hholds))).trans h
  induction h with
  | null hcell h =>
    exact .null (Nat.lt_of_lt_of_le hcell hm.cells.size) ((hm.cells.content _ hcell).trans h)
  | bool h => exact .bool (hkept h nofun)
  | number h hscale => exact .number (hkept h nofun) hscale
  | string h => exact .string (hkept h nofun)
  | container h horderly hjson hkeys _ ih =>
    have htable := hm.table _ horderly.table
    refine .container (hkept h nofun) (hm.orderly horderly) hjson ?_ (htable ▸ ih)
    rw [htable, ← hkeys]
    refine List.map_congr_left fun key hkey ↦ hm.cells.content key ?_
    obtain ⟨entry, hentry, rfl⟩ := List.mem_map.mp hkey
    exact horderly.keys entry hentry

/-- No value that has a form is within itself. -/
theorem HasForm.acyclic (h : m.HasForm cell json) : ¬Relation.TransGen m.Part cell cell := by
  induction h with
  | null _ h | bool h | number h | string h =>
    intro hcycle
    obtain ⟨value, ⟨ref, hobject, -⟩, -⟩ := Relation.TransGen.head'_iff.mp hcycle
    cases h.symm.trans hobject
  | container h horderly hjson hkeys _ ih =>
    intro hcycle
    obtain ⟨value, hpart, hback⟩ := Relation.TransGen.head'_iff.mp hcycle
    obtain ⟨other, hobject, hvalue⟩ := id hpart
    cases h.symm.trans hobject
    obtain ⟨part, hpair⟩ := exists_right_of_mem (length_values_eq hkeys) hvalue
    exact ih _ hpair (.tail' hback hpart)

/-- A value nests as deep as its form. -/
theorem HasForm.tree_iff (h : m.HasForm cell json) {limit : Nat} :
    m.Tree limit cell ↔ json.depth ≤ limit := by
  have hleaf {cell : CellRef} {json : Json} {limit : Nat} (hcell : cell.index < m.cells.size)
      (hplain : m.tableOf? cell = none) (hdepth : json.depth = 0) :
      m.Tree limit cell ↔ json.depth ≤ limit :=
    ⟨fun _ ↦ hdepth ▸ Nat.zero_le _, fun _ ↦ .leaf hcell hplain⟩
  have hplain {cell : CellRef} {content : Content} (h : m.content cell = content)
      (hcontent : ∀ ref, content ≠ .object ref) : m.tableOf? cell = none :=
    Option.eq_none_iff_forall_ne_some.mpr fun ref hobject ↦
      hcontent ref (h.symm.trans (tableOf?_eq_some_iff.mp hobject))
  induction h generalizing limit with
  | null hcell h => exact hleaf hcell (hplain h nofun) rfl
  | bool h => exact hleaf (bound_of_content (by rw [h]; exact nofun)) (hplain h nofun) rfl
  | number h => exact hleaf (bound_of_content (by rw [h]; exact nofun)) (hplain h nofun) rfl
  | string h => exact hleaf (bound_of_content (by rw [h]; exact nofun)) (hplain h nofun) rfl
  | @container cell ref json h horderly hjson hkeys _ ih =>
    have hobject := tableOf?_eq_some_iff.mpr h
    have hlength := length_values_eq hkeys
    cases limit with
    | zero =>
      refine ⟨fun htree ↦ ?_, fun hdepth ↦ absurd hjson.depth_pos (Nat.not_lt_of_le hdepth)⟩
      cases htree with
      | leaf _ hnone => cases hnone.symm.trans hobject
    | succ limit =>
      rw [hjson.depth_le_succ_iff]
      constructor
      · intro htree part hpart
        obtain ⟨value, hpair⟩ := exists_left_of_mem hlength hpart
        cases htree with
        | leaf _ hnone => cases hnone.symm.trans hobject
        | object hobject' _ hvalues =>
          cases hobject.symm.trans hobject'
          obtain ⟨entry, hentry, hvalue⟩ := List.mem_map.mp (List.of_mem_zip hpair).1
          exact (ih _ hpair).mp (hvalue ▸ hvalues entry hentry)
      · intro hdepth
        refine .object hobject horderly fun entry hentry ↦ ?_
        obtain ⟨part, hpair⟩ := exists_right_of_mem hlength (List.mem_map_of_mem hentry)
        exact (ih _ hpair).mpr (hdepth part (List.of_mem_zip hpair).2)

/-- The numbers of a form are read from their text. -/
theorem HasForm.numbers (h : m.HasForm cell json) : json.Numbers Json.IsNumber := by
  induction h with
  | null => exact .null
  | bool => exact .bool _
  | @number cell d => exact .number d.isNumber_text
  | string => exact .string _
  | container h horderly hjson hkeys _ ih =>
    have hlength := length_values_eq hkeys
    cases hjson with
    | array =>
      refine .array fun item hitem ↦ ?_
      obtain ⟨value, hpair⟩ := exists_left_of_mem hlength hitem
      exact ih _ hpair
    | object =>
      refine .object fun member hmember ↦ ?_
      obtain ⟨value, hpair⟩ := exists_left_of_mem hlength (List.mem_map_of_mem hmember)
      exact ih _ hpair

/-- Assumes: an object in order with forms for its values, its keys being the numbers of its
entries. Its form is the array of these forms. -/
theorem hasForm_of_items {items : List Json} (h : m.content cell = .object ref)
    (horderly : m.Orderly ref)
    (hkeys : ∀ (i : Nat) (key : CellRef), (m.table ref).keys[i]? = some key →
      m.content key = .number (Decimal.ofInt i))
    (hsize : (m.table ref).size ≤ twoTo 63) (hcount : (m.table ref).entries.length = items.length)
    (hitems : ∀ pair ∈ (m.table ref).values.zip items, m.HasForm pair.1 pair.2) :
    m.HasForm cell (.array items) := by
  have hsmall : items.length ≤ twoTo 63 := by
    rwa [← hcount, horderly.inOrder.length_entries]
  refine .container h horderly (.array hsmall) ?_ hitems
  refine List.ext_getElem (by simp [Json.labels, Table.keys, hcount]) fun i hi _ ↦ ?_
  rw [List.getElem_map, hkeys i _ (List.getElem?_eq_getElem _)]
  simp [Json.labels]

/-- Assumes: an object in order with forms for its values, its keys being strings. It has a form,
which is the empty array if the object is empty. -/
theorem exists_form_of_names {items : List Json} (h : m.content cell = .object ref)
    (horderly : m.Orderly ref)
    (hkeys : ∀ key ∈ (m.table ref).keys, ∃ name, m.content key = .string name)
    (hcount : (m.table ref).entries.length = items.length)
    (hitems : ∀ pair ∈ (m.table ref).values.zip items, m.HasForm pair.1 pair.2) :
    ∃ json, m.HasForm cell json := by
  obtain ⟨names, hcount', hnames⟩ := exists_list hkeys
  have hlabels := map_eq_of_zip hcount'.symm hnames
  rw [Table.keys, List.length_map] at hcount'
  by_cases hempty : items = []
  · subst hempty
    have hnone : (m.table ref).keys = [] :=
      List.map_eq_nil_iff.mpr (List.eq_nil_of_length_eq_zero hcount)
    refine ⟨.array [], .container h horderly (.array (Nat.zero_le _)) ?_ hitems⟩
    rw [hnone]
    rfl
  · have hpairs : names.length = items.length := hcount'.trans hcount
    refine ⟨.object (names.zip items), .container h horderly (.object fun hnil ↦ ?_) ?_ ?_⟩
    · have hzero := congrArg List.length hnil
      rw [List.length_zip, hpairs, Nat.min_self] at hzero
      exact hempty (List.eq_nil_of_length_eq_zero hzero)
    · have hlist : (names.zip items).map (fun member ↦ Content.string member.1) =
          ((names.zip items).map Prod.fst).map Content.string := (List.map_map ..).symm
      rw [hlabels, Json.labels, hlist, List.map_fst_zip hpairs.le]
    · rw [Json.parts, List.map_snd_zip hpairs.ge]
      exact hitems

/-- A tree of values that JSON can show has a form. -/
theorem Tree.exists_form {depth : Nat} (h : m.Tree depth cell)
    (hparts : ∀ part, Relation.ReflTransGen m.Part cell part → m.Portable part) :
    ∃ json, m.HasForm cell json := by
  induction h with
  | @leaf depth cell hcell hplain =>
    cases hparts cell .refl with
    | empty h => exact ⟨_, .null hcell h⟩
    | boolean h => exact ⟨_, .bool h⟩
    | string h => exact ⟨_, .string h⟩
    | number h hscale => exact ⟨_, .number h hscale⟩
    | array h => cases hplain.symm.trans (tableOf?_eq_some_iff.mpr h)
    | object h => cases hplain.symm.trans (tableOf?_eq_some_iff.mpr h)
  | @object depth cell ref hobject horderly _ ih =>
    have hcell := tableOf?_eq_some_iff.mp hobject
    have hforms : ∀ value ∈ (m.table ref).values, ∃ json, m.HasForm value json := by
      intro value hvalue
      obtain ⟨entry, hentry, rfl⟩ := List.mem_map.mp hvalue
      exact ih entry hentry fun part hpart ↦ hparts part (.head ⟨ref, hcell, hvalue⟩ hpart)
    obtain ⟨items, hlength, hitems⟩ := exists_list hforms
    have hcount : (m.table ref).entries.length = items.length := by
      rw [hlength, Table.values, List.length_map]
    have hsame (other : TableRef) (h : m.content cell = .object other) : ref = other :=
      Content.object.inj (hcell.symm.trans h)
    cases hparts cell .refl with
    | empty h => cases hcell.symm.trans h
    | boolean h => cases hcell.symm.trans h
    | string h => cases hcell.symm.trans h
    | number h => cases hcell.symm.trans h
    | array h hkeys hsize =>
      cases hsame _ h
      exact ⟨_, hasForm_of_items h horderly hkeys hsize hcount hitems⟩
    | object h hkeys =>
      cases hsame _ h
      exact exists_form_of_names h horderly hkeys hcount hitems

end Machine

end TreeScript
