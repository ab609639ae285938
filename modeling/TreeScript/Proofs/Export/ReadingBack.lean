import TreeScript.Proofs.Equality.Bisimilarity
import TreeScript.Proofs.Export.Exporting
import TreeScript.Proofs.Export.Rebuilding

/-!
# Exported values read back

Two values that have the same form in JSON are equal, and have the same keys in the same order
wherever a path of keys leads (`SameForm.equal`, `SameForm.keysAt_eq`). So a value that is exported
and read back from its text is an equal one with its keys in order; and it is exported unless an
object with names in it nests deeper than a reader takes it (`exported_values_read_back`).
-/

set_option autoImplicit false

namespace TreeScript

namespace Json

/-- What a whole text is read as, if arrays and objects nest no deeper in it than so many levels. -/
def parseWithin? (limit : Nat) (text : String) : Option Json :=
  (Reader.value (2 * text.toList.length + 2) limit text.toList).bind fun (json, rest) ↦
    if (Reader.skipBlank rest).isEmpty then some json else none

theorem parseWithin?_compact {json : Json} (h : json.Numbers IsNumber) {limit : Nat}
    (hdepth : json.depth ≤ limit) : parseWithin? limit (compact json) = some json := by
  have hvalue := value_chars h (2 * (chars json).length + 2) limit [] follows_nil (by omega)
  rw [List.append_nil, if_pos hdepth] at hvalue
  unfold parseWithin?
  rw [toList_compact h, hvalue]
  rfl

end Json

/-- Of three lists of one length, what stands beside an element of the second stands beside the
element of the first that is beside it. -/
theorem exists_beside_both {α β γ : Type} {xs : List α} {ys : List β} {zs : List γ}
    (hfirst : xs.length = ys.length) (hsecond : ys.length = zs.length) {pair : α × β}
    (hpair : pair ∈ xs.zip ys) : ∃ z, (pair.1, z) ∈ xs.zip zs ∧ (pair.2, z) ∈ ys.zip zs := by
  obtain ⟨i, hi, rfl⟩ := List.mem_iff_getElem.mp hpair
  rw [List.length_zip] at hi
  have hx : i < (xs.zip zs).length := by
    rw [List.length_zip]
    omega
  have hy : i < (ys.zip zs).length := by
    rw [List.length_zip]
    omega
  refine ⟨zs[i], List.mem_iff_getElem.mpr ⟨i, hx, ?_⟩, List.mem_iff_getElem.mpr ⟨i, hy, ?_⟩⟩
  · rw [List.getElem_zip, List.getElem_zip]
  · rw [List.getElem_zip, List.getElem_zip]

namespace Machine

/-- The keys of the object that a path of keys leads to, in their order. -/
def keysAt (m : Machine) : List KeyId → CellRef → Option (List KeyId)
  | [], cell => (m.tableOf? cell).map fun ref ↦ (m.table ref).keys.map m.keyId
  | id :: path, cell =>
    ((m.tableOf? cell).bind fun ref ↦ (m.table ref).get? id).bind fun value ↦ keysAt m path value

variable {m n : Machine} {cell a b : CellRef} {json : Json} {s t : TableRef}

/-- Two values that have one form in JSON. -/
def SameForm (m : Machine) (a b : CellRef) : Prop := ∃ json, m.HasForm a json ∧ m.HasForm b json

theorem SameForm.symm (h : m.SameForm a b) : m.SameForm b a := by
  obtain ⟨json, ha, hb⟩ := h
  exact ⟨json, hb, ha⟩

/-- Two objects in order with the same number of entries, the keys of which are the same in order,
and the values of one form. -/
structure SameEntries (m : Machine) (s t : TableRef) : Prop where
  left : m.Orderly s
  right : m.Orderly t
  length : (m.table s).entries.length = (m.table t).entries.length
  beside : ∀ pair ∈ (m.table s).entries.zip (m.table t).entries,
    m.keyId pair.1.key = m.keyId pair.2.key ∧ m.SameForm pair.1.value pair.2.value

theorem HasForm.exists_number {text : String} (h : m.HasForm cell (.number text)) :
    ∃ d, m.content cell = .number d ∧ d.scale ≤ twoTo 31 ∧ d.text = text := by
  cases h with
  | number h hscale => exact ⟨_, h, hscale, rfl⟩
  | container _ _ hjson => cases hjson

theorem HasForm.exists_table (h : m.HasForm cell json) (hjson : json.IsContainer) :
    ∃ ref, m.content cell = .object ref ∧ m.Orderly ref ∧
      (m.table ref).keys.map m.content = json.labels ∧
      ∀ pair ∈ (m.table ref).values.zip json.parts, m.HasForm pair.1 pair.2 := by
  cases h with
  | container h horderly _ hkeys hvalues => exact ⟨_, h, horderly, hkeys, hvalues⟩
  | null | bool | number | string => cases hjson

/-- Objects with one form have the same entries. -/
theorem sameEntries_of_labels (hs : m.Orderly s) (ht : m.Orderly t)
    (hkeys : (m.table s).keys.map m.content = json.labels)
    (hkeys' : (m.table t).keys.map m.content = json.labels)
    (hvalues : ∀ pair ∈ (m.table s).values.zip json.parts, m.HasForm pair.1 pair.2)
    (hvalues' : ∀ pair ∈ (m.table t).values.zip json.parts, m.HasForm pair.1 pair.2) :
    m.SameEntries s t := by
  have hparts := length_values_eq hkeys'
  have hlength : (m.table s).values.length = (m.table t).values.length :=
    (length_values_eq hkeys).trans hparts.symm
  refine ⟨hs, ht, by simpa [Table.values] using hlength, fun pair hpair ↦ ⟨?_, ?_⟩⟩
  · have hlabels : (m.table s).entries.map (m.content ∘ Entry.key) =
        (m.table t).entries.map (m.content ∘ Entry.key) := by
      rw [← List.map_map, ← List.map_map]
      exact hkeys.trans hkeys'.symm
    exact congrArg Content.keyId (eq_of_mem_zip hlabels hpair)
  · have hbeside : (pair.1.value, pair.2.value) ∈ (m.table s).values.zip (m.table t).values := by
      rw [Table.values, Table.values, List.zip_map]
      exact List.mem_map_of_mem hpair
    obtain ⟨part, hleft, hright⟩ := exists_beside_both hlength hparts hbeside
    exact ⟨part, hvalues _ hleft, hvalues' _ hright⟩

/-- Values of one form are the same, or objects with the same entries. -/
theorem SameForm.cases (h : m.SameForm a b) :
    ((m.content a).Same (m.content b) ∧ m.tableOf? a = none ∧ m.tableOf? b = none) ∨
      ∃ s t, m.content a = .object s ∧ m.content b = .object t ∧ m.SameEntries s t := by
  obtain ⟨json, ha, hb⟩ := h
  have hplain {x y : Content} (ha : m.content a = x) (hb : m.content b = y) (hsame : x.Same y) :
      (m.content a).Same (m.content b) ∧ m.tableOf? a = none ∧ m.tableOf? b = none := by
    obtain ⟨hx, hy⟩ := hsame.not_object
    refine ⟨by rwa [ha, hb], ?_, ?_⟩
    · exact Option.eq_none_iff_forall_ne_some.mpr fun ref hobject ↦
        hx ref (ha.symm.trans (tableOf?_eq_some_iff.mp hobject))
    · exact Option.eq_none_iff_forall_ne_some.mpr fun ref hobject ↦
        hy ref (hb.symm.trans (tableOf?_eq_some_iff.mp hobject))
  cases ha with
  | null _ ha =>
    cases hb with
    | null _ hb => exact .inl (hplain ha hb .empty)
    | container _ _ hjson => cases hjson
  | bool ha =>
    cases hb with
    | bool hb => exact .inl (hplain ha hb (.boolean _))
    | container _ _ hjson => cases hjson
  | string ha =>
    cases hb with
    | string hb => exact .inl (hplain ha hb (.string _))
    | container _ _ hjson => cases hjson
  | number ha hscale =>
    obtain ⟨d, hb, hscale', htext⟩ := hb.exists_number
    cases (Decimal.text_inj hscale' hscale).mp htext
    exact .inl (hplain ha hb (.number _))
  | container ha hs hjson hkeys hvalues =>
    obtain ⟨t, hb, ht, hkeys', hvalues'⟩ := hb.exists_table hjson
    exact .inr ⟨_, t, ha, hb, sameEntries_of_labels hs ht hkeys hkeys' hvalues hvalues'⟩

theorem SameEntries.ids_eq (h : m.SameEntries s t) :
    (m.table s).keys.map m.keyId = (m.table t).keys.map m.keyId := by
  rw [Table.keys, Table.keys, List.map_map, List.map_map]
  exact map_eq_of_zip h.length fun pair hpair ↦ (h.beside pair hpair).1

/-- Values of one form match: what is in them is of one form again. -/
theorem sameForm_isBisimulation (m : Machine) : m.IsBisimulation m.SameForm := by
  intro a b hab
  rcases hab.cases with ⟨hsame, -, -⟩ | ⟨s, t, ha, hb, hentries⟩
  · exact .same hsame
  · refine .objects ha hb ?_ fun entry hentry ↦ ?_
    · rw [← hentries.left.inOrder.length_entries, ← hentries.right.inOrder.length_entries,
        hentries.length]
    · obtain ⟨other, hpair⟩ := exists_right_of_mem hentries.length hentry
      obtain ⟨hkey, hvalue⟩ := hentries.beside _ hpair
      exact ⟨other, (List.of_mem_zip hpair).2, hkey.symm, hvalue⟩

/-- Values of one form are equal. -/
theorem SameForm.equal (h : m.SameForm a b) : m.equal a b = true := by
  refine equal_of_bisimulation m.sameForm_isBisimulation (fun a b t hab hb ↦ ?_) h
  rcases hab.cases with ⟨-, -, hplain⟩ | ⟨s, t', -, hb', hentries⟩
  · cases hplain.symm.trans (tableOf?_eq_some_iff.mpr hb)
  · cases hb.symm.trans hb'
    exact hentries.right.inOrder

/-- Values of one form have the same keys in the same order wherever a path of keys leads. -/
theorem SameForm.keysAt_eq (h : m.SameForm a b) (path : List KeyId) :
    m.keysAt path a = m.keysAt path b := by
  induction path generalizing a b with
  | nil =>
    rcases h.cases with ⟨-, ha, hb⟩ | ⟨s, t, ha, hb, hentries⟩
    · rw [keysAt, keysAt, ha, hb]
    · rw [keysAt, keysAt, tableOf?_eq_some_iff.mpr ha, tableOf?_eq_some_iff.mpr hb]
      exact congrArg some hentries.ids_eq
  | cons id path ih =>
    rcases h.cases with ⟨-, ha, hb⟩ | ⟨s, t, ha, hb, hentries⟩
    · rw [keysAt, keysAt, ha, hb]
    · rw [keysAt, keysAt, tableOf?_eq_some_iff.mpr ha, tableOf?_eq_some_iff.mpr hb,
        Option.bind_some, Option.bind_some]
      cases hfound : (m.table s).get? id with
      | none =>
        have hother : (m.table t).get? id = none := by
          refine hentries.right.inOrder.get?_eq_none_iff.mpr fun other hmem hid ↦ ?_
          obtain ⟨entry, hpair⟩ := exists_left_of_mem hentries.length hmem
          exact hentries.left.inOrder.get?_eq_none_iff.mp hfound entry (List.of_mem_zip hpair).1
            ((hentries.beside _ hpair).1.trans hid)
        rw [hother]
      | some value =>
        obtain ⟨entry, hentry, hid, rfl⟩ := hentries.left.inOrder.mem_entries hfound
        obtain ⟨other, hpair⟩ := exists_right_of_mem hentries.length hentry
        obtain ⟨hkey, hvalue⟩ := hentries.beside _ hpair
        have hother := hentries.right.inOrder.get?_of_mem_entries (List.of_mem_zip hpair).2
        dsimp only at hkey hvalue hother
        rw [← hkey, hid] at hother
        rw [hother, Option.bind_some, Option.bind_some]
        exact ih hvalue

/-- Trees of values that JSON can show. Such a value is exported exactly if every object within it
that has names nests no deeper than a reader takes it. The text it is exported as is read as JSON as
long as arrays and objects may nest as deep as in the value, and what is made of that is a new value
that is equal to the first one, and has the same keys in the same order wherever a path of keys
leads. -/
theorem exported_values_read_back {depth : Nat} (htree : m.Tree depth cell)
    (hparts : ∀ part, Relation.ReflTransGen m.Part cell part → m.Portable part) :
    ((∃ json, m.toJson cell = .ok json) ↔ ∀ part, Relation.ReflTransGen m.Part cell part →
      m.HasNames part → m.Tree Json.Reader.maxDepth part) ∧
    ∀ json, m.toJson cell = .ok json → ∃ read, Json.parseWithin? depth json.compact = some read ∧
      ∃ copy n, read.build m = .ok copy n ∧ m.Grown n ∧ n.equal cell copy = true ∧
        n.equal copy cell = true ∧ ∀ path, n.keysAt path copy = n.keysAt path cell := by
  obtain ⟨form, hform⟩ := htree.exists_form hparts
  have hexport := hform.toJson
  rw [← hform.refusal?_eq_none_iff]
  cases hrefusal : form.refusal? with
  | some refused =>
    rw [hrefusal] at hexport
    rw [hexport]
    exact ⟨⟨nofun, nofun⟩, nofun⟩
  | none =>
    rw [hrefusal] at hexport
    refine ⟨⟨fun _ ↦ rfl, fun _ ↦ ⟨form, hexport⟩⟩, fun json hjson ↦ ?_⟩
    cases hexport.symm.trans hjson
    obtain ⟨copy, n, hbuild, hgrown, hcopy⟩ := hform.build (.refl m)
    have hsame : n.SameForm cell copy := ⟨form, hform.grown hgrown, hcopy⟩
    exact ⟨form, Json.parseWithin?_compact hform.numbers (hform.tree_iff.mp htree), copy, n, hbuild,
      hgrown, hsame.equal, hsame.symm.equal, hsame.symm.keysAt_eq⟩

/-! ### Examples of values -/

/-- Objects one inside the other, each under the key of the one around it, and innermost a number.
The cell of the key comes first, then those of the number and of the objects, from the innermost
one. -/
def nestedObjects (count : Nat) : Machine where
  cells := #[.string "a", .number (Decimal.ofInt 1)] ++
    (Array.range count).map fun i ↦ .object ⟨i⟩
  tables := (Array.range count).map fun i ↦ ({} : Table).set (.string "a") ⟨0⟩ ⟨i + 1⟩

section

variable {count i : Nat}

theorem nestedObjects_key (count : Nat) : (nestedObjects count).content ⟨0⟩ = .string "a" := by
  simp [nestedObjects, content]

theorem nestedObjects_number (count : Nat) :
    (nestedObjects count).content ⟨1⟩ = .number (Decimal.ofInt 1) := by
  simp [nestedObjects, content, Array.getElem?_append]

theorem nestedObjects_object (hi : i < count) :
    (nestedObjects count).content ⟨i + 2⟩ = .object ⟨i⟩ := by
  simp [nestedObjects, content, Array.getElem?_append, hi]

/-- The one entry of each of these objects. -/
theorem nestedObjects_entries (hi : i < count) : (nestedObjects count).Orderly ⟨i⟩ ∧
    ((nestedObjects count).table ⟨i⟩).entries = [⟨⟨0⟩, ⟨i + 1⟩⟩] := by
  have htable : (nestedObjects count).table ⟨i⟩ =
      ({} : Table).set ((nestedObjects count).keyId ⟨0⟩) ⟨0⟩ ⟨i + 1⟩ := by
    rw [keyId, nestedObjects_key]
    simp [nestedObjects, table, hi, Content.keyId]
  have hempty := Table.inOrder_empty (nestedObjects count).keyId
  have hentries : ((nestedObjects count).table ⟨i⟩).entries = [⟨⟨0⟩, ⟨i + 1⟩⟩] := by
    rw [htable]
    exact hempty.entries_set_of_new (Table.get?_empty _) ⟨0⟩ ⟨i + 1⟩
  refine ⟨⟨?_, fun entry hentry ↦ ?_, ?_⟩, hentries⟩
  · simpa [nestedObjects] using hi
  · rw [hentries] at hentry
    rw [List.mem_singleton.mp hentry]
    simp [nestedObjects]
  · rw [htable]
    exact hempty.set ⟨0⟩ ⟨i + 1⟩

theorem nestedObjects_tree (hi : i ≤ count) : (nestedObjects count).Tree i ⟨i + 1⟩ := by
  induction i with
  | zero =>
    refine .leaf (by simp [nestedObjects]; omega)
      (Option.eq_none_iff_forall_ne_some.mpr fun ref href ↦ ?_)
    cases (nestedObjects_number count).symm.trans (tableOf?_eq_some_iff.mp href)
  | succ i ih =>
    obtain ⟨horderly, hentries⟩ := nestedObjects_entries hi
    refine .object (tableOf?_eq_some_iff.mpr (nestedObjects_object hi)) horderly ?_
    rw [hentries]
    exact List.forall_mem_singleton.mpr (ih (Nat.le_of_succ_le hi))

/-- What is within one of these objects are the objects inside it, and the number. -/
theorem nestedObjects_within (hi : i ≤ count) {part : CellRef}
    (hpart : Relation.ReflTransGen (nestedObjects count).Part ⟨i + 1⟩ part) :
    ∃ j ≤ i, part = ⟨j + 1⟩ := by
  induction hpart with
  | refl => exact ⟨i, Nat.le_refl i, rfl⟩
  | tail _ hlast ih =>
    obtain ⟨j, hj, rfl⟩ := ih
    obtain ⟨ref, hobject, hvalue⟩ := hlast
    cases j with
    | zero => cases (nestedObjects_number count).symm.trans hobject
    | succ j =>
      have hbound : j < count := Nat.lt_of_lt_of_le hj hi
      cases (nestedObjects_object hbound).symm.trans hobject
      rw [Table.values, (nestedObjects_entries hbound).2] at hvalue
      exact ⟨j, Nat.le_of_succ_le hj, List.mem_singleton.mp hvalue⟩

theorem nestedObjects_portable (hi : i ≤ count) {part : CellRef}
    (hpart : Relation.ReflTransGen (nestedObjects count).Part ⟨i + 1⟩ part) :
    (nestedObjects count).Portable part := by
  obtain ⟨j, hj, rfl⟩ := nestedObjects_within hi hpart
  cases j with
  | zero => exact .number (nestedObjects_number count) (Nat.zero_le _)
  | succ j =>
    have hbound : j < count := Nat.lt_of_lt_of_le hj hi
    refine .object (nestedObjects_object hbound) ?_
    rw [Table.keys, (nestedObjects_entries hbound).2]
    exact List.forall_mem_singleton.mpr ⟨"a", nestedObjects_key count⟩

end

/-- Two objects around a number are exported and read back. -/
theorem nested_objects_read_back :
    (nestedObjects 2).Tree 2 ⟨3⟩ ∧
      (∀ part, Relation.ReflTransGen (nestedObjects 2).Part ⟨3⟩ part →
        (nestedObjects 2).Portable part) ∧
      ∃ json read copy n, (nestedObjects 2).toJson ⟨3⟩ = .ok json ∧
        Json.parseWithin? 2 json.compact = some read ∧ read.build (nestedObjects 2) = .ok copy n ∧
        n.equal ⟨3⟩ copy = true ∧ ∀ path, n.keysAt path copy = n.keysAt path ⟨3⟩ := by
  have htree := nestedObjects_tree (Nat.le_refl 2)
  have hparts : ∀ part, Relation.ReflTransGen (nestedObjects 2).Part ⟨3⟩ part →
      (nestedObjects 2).Portable part := fun part ↦ nestedObjects_portable (Nat.le_refl 2)
  obtain ⟨hexports, hreads⟩ := exported_values_read_back htree hparts
  obtain ⟨json, hjson⟩ := hexports.mpr fun part hpart _ ↦ by
    obtain ⟨j, hj, rfl⟩ := nestedObjects_within (Nat.le_refl 2) hpart
    exact (nestedObjects_tree hj).mono (hj.trans (by decide))
  obtain ⟨read, hread, copy, n, hcopy, -, hequal, -, hkeys⟩ := hreads json hjson
  exact ⟨htree, hparts, json, read, copy, n, hjson, hread, hcopy, hequal, hkeys⟩

/-! ### Objects that nest too deep -/

/-- The form of such objects. -/
def nestedJson : Nat → Json
  | 0 => .number "1"
  | n + 1 => .object [("a", nestedJson n)]

section

variable {count i : Nat}

theorem nestedObjects_hasForm (hi : i ≤ count) :
    (nestedObjects count).HasForm ⟨i + 1⟩ (nestedJson i) := by
  induction i with
  | zero => exact .number (nestedObjects_number count) (Nat.zero_le _)
  | succ i ih =>
    obtain ⟨horderly, hentries⟩ := nestedObjects_entries hi
    refine .container (nestedObjects_object hi) horderly (.object (List.cons_ne_nil _ _)) ?_ ?_
    · rw [Table.keys, hentries]
      exact congrArg (fun content ↦ [content]) (nestedObjects_key count)
    · rw [Table.values, hentries]
      exact List.forall_mem_singleton.mpr (ih (Nat.le_of_succ_le hi))

theorem depth_nestedJson (n : Nat) : (nestedJson n).depth = n := by
  induction n with
  | zero => rfl
  | succ n ih => rw [nestedJson, Json.depth, Json.depthMembers, Json.depthMembers, ih, Nat.max_zero]

theorem excess?_nestedJson (n : Nat) : (nestedJson (n + 1)).excess? n = some '\x7b' := by
  induction n with
  | zero => rfl
  | succ n ih =>
    rw [nestedJson, Json.excess?, Json.excessOfMembers?, ih]
    rfl

theorem refusal?_nestedJson {n : Nat} (hn : n ≤ Json.Reader.maxDepth) :
    (nestedJson n).refusal? = none := by
  induction n with
  | zero => rfl
  | succ n ih =>
    have hcontainer : (nestedJson (n + 1)).IsContainer := .object (List.cons_ne_nil _ _)
    rw [hcontainer.refusal?_eq_none_iff, depth_nestedJson]
    exact ⟨List.forall_mem_singleton.mpr (ih (Nat.le_of_succ_le hn)), fun _ _ ↦ hn⟩

/-- One object more than may nest is refused for the bracket it opens with, and only the outermost
object is. -/
theorem refusal?_nestedJson_succ :
    (nestedJson (Json.Reader.maxDepth + 1)).refusal? = some (1, '\x7b') := by
  have hinside := refusal?_nestedJson (Nat.le_refl Json.Reader.maxDepth)
  have hexcess := excess?_nestedJson Json.Reader.maxDepth
  rw [nestedJson] at hexcess ⊢
  rw [Json.refusal?, Json.refusalOfMembers?, hinside, hexcess]
  rfl

end

/-- Objects that nest one level deeper than a reader takes them are a value that JSON could show,
and are not exported. -/
theorem too_many_nested_objects :
    (nestedObjects 10001).Tree 10001 ⟨10002⟩ ∧
      (∀ part, Relation.ReflTransGen (nestedObjects 10001).Part ⟨10002⟩ part →
        (nestedObjects 10001).Portable part) ∧
      (nestedObjects 10001).toJson ⟨10002⟩ = .error (.tooDeep 1 '\x7b') := by
  have hform := nestedObjects_hasForm (Nat.le_refl 10001)
  have hrefused : (nestedJson 10001).refusal? = some (1, '\x7b') := refusal?_nestedJson_succ
  have hexport := hform.toJson
  rw [hrefused] at hexport
  exact ⟨nestedObjects_tree (Nat.le_refl 10001),
    fun part ↦ nestedObjects_portable (Nat.le_refl 10001), hexport⟩

end Machine

end TreeScript
