import TreeScript.Proofs.Export.Forms
import TreeScript.Proofs.Numbers.Formatting

/-!
# Values made from JSON

A JSON value is made into a value part by part (`Json.build`): the text of a number is read as a
number, an array becomes an array, and an object becomes an object with the names of its members for
keys, in their order. What is made of the form of some value is a value of the same form
(`HasForm.build`). It is new: the machine is only added to.
-/

set_option autoImplicit false

namespace TreeScript

/-! ### Making values -/

/-- A new object with values under texts, in the order they are given in. A text that is given again
replaces the value. -/
def newMap (bindings : List (String × CellRef)) : Run CellRef := do
  let ref ← newTable
  for (name, value) in bindings do
    setText ref name value
  newObject ref

namespace Json

mutual

/-- Makes a value of JSON. It fails where the text of a number is not that of one. -/
def build : Json → Run CellRef
  | .null => newEmpty
  | .bool b => newBoolean b
  | .number text => parseNumber text
  | .string s => newString s
  | .array items => do newArray (← buildItems items)
  | .object members => do newMap ((members.map Prod.fst).zip (← buildMembers members))

def buildItems : List Json → Run (List CellRef)
  | [] => return []
  | item :: items => do return (← build item) :: (← buildItems items)

def buildMembers : List (String × Json) → Run (List CellRef)
  | [] => return []
  | (_, item) :: members => do return (← build item) :: (← buildMembers members)

end

/-- The values of members are made like those of an array. -/
theorem buildMembers_eq (members : List (String × Json)) :
    buildMembers members = buildItems (members.map Prod.snd) := by
  induction members with
  | nil => rfl
  | cons member members ih => rw [buildMembers, ih, List.map_cons, buildItems]

end Json

/-! ### New objects -/

namespace Machine

variable {α : Type} {m n k : Machine} {ref : TableRef}

/-- What the keys of an object are does not change while cells are added. -/
theorem Orderly.labels_withCell (h : m.Orderly ref) (content : Content) :
    ((m.withCell content).table ref).keys.map (m.withCell content).content =
      (m.table ref).keys.map m.content := by
  refine List.map_congr_left fun key hkey ↦ ?_
  obtain ⟨entry, hentry, rfl⟩ := List.mem_map.mp hkey
  rw [Machine.content_old (h.keys entry hentry)]

/-- The machine with a new cell, under which a value is entered in an object. -/
def withEntry (m : Machine) (ref : TableRef) (label : Content) (value : CellRef) : Machine :=
  (m.withCell label).after (.enter ref ⟨m.cells.size⟩ value)

/-- Assumes: an object in order, and a key that is different from those it has. Once the key is
entered with a value, both are behind those that the object had. -/
theorem Orderly.withEntry (h : m.Orderly ref) {label : Content} (value : CellRef)
    (hdifferent : label.keyId ∉ ((m.table ref).keys.map m.content).map Content.keyId) :
    (m.withEntry ref label value).Orderly ref ∧
      ((m.withEntry ref label value).table ref).keys = (m.table ref).keys ++ [⟨m.cells.size⟩] ∧
      ((m.withEntry ref label value).table ref).keys.map (m.withEntry ref label value).content =
        (m.table ref).keys.map m.content ++ [label] ∧
      ((m.withEntry ref label value).table ref).values = (m.table ref).values ++ [value] := by
  have hkeyed : (m.withCell label).Orderly ref := h.withCell _
  have hlabels := h.labels_withCell label
  have hlabel : (m.withCell label).content ⟨m.cells.size⟩ = label := content_new m _
  have hnone : ((m.withCell label).table ref).get? ((m.withCell label).keyId ⟨m.cells.size⟩) =
      none := by
    refine hkeyed.inOrder.get?_eq_none_iff.mpr fun entry hentry hsame ↦ hdifferent ?_
    rw [← hlabel, ← hlabels]
    refine List.mem_map.mpr ⟨_, ?_, hsame⟩
    exact List.mem_map_of_mem (List.mem_map_of_mem hentry)
  have hentries : ((m.withEntry ref label value).table ref).entries =
      ((m.withCell label).table ref).entries ++ [⟨⟨m.cells.size⟩, value⟩] :=
    hkeyed.entries_enter hnone _
  have hbound : m.cells.size < (m.withCell label).cells.size := size_lt_push _ _
  refine ⟨hkeyed.after fun _ ↦ hbound, ?_, ?_, ?_⟩
  · rw [Table.keys, hentries, List.map_append]
    rfl
  · rw [Table.keys, hentries, List.map_append, List.map_append, ← hlabels]
    exact congrArg (fun content ↦ _ ++ [content]) hlabel
  · rw [Table.values, hentries, List.map_append]
    rfl

/-- Assumes: a new object in order, and keys that are different from those it has and from each
other. Once each is entered, in a new cell and with its value, the object has these keys and values
behind those it had, the keys in cells that are new. -/
theorem enterAll_apply (xs : List α) (label : α → Content) (value : α → CellRef)
    (hgrown : m.Grown k) (hnew : m.tables.size ≤ ref.index) (horderly : k.Orderly ref)
    (hdistinct : (((k.table ref).keys.map k.content ++ xs.map label).map Content.keyId).Nodup) :
    ∃ n, (forIn xs PUnit.unit fun x _ ↦ do
        setEntry ref (← alloc (label x)) (value x)
        return .yield PUnit.unit : Run PUnit) k = .ok ⟨⟩ n ∧ m.Grown n ∧ n.Orderly ref ∧
      (n.table ref).keys.map n.content = (k.table ref).keys.map k.content ++ xs.map label ∧
      (n.table ref).values = (k.table ref).values ++ xs.map value ∧
      ∀ key ∈ (n.table ref).keys, key ∈ (k.table ref).keys ∨ m.cells.size ≤ key.index := by
  induction xs generalizing k with
  | nil =>
    exact ⟨k, rfl, hgrown, horderly, (List.append_nil _).symm, (List.append_nil _).symm,
      fun _ ↦ .inl⟩
  | cons x xs ih =>
    have hdifferent : (label x).keyId ∉ ((k.table ref).keys.map k.content).map Content.keyId := by
      rw [List.map_append, List.nodup_append] at hdistinct
      exact fun hformer ↦ hdistinct.2.2 _ hformer _ (List.mem_cons_self ..) rfl
    obtain ⟨hentered, hadded, hkeys, hvalues⟩ := horderly.withEntry (value x) hdifferent
    obtain ⟨n, hloop, hn, hend, hkeys', hvalues', hnew'⟩ := ih
      (k := k.withEntry ref (label x) (value x)) ((hgrown.trans (grown_withCell k _)).enter hnew _ _) hentered
      (by rw [hkeys, List.append_assoc]; exact hdistinct)
    refine ⟨n, ?_, hn, hend, ?_, ?_, fun key hkey ↦ ?_⟩
    · have hstep : (do
          setEntry ref (← alloc (label x)) (value x)
          return ForInStep.yield PUnit.unit : Run (ForInStep PUnit)) k =
            .ok (.yield ⟨⟩) (k.withEntry ref (label x) (value x)) := rfl
      rw [List.forIn_cons, Run.bind_ok hstep]
      exact hloop
    · rw [hkeys', hkeys, List.append_assoc]
      rfl
    · rw [hvalues', hvalues, List.append_assoc]
      rfl
    · refine (hnew' key hkey).elim (fun hformer ↦ ?_) .inr
      rw [hadded] at hformer
      refine (List.mem_append.mp hformer).imp_right fun hlast ↦ ?_
      rw [List.mem_singleton.mp hlast]
      exact hgrown.cells.size

/-- Assumes: keys that are different. Entered in a new object with their values, they are its keys
in this order, in new cells; and nothing happens but that the machine is added to. -/
theorem enterNew_apply (xs : List α) (label : α → Content) (value : α → CellRef)
    (hdistinct : ((xs.map label).map Content.keyId).Nodup) (m : Machine) :
    ∃ n, (forIn xs PUnit.unit fun x _ ↦ do
        setEntry ⟨m.tables.size⟩ (← alloc (label x)) (value x)
        return .yield PUnit.unit : Run PUnit) m.withTable = .ok ⟨⟩ n ∧ m.Grown n ∧
      n.Orderly ⟨m.tables.size⟩ ∧
      (n.table ⟨m.tables.size⟩).keys.map n.content = xs.map label ∧
      (n.table ⟨m.tables.size⟩).values = xs.map value ∧
      ∀ key ∈ (n.table ⟨m.tables.size⟩).keys, m.cells.size ≤ key.index := by
  have hempty : (m.withTable.table ⟨m.tables.size⟩).entries = [] := by
    rw [table_new]
    rfl
  have hkeys : (m.withTable.table ⟨m.tables.size⟩).keys = [] := congrArg (List.map Entry.key) hempty
  have hvalues : (m.withTable.table ⟨m.tables.size⟩).values = [] :=
    congrArg (List.map Entry.value) hempty
  have hnew : m.tables.size ≤ (⟨m.tables.size⟩ : TableRef).index := Nat.le_refl _
  have hentered := enterAll_apply xs label value m.grown_withTable hnew m.orderly_newTable
    (by rw [hkeys]; exact hdistinct)
  simp only [hkeys, hvalues, List.not_mem_nil, false_or] at hentered
  exact hentered

variable {copies : List CellRef} {items : List Json} {members : List (String × Json)} {json : Json}

/-- A new object around a table that has the keys of a container, and values of the forms of its
parts, has the form of the container. -/
theorem hasForm_newObject (horderly : n.Orderly ref) (hjson : json.IsContainer)
    (hkeys : (n.table ref).keys.map n.content = json.labels)
    (hvalues : ∀ pair ∈ (n.table ref).values.zip json.parts, n.HasForm pair.1 pair.2) :
    (n.withCell (.object ref)).HasForm ⟨n.cells.size⟩ json := by
  have hgrown := n.grown_withCell (.object ref)
  refine .container (n.content_new _) (horderly.withCell _) hjson
    ((horderly.labels_withCell _).trans hkeys) fun pair hpair ↦ ?_
  exact (hvalues pair hpair).grown hgrown

/-- A new array is a new object in order, with the items for values and their places for keys; and
nothing happens but that the machine is added to. -/
theorem newArray_entries (items : List CellRef) (m : Machine) :
    ∃ n, newArray items m = .ok ⟨n.cells.size⟩ (n.withCell (.object ⟨m.tables.size⟩)) ∧
      m.Grown n ∧ n.Orderly ⟨m.tables.size⟩ ∧
      (n.table ⟨m.tables.size⟩).keys.map n.content =
        (List.range items.length).map (fun (i : Nat) ↦ Content.number (Decimal.ofInt i)) ∧
      (n.table ⟨m.tables.size⟩).values = items ∧
      ∀ key ∈ (n.table ⟨m.tables.size⟩).keys, m.cells.size ≤ key.index := by
  have hlabels : (items.zipIdx.map fun x ↦ Content.number (Decimal.ofInt x.2)) =
      (List.range items.length).map fun (i : Nat) ↦ Content.number (Decimal.ofInt i) := by
    rw [List.range_eq_range', ← List.zipIdx_map_snd, List.map_map]
    rfl
  have hdistinct : ((items.zipIdx.map fun x ↦ Content.number (Decimal.ofInt x.2)).map
      Content.keyId).Nodup := by
    rw [hlabels, List.map_map]
    refine List.nodup_range.map fun i j hsame ↦ ?_
    simpa [Content.keyId, Decimal.ofInt] using hsame
  obtain ⟨n, hloop, hgrown, horderly, hkeys, hvalues, hnew⟩ :=
    enterNew_apply items.zipIdx (fun x ↦ .number (Decimal.ofInt x.2)) Prod.fst hdistinct m
  rw [List.zipIdx_map_fst] at hvalues
  have hcreated : newTable m = .ok ⟨m.tables.size⟩ m.withTable := rfl
  have htable : newArrayTable items m = .ok ⟨m.tables.size⟩ n := by
    unfold newArrayTable
    rw [Run.bind_ok hcreated]
    exact Run.bind_ok hloop
  refine ⟨n, ?_, hgrown, horderly, hkeys.trans hlabels, hvalues, hnew⟩
  unfold newArray
  rw [Run.bind_ok htable]
  rfl

/-- Assumes: values of the forms of some items. Their array has the form of the array of the
items. -/
theorem newArray_form (hlength : copies.length = items.length) (hsize : items.length ≤ twoTo 63)
    (hforms : ∀ pair ∈ copies.zip items, m.HasForm pair.1 pair.2) :
    ∃ out n, newArray copies m = .ok out n ∧ m.Grown n ∧ n.HasForm out (.array items) := by
  obtain ⟨n, hmade, hgrown, horderly, hkeys, hvalues, -⟩ := newArray_entries copies m
  refine ⟨_, _, hmade, hgrown.trans (grown_withCell n _),
    hasForm_newObject horderly (.array hsize) (hkeys.trans (by rw [hlength]; rfl)) ?_⟩
  rw [hvalues]
  exact fun pair hpair ↦ (hforms pair hpair).grown hgrown

/-- Assumes: values of the forms of some members, the names of which are different. Under these
names they make an object of the form of the object of the members. -/
theorem newMap_form (hmembers : members ≠ []) (hnames : (members.map Prod.fst).Nodup)
    (hlength : copies.length = members.length)
    (hforms : ∀ pair ∈ copies.zip (members.map Prod.snd), m.HasForm pair.1 pair.2) :
    ∃ out n, newMap ((members.map Prod.fst).zip copies) m = .ok out n ∧ m.Grown n ∧
      n.HasForm out (.object members) := by
  have hcount : (members.map Prod.fst).length = copies.length := by
    rw [List.length_map, hlength]
  have hlabels : (((members.map Prod.fst).zip copies).map fun x ↦ Content.string x.1) =
      (Json.object members).labels := by
    have hsplit : (((members.map Prod.fst).zip copies).map fun x ↦ Content.string x.1) =
        (((members.map Prod.fst).zip copies).map Prod.fst).map Content.string :=
      List.map_map.symm
    rw [hsplit, List.map_fst_zip hcount.le, List.map_map]
    rfl
  have hdistinct : ((((members.map Prod.fst).zip copies).map fun x ↦ Content.string x.1).map
      Content.keyId).Nodup := by
    have hids : (Json.object members).labels.map Content.keyId =
        (members.map Prod.fst).map KeyId.string := by
      rw [Json.labels, List.map_map, List.map_map]
      rfl
    rw [hlabels, hids]
    exact hnames.map fun _ _ ↦ KeyId.string.inj
  obtain ⟨n, hloop, hgrown, horderly, hkeys, hvalues, -⟩ :=
    enterNew_apply ((members.map Prod.fst).zip copies) (fun x ↦ .string x.1) Prod.snd hdistinct m
  rw [List.map_snd_zip hcount.ge] at hvalues
  have hcreated : newTable m = .ok ⟨m.tables.size⟩ m.withTable := rfl
  refine ⟨⟨n.cells.size⟩, n.withCell (.object ⟨m.tables.size⟩), ?_,
    hgrown.trans (grown_withCell n _), hasForm_newObject horderly (.object hmembers)
      (hkeys.trans hlabels) ?_⟩
  · unfold newMap
    rw [Run.bind_ok hcreated]
    exact Run.bind_ok hloop
  · rw [hvalues]
    exact fun pair hpair ↦ (hforms pair hpair).grown hgrown

/-! ### Copies by way of JSON -/

variable {cell : CellRef}

/-- Assumes: JSON values each of which is made into a value of its form, on every machine grown from
some machine. So are all of them, one after another. -/
theorem buildItems_apply
    (hbuild : ∀ item ∈ items, ∀ k, m.Grown k → ∃ copy n, item.build k = .ok copy n ∧ k.Grown n ∧
      n.HasForm copy item) (hk : m.Grown k) :
    ∃ copies n, Json.buildItems items k = .ok copies n ∧ k.Grown n ∧
      copies.length = items.length ∧ ∀ pair ∈ copies.zip items, n.HasForm pair.1 pair.2 := by
  induction items generalizing k with
  | nil => exact ⟨[], k, rfl, .refl k, rfl, nofun⟩
  | cons item items ih =>
    obtain ⟨hitem, hitems⟩ := List.forall_mem_cons.mp hbuild
    obtain ⟨copy, k', hcopy, hgrown, hform⟩ := hitem k hk
    obtain ⟨copies, n, hcopies, hgrown', hlength, hforms⟩ := ih hitems (hk.trans hgrown)
    refine ⟨copy :: copies, n, ?_, hgrown.trans hgrown', congrArg Nat.succ hlength, ?_⟩
    · rw [Json.buildItems, Run.bind_ok hcopy, Run.bind_ok hcopies]
      rfl
    · exact List.forall_mem_cons.mpr ⟨hform.grown hgrown', hforms⟩

/-- What is made of the form of a value has that form, and its making only adds to the machine. -/
theorem HasForm.build (h : m.HasForm cell json) (hk : m.Grown k) :
    ∃ copy n, json.build k = .ok copy n ∧ k.Grown n ∧ n.HasForm copy json := by
  induction h generalizing k with
  | null =>
    have hcell : k.cells.size < (k.withCell .empty).cells.size := size_lt_push _ _
    exact ⟨⟨k.cells.size⟩, k.withCell .empty, rfl, grown_withCell k _,
      .null hcell (k.content_new _)⟩
  | @bool cell b =>
    exact ⟨⟨k.cells.size⟩, k.withCell (.boolean b), rfl, grown_withCell k _,
      .bool (k.content_new _)⟩
  | @number cell d _ hscale =>
    exact ⟨⟨k.cells.size⟩, k.withCell (.number d),
      parseNumber_eq_ok_iff.mpr ⟨d, Decimal.parse?_text_self hscale, rfl, rfl⟩, grown_withCell k _,
      .number (k.content_new _) hscale⟩
  | @string cell s =>
    exact ⟨⟨k.cells.size⟩, k.withCell (.string s), rfl, grown_withCell k _,
      .string (k.content_new _)⟩
  | @container cell ref json _ horderly hjson hkeys _ ih =>
    have hlength := length_values_eq hkeys
    have hparts : ∀ part ∈ json.parts, ∀ k, m.Grown k → ∃ copy n, part.build k = .ok copy n ∧
        k.Grown n ∧ n.HasForm copy part := by
      intro part hpart k hk
      obtain ⟨value, hpair⟩ := exists_left_of_mem hlength hpart
      exact ih _ hpair hk
    obtain ⟨copies, k', hcopies, hgrown, hcount, hforms⟩ := buildItems_apply hparts hk
    cases hjson with
    | array hsize =>
      obtain ⟨out, n, hmade, hgrown', hform⟩ := newArray_form hcount hsize hforms
      refine ⟨out, n, ?_, hgrown.trans hgrown', hform⟩
      rw [Json.build]
      exact (Run.bind_ok hcopies).trans hmade
    | @object members hmembers =>
      have hcount' : copies.length = members.length := hcount.trans (List.length_map _)
      obtain ⟨out, n, hmade, hgrown', hform⟩ :=
        newMap_form hmembers (nodup_names horderly hkeys) hcount' hforms
      refine ⟨out, n, ?_, hgrown.trans hgrown', hform⟩
      rw [Json.build, Json.buildMembers_eq]
      exact (Run.bind_ok hcopies).trans hmade

end Machine

end TreeScript
