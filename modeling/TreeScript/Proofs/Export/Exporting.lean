import TreeScript.Proofs.Export.Forms
import TreeScript.Proofs.Objects.MapHistory
import TreeScript.Store.Export

/-!
# Values are exported as their forms

A value that has a form in JSON is exported as that form, unless it is refused (`HasForm.toJson`).
The export never comes back to an object it is inside of, and is never short of steps, since all
objects it is inside of are different tables of the machine (`HasForm.exportIn`). It is refused
exactly if an object with names in it nests deeper than a reader takes it
(`HasForm.refusal?_eq_none_iff`).
-/

set_option autoImplicit false

namespace TreeScript

namespace Json

variable {json : Json}

/-- Members that have names of their own come one behind the other. -/
theorem foldl_setMember {members acc : List (String × Json)}
    (hnames : ((acc ++ members).map Prod.fst).Nodup) :
    members.foldl (fun acc (name, value) ↦ setMember name value acc) acc = acc ++ members := by
  have hset (acc : List (String × Json)) (name : String) (value : Json)
      (hnew : name ∉ acc.map Prod.fst) : setMember name value acc = acc ++ [(name, value)] := by
    induction acc with
    | nil => rfl
    | cons member acc ih =>
      rw [List.map_cons, List.mem_cons, not_or] at hnew
      rw [setMember, if_neg (Ne.symm hnew.1), ih hnew.2]
      rfl
  induction members generalizing acc with
  | nil => exact (List.append_nil acc).symm
  | cons member members ih =>
    obtain ⟨name, value⟩ := member
    have hnew : name ∉ acc.map Prod.fst := by
      rw [List.map_append, List.nodup_append] at hnames
      exact fun hmem ↦ hnames.2.2 _ hmem _ (List.mem_cons_self ..) rfl
    have hsplit : acc ++ (name, value) :: members = acc ++ [(name, value)] ++ members := by simp
    rw [hsplit] at hnames ⊢
    rw [List.foldl_cons]
    dsimp only
    rw [hset acc _ _ hnew, ih hnames]

/-! ### Refusals -/

mutual

theorem excess?_eq_none_iff (limit : Nat) (json : Json) :
    excess? limit json = none ↔ json.depth ≤ limit := by
  cases json with
  | array items =>
    cases limit with
    | zero => exact ⟨nofun, nofun⟩
    | succ limit => rw [excess?, depth, Nat.add_le_add_iff_right, excessOfItems?_eq_none_iff]
  | object members =>
    cases limit with
    | zero => exact ⟨nofun, nofun⟩
    | succ limit => rw [excess?, depth, Nat.add_le_add_iff_right, excessOfMembers?_eq_none_iff]
  | null | bool | number | string => cases limit <;> exact ⟨fun _ ↦ Nat.zero_le _, fun _ ↦ rfl⟩

theorem excessOfItems?_eq_none_iff (limit : Nat) (items : List Json) :
    excessOfItems? limit items = none ↔ depthAll items ≤ limit := by
  cases items with
  | nil => exact ⟨fun _ ↦ Nat.zero_le _, fun _ ↦ by cases limit <;> rfl⟩
  | cons item items =>
    rw [excessOfItems?, Option.or_eq_none_iff, excess?_eq_none_iff, excessOfItems?_eq_none_iff,
      depthAll, Nat.max_le]

theorem excessOfMembers?_eq_none_iff (limit : Nat) (members : List (String × Json)) :
    excessOfMembers? limit members = none ↔ depthMembers members ≤ limit := by
  cases members with
  | nil => exact ⟨fun _ ↦ Nat.zero_le _, fun _ ↦ by cases limit <;> rfl⟩
  | cons member members =>
    rw [excessOfMembers?, Option.or_eq_none_iff, excess?_eq_none_iff,
      excessOfMembers?_eq_none_iff, depthMembers, Nat.max_le]

end

theorem refusalOfItems?_eq_none_iff {items : List Json} :
    refusalOfItems? items = none ↔ ∀ item ∈ items, item.refusal? = none := by
  induction items with
  | nil => exact ⟨fun _ ↦ nofun, fun _ ↦ rfl⟩
  | cons item items ih =>
    rw [refusalOfItems?, Option.or_eq_none_iff, ih, List.forall_mem_cons]

theorem refusalOfMembers?_eq_none_iff {members : List (String × Json)} :
    refusalOfMembers? members = none ↔ ∀ member ∈ members, member.2.refusal? = none := by
  induction members with
  | nil => exact ⟨fun _ ↦ nofun, fun _ ↦ rfl⟩
  | cons member members ih =>
    rw [refusalOfMembers?, Option.or_eq_none_iff, ih, List.forall_mem_cons]

/-- A container is not refused if its parts are not, and an object if it nests no deeper than a
reader takes it. -/
theorem IsContainer.refusal?_eq_none_iff (h : json.IsContainer) :
    json.refusal? = none ↔ (∀ part ∈ json.parts, part.refusal? = none) ∧
      ∀ name, .string name ∈ json.labels → json.depth ≤ Reader.maxDepth := by
  cases h with
  | @array items =>
    rw [refusal?, refusalOfItems?_eq_none_iff]
    refine ⟨fun hitems ↦ ⟨hitems, fun name hname ↦ ?_⟩, fun hitems ↦ hitems.1⟩
    obtain ⟨i, -, hlabel⟩ := List.mem_map.mp hname
    cases hlabel
  | @object members hmembers =>
    obtain ⟨member, others, rfl⟩ := List.exists_cons_of_ne_nil hmembers
    rw [refusal?, Option.map_eq_none_iff, Option.or_eq_none_iff, Option.map_eq_none_iff,
      excess?_eq_none_iff, refusalOfMembers?_eq_none_iff]
    have hparts : (Json.object (member :: others)).parts = (member :: others).map Prod.snd := rfl
    rw [hparts, List.forall_mem_map]
    refine and_congr Iff.rfl ⟨fun hdepth _ _ ↦ hdepth, fun hdepth ↦ ?_⟩
    exact hdepth member.1 (List.mem_cons_self ..)

end Json

/-! ### Arrays -/

namespace Decimal

/-- The highest of the numbers of an array is that of its last item. -/
theorem highest_range (last : Nat) :
    highest ((List.range (last + 1)).map fun (i : Nat) ↦ ofInt i) = ofInt last := by
  have hlast : ofInt last ∈ (List.range (last + 1)).map fun (i : Nat) ↦ ofInt i :=
    List.mem_map_of_mem (List.mem_range.mpr (Nat.lt_succ_self last))
  refine toRat_injective (le_antisymm ?_ (le_highest hlast))
  have hbound : ∀ d ∈ ofInt (-1) :: (List.range (last + 1)).map fun (i : Nat) ↦ ofInt i,
      d.toRat ≤ last := by
    refine List.forall_mem_cons.mpr ⟨?_, List.forall_mem_map.mpr fun i hi ↦ ?_⟩
    · rw [toRat_ofInt]
      exact (by simp : (((-1 : Int) : ℚ)) ≤ 0).trans (Nat.cast_nonneg last)
    · rw [toRat_ofInt, Int.cast_natCast]
      exact Nat.cast_le.mpr (Nat.le_of_lt_succ (List.mem_range.mp hi))
  rw [toRat_ofInt, Int.cast_natCast]
  exact hbound _ (foldl_highest _ _).1

/-- A number that is no larger than a word is the word it is cut down to. -/
theorem word_ofInt {n : Nat} (hn : n < twoTo 63) : (ofInt n).word = n := by
  rw [word_ofInt_eq_bmod]
  exact bmod_of_fits (by omega) (by omega)

end Decimal

/-- Different references to places below a bound are no more than the bound. -/
theorem length_le_of_index {α : Type} {index : α → Nat} (hindex : Function.Injective index)
    {refs : List α} (hdistinct : refs.Nodup) {bound : Nat}
    (hexist : ∀ ref ∈ refs, index ref < bound) : refs.length ≤ bound := by
  have hsubset : refs.map index ⊆ List.range bound := by
    intro i hi
    obtain ⟨ref, href, rfl⟩ := List.mem_map.mp hi
    exact List.mem_range.mpr (hexist ref href)
  have hlength := ((hdistinct.map hindex).subperm hsubset).length_le
  rwa [List.length_map, List.length_range] at hlength

namespace Machine

variable {m n : Machine} {cell : CellRef} {ref : TableRef} {json : Json}

/-- Keys that hold numbers are these numbers. -/
theorem filterMap_numberKey? {keys : List CellRef} {numbers : List Decimal}
    (h : keys.map m.content = numbers.map Content.number) :
    keys.filterMap m.numberKey? = numbers := by
  induction keys generalizing numbers with
  | nil => exact (List.map_eq_nil_iff.mp h.symm).symm
  | cons key keys ih =>
    obtain ⟨d, others, rfl, hkey, hothers⟩ := List.map_eq_cons_iff.mp h.symm
    have hnumber : m.numberKey? key = some d := by
      rw [numberKey?, ← hkey]
    rw [List.filterMap_cons_some hnumber, ih hothers.symm]

/-- The numbers among the keys of an array are those of its items. -/
theorem numberKeys_of_items {items : List Json}
    (hkeys : (m.table ref).keys.map m.content = (Json.array items).labels) :
    (m.table ref).keys.filterMap m.numberKey? =
      (List.range items.length).map fun (i : Nat) ↦ Decimal.ofInt i :=
  filterMap_numberKey? (hkeys.trans (List.map_map ..).symm)

theorem isArray_of_items {items : List Json} (horderly : m.Orderly ref)
    (hkeys : (m.table ref).keys.map m.content = (Json.array items).labels)
    (hsize : items.length ≤ twoTo 63) : m.isArray ref = true := by
  have hcount : (m.table ref).size = items.length := by
    have hlength := length_values_eq hkeys
    rwa [Table.values, List.length_map, horderly.inOrder.length_entries] at hlength
  have hnumbers := numberKeys_of_items hkeys
  have hhighest := m.highestKey_eq ref
  unfold isArray
  dsimp only
  rw [hcount]
  cases hlength : items.length with
  | zero => rfl
  | succ last =>
    rw [hlength] at hsize hnumbers
    rw [hnumbers, Decimal.highest_range] at hhighest
    have hmem (key : CellRef) (hkey : key ∈ (m.table ref).keys) :
        ∃ i : Nat, m.numberKey? key = some (Decimal.ofInt i) := by
      have hlabel : m.content key ∈ (Json.array items).labels := hkeys ▸ List.mem_map_of_mem hkey
      obtain ⟨i, -, hi⟩ := List.mem_map.mp hlabel
      exact ⟨i, by rw [numberKey?, ← hi]⟩
    have hall : (m.table ref).keys.all m.isArrayKey = true := by
      refine List.all_eq_true.mpr fun key hkey ↦ ?_
      obtain ⟨i, hi⟩ := hmem key hkey
      unfold isArrayKey
      rw [hi]
      simp [Decimal.sign, Decimal.ofInt, Decimal.isWhole]
    have hzero : (m.table ref).keys.any m.isZeroKey = true := by
      have hfirst : Decimal.ofInt (0 : Nat) ∈ (m.table ref).keys.filterMap m.numberKey? := by
        rw [hnumbers]
        exact List.mem_map_of_mem (List.mem_range.mpr (Nat.zero_lt_succ last))
      obtain ⟨key, hkey, hnumber⟩ := List.mem_filterMap.mp hfirst
      refine List.any_eq_true.mpr ⟨key, hkey, ?_⟩
      unfold isZeroKey
      rw [hnumber]
      rfl
    rw [hall, hzero, hhighest, Decimal.word_ofInt (Nat.lt_of_succ_le hsize)]
    simp

/-- An object with a string for a key is no array. -/
theorem not_isArray_of_name {key : CellRef} {name : String} (hkey : key ∈ (m.table ref).keys)
    (hname : m.content key = .string name) : m.isArray ref = false := by
  have hsize : ((m.table ref).size == 0) = false := by
    refine beq_false_of_ne fun hzero ↦ ?_
    obtain ⟨entry, hentry, -⟩ := List.mem_map.mp hkey
    obtain ⟨i, hi, -⟩ := Table.mem_entries_iff.mp hentry
    omega
  have hall : (m.table ref).keys.all m.isArrayKey = false := by
    refine List.all_eq_false.mpr ⟨key, hkey, ?_⟩
    unfold isArrayKey numberKey?
    rw [hname]
    exact Bool.false_ne_true
  unfold isArray
  dsimp only
  rw [hsize, hall]
  rfl

/-! ### Exports -/

theorem display_string {s : String} (h : m.content cell = .string s) : m.display cell = s := by
  unfold display displayDepth
  rw [displayIn, h]

/-- Tables of a machine that are all different are no more than it has. -/
theorem length_le_tables {outer : List TableRef} (hdistinct : outer.Nodup)
    (hexist : ∀ ref ∈ outer, ref.index < m.tables.size) : outer.length ≤ m.tables.size :=
  length_le_of_index (fun _ _ hsame ↦ TableRef.eq_iff.mpr hsame) hdistinct hexist

/-- Assumes: an object that is not inside of itself, with the keys of a container, and values that
are exported as its parts. The object is exported as the container. -/
theorem exportIn_container {fuel : Nat} {outer : List TableRef} (h : m.content cell = .object ref)
    (hnew : ref ∉ outer) (horderly : m.Orderly ref) (hjson : json.IsContainer)
    (hkeys : (m.table ref).keys.map m.content = json.labels)
    (hinside : ∀ pair ∈ (m.table ref).values.zip json.parts,
      m.exportIn fuel (ref :: outer) pair.1 = .ok pair.2) :
    m.exportIn (fuel + 1) outer cell = .ok json := by
  have houter : ¬outer.contains ref = true := by
    rwa [List.contains_iff_mem]
  rw [Machine.exportIn, h]
  dsimp only
  rw [if_neg houter]
  cases hjson with
  | @array items hsize =>
    have hitems := mapM_eq_ok (length_values_eq hkeys) hinside
    rw [if_pos (isArray_of_items horderly hkeys hsize), hitems]
    rfl
  | @object members hmembers =>
    have hcount := length_values_eq hkeys
    rw [Table.values, List.length_map, Json.parts, List.length_map] at hcount
    have hentries : (m.table ref).entries.mapM (fun entry ↦ do
        return (m.display entry.key, ← m.exportIn fuel (ref :: outer) entry.value)) =
          (.ok members : Except ExportError (List (String × Json))) := by
      refine mapM_eq_ok hcount fun pair hpair ↦ ?_
      obtain ⟨hname, hvalue⟩ := entry_of_member hkeys hpair
      rw [display_string hname, hinside _ hvalue]
      rfl
    obtain ⟨member, others, rfl⟩ := List.exists_cons_of_ne_nil hmembers
    obtain ⟨first, hfirst⟩ := exists_left_of_mem hcount (List.mem_cons_self ..)
    have hkey := List.mem_map_of_mem (f := Entry.key) (List.of_mem_zip hfirst).1
    rw [not_isArray_of_name hkey (entry_of_member hkeys hfirst).1, if_neg Bool.false_ne_true,
      hentries]
    have hnames : (([] ++ member :: others).map Prod.fst).Nodup := nodup_names horderly hkeys
    exact congrArg (fun members ↦ Except.ok (Json.object members)) (Json.foldl_setMember hnames)

/-- Assumes: a value that has a form, inside different objects each of which leads to it. With a
step for each table that is not among them it is exported as its form. -/
theorem HasForm.exportIn (h : m.HasForm cell json) {fuel : Nat} {outer : List TableRef}
    (hdistinct : outer.Nodup) (hexist : ∀ ref ∈ outer, ref.index < m.tables.size)
    (hwithin : ∀ ref ∈ outer, ∀ whole, m.content whole = .object ref →
      Relation.TransGen m.Part whole cell)
    (hfuel : m.tables.size < fuel + outer.length) : m.exportIn fuel outer cell = .ok json := by
  induction h generalizing fuel outer with
  | null _ h | bool h | number h | string h =>
    have hlength := length_le_tables hdistinct hexist
    obtain ⟨less, rfl⟩ : ∃ less, fuel = less + 1 := ⟨fuel - 1, by omega⟩
    rw [Machine.exportIn, h]
  | @container cell ref json h horderly hjson hkeys hvalues ih =>
    have hlength := length_le_tables hdistinct hexist
    obtain ⟨less, rfl⟩ : ∃ less, fuel = less + 1 := ⟨fuel - 1, by omega⟩
    have hnew : ref ∉ outer := fun hmem ↦
      (HasForm.container h horderly hjson hkeys hvalues).acyclic (hwithin ref hmem cell h)
    have hinside : ∀ pair ∈ (m.table ref).values.zip json.parts,
        m.exportIn less (ref :: outer) pair.1 = .ok pair.2 := by
      intro pair hpair
      have hvalue := (List.of_mem_zip hpair).1
      refine ih pair hpair (List.nodup_cons.mpr ⟨hnew, hdistinct⟩)
        (List.forall_mem_cons.mpr ⟨horderly.table, hexist⟩)
        (List.forall_mem_cons.mpr ⟨fun whole hwhole ↦ .single ⟨ref, hwhole, hvalue⟩,
          fun other hother whole hwhole ↦
            (hwithin other hother whole hwhole).tail ⟨ref, h, hvalue⟩⟩) ?_
      rw [List.length_cons]
      omega
    exact exportIn_container h hnew horderly hjson hkeys hinside

/-- A value that has a form is exported as its form, unless that is refused. -/
theorem HasForm.toJson (h : m.HasForm cell json) :
    m.toJson cell =
      match json.refusal? with
      | some (objects, bracket) => .error (.tooDeep objects bracket)
      | none => .ok json := by
  have hexport : m.exportIn (m.tables.size + 1) [] cell = .ok json :=
    h.exportIn .nil nofun nofun (Nat.lt_succ_self _)
  unfold Machine.toJson
  rw [hexport]
  rfl

/-- The form of a value is refused exactly if an object with names within the value nests deeper
than a reader takes it. -/
theorem HasForm.refusal?_eq_none_iff (h : m.HasForm cell json) :
    json.refusal? = none ↔ ∀ part, Relation.ReflTransGen m.Part cell part → m.HasNames part →
      m.Tree Json.Reader.maxDepth part := by
  induction h with
  | null _ h | bool h | number h | string h =>
    refine ⟨fun _ part hwithin hnames ↦ ?_, fun _ ↦ rfl⟩
    rcases hwithin.cases_head with rfl | ⟨value, ⟨ref, hobject, -⟩, -⟩
    · obtain ⟨ref, hobject, -⟩ := hnames
      cases h.symm.trans hobject
    · cases h.symm.trans hobject
  | @container cell ref json h horderly hjson hkeys hvalues ih =>
    have hdepth : m.Tree Json.Reader.maxDepth cell ↔ json.depth ≤ Json.Reader.maxDepth :=
      (HasForm.container h horderly hjson hkeys hvalues).tree_iff
    have hlength := length_values_eq hkeys
    have hlabels (name : String) : .string name ∈ json.labels ↔
        ∃ key ∈ (m.table ref).keys, m.content key = .string name := by
      rw [← hkeys, List.mem_map]
    rw [hjson.refusal?_eq_none_iff]
    constructor
    · rintro ⟨hparts, hlimit⟩ part hwithin hnames
      rcases hwithin.cases_head with rfl | ⟨value, ⟨other, hobject, hvalue⟩, hrest⟩
      · obtain ⟨other, hobject, key, hkey, name, hname⟩ := hnames
        cases h.symm.trans hobject
        exact hdepth.mpr (hlimit name ((hlabels name).mpr ⟨key, hkey, hname⟩))
      · cases h.symm.trans hobject
        obtain ⟨inner, hpair⟩ := exists_right_of_mem hlength hvalue
        exact (ih _ hpair).mp (hparts inner (List.of_mem_zip hpair).2) part hrest hnames
    · refine fun hall ↦ ⟨fun inner hinner ↦ ?_, fun name hname ↦ ?_⟩
      · obtain ⟨value, hpair⟩ := exists_left_of_mem hlength hinner
        refine (ih _ hpair).mpr fun part hwithin hnames ↦ hall part (.head ?_ hwithin) hnames
        exact ⟨ref, h, (List.of_mem_zip hpair).1⟩
      · obtain ⟨key, hkey, hstring⟩ := (hlabels name).mp hname
        exact hdepth.mp (hall cell .refl ⟨ref, h, key, hkey, name, hstring⟩)

end Machine

end TreeScript
