import Mathlib.Tactic.Choose
import TreeScript.Proofs.Export.Exporting

/-!
# The text of a value comes to an end

The display of a value goes down through objects that may contain themselves, and cuts off an object
where it is inside itself. `Machine.Displays` gives its rules, each of which speaks of the display of
the parts of a value, and none of a bound on the depth. A derivation is a display that comes to an
end, with the objects that were cut off on the way.

The display of a value always comes to an end, and with the text that the machine answers
(`displays_display`): the objects around a value are different tables of the machine, and the
instances of host types around it are different instances. What is cut off are objects inside
themselves and nothing else (`Displays.circular_of_mem`), so a value is shown in full exactly if no
object it shows is inside itself, however often its parts occur in it (`Displays.cut_eq_nil_iff`).

Scope. The text of an instance of a host type is made by the host. A vector has its parts displayed
anew, outside of all objects around it; a vector inside itself would never end, which is excluded by
assumption (`HostsEnd`).
-/

set_option autoImplicit false

open Relation (ReflTransGen TransGen)

namespace TreeScript

namespace Machine

/-! ### Rules -/

/-- The text of a value that shows no other values. -/
def plainText? (m : Machine) : Content → Option String
  | .empty => some "null"
  | .number d => some d.text
  | .string s => some s
  | .boolean b => some (if b then "true" else "false")
  | .regex r => some r.pattern
  | .iterator _ => some "<<iterator>>"
  | .function _ closure =>
    some ("(" ++ Node.commas closure.params ++ ") -> " ++ closure.body.code)
  | .native .. => some "<<native function>>"
  | .method .. => some "<<instance function>>"
  | .hostMethod _ method _ => some (method.type.name ++ "." ++ method.name)
  | .hostType type => some ("type " ++ type.name)
  | .custom ref =>
    match m.instanceOf ref with
    | .vector .. => none
    | .odd _ mode => some ("Odd:" ++ mode)
    | .counted type count => some (type.name ++ countText count)
  | .object _ => none

/-- What is displayed of an object: its values, and its keys unless it is an array. -/
def displayedParts (m : Machine) (ref : TableRef) : List CellRef :=
  if m.isArray ref then (m.table ref).values
  else (m.table ref).entries.flatMap fun entry ↦ [entry.key, entry.value]

/-- The text of an object whose parts have the given texts. -/
def objectText (m : Machine) (ref : TableRef) (text : CellRef → String) : String :=
  if m.isArray ref then "[" ++ Node.commas ((m.table ref).values.map text) ++ "]"
  else
    "\x7b" ++ Node.commas ((m.table ref).entries.map fun entry ↦
      text entry.key ++ ": " ++ text entry.value) ++ "\x7d"

/-- The display of a value inside the objects `outer` comes to an end, with a text and with the
objects that are cut off in it. -/
inductive Displays (m : Machine) : List TableRef → CellRef → String → List TableRef → Prop
  | plain {outer : List TableRef} {cell : CellRef} {text : String}
      (h : m.plainText? (m.content cell) = some text) : Displays m outer cell text []
  | vector {outer : List TableRef} {cell x y : CellRef} {ref : InstanceRef} {type : HostType}
      {z : Option CellRef} {first second : String} {cut cut' : List TableRef}
      (h : m.content cell = .custom ref) (hvector : m.instanceOf ref = .vector type x y z)
      (hfirst : Displays m [] x first cut) (hsecond : Displays m [] y second cut') :
      Displays m outer cell ("<" ++ first ++ ", " ++ second ++ ">") (cut ++ cut')
  | circular {outer : List TableRef} {cell : CellRef} {ref : TableRef}
      (h : m.content cell = .object ref) (hinside : ref ∈ outer) :
      Displays m outer cell "<circular-reference-object@PTR>" [ref]
  | object {outer : List TableRef} {cell : CellRef} {ref : TableRef} {text : CellRef → String}
      {cut : CellRef → List TableRef} (h : m.content cell = .object ref) (houtside : ref ∉ outer)
      (hparts : ∀ part ∈ m.displayedParts ref,
        Displays m (ref :: outer) part (text part) (cut part)) :
      Displays m outer cell (m.objectText ref text) ((m.displayedParts ref).flatMap cut)

/-- The display of one value shows another one as a part of it. -/
inductive Nests (m : Machine) (whole part : CellRef) : Prop
  | object {ref : TableRef} (h : m.content whole = .object ref)
      (hpart : part ∈ m.displayedParts ref)
  | vector {ref : InstanceRef} {type : HostType} {x y : CellRef} {z : Option CellRef}
      (h : m.content whole = .custom ref) (hvector : m.instanceOf ref = .vector type x y z)
      (hpart : part = x ∨ part = y)

/-- An object is a key or a value of another one. -/
def HasObject (m : Machine) (outer inner : TableRef) : Prop :=
  ∃ entry ∈ (m.table outer).entries,
    m.content entry.key = .object inner ∨ m.content entry.value = .object inner

/-- The displays of the instances of host types within a value come to an end: no such instance is
within itself. -/
def HostsEnd (m : Machine) (root : CellRef) : Prop :=
  ∀ host again ref, ReflTransGen m.Nests root host → m.content host = .custom ref →
    TransGen m.Nests host again → m.content again ≠ .custom ref

variable {m : Machine} {root cell whole part : CellRef} {ref : TableRef} {outer : List TableRef}

/-! ### What is displayed of an object -/

theorem plainText?_eq_none {content : Content} (h : m.plainText? content = none) :
    (∃ ref, content = .object ref) ∨
      ∃ ref type x y z, content = .custom ref ∧ m.instanceOf ref = .vector type x y z := by
  cases content with
  | object ref => exact .inl ⟨ref, rfl⟩
  | custom ref =>
    rw [plainText?] at h
    cases hinstance : m.instanceOf ref with
    | vector type x y z => exact .inr ⟨ref, type, x, y, z, rfl, hinstance⟩
    | odd | counted =>
      rw [hinstance] at h
      cases h
  | _ => cases h

theorem mem_displayedParts_iff_of_isArray (harray : m.isArray ref = true) :
    part ∈ m.displayedParts ref ↔ part ∈ (m.table ref).values := by
  unfold displayedParts
  rw [if_pos harray]

theorem mem_displayedParts_iff_of_not_isArray (hobject : m.isArray ref = false) :
    part ∈ m.displayedParts ref ↔
      ∃ entry ∈ (m.table ref).entries, part = entry.key ∨ part = entry.value := by
  unfold displayedParts
  rw [if_neg (Bool.eq_false_iff.mp hobject), List.mem_flatMap]
  simp

theorem entry_of_mem_displayedParts (h : part ∈ m.displayedParts ref) :
    ∃ entry ∈ (m.table ref).entries, part = entry.key ∨ part = entry.value := by
  cases harray : m.isArray ref with
  | true =>
    obtain ⟨entry, hentry, rfl⟩ :=
      List.mem_map.mp ((mem_displayedParts_iff_of_isArray harray).mp h)
    exact ⟨entry, hentry, .inr rfl⟩
  | false => exact (mem_displayedParts_iff_of_not_isArray harray).mp h

/-- The keys of an array are numbers. -/
theorem numberKey?_of_isArray (harray : m.isArray ref = true) {key : CellRef}
    (hkey : key ∈ (m.table ref).keys) : ∃ d, m.numberKey? key = some d ∧ d.isWhole ∧ 0 ≤ d.sign := by
  have hsize : (m.table ref).size ≠ 0 := by
    intro hzero
    obtain ⟨entry, hentry, -⟩ := List.mem_map.mp hkey
    obtain ⟨i, hi, -⟩ := Table.mem_entries_iff.mp hentry
    omega
  unfold isArray at harray
  simp only [beq_iff_eq, hsize, Bool.or_eq_true, Bool.and_eq_true, false_or,
    List.all_eq_true] at harray
  have hnumber := harray.1.1 key hkey
  unfold isArrayKey at hnumber
  split at hnumber
  · next d hd => exact ⟨d, hd, by simpa using hnumber⟩
  · cases hnumber

/-- An object among the keys and values of another one is displayed with it. -/
theorem Nests.of_hasObject {inner : TableRef} (h : m.content whole = .object ref)
    (hobject : m.HasObject ref inner) :
    ∃ part, m.Nests whole part ∧ m.content part = .object inner := by
  obtain ⟨entry, hentry, hinner⟩ := hobject
  cases harray : m.isArray ref with
  | true =>
    rcases hinner with hkey | hvalue
    · obtain ⟨d, hnumber, -⟩ := numberKey?_of_isArray harray (List.mem_map_of_mem hentry)
      rw [numberKey?, hkey] at hnumber
      cases hnumber
    · exact ⟨_, .object h ((mem_displayedParts_iff_of_isArray harray).mpr
        (List.mem_map_of_mem hentry)), hvalue⟩
  | false =>
    rcases hinner with hkey | hvalue
    · exact ⟨_, .object h ((mem_displayedParts_iff_of_not_isArray harray).mpr
        ⟨entry, hentry, .inl rfl⟩), hkey⟩
    · exact ⟨_, .object h ((mem_displayedParts_iff_of_not_isArray harray).mpr
        ⟨entry, hentry, .inr rfl⟩), hvalue⟩

theorem HasObject.of_mem_displayedParts {inner : TableRef} (hpart : part ∈ m.displayedParts ref)
    (hinner : m.content part = .object inner) : m.HasObject ref inner := by
  obtain ⟨entry, hentry, rfl | rfl⟩ := entry_of_mem_displayedParts hpart
  · exact ⟨entry, hentry, .inl hinner⟩
  · exact ⟨entry, hentry, .inr hinner⟩

theorem objectText_congr {text text' : CellRef → String}
    (h : ∀ part ∈ m.displayedParts ref, text part = text' part) :
    m.objectText ref text = m.objectText ref text' := by
  unfold objectText
  cases harray : m.isArray ref with
  | true =>
    have hvalues : (m.table ref).values.map text = (m.table ref).values.map text' :=
      List.map_congr_left fun value hvalue ↦
        h value ((mem_displayedParts_iff_of_isArray harray).mpr hvalue)
    rw [if_pos rfl, if_pos rfl, hvalues]
  | false =>
    have hentries : (m.table ref).entries.map (fun entry ↦
          text entry.key ++ ": " ++ text entry.value) =
        (m.table ref).entries.map fun entry ↦ text' entry.key ++ ": " ++ text' entry.value := by
      refine List.map_congr_left fun entry hentry ↦ ?_
      rw [h _ ((mem_displayedParts_iff_of_not_isArray harray).mpr ⟨entry, hentry, .inl rfl⟩),
        h _ ((mem_displayedParts_iff_of_not_isArray harray).mpr ⟨entry, hentry, .inr rfl⟩)]
    rw [if_neg Bool.false_ne_true, if_neg Bool.false_ne_true, hentries]

/-- A table the machine does not have is empty. -/
theorem exists_of_mem_entries {entry : Entry} (hentry : entry ∈ (m.table ref).entries) :
    ref.index < m.tables.size := by
  by_contra hbeyond
  rw [table_of_missing (Nat.not_lt.mp hbeyond)] at hentry
  cases hentry

/-- An instance the machine does not have is no vector. -/
theorem exists_of_vector {instRef : InstanceRef} {type : HostType} {x y : CellRef}
    {z : Option CellRef} (hvector : m.instanceOf instRef = .vector type x y z) :
    instRef.index < m.instances.size := by
  by_contra hbeyond
  have hdefault : m.instanceOf instRef = default := by
    unfold instanceOf
    rw [Array.getElem?_eq_none (Nat.not_lt.mp hbeyond)]
    rfl
  cases hdefault.symm.trans hvector

/-! ### The steps of the display -/

theorem displayIn_of_plain {text : String} (fuel : Nat)
    (h : m.plainText? (m.content cell) = some text) :
    m.displayIn (fuel + 1) outer cell = text := by
  unfold displayIn
  cases hcontent : m.content cell with
  | custom ref =>
    rw [hcontent, plainText?] at h
    dsimp only
    cases hinstance : m.instanceOf ref with
    | vector =>
      rw [hinstance] at h
      cases h
    | odd | counted =>
      rw [hinstance] at h
      exact Option.some.inj h
  | object =>
    rw [hcontent] at h
    cases h
  | _ =>
    rw [hcontent] at h
    exact Option.some.inj h

theorem displayIn_vector {instRef : InstanceRef} {type : HostType} {x y : CellRef}
    {z : Option CellRef} (fuel : Nat) (h : m.content cell = .custom instRef)
    (hvector : m.instanceOf instRef = .vector type x y z) :
    m.displayIn (fuel + 1) outer cell =
      "<" ++ m.displayIn fuel [] x ++ ", " ++ m.displayIn fuel [] y ++ ">" := by
  rw [displayIn, h]
  dsimp only
  rw [hvector]

theorem displayIn_circular (fuel : Nat) (h : m.content cell = .object ref) (hinside : ref ∈ outer) :
    m.displayIn (fuel + 1) outer cell = "<circular-reference-object@PTR>" := by
  rw [displayIn, h]
  dsimp only
  rw [if_pos (List.contains_iff_mem.mpr hinside)]

theorem displayIn_object (fuel : Nat) (h : m.content cell = .object ref) (houtside : ref ∉ outer) :
    m.displayIn (fuel + 1) outer cell = m.objectText ref (m.displayIn fuel (ref :: outer)) := by
  rw [displayIn, h]
  dsimp only
  rw [if_neg (by rwa [List.contains_iff_mem])]
  rfl

/-! ### The display ends -/

/-- Where the display of `root` is when it comes to a value: within the vectors `hosts`, and since
the last of them inside the objects `outer`. -/
structure Path (m : Machine) (root : CellRef) (hosts : List InstanceRef) (outer : List TableRef)
    (cell : CellRef) : Prop where
  reached : ReflTransGen m.Nests root cell
  hosts_nodup : hosts.Nodup
  hosts_exist : ∀ ref ∈ hosts, ref.index < m.instances.size
  hosts_around : ∀ ref ∈ hosts, ∃ host, m.content host = .custom ref ∧
    ReflTransGen m.Nests root host ∧ TransGen m.Nests host cell
  outer_nodup : outer.Nodup
  outer_exist : ∀ ref ∈ outer, ref.index < m.tables.size

/-- How much deeper a display can go: through the tables it is not inside of, and after each other
vector through all of them again. -/
def depthLeft (m : Machine) (hosts : List InstanceRef) (outer : List TableRef) : Nat :=
  (m.instances.size - hosts.length) * (m.tables.size + 1) + (m.tables.size - outer.length)

variable {hosts : List InstanceRef}

theorem depthLeft_nil (m : Machine) : m.depthLeft [] [] < m.displayDepth := by
  unfold depthLeft displayDepth
  rw [Nat.mul_comm, Nat.mul_succ]
  simp only [List.length_nil, Nat.sub_zero]
  omega

namespace Path

variable {instRef : InstanceRef}

theorem start (m : Machine) (cell : CellRef) : m.Path cell [] [] cell where
  reached := .refl
  hosts_nodup := .nil
  hosts_exist := nofun
  hosts_around := nofun
  outer_nodup := .nil
  outer_exist := nofun

theorem into_vector (h : m.Path root hosts outer cell) (hhosts : m.HostsEnd root)
    (hcell : m.content cell = .custom instRef) (hexist : instRef.index < m.instances.size)
    (hpart : m.Nests cell part) : m.Path root (instRef :: hosts) [] part where
  reached := h.reached.tail hpart
  hosts_nodup := by
    refine List.nodup_cons.mpr ⟨fun hmem ↦ ?_, h.hosts_nodup⟩
    obtain ⟨host, hhost, hreached, haround⟩ := h.hosts_around _ hmem
    exact hhosts host cell _ hreached hhost haround hcell
  hosts_exist := List.forall_mem_cons.mpr ⟨hexist, h.hosts_exist⟩
  hosts_around := by
    refine List.forall_mem_cons.mpr ⟨⟨cell, hcell, h.reached, .single hpart⟩, fun other hother ↦ ?_⟩
    obtain ⟨host, hhost, hreached, haround⟩ := h.hosts_around other hother
    exact ⟨host, hhost, hreached, haround.tail hpart⟩
  outer_nodup := .nil
  outer_exist := nofun

theorem into_object (h : m.Path root hosts outer cell) (houtside : ref ∉ outer)
    (hexist : ref.index < m.tables.size) (hpart : m.Nests cell part) :
    m.Path root hosts (ref :: outer) part where
  reached := h.reached.tail hpart
  hosts_nodup := h.hosts_nodup
  hosts_exist := h.hosts_exist
  hosts_around := fun other hother ↦
    (h.hosts_around other hother).imp fun _ hhost ↦ ⟨hhost.1, hhost.2.1, hhost.2.2.tail hpart⟩
  outer_nodup := List.nodup_cons.mpr ⟨houtside, h.outer_nodup⟩
  outer_exist := List.forall_mem_cons.mpr ⟨hexist, h.outer_exist⟩

theorem hosts_le (h : m.Path root hosts outer cell) : hosts.length ≤ m.instances.size :=
  length_le_of_index (fun _ _ hsame ↦ by rwa [InstanceRef.mk.injEq]) h.hosts_nodup h.hosts_exist

theorem outer_le (h : m.Path root hosts outer cell) : outer.length ≤ m.tables.size :=
  length_le_tables h.outer_nodup h.outer_exist

/-- Inside one more vector, all tables may come again, but there is one vector less to come. -/
theorem depthLeft_vector (h : m.Path root (instRef :: hosts) [] part) :
    m.depthLeft (instRef :: hosts) [] < m.depthLeft hosts outer := by
  have hle := h.hosts_le
  rw [List.length_cons] at hle
  unfold depthLeft
  obtain ⟨left, hleft⟩ : ∃ left, m.instances.size - hosts.length = left + 1 :=
    ⟨m.instances.size - hosts.length - 1, by omega⟩
  have hless : m.instances.size - (instRef :: hosts).length = left := by
    rw [List.length_cons]
    omega
  rw [hleft, hless, Nat.succ_mul, List.length_nil]
  omega

theorem depthLeft_object (h : m.Path root hosts (ref :: outer) part) :
    m.depthLeft hosts (ref :: outer) < m.depthLeft hosts outer := by
  have hle := h.outer_le
  unfold depthLeft
  rw [List.length_cons] at hle ⊢
  omega

/-- Assumes: vectors within the value that end. With a step for everything the display can still go
through, it comes to an end with the text the machine answers. -/
theorem displays (h : m.Path root hosts outer cell) (hhosts : m.HostsEnd root) {fuel : Nat}
    (hfuel : m.depthLeft hosts outer < fuel) :
    ∃ cut, m.Displays outer cell (m.displayIn fuel outer cell) cut := by
  induction fuel generalizing hosts outer cell with
  | zero => cases hfuel
  | succ fuel ih =>
    cases hplain : m.plainText? (m.content cell) with
    | some text =>
      rw [displayIn_of_plain fuel hplain]
      exact ⟨[], .plain hplain⟩
    | none =>
      rcases plainText?_eq_none hplain with ⟨ref, hcell⟩ | ⟨ref, type, x, y, z, hcell, hvector⟩
      · by_cases hinside : ref ∈ outer
        · rw [displayIn_circular fuel hcell hinside]
          exact ⟨[ref], .circular hcell hinside⟩
        · have hparts : ∀ part ∈ m.displayedParts ref, ∃ cut,
              m.Displays (ref :: outer) part (m.displayIn fuel (ref :: outer) part) cut := by
            intro part hpart
            obtain ⟨entry, hentry, -⟩ := entry_of_mem_displayedParts hpart
            have hinner := h.into_object hinside (exists_of_mem_entries hentry)
              (.object hcell hpart)
            have hless := hinner.depthLeft_object
            exact ih hinner (by omega)
          choose! cut hcut using hparts
          rw [displayIn_object fuel hcell hinside]
          exact ⟨_, .object hcell hinside hcut⟩
      · have hpart (part : CellRef) (hxy : part = x ∨ part = y) :
            ∃ cut, m.Displays [] part (m.displayIn fuel [] part) cut := by
          have hinner := h.into_vector hhosts hcell (exists_of_vector hvector)
            (.vector hcell hvector hxy)
          have hless : m.depthLeft (_ :: hosts) [] < m.depthLeft hosts outer :=
            hinner.depthLeft_vector
          exact ih hinner (by omega)
        obtain ⟨cut, hfirst⟩ := hpart x (.inl rfl)
        obtain ⟨cut', hsecond⟩ := hpart y (.inr rfl)
        rw [displayIn_vector fuel hcell hvector]
        exact ⟨cut ++ cut', .vector hcell hvector hfirst hsecond⟩

end Path

/-- The display of a value comes to an end with the text the machine answers. -/
theorem displays_display (hhosts : m.HostsEnd cell) : ∃ cut, m.Displays [] cell (m.display cell) cut :=
  (Path.start m cell).displays hhosts (depthLeft_nil m)

namespace Displays

variable {text text' : String} {cut cut' : List TableRef}

/-- The display of a value comes to one end only. -/
theorem unique (h : m.Displays outer cell text cut) (h' : m.Displays outer cell text' cut') :
    text = text' ∧ cut = cut' := by
  induction h generalizing text' cut' with
  | plain hplain =>
    cases h' with
    | plain hplain' => exact ⟨Option.some.inj (hplain.symm.trans hplain'), rfl⟩
    | vector hcell hvector =>
      rw [hcell, plainText?, hvector] at hplain
      cases hplain
    | circular hcell | object hcell =>
      rw [hcell] at hplain
      cases hplain
  | vector hcell hvector _ _ ih ih' =>
    cases h' with
    | plain hplain =>
      rw [hcell, plainText?, hvector] at hplain
      cases hplain
    | vector hcell' hvector' hfirst hsecond =>
      cases hcell.symm.trans hcell'
      cases hvector.symm.trans hvector'
      obtain ⟨rfl, rfl⟩ := ih hfirst
      obtain ⟨rfl, rfl⟩ := ih' hsecond
      exact ⟨rfl, rfl⟩
    | circular hcell' | object hcell' => cases hcell.symm.trans hcell'
  | circular hcell hinside =>
    cases h' with
    | plain hplain =>
      rw [hcell] at hplain
      cases hplain
    | vector hcell' => cases hcell.symm.trans hcell'
    | circular hcell' =>
      cases hcell.symm.trans hcell'
      exact ⟨rfl, rfl⟩
    | object hcell' houtside =>
      cases hcell.symm.trans hcell'
      exact absurd hinside houtside
  | object hcell houtside _ ih =>
    cases h' with
    | plain hplain =>
      rw [hcell] at hplain
      cases hplain
    | vector hcell' => cases hcell.symm.trans hcell'
    | circular hcell' hinside =>
      cases hcell.symm.trans hcell'
      exact absurd hinside houtside
    | object hcell' _ hparts =>
      cases hcell.symm.trans hcell'
      exact ⟨objectText_congr fun part hpart ↦ (ih part hpart (hparts part hpart)).1,
        List.flatMap_congr fun part hpart ↦ (ih part hpart (hparts part hpart)).2⟩

/-! ### What is cut off -/

/-- Assumes: a value that is inside the objects `outer`. An object that is cut off in it is within
the value, and inside itself. -/
theorem circular_of_mem (h : m.Displays outer cell text cut)
    (houter : ∀ around ∈ outer, ∀ inner, m.content cell = .object inner →
      TransGen m.HasObject around inner) (hcut : ref ∈ cut) :
    ∃ part, ReflTransGen m.Nests cell part ∧ m.content part = .object ref ∧
      TransGen m.HasObject ref ref := by
  induction h with
  | plain => cases hcut
  | vector hcell hvector _ _ ih ih' =>
    rcases List.mem_append.mp hcut with hcut | hcut
    · obtain ⟨part, hwithin, hcircle⟩ := ih nofun hcut
      exact ⟨part, .head (.vector hcell hvector (.inl rfl)) hwithin, hcircle⟩
    · obtain ⟨part, hwithin, hcircle⟩ := ih' nofun hcut
      exact ⟨part, .head (.vector hcell hvector (.inr rfl)) hwithin, hcircle⟩
  | circular hcell hinside =>
    obtain rfl := List.mem_singleton.mp hcut
    exact ⟨_, .refl, hcell, houter _ hinside _ hcell⟩
  | object hcell _ _ ih =>
    obtain ⟨part, hpart, hcut⟩ := List.mem_flatMap.mp hcut
    obtain ⟨inner, hwithin, hcircle⟩ := ih part hpart (List.forall_mem_cons.mpr
      ⟨fun inner hinner ↦ .single (.of_mem_displayedParts hpart hinner),
        fun around haround inner hinner ↦
          (houter around haround _ hcell).tail (.of_mem_displayedParts hpart hinner)⟩) hcut
    exact ⟨inner, .head (.object hcell hpart) hwithin, hcircle⟩

/-- Assumes: a display in which nothing is cut off. Every way down through the parts of the value
comes to an end. -/
theorem acc (h : m.Displays outer cell text cut) (hcut : cut = []) :
    Acc (Function.swap m.Nests) cell := by
  induction h with
  | plain hplain =>
    refine .intro _ fun part hpart ↦ ?_
    cases hpart with
    | object hcell =>
      rw [hcell] at hplain
      cases hplain
    | vector hcell hvector =>
      rw [hcell, plainText?, hvector] at hplain
      cases hplain
  | vector hcell hvector _ _ ih ih' =>
    refine .intro _ fun part hpart ↦ ?_
    obtain ⟨hcut, hcut'⟩ := List.append_eq_nil_iff.mp hcut
    cases hpart with
    | object hcell' => cases hcell.symm.trans hcell'
    | vector hcell' hvector' hxy =>
      cases hcell.symm.trans hcell'
      cases hvector.symm.trans hvector'
      rcases hxy with rfl | rfl
      · exact ih hcut
      · exact ih' hcut'
  | circular => cases hcut
  | object hcell _ _ ih =>
    refine .intro _ fun part hpart ↦ ?_
    cases hpart with
    | object hcell' hpart =>
      cases hcell.symm.trans hcell'
      exact ih part hpart (List.flatMap_eq_nil_iff.mp hcut part hpart)
    | vector hcell' => cases hcell.symm.trans hcell'

end Displays

/-- Assumes: a value from which every way down through its parts comes to an end, and ways from
object to object that are ways through parts. No object within the value is inside itself. -/
theorem not_circular_of_acc {parts : CellRef → CellRef → Prop}
    {objects : TableRef → TableRef → Prop} (h : Acc (Function.swap parts) cell)
    (hobjects : ∀ {whole ref inner}, m.content whole = .object ref → objects ref inner →
      ∃ part, parts whole part ∧ m.content part = .object inner)
    (hwithin : ReflTransGen parts cell part) (hpart : m.content part = .object ref) :
    ¬TransGen objects ref ref := by
  have hdown {whole : CellRef} {inner : TableRef} (hwhole : m.content whole = .object ref)
      (hinner : TransGen objects ref inner) :
      ∃ part, TransGen parts whole part ∧ m.content part = .object inner := by
    induction hinner with
    | single hobject =>
      obtain ⟨part, hstep, hpart⟩ := hobjects hwhole hobject
      exact ⟨part, .single hstep, hpart⟩
    | tail _ hobject ih =>
      obtain ⟨middle, hway, hmiddle⟩ := ih
      obtain ⟨part, hstep, hpart⟩ := hobjects hmiddle hobject
      exact ⟨part, hway.tail hstep, hpart⟩
  have hends : Acc (TransGen (Function.swap parts)) part := by
    refine Acc.transGen ?_
    clear hpart
    induction hwithin with
    | refl => exact h
    | tail _ hstep ih => exact ih.inv hstep
  intro hcircle
  clear hwithin
  induction hends with
  | intro part _ ih =>
    -- The way around leads to another value that holds the same object.
    obtain ⟨again, hway, hagain⟩ := hdown hpart hcircle
    exact ih again (TransGen.swap _ _ hway) hagain

/-- The display of a value shows everything in full exactly if no object within it is inside
itself. -/
theorem Displays.cut_eq_nil_iff {text : String} {cut : List TableRef}
    (h : m.Displays [] cell text cut) :
    cut = [] ↔ ∀ part ref, ReflTransGen m.Nests cell part → m.content part = .object ref →
      ¬TransGen m.HasObject ref ref := by
  constructor
  · intro hcut part ref hwithin hpart
    exact not_circular_of_acc (h.acc hcut) Nests.of_hasObject hwithin hpart
  · intro hnone
    refine List.eq_nil_iff_forall_not_mem.mpr fun ref hcut ↦ ?_
    obtain ⟨part, hwithin, hpart, hcircle⟩ := h.circular_of_mem nofun hcut
    exact hnone part ref hwithin hpart hcircle

end Machine

end TreeScript
