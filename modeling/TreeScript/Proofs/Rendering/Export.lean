import TreeScript.Proofs.Rendering.Display

/-!
# The export of a value comes to an end

The export of a value to JSON goes down through the values of objects, and fails where an object is
inside itself. `Machine.Exports` gives its rules without a bound on the depth, as `Machine.Displays`
does for the display, which writes the names of members and all that has no JSON form of its own.

The export always comes to an end (`exports_exportIn`), and it fails exactly if some object within
the value is inside itself by way of values (`Exports.fails_iff`). An object that is a key inside
itself, or that occurs many times but not within itself, is no reason to fail.
-/

set_option autoImplicit false

open Relation (ReflTransGen TransGen)

namespace TreeScript

/-! ### Lists of answers -/

section

variable {α β ε : Type} {f : α → Except ε β} {xs : List α}

theorem exists_of_mapM_eq_error {error : ε} (h : xs.mapM f = .error error) :
    ∃ x ∈ xs, f x = .error error := by
  induction xs with
  | nil => cases h
  | cons x xs ih =>
    rw [List.mapM_cons] at h
    cases hx : f x with
    | error failure =>
      rw [hx] at h
      cases h
      exact ⟨x, List.mem_cons_self .., hx⟩
    | ok y =>
      rw [hx] at h
      cases hxs : xs.mapM f with
      | error failure =>
        rw [hxs] at h
        cases h
        obtain ⟨other, hother, hfails⟩ := ih hxs
        exact ⟨other, List.mem_cons_of_mem _ hother, hfails⟩
      | ok ys =>
        rw [hxs] at h
        cases h

theorem forall₂_of_mapM_eq_ok {ys : List β} (h : xs.mapM f = .ok ys) :
    List.Forall₂ (fun x y ↦ f x = .ok y) xs ys := by
  induction xs generalizing ys with
  | nil =>
    cases h
    exact .nil
  | cons x xs ih =>
    rw [List.mapM_cons] at h
    cases hx : f x with
    | error failure =>
      rw [hx] at h
      cases h
    | ok y =>
      rw [hx] at h
      cases hxs : xs.mapM f with
      | error failure =>
        rw [hxs] at h
        cases h
      | ok others =>
        rw [hxs] at h
        cases h
        exact .cons hx (ih hxs)

theorem forall_of_mapM_eq_ok {ys : List β} (h : xs.mapM f = .ok ys) :
    ∀ x ∈ xs, ∃ y, f x = .ok y := by
  intro x hmem
  obtain ⟨i, hi, rfl⟩ := List.getElem_of_mem hmem
  have hanswers := forall₂_of_mapM_eq_ok h
  exact ⟨_, hanswers.get hi (hanswers.length_eq ▸ hi)⟩

end

namespace Machine

/-! ### Rules -/

/-- The JSON of a value that has one by itself. -/
def plainJson? : Content → Option Json
  | .empty => some .null
  | .number d => some (.number d.text)
  | .string s => some (.string s)
  | .boolean b => some (.bool b)
  | _ => none

/-- What the export of an object answers whose keys have the given texts and whose values are
exported with the given answers. The first value that fails is the last one exported. -/
def objectExport (m : Machine) (ref : TableRef) (label : CellRef → String)
    (answer : CellRef → Except ExportError Json) : Except ExportError Json :=
  if m.isArray ref then do
    return .array (← (m.table ref).values.mapM answer)
  else do
    let members ← (m.table ref).entries.mapM fun entry ↦ do
      return (label entry.key, ← answer entry.value)
    return .object (members.foldl (fun acc (name, value) ↦ Json.setMember name value acc) [])

/-- The export of a value inside the objects `outer` comes to an end with an answer. -/
inductive Exports (m : Machine) : List TableRef → CellRef → Except ExportError Json → Prop
  | plain {outer : List TableRef} {cell : CellRef} {json : Json}
      (h : plainJson? (m.content cell) = some json) : Exports m outer cell (.ok json)
  | shown {outer : List TableRef} {cell : CellRef} {text : String} {cut : List TableRef}
      (h : plainJson? (m.content cell) = none) (hnone : m.tableOf? cell = none)
      (htext : m.Displays [] cell text cut) : Exports m outer cell (.ok (.string text))
  | circular {outer : List TableRef} {cell : CellRef} {ref : TableRef}
      (h : m.content cell = .object ref) (hinside : ref ∈ outer) :
      Exports m outer cell (.error .circular)
  | object {outer : List TableRef} {cell : CellRef} {ref : TableRef} {label : CellRef → String}
      {answer : CellRef → Except ExportError Json} (h : m.content cell = .object ref)
      (houtside : ref ∉ outer)
      (hlabels : m.isArray ref = false → ∀ key ∈ (m.table ref).keys,
        ∃ cut, m.Displays [] key (label key) cut)
      (hvalues : ∀ value ∈ (m.table ref).values, Exports m (ref :: outer) value (answer value)) :
      Exports m outer cell (m.objectExport ref label answer)

/-- An object is a value of another one. -/
def HasObjectValue (m : Machine) (outer inner : TableRef) : Prop :=
  ∃ value ∈ (m.table outer).values, m.content value = .object inner

variable {m : Machine} {root cell whole part : CellRef} {ref : TableRef} {outer : List TableRef}
  {answer : Except ExportError Json}

theorem objectExport_eq_error {label : CellRef → String}
    {answer : CellRef → Except ExportError Json} {error : ExportError}
    (h : m.objectExport ref label answer = .error error) :
    ∃ value ∈ (m.table ref).values, answer value = .error error := by
  unfold objectExport at h
  cases harray : m.isArray ref with
  | true =>
    rw [harray, if_pos rfl] at h
    cases hvalues : (m.table ref).values.mapM answer with
    | error failure =>
      rw [hvalues] at h
      cases h
      exact exists_of_mapM_eq_error hvalues
    | ok items =>
      rw [hvalues] at h
      cases h
  | false =>
    rw [harray, if_neg Bool.false_ne_true] at h
    cases hmembers : (m.table ref).entries.mapM (fun entry ↦ do
        return (label entry.key, ← answer entry.value)) with
    | error failure =>
      rw [hmembers] at h
      cases h
      obtain ⟨entry, hentry, hfails⟩ := exists_of_mapM_eq_error hmembers
      refine ⟨entry.value, List.mem_map_of_mem hentry, ?_⟩
      cases hvalue : answer entry.value with
      | error failure =>
        rw [hvalue] at hfails
        cases hfails
        rfl
      | ok json =>
        rw [hvalue] at hfails
        cases hfails
    | ok members =>
      rw [hmembers] at h
      cases h

theorem objectExport_eq_ok {label : CellRef → String} {answer : CellRef → Except ExportError Json}
    {json : Json} (h : m.objectExport ref label answer = .ok json) :
    ∀ value ∈ (m.table ref).values, ∃ inner, answer value = .ok inner := by
  unfold objectExport at h
  cases harray : m.isArray ref with
  | true =>
    rw [harray, if_pos rfl] at h
    cases hvalues : (m.table ref).values.mapM answer with
    | error failure =>
      rw [hvalues] at h
      cases h
    | ok items => exact forall_of_mapM_eq_ok hvalues
  | false =>
    rw [harray, if_neg Bool.false_ne_true] at h
    cases hmembers : (m.table ref).entries.mapM (fun entry ↦ do
        return (label entry.key, ← answer entry.value)) with
    | error failure =>
      rw [hmembers] at h
      cases h
    | ok members =>
      intro value hvalue
      obtain ⟨entry, hentry, rfl⟩ := List.mem_map.mp hvalue
      obtain ⟨member, hmember⟩ := forall_of_mapM_eq_ok hmembers entry hentry
      cases hanswer : answer entry.value with
      | error failure =>
        rw [hanswer] at hmember
        cases hmember
      | ok inner => exact ⟨inner, rfl⟩

/-! ### The export ends -/

theorem HostsEnd.nests (h : m.HostsEnd root) (hwithin : ReflTransGen m.Nests root cell) :
    m.HostsEnd cell :=
  fun host again ref hreached ↦ h host again ref (hwithin.trans hreached)

theorem Nests.of_mem_values (h : m.content whole = .object ref)
    (hvalue : part ∈ (m.table ref).values) : m.Nests whole part := by
  cases harray : m.isArray ref with
  | true => exact .object h ((mem_displayedParts_iff_of_isArray harray).mpr hvalue)
  | false =>
    obtain ⟨entry, hentry, rfl⟩ := List.mem_map.mp hvalue
    exact .object h ((mem_displayedParts_iff_of_not_isArray harray).mpr ⟨entry, hentry, .inr rfl⟩)

theorem Nests.of_mem_keys (h : m.content whole = .object ref) (hobject : m.isArray ref = false)
    (hkey : part ∈ (m.table ref).keys) : m.Nests whole part := by
  obtain ⟨entry, hentry, rfl⟩ := List.mem_map.mp hkey
  exact .object h ((mem_displayedParts_iff_of_not_isArray hobject).mpr ⟨entry, hentry, .inl rfl⟩)

/-- Assumes: different objects of the machine around a value, and a step for each of its tables that
is not among them. The export of the value comes to an end with what the machine answers. -/
theorem exports_exportIn {fuel : Nat} (hhosts : m.HostsEnd cell) (hdistinct : outer.Nodup)
    (hexist : ∀ ref ∈ outer, ref.index < m.tables.size)
    (hfuel : m.tables.size < fuel + outer.length) :
    m.Exports outer cell (m.exportIn fuel outer cell) := by
  induction fuel generalizing outer cell with
  | zero =>
    have hlength := length_le_tables hdistinct hexist
    omega
  | succ fuel ih =>
    rw [exportIn]
    cases hcell : m.content cell with
    | object ref =>
      dsimp only
      by_cases hinside : ref ∈ outer
      · rw [if_pos (List.contains_iff_mem.mpr hinside)]
        exact .circular hcell hinside
      · rw [if_neg (by rwa [List.contains_iff_mem])]
        refine .object hcell hinside (fun hobject key hkey ↦ ?_) fun value hvalue ↦ ?_
        · exact displays_display (hhosts.nests (.single (.of_mem_keys hcell hobject hkey)))
        · obtain ⟨entry, hentry, rfl⟩ := List.mem_map.mp hvalue
          refine ih (hhosts.nests (.single (.of_mem_values hcell hvalue)))
            (List.nodup_cons.mpr ⟨hinside, hdistinct⟩)
            (List.forall_mem_cons.mpr ⟨exists_of_mem_entries hentry, hexist⟩) ?_
          rw [List.length_cons]
          omega
    | empty | number | string | boolean => exact .plain (by rw [hcell]; rfl)
    | _ =>
      obtain ⟨cut, hcut⟩ := displays_display hhosts
      exact .shown (by rw [hcell]; rfl) (by rw [tableOf?, hcell]) hcut

/-! ### When it fails -/

namespace Exports

/-- Assumes: a value that is inside the objects `outer`. If its export fails, an object within it is
inside itself. -/
theorem circular_of_error (h : m.Exports outer cell answer)
    (houter : ∀ around ∈ outer, ∀ inner, m.content cell = .object inner →
      TransGen m.HasObjectValue around inner) {error : ExportError} (hanswer : answer = .error error) :
    ∃ part ref, ReflTransGen m.Part cell part ∧ m.content part = .object ref ∧
      TransGen m.HasObjectValue ref ref := by
  induction h with
  | plain | shown => cases hanswer
  | circular hcell hinside => exact ⟨_, _, .refl, hcell, houter _ hinside _ hcell⟩
  | object hcell _ _ _ ih =>
    obtain ⟨value, hvalue, hfails⟩ := objectExport_eq_error hanswer
    obtain ⟨part, ref, hwithin, hcircle⟩ := ih value hvalue (List.forall_mem_cons.mpr
      ⟨fun inner hinner ↦ .single ⟨value, hvalue, hinner⟩,
        fun around haround inner hinner ↦
          (houter around haround _ hcell).tail ⟨value, hvalue, hinner⟩⟩) hfails
    exact ⟨part, ref, .head ⟨_, hcell, hvalue⟩ hwithin, hcircle⟩

/-- If the export of a value succeeds, every way down through its values comes to an end. -/
theorem acc (h : m.Exports outer cell answer) {json : Json} (hanswer : answer = .ok json) :
    Acc (Function.swap m.Part) cell := by
  induction h generalizing json with
  | plain hplain =>
    refine .intro _ fun part hpart ↦ ?_
    obtain ⟨ref, hcell, -⟩ := hpart
    rw [hcell] at hplain
    cases hplain
  | shown _ hnone =>
    refine .intro _ fun part hpart ↦ ?_
    obtain ⟨ref, hcell, -⟩ := hpart
    cases hnone.symm.trans (tableOf?_eq_some_iff.mpr hcell)
  | circular => cases hanswer
  | object hcell _ _ _ ih =>
    refine .intro _ fun part hpart ↦ ?_
    obtain ⟨ref, hcell', hvalue⟩ := hpart
    cases hcell.symm.trans hcell'
    obtain ⟨inner, hinner⟩ := objectExport_eq_ok hanswer part hvalue
    exact ih part hvalue hinner

/-- The export of a value fails exactly if an object within the value is inside itself. -/
theorem fails_iff (h : m.Exports [] cell answer) :
    (∃ error, answer = .error error) ↔ ∃ part ref, ReflTransGen m.Part cell part ∧
      m.content part = .object ref ∧ TransGen m.HasObjectValue ref ref := by
  constructor
  · rintro ⟨error, hanswer⟩
    exact h.circular_of_error nofun hanswer
  · rintro ⟨part, ref, hwithin, hpart, hcircle⟩
    cases hanswer : answer with
    | error error => exact ⟨error, rfl⟩
    | ok json =>
      refine absurd hcircle (not_circular_of_acc (h.acc hanswer) ?_ hwithin hpart)
      rintro whole ref inner hwhole ⟨value, hvalue, hinner⟩
      exact ⟨value, ⟨ref, hwhole, hvalue⟩, hinner⟩

end Exports

/-- Rendering ends. Assumes: instances of host types within the value whose own display ends. The
display of the value comes to an end, with the text the machine answers; it cuts off only objects
inside themselves, and nothing if no object displayed with the value is inside itself. The export of
the value comes to an end with what the machine answers, and fails exactly if an object reached
through values is inside itself by way of values. -/
theorem rendering_ends (hhosts : m.HostsEnd cell) :
    (∃ cut, m.Displays [] cell (m.display cell) cut ∧
      (∀ ref ∈ cut, TransGen m.HasObject ref ref) ∧
      (cut = [] ↔ ∀ part ref, ReflTransGen m.Nests cell part → m.content part = .object ref →
        ¬TransGen m.HasObject ref ref)) ∧
    m.Exports [] cell (m.exportIn (m.tables.size + 1) [] cell) ∧
    ((∃ error, m.exportIn (m.tables.size + 1) [] cell = .error error) ↔
      ∃ part ref, ReflTransGen m.Part cell part ∧ m.content part = .object ref ∧
        TransGen m.HasObjectValue ref ref) := by
  obtain ⟨cut, hdisplay⟩ := displays_display hhosts
  have hexport : m.Exports [] cell (m.exportIn (m.tables.size + 1) [] cell) :=
    exports_exportIn hhosts .nil nofun (Nat.lt_succ_self _)
  refine ⟨⟨cut, hdisplay, fun ref hcut ↦ ?_, hdisplay.cut_eq_nil_iff⟩, hexport, hexport.fails_iff⟩
  obtain ⟨part, -, -, hcircle⟩ := hdisplay.circular_of_mem nofun hcut
  exact hcircle

/-- An object that is a value and a key of itself and holds an empty object three times, and behind
it an object that holds the same empty object twice. -/
def knot : Machine :=
  { cells := #[.object ⟨0⟩, .string "self", .string "left", .string "right", .object ⟨1⟩,
      .object ⟨2⟩]
    tables := #[
      { slots := #[⟨⟨1⟩, ⟨0⟩⟩, ⟨⟨0⟩, ⟨4⟩⟩, ⟨⟨2⟩, ⟨4⟩⟩, ⟨⟨3⟩, ⟨4⟩⟩], size := 4, capacity := 4
        index := .ofList [(.string "self", 0), (.table ⟨0⟩, 1), (.string "left", 2),
          (.string "right", 3)] },
      {},
      { slots := #[⟨⟨2⟩, ⟨4⟩⟩, ⟨⟨3⟩, ⟨4⟩⟩], size := 2, capacity := 2
        index := .ofList [(.string "left", 0), (.string "right", 1)] }] }

theorem hostsEnd_of_forall (h : ∀ content ∈ m.cells, ∀ ref, content ≠ .custom ref) :
    m.HostsEnd root := by
  intro host again ref _ hhost
  unfold content at hhost
  cases hcell : m.cells[host.index]? with
  | none =>
    rw [hcell] at hhost
    cases hhost
  | some content =>
    rw [hcell] at hhost
    exact absurd hhost (h content (Array.mem_of_getElem? hcell) ref)

theorem rendering_knot_ends :
    knot.HostsEnd ⟨0⟩ ∧
    (∃ cut, knot.Displays [] ⟨0⟩ ("\x7bself: <circular-reference-object@PTR>, " ++
      "<circular-reference-object@PTR>: [], left: [], right: []\x7d") cut ∧ cut ≠ []) ∧
    ∃ error, knot.exportIn (knot.tables.size + 1) [] ⟨0⟩ = .error error := by
  have hhosts : knot.HostsEnd ⟨0⟩ := by
    refine hostsEnd_of_forall ?_
    simp [knot]
  have hentry : (⟨⟨1⟩, ⟨0⟩⟩ : Entry) ∈ (knot.table ⟨0⟩).entries := by decide
  obtain ⟨⟨cut, hdisplay, -, hcut⟩, -, hfails⟩ := rendering_ends hhosts
  refine ⟨hhosts, ⟨cut, ?_, fun hnone ↦ ?_⟩, hfails.mpr ?_⟩
  · have htext : knot.display ⟨0⟩ = "\x7bself: <circular-reference-object@PTR>, " ++
        "<circular-reference-object@PTR>: [], left: [], right: []\x7d" := by decide +kernel
    rwa [htext] at hdisplay
  · exact hcut.mp hnone ⟨0⟩ ⟨0⟩ .refl rfl (.single ⟨_, hentry, .inr rfl⟩)
  · exact ⟨⟨0⟩, ⟨0⟩, .refl, rfl, .single ⟨⟨0⟩, List.mem_map_of_mem hentry, rfl⟩⟩

example : knot.display ⟨5⟩ = "\x7bleft: [], right: []\x7d" := by decide +kernel

end Machine

end TreeScript
