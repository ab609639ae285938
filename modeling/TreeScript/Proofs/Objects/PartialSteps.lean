import TreeScript.Proofs.Enclosure.Additions
import TreeScript.Proofs.Objects.Stepping

/-!
# Steps that fail on the way

`++` and `--` go through the values of an object in their order, and through the objects among them
as they come to them. Nothing is undone if they come to a value that is neither a number nor an
object: the numbers that were met before it stay changed (`failed_step_is_not_undone`).
`Machine.Meets` is this walk, with the numbers that are met and the value at which it stops. A step
that fails has come to such a value, has changed the numbers it met on the way, each as many times
as it met it, and nothing else of what was there (`failed_step_changes_what_was_met`).

An evaluation follows the walk over the machine it began on, though it changes numbers as it goes:
which values an object has, and which of them are numbers, stays what it was (`Operator.Walks`).
-/

set_option autoImplicit false

namespace TreeScript

/-! ### The walk -/

/-- A walk over values, in which an object stands for its values: the numbers that are met one after
the other, and the value that is neither a number nor an object, if the walk comes to one and stops
there. -/
inductive Machine.Meets (m : Machine) : List CellRef → List CellRef → Option CellRef → Prop
  | done : m.Meets [] [] none
  | number {cell : CellRef} {d : Decimal} {rest met : List CellRef} {stop : Option CellRef}
      (hnumber : m.content cell = .number d) (hrest : m.Meets rest met stop) :
      m.Meets (cell :: rest) (cell :: met) stop
  | object {cell : CellRef} {ref : TableRef} {rest met : List CellRef} {stop : Option CellRef}
      (hobject : m.content cell = .object ref)
      (hrest : m.Meets ((m.table ref).values ++ rest) met stop) :
      m.Meets (cell :: rest) met stop
  | other {cell : CellRef} {rest : List CellRef} (hnumber : ∀ d, m.content cell ≠ .number d)
      (hobject : ∀ ref, m.content cell ≠ .object ref) :
      m.Meets (cell :: rest) [] (some cell)

namespace Machine.Meets

variable {m : Machine} {cells others met later : List CellRef} {cell culprit : CellRef}
  {ref : TableRef} {stop : Option CellRef}

/-- A walk that comes to the end goes on with what is behind. -/
theorem append (h : m.Meets cells met none) (h' : m.Meets others later stop) :
    m.Meets (cells ++ others) (met ++ later) stop := by
  generalize hend : (none : Option CellRef) = first at h
  induction h with
  | done => exact h'
  | number hnumber _ ih => exact .number hnumber (ih hend)
  | object hobject _ ih =>
    have hvalues := ih hend
    rw [List.append_assoc] at hvalues
    exact .object hobject hvalues
  | other => cases hend

/-- A walk that stops does so whatever is behind. -/
theorem append_stopped (h : m.Meets cells met (some culprit)) (others : List CellRef) :
    m.Meets (cells ++ others) met (some culprit) := by
  generalize hend : some culprit = first at h
  induction h with
  | done => cases hend
  | number hnumber _ ih => exact .number hnumber (ih hend)
  | object hobject _ ih =>
    have hvalues := ih hend
    rw [List.append_assoc] at hvalues
    exact .object hobject hvalues
  | other hnumber hobject =>
    cases hend
    exact .other hnumber hobject

/-- A walk over an object is one over its values. -/
theorem of_values (hobject : m.content cell = .object ref)
    (h : m.Meets (m.table ref).values met stop) : m.Meets [cell] met stop :=
  .object hobject (by rwa [List.append_nil])

/-- A walk meets the same numbers and stops at the same value whenever it is made. -/
theorem unique (h : m.Meets cells met stop) {met' : List CellRef} {stop' : Option CellRef}
    (h' : m.Meets cells met' stop') : met = met' ∧ stop = stop' := by
  induction h generalizing met' stop' with
  | done =>
    cases h'
    exact ⟨rfl, rfl⟩
  | number hnumber _ ih =>
    cases h' with
    | number _ hrest =>
      obtain ⟨hmet, hstop⟩ := ih hrest
      exact ⟨congrArg _ hmet, hstop⟩
    | object hobject _ => cases hnumber.symm.trans hobject
    | other hother _ => exact absurd hnumber (hother _)
  | object hobject _ ih =>
    cases h' with
    | number hnumber _ => cases hobject.symm.trans hnumber
    | object hobject' hrest =>
      cases hobject.symm.trans hobject'
      exact ih hrest
    | other _ hother => exact absurd hobject (hother _)
  | other hnumber hobject =>
    cases h' with
    | number hnumber' _ => exact absurd hnumber' (hnumber _)
    | object hobject' _ => exact absurd hobject' (hobject _)
    | other => exact ⟨rfl, rfl⟩

/-- What a walk meets are numbers that can be reached from where it began. -/
theorem reached (h : m.Meets cells met stop) :
    ∀ cell ∈ met, (∃ start ∈ cells, m.GetsTo start cell) ∧ ∃ d, m.content cell = .number d := by
  induction h with
  | done => exact nofun
  | @number cell d rest met stop hnumber _ ih =>
    refine List.forall_mem_cons.mpr ⟨⟨⟨cell, List.mem_cons_self .., .refl⟩, d, hnumber⟩,
      fun other hother ↦ ?_⟩
    obtain ⟨⟨start, hstart, hreached⟩, hholds⟩ := ih other hother
    exact ⟨⟨start, List.mem_cons_of_mem _ hstart, hreached⟩, hholds⟩
  | @object cell ref rest met stop hobject _ ih =>
    intro other hother
    obtain ⟨⟨start, hstart, hreached⟩, hholds⟩ := ih other hother
    refine ⟨?_, hholds⟩
    rcases List.mem_append.mp hstart with hvalue | hrest
    · exact ⟨cell, List.mem_cons_self .., .head ⟨ref, hobject, hvalue⟩ hreached⟩
    · exact ⟨start, List.mem_cons_of_mem _ hrest, hreached⟩
  | other => exact nofun

end Machine.Meets

/-! ### What has been changed -/

theorem Decimal.add_ofInt_zero (d : Decimal) : d + ofInt 0 = d :=
  toRat_injective (by simp)

/-- A delta has been added to the number in a cell once for each time the cell is listed. Everything
else that was there is as it was. -/
structure Machine.RaisesEach (m : Machine) (met : List CellRef) (delta : Int) (n : Machine) :
    Prop where
  cells : m.cells.size ≤ n.cells.size
  tables : m.tables.size ≤ n.tables.size
  table : ∀ ref : TableRef, ref.index < m.tables.size → n.table ref = m.table ref
  number : ∀ cell d, m.content cell = .number d →
    n.content cell = .number (d + Decimal.ofInt (met.count cell * delta))
  kept : ∀ cell : CellRef, cell.index < m.cells.size → (∀ d, m.content cell ≠ .number d) →
    n.content cell = m.content cell

namespace Machine.RaisesEach

variable {m n : Machine} {met : List CellRef} {delta : Int} {cell : CellRef}

theorem refl (m : Machine) (delta : Int) : m.RaisesEach [] delta m where
  cells := Nat.le_refl _
  tables := Nat.le_refl _
  table _ _ := rfl
  number cell d hnumber := by
    rw [List.count_nil, Int.natCast_zero, Int.zero_mul, Decimal.add_ofInt_zero, hnumber]
  kept _ _ _ := rfl

/-- New cells and tables leave what was there. -/
theorem grown {k : Machine} (h : m.RaisesEach met delta n) (hgrown : n.Grown k) :
    m.RaisesEach met delta k where
  cells := Nat.le_trans h.cells hgrown.cells.size
  tables := Nat.le_trans h.tables hgrown.size
  table ref href := by
    rw [hgrown.table ref (Nat.lt_of_lt_of_le href h.tables), h.table ref href]
  number cell d hnumber := by
    rw [hgrown.cells.content cell (Nat.lt_of_lt_of_le (bound_of_number hnumber) h.cells),
      h.number cell d hnumber]
  kept cell hcell hother := by
    rw [hgrown.cells.content cell (Nat.lt_of_lt_of_le hcell h.cells), h.kept cell hcell hother]

/-- What is entered in a new table leaves what was there. -/
theorem enter {ref : TableRef} (h : m.RaisesEach met delta n) (hnew : m.tables.size ≤ ref.index)
    (key value : CellRef) : m.RaisesEach met delta (n.after (.enter ref key value)) where
  cells := h.cells
  tables := Nat.le_trans h.tables (Nat.le_of_eq (size_after n _).2.symm)
  table other hother := by
    rw [table_enter_of_ne, h.table other hother]
    rintro rfl
    exact Nat.not_le_of_lt hother hnew
  number := h.number
  kept := h.kept

/-- A number that is stepped is met once more. -/
theorem step {d : Decimal} (h : m.RaisesEach met delta n) (hnumber : m.content cell = .number d)
    {d' : Decimal} (hnow : n.content cell = .number d') :
    m.RaisesEach (met ++ [cell]) delta
      (n.after (.overwrite cell (.number (d' + Decimal.ofInt delta)))) := by
  have hbound : cell.index < n.cells.size := bound_of_number hnow
  have helsewhere {other : CellRef} (hother : other ≠ cell) :
      (n.after (.overwrite cell (.number (d' + Decimal.ofInt delta)))).content other =
        n.content other := content_after hother.symm
  refine ⟨Nat.le_trans h.cells (Nat.le_of_eq (size_after n _).1.symm), h.tables, h.table,
    fun other former hformer ↦ ?_, fun other hother hdifferent ↦ ?_⟩
  · by_cases hsame : other = cell
    · subst hsame
      cases hnow.symm.trans (h.number other former hformer)
      rw [content_overwrite_self hbound, List.count_append,
        List.count_singleton_self]
      refine congrArg Content.number (Decimal.toRat_injective ?_)
      simp only [Decimal.toRat_add, Decimal.toRat_ofInt]
      push_cast
      ring
    · rw [helsewhere hsame, h.number other former hformer, List.count_append,
        List.count_singleton, beq_eq_false_iff_ne.mpr (Ne.symm hsame)]
      rfl
  · rw [helsewhere, h.kept other hother hdifferent]
    rintro rfl
    exact hdifferent d hnumber

/-- What is not listed holds what it held. -/
theorem content (h : m.RaisesEach met delta n) (hcell : cell.index < m.cells.size)
    (hother : cell ∉ met) : n.content cell = m.content cell := by
  by_cases hnumber : ∃ d, m.content cell = .number d
  · obtain ⟨d, hd⟩ := hnumber
    rw [h.number cell d hd, List.count_eq_zero_of_not_mem hother, Int.natCast_zero, Int.zero_mul,
      Decimal.add_ofInt_zero, hd]
  · exact h.kept cell hcell fun d hd ↦ hnumber ⟨d, hd⟩

end Machine.RaisesEach

/-! ### Failing on the way -/

namespace Operator

/-- What an operator says of a single operand that it has no action for. -/
def refusal (op : Operator) (m : Machine) (cell : CellRef) : Failure :=
  .plain
    s!"No matching type found for {op.symbol} on {m.describe cell}\nAvailable types: {op.combinations}"

/-- How a walk of an operator over some values ends, if some numbers have been stepped before: it
passes over all of them, is refused one of them, or runs out of fuel. Each number that was met has
been stepped. -/
inductive Walks {α : Type} (op : Operator) (m : Machine) (delta : Int)
    (before cells : List CellRef) : Outcome α → Prop
  | passed {met : List CellRef} {a : α} {n : Machine} (hmeets : m.Meets cells met none)
      (hraises : m.RaisesEach (before ++ met) delta n) : Walks op m delta before cells (.ok a n)
  | refused {met : List CellRef} {culprit : CellRef} {n : Machine}
      (hmeets : m.Meets cells met (some culprit))
      (hraises : m.RaisesEach (before ++ met) delta n) :
      Walks op m delta before cells (.error (op.refusal n culprit) n)
  | outOfFuel {n : Machine} : Walks op m delta before cells (.error .outOfFuel n)

variable {op : Operator} {m n : Machine} {delta : Int} {before : List CellRef}

/-- Assumes: a computation that walks over some values, and one that walks over others after it. One
after the other they walk over all of these values. -/
theorem Walks.bind {α β : Type} {x : Run α} {f : α → Run β} {cells others : List CellRef}
    (hx : op.Walks m delta before cells (x n))
    (hf : ∀ met a k, m.RaisesEach (before ++ met) delta k →
      op.Walks m delta (before ++ met) others (f a k)) :
    op.Walks m delta before (cells ++ others) ((x >>= f) n) := by
  cases hfirst : x n with
  | error e k =>
    rw [Run.bind_error hfirst]
    rw [hfirst] at hx
    cases hx with
    | refused hmeets hraises => exact .refused (hmeets.append_stopped others) hraises
    | outOfFuel => exact .outOfFuel
  | ok a k =>
    rw [Run.bind_ok hfirst]
    rw [hfirst] at hx
    cases hx with
    | passed hmeets hraises =>
      have hsecond := hf _ a k hraises
      generalize f a k = outcome at hsecond
      cases hsecond with
      | passed hmeets' hraises' =>
        exact .passed (hmeets.append hmeets') ((List.append_assoc ..) ▸ hraises')
      | refused hmeets' hraises' =>
        exact .refused (hmeets.append hmeets') ((List.append_assoc ..) ▸ hraises')
      | outOfFuel => exact .outOfFuel

/-- To walk over the values of an object is to walk over the object. -/
theorem Walks.of_values {α : Type} {cell : CellRef} {ref : TableRef} {outcome : Outcome α}
    (hobject : m.content cell = .object ref)
    (h : op.Walks m delta before (m.table ref).values outcome) :
    op.Walks m delta before [cell] outcome := by
  cases h with
  | passed hmeets hraises => exact .passed (hmeets.of_values hobject) hraises
  | refused hmeets hraises => exact .refused (hmeets.of_values hobject) hraises
  | outOfFuel => exact .outOfFuel

/-- Assumes: a step that walks over a value, whatever has been stepped before. To step the values of
entries one after the other, and enter the results in a new table, is to walk over these values. -/
theorem walks_foldlM {act : CellRef → Run CellRef} {out : TableRef}
    (hout : m.tables.size ≤ out.index) (entries : List Entry)
    (hact : ∀ entry ∈ entries, ∀ before n, m.RaisesEach before delta n →
      op.Walks m delta before [entry.value] (act entry.value n))
    (hn : m.RaisesEach before delta n) :
    op.Walks m delta before (entries.map Entry.value)
      (entries.foldlM (fun _ entry ↦ (do
        let value ← act entry.value
        setEntry out entry.key value : Run Unit)) () n) := by
  induction entries generalizing before n with
  | nil => exact .passed .done ((List.append_nil before).symm ▸ hn)
  | cons entry entries ih =>
    obtain ⟨hfirst, hrest⟩ := List.forall_mem_cons.mp hact
    rw [List.foldlM_cons, bind_assoc]
    change op.Walks m delta before ([entry.value] ++ entries.map Entry.value) _
    exact (hfirst before n hn).bind fun met value k hk ↦ ih hrest (hk.enter hout entry.key value)

/-- Assumes: an object with a slot for each of its entries, and a step that walks over each of its
values. To step the values is to walk over the object. -/
theorem walks_mapValues {act : CellRef → Run CellRef} {cell : CellRef} {ref : TableRef}
    (hobject : m.content cell = .object ref) (hexists : ref.index < m.tables.size)
    (hfilled : (m.table ref).size ≤ (m.table ref).slots.size)
    (hact : ∀ value ∈ (m.table ref).values, ∀ before n, m.RaisesEach before delta n →
      op.Walks m delta before [value] (act value n))
    (hn : m.RaisesEach before delta n) :
    op.Walks m delta before [cell] (mapValues ref (fun _ value ↦ act value) n) := by
  let out : TableRef := ⟨n.tables.size⟩
  have hcreated : newTable n = .ok out n.withTable := rfl
  have hstart : m.RaisesEach before delta n.withTable := hn.grown n.grown_withTable
  have hentry : ∀ entry ∈ (m.table ref).entries, ∀ before n, m.RaisesEach before delta n →
      op.Walks m delta before [entry.value] (act entry.value n) :=
    fun entry hentry ↦ hact entry.value (List.mem_map_of_mem hentry)
  have hwalk : op.Walks m delta before (m.table ref).values
      (forEntries ref () (fun _ entry ↦ do
        let value ← act entry.value
        setEntry out entry.key value) n.withTable) := by
    -- The table stays as it is, whatever has been stepped.
    rw [forEntries_eq (I := fun k ↦ ∃ before, m.RaisesEach before delta k)
      (fun k hk ↦ hk.choose_spec.table ref hexists) (Table.length_entries_of_le hfilled) ?_
      ⟨before, hstart⟩]
    · exact walks_foldlM hn.tables _ hentry hstart
    · rintro entry hmem _ k _ k' ⟨earlier, hk⟩ hstep
      obtain ⟨value, stepped, hvalue, hset⟩ := Run.bind_eq_ok_iff.mp hstep
      cases hset
      have hwalked := hentry entry hmem earlier k hk
      rw [hvalue] at hwalked
      cases hwalked with
      | passed _ hraises => exact ⟨_, hraises.enter hn.tables entry.key value⟩
  have hmade : op.Walks m delta before ((m.table ref).values ++ [])
      ((forEntries ref () (fun _ entry ↦ do
        let value ← act entry.value
        setEntry out entry.key value) >>= fun _ ↦ newObject out) n.withTable) :=
    hwalk.bind fun met _ k hk ↦
      .passed .done ((List.append_nil (before ++ met)).symm ▸ hk.grown (k.grown_withCell _))
  rw [List.append_nil] at hmade
  unfold mapValues
  rw [Run.bind_ok hcreated]
  exact hmade.of_values hobject

/-- Assumes: a machine that mentions only what is there, and a value that is a number or has stayed
what it was. An operator that steps numbers walks over it. -/
theorem Steps.dispatch1_walks (h : op.Steps delta) (hwhole : m.Whole) (fuel : Nat) {cell : CellRef}
    (hn : m.RaisesEach before delta n)
    (hkept : (∀ d, m.content cell ≠ .number d) → n.content cell = m.content cell) :
    op.Walks m delta before [cell] (op.dispatch1 fuel cell n) := by
  obtain ⟨answersFormer, hactions⟩ := id h
  induction fuel generalizing cell before n with
  | zero => exact .outOfFuel
  | succ fuel ih =>
    by_cases hnumber : ∃ d, m.content cell = .number d
    · obtain ⟨d, hd⟩ := hnumber
      obtain ⟨result, hstepped, -⟩ := h.dispatch1_number fuel (hn.number cell d hd)
      rw [hstepped]
      have hcopied := hn.grown (n.grown_withCell
        (.number (d + Decimal.ofInt (before.count cell * delta))))
      exact .passed (.number hd .done) (hcopied.step hd (hcopied.number cell d hd))
    · have hsame : n.content cell = m.content cell := hkept fun d hd ↦ hnumber ⟨d, hd⟩
      have hrule : op.unaryRule? (n.typeName cell) = none := by
        rw [unaryRule?_of_actions hactions, if_neg]
        intro htype
        obtain ⟨d, hd⟩ := content_number (name_of_isType (by decide) htype)
        exact hnumber ⟨d, hsame.symm.trans hd⟩
      rw [Operator.dispatch1, Run.get_bind, hrule]
      cases hobject : n.tableOf? cell with
      | none =>
        refine .refused (.other (fun d hd ↦ hnumber ⟨d, hd⟩) fun ref href ↦ ?_)
          ((List.append_nil before).symm ▸ hn)
        rw [Machine.tableOf?_eq_some_iff.mpr (hsame.trans href)] at hobject
        cases hobject
      | some ref =>
        have hformer : m.content cell = .object ref :=
          hsame.symm.trans (Machine.tableOf?_eq_some_iff.mp hobject)
        refine walks_mapValues hformer (hwhole.object hformer) (hwhole.table ref).size
          (fun value hvalue before k hk ↦ ih hk (hk.kept value ?_)) hn
        exact Nat.lt_of_not_le ((hwhole.table ref).values value hvalue)

/-- Assumes: a machine that mentions only what is there. `++` and `--` walk over the operand. -/
theorem walks_evaluate {symbol : String} (hsymbol : symbol ∈ stepping) {fixity : Fixity}
    (hfixity : fixity ∈ beside) (call : Call) (hwhole : m.Whole) (target : CellRef) :
    ∃ op ∈ standardOperators, op.symbol = symbol ∧ op.fixity = fixity ∧
      op.Walks m (Operator.delta symbol) [] [target]
        (standard.evaluate call symbol fixity [target] m) := by
  obtain ⟨op, hop, rfl, rfl⟩ := exists_stepping symbol hsymbol fixity hfixity
  refine ⟨op, hop, rfl, rfl, ?_⟩
  rw [evaluate_eq_dispatch1 hop hsymbol hfixity]
  exact (steps_of_stepping op hop hsymbol).dispatch1_walks hwhole call.fuel (.refl m _) fun _ ↦ rfl

/-- Assumes: a machine that mentions only what is there, and `++` or `--`, in front of an operand or
behind it, with a failure that is not a lack of fuel. The operator has come to a value that is
neither a number nor an object, and says so. Each number that it met on the way has been stepped, as
many times as it was met; these are numbers that can be reached from the operand. Whatever else was
there is as it was, and that is everything if the operand is not an object. -/
theorem failed_step_changes_what_was_met {call : Call} {symbol : String} {fixity : Fixity}
    {target : CellRef} {e : Failure} (hwhole : m.Whole) (hsymbol : symbol ∈ stepping)
    (hfixity : fixity ∈ beside)
    (hfailed : standard.evaluate call symbol fixity [target] m = .error e n)
    (hfuel : e ≠ .outOfFuel) :
    ∃ op ∈ standardOperators, op.symbol = symbol ∧ op.fixity = fixity ∧
      ∃ met culprit, m.Meets [target] met (some culprit) ∧ e = op.refusal n culprit ∧
        m.RaisesEach met (Operator.delta symbol) n ∧
        (∀ cell ∈ met, m.GetsTo target cell ∧ ∃ d, m.content cell = .number d) ∧
        (∀ cell : CellRef, cell.index < m.cells.size → cell ∉ met →
          n.content cell = m.content cell) ∧
        (m.tableOf? target = none → met = []) := by
  obtain ⟨op, hop, hname, hplace, hwalks⟩ := walks_evaluate hsymbol hfixity call hwhole target
  rw [hfailed] at hwalks
  cases hwalks with
  | outOfFuel => exact absurd rfl hfuel
  | @refused met culprit _ hmeets hraises =>
    refine ⟨op, hop, hname, hplace, met, culprit, hmeets, rfl, hraises, fun cell hcell ↦ ?_,
      fun cell ↦ hraises.content, fun hplain ↦ ?_⟩
    · obtain ⟨⟨start, hstart, hreached⟩, hnumber⟩ := hmeets.reached cell hcell
      exact ⟨List.mem_singleton.mp hstart ▸ hreached, hnumber⟩
    · cases hmeets with
      | number _ hrest => cases hrest
      | object hobject _ =>
        rw [Machine.tableOf?_eq_some_iff.mpr hobject] at hplain
        cases hplain
      | other => rfl

/-- An array of the number 1 and a text. -/
def numberAndText : Machine where
  cells := #[.number (.ofInt 0), .number (.ofInt 1), .number (.ofInt 1), .string "a", .object ⟨0⟩]
  tables := #[
    { slots := #[⟨⟨0⟩, ⟨2⟩⟩, ⟨⟨1⟩, ⟨3⟩⟩], size := 2, capacity := 2,
      index := (Std.HashMap.insert {} (.number (.ofInt 0)) 0).insert (.number (.ofInt 1)) 1 }]

theorem numberAndText_whole : numberAndText.Whole := by
  refine ⟨?_, ?_, fun _ ↦ Enclosure.openBindings_empty, fun _ ↦ Enclosure.openCells_nil,
    fun _ ↦ trivial, fun _ href ↦ (nomatch href), fun _ href ↦ (nomatch href)⟩
  · rintro ⟨i⟩
    match i with
    | 0 | 1 | 2 | 3 => trivial
    | 4 => exact (by decide : ¬1 ≤ 0)
    | i + 5 => trivial
  · rintro ⟨i⟩
    match i with
    | 0 =>
      refine ⟨fun i entry hentry ↦ ?_, fun _ hblock ↦ absurd hblock (Array.not_mem_empty _),
        Nat.le_refl _⟩
      match i with
      | 0 | 1 =>
        cases hentry
        exact ⟨(by decide : ¬5 ≤ _), (by decide : ¬5 ≤ _)⟩
    | i + 1 => exact Enclosure.openTable_empty

/-- To step the array is refused for the text, when the number has become 2. -/
theorem numberAndText_refused : ∃ n,
    standard.evaluate (.detached 20 2) "++" .prefixOp [⟨4⟩] numberAndText =
        .error (.plain "No matching type found for ++ on a (string)\nAvailable types: ++number") n ∧
      n.content ⟨2⟩ = .number (.ofInt 2) := by
  let op : Operator := before1 "++" 140 [numeric (.step 1 false)]
  have hop : op ∈ standardOperators := by decide
  have hevaluated : standard.evaluate (.detached 20 2) "++" .prefixOp [⟨4⟩] =
      op.dispatch1 2 ⟨4⟩ := evaluate_eq_dispatch1 hop (by decide) (by decide) _ _
  have hfailure : Outcome.failure? (op.dispatch1 2 ⟨4⟩ numberAndText) =
      some (.plain "No matching type found for ++ on a (string)\nAvailable types: ++number") := by
    decide
  refine ⟨Outcome.final (op.dispatch1 2 ⟨4⟩ numberAndText), ?_, rfl⟩
  rw [hevaluated]
  exact Outcome.eq_error hfailure

/-- The number is stepped once, and nothing else of the array changes. -/
theorem number_is_stepped_before_text :
    numberAndText.Whole ∧ ∃ e n,
      standard.evaluate (.detached 20 2) "++" .prefixOp [⟨4⟩] numberAndText = .error e n ∧
        e ≠ .outOfFuel ∧ numberAndText.RaisesEach [⟨2⟩] 1 n := by
  obtain ⟨n, hrefused, -⟩ := numberAndText_refused
  obtain ⟨-, -, -, -, met, culprit, hmeets, -, hraises, -⟩ :=
    failed_step_changes_what_was_met numberAndText_whole (by decide) (by decide) hrefused nofun
  have hwalk : numberAndText.Meets [⟨4⟩] [⟨2⟩] (some ⟨3⟩) :=
    .object rfl (.number rfl (.other nofun nofun))
  obtain ⟨rfl, -⟩ := hwalk.unique hmeets
  exact ⟨numberAndText_whole, _, n, hrefused, nofun, hraises⟩

/-- A number that can be reached from the operand does not hold what it held, though the step has
failed. -/
theorem failed_step_is_not_undone :
    ∃ e n, standard.evaluate (.detached 20 2) "++" .prefixOp [⟨4⟩] numberAndText = .error e n ∧
      e = .plain "No matching type found for ++ on a (string)\nAvailable types: ++number" ∧
      numberAndText.GetsTo ⟨4⟩ ⟨2⟩ ∧ numberAndText.content ⟨2⟩ = .number (.ofInt 1) ∧
        n.content ⟨2⟩ = .number (.ofInt 2) := by
  obtain ⟨n, hrefused, hstepped⟩ := numberAndText_refused
  have hpart : numberAndText.Part ⟨4⟩ ⟨2⟩ := ⟨⟨0⟩, rfl, by decide⟩
  exact ⟨_, n, hrefused, rfl, .single hpart, rfl, hstepped⟩

end Operator

end TreeScript
