import Mathlib.Data.Finset.Card
import Mathlib.Data.Finset.Prod
import TreeScript.Proofs.Objects.Entries
import TreeScript.Proofs.Run
import TreeScript.Store.Compare

/-!
# Comparing values ends

The comparison of two values is bounded by a number of steps, and a comparison that has used them up
answers "equal". `Machine.Compares` gives its rules without a bound: what is left to compare is a
list of pairs, and the comparison of two objects puts the values under their keys in front of that
list. A derivation is a comparison that has come to its end. Every two values have one, with the
answer that the bounded comparison gives (`compares_equal`): each pair of objects is entered into
the pairs that are taken to be equal before the values in it are compared, so no pair of tables is
opened twice (`card_unmet_insert_lt`), and the bound is above the number of pairs there are.
-/

set_option autoImplicit false

namespace TreeScript

/-! ### The rules -/

/-- Two values other than objects that are the same: scalars with equal payload, and one function,
method, iterator or type. -/
inductive Content.Same : Content → Content → Prop where
  | empty : Same .empty .empty
  | number (d : Decimal) : Same (.number d) (.number d)
  | boolean (b : Bool) : Same (.boolean b) (.boolean b)
  | string (s : String) : Same (.string s) (.string s)
  | regex {x y : Regex} (hpattern : x.pattern = y.pattern) (hflags : x.flags = y.flags) :
      Same (.regex x) (.regex y)
  | function (stamp : Stamp) (closure closure' : Closure) :
      Same (.function stamp closure) (.function stamp closure')
  | method (stamp : Stamp) (method method' : Method) (receiver receiver' : CellRef) :
      Same (.method stamp method receiver) (.method stamp method' receiver')
  | native (stamp : Stamp) (native native' : Native) :
      Same (.native stamp native) (.native stamp native')
  | hostMethod (stamp : Stamp) (method method' : HostMethod) (receiver receiver' : CellRef) :
      Same (.hostMethod stamp method receiver) (.hostMethod stamp method' receiver')
  | iterator (ref : IteratorRef) : Same (.iterator ref) (.iterator ref)
  | hostType {type type' : HostType} (hstamp : type.stamp = type'.stamp) :
      Same (.hostType type) (.hostType type')

namespace Content

theorem same_number_iff {x y : Decimal} : (number x).Same (number y) ↔ x = y :=
  ⟨fun | .number _ => rfl, fun | rfl => .number x⟩

theorem same_boolean_iff {x y : Bool} : (boolean x).Same (boolean y) ↔ x = y :=
  ⟨fun | .boolean _ => rfl, fun | rfl => .boolean x⟩

theorem same_string_iff {x y : String} : (string x).Same (string y) ↔ x = y :=
  ⟨fun | .string _ => rfl, fun | rfl => .string x⟩

theorem same_regex_iff {x y : Regex} :
    (regex x).Same (regex y) ↔ x.pattern = y.pattern ∧ x.flags = y.flags :=
  ⟨fun | .regex hpattern hflags => ⟨hpattern, hflags⟩,
    fun ⟨hpattern, hflags⟩ => .regex hpattern hflags⟩

/-- Values that are the same are of one kind, and one key. -/
theorem Same.keyId_eq {x y : Content} (h : x.Same y) : x.kind = y.kind ∧ x.keyId = y.keyId := by
  cases h <;> simp_all [kind, keyId]

/-- What makes two keys the same makes two values the same, where keys go by all there is to a
value. -/
theorem same_of_keyId_eq {x y : Content} (hkind : x.kind = y.kind) (hid : x.keyId = y.keyId)
    (hregex : x.kind ≠ .regex) (hobject : x.kind ≠ .object) (hcustom : x.kind ≠ .customType) :
    x.Same y := by
  cases x <;> cases y <;> cases hkind
  case regex.regex => exact absurd rfl hregex
  case object.object => exact absurd rfl hobject
  case custom.custom => exact absurd rfl hcustom
  case hostType.hostType => exact .hostType (KeyId.stamp.inj hid)
  all_goals
    cases hid
    constructor

end Content

namespace Machine

/-- The values of an object, each with what its key leads to in another one. -/
def counterparts (m : Machine) (s t : TableRef) : List (CellRef × Option CellRef) :=
  (m.table s).entries.map fun entry ↦ (entry.value, m.lookUp t entry.key)

/-- The comparison of all pairs of a list, where some pairs of objects are taken to be equal, comes
to an end with an answer. A value that is missing on the other side ends it. -/
inductive Compares (m : Machine) : Assumed → List (CellRef × Option CellRef) → Bool → Prop where
  | done {assumed : Assumed} : Compares m assumed [] true
  | missing {assumed : Assumed} {a : CellRef} {rest : List (CellRef × Option CellRef)} :
      Compares m assumed ((a, none) :: rest) false
  | same {assumed : Assumed} {a b : CellRef} {rest : List (CellRef × Option CellRef)}
      {answer : Bool}
      (hsame : (m.content a).Same (m.content b)) (hrest : Compares m assumed rest answer) :
      Compares m assumed ((a, some b) :: rest) answer
  | different {assumed : Assumed} {a b : CellRef} {rest : List (CellRef × Option CellRef)}
      (hplain : m.tableOf? a = none ∨ m.tableOf? b = none)
      (hdifferent : ¬(m.content a).Same (m.content b)) :
      Compares m assumed ((a, some b) :: rest) false
  | met {assumed : Assumed} {a b : CellRef} {rest : List (CellRef × Option CellRef)} {answer : Bool}
      {s t : TableRef} (ha : m.tableOf? a = some s) (hb : m.tableOf? b = some t)
      (hmet : s = t ∨ assumed.contains (s, t)) (hrest : Compares m assumed rest answer) :
      Compares m assumed ((a, some b) :: rest) answer
  | sizes {assumed : Assumed} {a b : CellRef} {rest : List (CellRef × Option CellRef)}
      {s t : TableRef} (ha : m.tableOf? a = some s) (hb : m.tableOf? b = some t)
      (hnew : ¬(s = t ∨ assumed.contains (s, t)))
      (hsizes : (m.table s).size ≠ (m.table t).size) :
      Compares m assumed ((a, some b) :: rest) false
  | opened {assumed : Assumed} {a b : CellRef} {rest : List (CellRef × Option CellRef)}
      {answer : Bool} {s t : TableRef} (ha : m.tableOf? a = some s) (hb : m.tableOf? b = some t)
      (hnew : ¬(s = t ∨ assumed.contains (s, t)))
      (hsizes : (m.table s).size = (m.table t).size)
      (hvalues : Compares m (assumed.insert (s, t)) (m.counterparts s t ++ rest) answer) :
      Compares m assumed ((a, some b) :: rest) answer

/-- A heap of well-formed values without instances of host types: all tables are in order. -/
structure WellFormed (m : Machine) : Prop where
  inOrder : ∀ ref, (m.table ref).InOrder m.keyId
  plain : ∀ cell ref, m.content cell ≠ .custom ref

/-! ### One pair -/

variable {m : Machine} {assumed : Assumed} {fuel : Nat} {a b : CellRef} {s t : TableRef}

/-- One step of the loop over the values of an object. -/
def compareNext (m : Machine) (fuel : Nat) (state : Bool × Assumed)
    (pair : CellRef × Option CellRef) : Bool × Assumed :=
  if state.1 then
    match pair.2 with
    | some other => m.equalIn fuel state.2 pair.1 other
    | none => (false, state.2)
  else (false, state.2)

/-- Two objects are compared value by value if they have not met before. -/
theorem equalIn_objects (ha : m.tableOf? a = some s) (hb : m.tableOf? b = some t) :
    m.equalIn (fuel + 1) assumed a b =
      if s = t ∨ assumed.contains (s, t) then (true, assumed)
      else if (m.table s).size ≠ (m.table t).size then (false, assumed.insert (s, t))
      else
        (m.counterparts s t).foldl (m.compareNext fuel) (true, assumed.insert (s, t)) := by
  rw [tableOf?_eq_some_iff] at ha hb
  rw [equalIn, ha, hb, counterparts, List.foldl_map]
  rfl

/-- Values that are not both objects are equal if they are the same. -/
theorem WellFormed.equalIn_plain (h : m.WellFormed) (fuel : Nat) (assumed : Assumed)
    (hplain : m.tableOf? a = none ∨ m.tableOf? b = none) :
    ∃ same, m.equalIn (fuel + 1) assumed a b = (same, assumed) ∧
      (same = true ↔ (m.content a).Same (m.content b)) := by
  have ha := h.plain a
  have hobjects : ∀ s t, m.content a = .object s → m.content b ≠ .object t := by
    intro s t hs ht
    rw [tableOf?_eq_some_iff.mpr hs, tableOf?_eq_some_iff.mpr ht] at hplain
    simp at hplain
  rw [equalIn]
  generalize m.content a = x at *
  generalize m.content b = y at *
  split
  · exact ⟨_, rfl, by simp [Content.Same.empty]⟩
  · exact ⟨_, rfl, by rw [beq_iff_eq, Content.same_number_iff]⟩
  · exact ⟨_, rfl, by rw [beq_iff_eq, Content.same_boolean_iff]⟩
  · exact ⟨_, rfl, by rw [beq_iff_eq, Content.same_string_iff]⟩
  · exact ⟨_, rfl, by rw [Bool.and_eq_true, beq_iff_eq, beq_iff_eq, Content.same_regex_iff]⟩
  · exact absurd rfl (hobjects _ _ rfl)
  · exact absurd rfl (ha _)
  · rename_i hempty hnumber hboolean hstring hregex hobject hcustom
    refine ⟨_, rfl, ?_⟩
    rw [Bool.and_eq_true, beq_iff_eq, beq_iff_eq]
    refine ⟨fun ⟨hkind, hid⟩ ↦ Content.same_of_keyId_eq hkind hid ?_ ?_ ?_, Content.Same.keyId_eq⟩
    · intro hx
      cases x <;> cases hx
      cases y <;> cases hkind
      exact hregex _ _ rfl rfl
    · intro hx
      cases x <;> cases hx
      cases y <;> cases hkind
      exact hobject _ _ rfl rfl
    · intro hx
      cases x <;> cases hx
      exact ha _ rfl

/-! ### The pairs that have not met -/

/-- The pairs of objects that are not taken to be equal. -/
def unmet (m : Machine) (assumed : Assumed) : Finset (Nat × Nat) :=
  {pair ∈ Finset.range m.tables.size ×ˢ Finset.range m.tables.size |
    ¬assumed.contains (⟨pair.1⟩, ⟨pair.2⟩)}

theorem card_unmet_le (m : Machine) (assumed : Assumed) :
    (m.unmet assumed).card ≤ m.tables.size * m.tables.size := by
  refine (Finset.card_filter_le _ _).trans ?_
  rw [Finset.card_product, Finset.card_range]

/-- The more pairs are taken to be equal, the fewer have not met. -/
theorem card_unmet_mono {assumed later : Assumed}
    (hgrows : ∀ pair, assumed.contains pair → later.contains pair) :
    (m.unmet later).card ≤ (m.unmet assumed).card := by
  refine Finset.card_le_card fun pair hpair ↦ ?_
  rw [unmet, Finset.mem_filter] at hpair ⊢
  exact ⟨hpair.1, fun hmet ↦ hpair.2 (hgrows _ hmet)⟩

/-- Opening a pair of objects leaves one pair less that has not met. -/
theorem card_unmet_insert_lt (hs : s.index < m.tables.size) (ht : t.index < m.tables.size)
    (hnew : ¬assumed.contains (s, t)) :
    (m.unmet (assumed.insert (s, t))).card < (m.unmet assumed).card := by
  refine Finset.card_lt_card ⟨fun pair hpair ↦ ?_, fun hsubset ↦ ?_⟩
  · rw [unmet, Finset.mem_filter] at hpair ⊢
    refine ⟨hpair.1, fun hmet ↦ hpair.2 ?_⟩
    rw [Std.HashSet.contains_insert, hmet, Bool.or_true]
  · have hmem : (s.index, t.index) ∈ m.unmet assumed := by
      rw [unmet, Finset.mem_filter, Finset.mem_product, Finset.mem_range, Finset.mem_range]
      exact ⟨⟨hs, ht⟩, hnew⟩
    have hmet := hsubset hmem
    rw [unmet, Finset.mem_filter] at hmet
    exact hmet.2 Std.HashSet.contains_insert_self

/-! ### The bounded comparison -/

/-- What the bounded comparison answers for some pairs is what the comparison of these pairs comes
to, whatever is left to be compared after them. -/
structure Settles (m : Machine) (assumed : Assumed) (pairs : List (CellRef × Option CellRef))
    (answer : Bool × Assumed) : Prop where
  grows : ∀ pair, assumed.contains pair → answer.2.contains pair
  equal : answer.1 = true → ∀ rest result, m.Compares answer.2 rest result →
    m.Compares assumed (pairs ++ rest) result
  unequal : answer.1 = false → ∀ rest, m.Compares assumed (pairs ++ rest) false

theorem Settles.nil (m : Machine) (assumed : Assumed) : m.Settles assumed [] (true, assumed) where
  grows _ h := h
  equal _ _ _ h := h
  unequal h := nomatch h

/-- A loop that has found a difference keeps to it. -/
theorem foldl_compareNext_false (m : Machine) (fuel : Nat) (assumed : Assumed)
    (pairs : List (CellRef × Option CellRef)) :
    pairs.foldl (m.compareNext fuel) (false, assumed) = (false, assumed) := by
  induction pairs with
  | nil => rfl
  | cons pair pairs ih => exact ih

/-- Assumes: comparisons of single pairs that settle them while fewer than some number of pairs have
not met. So does the loop over a list of pairs, if there are as few where it has something to
compare. -/
theorem settles_foldl {bound : Nat}
    (hpair : ∀ (assumed : Assumed) (a b : CellRef), (m.unmet assumed).card < bound →
      m.Settles assumed [(a, some b)] (m.equalIn fuel assumed a b))
    {pairs : List (CellRef × Option CellRef)}
    (hbound : ∀ pair ∈ pairs, ∀ other, pair.2 = some other → (m.unmet assumed).card < bound) :
    m.Settles assumed pairs (pairs.foldl (m.compareNext fuel) (true, assumed)) := by
  induction pairs generalizing assumed with
  | nil => exact .nil m assumed
  | cons pair pairs ih =>
    obtain ⟨a, other⟩ := pair
    rw [List.foldl_cons]
    cases other with
    | none =>
      have hnext : m.compareNext fuel (true, assumed) (a, none) = (false, assumed) := rfl
      rw [hnext, foldl_compareNext_false]
      exact ⟨fun _ h ↦ h, fun h ↦ (nomatch h), fun _ _ ↦ .missing⟩
    | some b =>
      have hnext : m.compareNext fuel (true, assumed) (a, some b) = m.equalIn fuel assumed a b := rfl
      have hfirst := hpair assumed a b (hbound _ (List.mem_cons_self ..) b rfl)
      rw [hnext]
      generalize m.equalIn fuel assumed a b = answer at hfirst
      obtain ⟨same, later⟩ := answer
      cases same with
      | false =>
        rw [foldl_compareNext_false]
        exact ⟨hfirst.grows, fun h ↦ (nomatch h), fun _ rest ↦ hfirst.unequal rfl (pairs ++ rest)⟩
      | true =>
        have hlater : ∀ pair ∈ pairs, ∀ other, pair.2 = some other →
            (m.unmet later).card < bound :=
          fun pair hpair other hother ↦ Nat.lt_of_le_of_lt (card_unmet_mono hfirst.grows)
            (hbound pair (List.mem_cons_of_mem _ hpair) other hother)
        have hrest := ih hlater
        refine ⟨fun pair h ↦ hrest.grows pair (hfirst.grows pair h), fun h rest result hcont ↦ ?_,
          fun h rest ↦ ?_⟩
        · exact hfirst.equal rfl _ _ (hrest.equal h rest result hcont)
        · exact hfirst.equal rfl _ _ (hrest.unequal h rest)

/-- Objects with something to compare are objects that exist. -/
theorem exists_of_counterpart {pair : CellRef × Option CellRef} {other : CellRef}
    (hpair : pair ∈ m.counterparts s t) (hother : pair.2 = some other) :
    s.index < m.tables.size ∧ t.index < m.tables.size := by
  obtain ⟨entry, hentry, rfl⟩ := List.mem_map.mp hpair
  constructor
  · refine Nat.lt_of_not_le fun hmissing ↦ ?_
    rw [table_of_missing hmissing] at hentry
    cases hentry
  · refine Nat.lt_of_not_le fun hmissing ↦ ?_
    dsimp only [lookUp] at hother
    rw [table_of_missing hmissing, Table.get?_empty] at hother
    cases hother

/-- Assumes: a well-formed heap, and a bound above the number of pairs of objects that have not met.
The bounded comparison settles two values. -/
theorem settles_equalIn (h : m.WellFormed) (hbound : (m.unmet assumed).card < fuel) :
    m.Settles assumed [(a, some b)] (m.equalIn fuel assumed a b) := by
  -- A pair that has met is never forgotten, and to open one leaves one less: there is fuel for all.
  induction fuel generalizing assumed a b with
  | zero => exact absurd hbound (Nat.not_lt_zero _)
  | succ fuel ih =>
    by_cases hplain : m.tableOf? a = none ∨ m.tableOf? b = none
    · obtain ⟨same, hanswer, hsame⟩ := h.equalIn_plain fuel assumed hplain
      rw [hanswer]
      refine ⟨fun _ h ↦ h, fun hequal rest result hcont ↦ ?_, fun hunequal rest ↦ ?_⟩
      · exact .same (hsame.mp hequal) hcont
      · exact .different hplain fun hsame' ↦
          Bool.false_ne_true (hunequal.symm.trans (hsame.mpr hsame'))
    · obtain ⟨hnone, hnone'⟩ := not_or.mp hplain
      obtain ⟨s, ha⟩ := Option.ne_none_iff_exists'.mp hnone
      obtain ⟨t, hb⟩ := Option.ne_none_iff_exists'.mp hnone'
      rw [equalIn_objects ha hb]
      by_cases hmet : s = t ∨ assumed.contains (s, t)
      · rw [if_pos hmet]
        exact ⟨fun _ h ↦ h, fun _ _ _ hcont ↦ .met ha hb hmet hcont, fun h ↦ (nomatch h)⟩
      · have hgrows : ∀ pair, assumed.contains pair → (assumed.insert (s, t)).contains pair := by
          intro pair hpair
          rw [Std.HashSet.contains_insert, hpair, Bool.or_true]
        rw [if_neg hmet]
        by_cases hsizes : (m.table s).size = (m.table t).size
        · have hvalues : m.Settles (assumed.insert (s, t)) (m.counterparts s t)
              ((m.counterparts s t).foldl (m.compareNext fuel) (true, assumed.insert (s, t))) := by
            refine settles_foldl (fun _ _ _ hfewer ↦ ih hfewer) fun pair hpair other hother ↦ ?_
            obtain ⟨hs, ht⟩ := exists_of_counterpart hpair hother
            have hfewer := card_unmet_insert_lt hs ht (not_or.mp hmet).2
            omega
          rw [if_neg (not_not_intro hsizes)]
          refine ⟨fun pair hpair ↦ hvalues.grows pair (hgrows pair hpair),
            fun hequal rest result hcont ↦ ?_, fun hunequal rest ↦ ?_⟩
          · exact .opened ha hb hmet hsizes (hvalues.equal hequal rest result hcont)
          · exact .opened ha hb hmet hsizes (hvalues.unequal hunequal rest)
        · rw [if_pos hsizes]
          exact ⟨hgrows, fun h ↦ (nomatch h), fun _ _ ↦ .sizes ha hb hmet hsizes⟩

/-- Every comparison comes to an end, with the answer that the bounded one gives. -/
theorem compares_equal (h : m.WellFormed) (a b : CellRef) :
    m.Compares {} [(a, some b)] (m.equal a b) := by
  have hbound : (m.unmet {}).card < m.tables.size * m.tables.size + 2 :=
    Nat.lt_of_le_of_lt (card_unmet_le m {}) (by omega)
  have hsettles := settles_equalIn (a := a) (b := b) h hbound
  unfold equal
  cases hanswer : (m.equalIn (m.tables.size * m.tables.size + 2) {} a b).1 with
  | true => exact hsettles.equal hanswer [] true .done
  | false => exact hsettles.unequal hanswer []

end Machine

end TreeScript
