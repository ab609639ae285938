import TreeScript.Proofs.Broadcasting.Growth
import TreeScript.Proofs.OperatorTable

/-!
# Operators on plain values

The operators that take no objects compute a number, a truth value or a string out of plain values.
What they compute is in a new cell, and where they fail nothing has changed; and which of the two it
is depends on the values alone, not on what else a machine has been given since (`Machine.Settled`).
`Operator.IsElementwise` says of an operator that its actions are of this sort, and
`find?_elementwise` that the operators in question are in the table of the language.
-/

set_option autoImplicit false

namespace TreeScript

/-- A computation that makes one new cell on every machine grown from a given one, or on every such
machine fails and does nothing. -/
def Machine.Settled (m : Machine) (x : Run CellRef) : Prop :=
  (∀ k, m.Grown k → ∃ content, x k = .ok ⟨k.cells.size⟩ (k.withCell content)) ∨
    ∀ k, m.Grown k → ∃ e, x k = .error e k

namespace Machine

variable {m : Machine} {x y : Run CellRef}

theorem Settled.congr (h : m.Settled y) (hsame : ∀ k, m.Grown k → x k = y k) : m.Settled x := by
  rcases h with hvalue | hfailure
  · exact .inl fun k hk ↦ (hsame k hk).symm ▸ hvalue k hk
  · exact .inr fun k hk ↦ (hsame k hk).symm ▸ hfailure k hk

/-- What makes a cell on every machine is settled, whatever goes into the cell. -/
theorem settled_of_alloc (h : ∀ k, m.Grown k → ∃ content, x k = alloc content k) : m.Settled x :=
  .inl fun k hk ↦ h k hk

theorem settled_of_fail (h : ∀ k, m.Grown k → ∃ e, x k = .error e k) : m.Settled x := .inr h

theorem settled_ofNumber (m : Machine) (result : Except NumberError Decimal) :
    m.Settled (do newNumber (← Run.ofNumber result)) := by
  cases result with
  | ok d => exact settled_of_alloc fun k _ ↦ ⟨.number d, rfl⟩
  | error e => exact settled_of_fail fun k _ ↦ ⟨_, rfl⟩

end Machine

/-! ### Actions -/

/-- The types of plain values that operators compute with. -/
def plainTypes : List String := ["number", "string", "boolean", "custom_type"]

/-- Actions that take plain values of certain types and make a value out of what they hold. -/
def Action.isElementwise : Action → Bool
  | .unary operand rule =>
    match rule with
    | .factorial | .negate | .complement => operand = "number"
    | .not => operand = "boolean"
    | _ => false
  | .binary left right rule =>
    match rule with
    | .subtract | .multiply | .divide | .remainder | .modulo | .power | .shiftLeft | .shiftRight
    | .bitAnd | .bitOr => left = "number" && right = "number"
    | .and | .or | .xor => left = "boolean" && right = "boolean"
    | .repeatLeft => left = "string" && right = "number"
    | .repeatRight => left = "number" && right = "string"
    | .compare _ => left = right && plainTypes.contains left
    | _ => false

/-- A kind satisfies a plain type only if that is its name. -/
theorem name_of_isType {kind : Kind} {type : String} (htype : type ∈ plainTypes)
    (h : isType kind.name type = true) : kind.name = type := by
  simp only [plainTypes, List.mem_cons, List.not_mem_nil, or_false] at htype
  rcases htype with rfl | rfl | rfl | rfl <;> cases kind <;> first | rfl | exact absurd h (by decide)

theorem name_injective : Function.Injective Kind.name := by
  intro kind other h
  cases kind <;> cases other <;> first | rfl | exact absurd h (by decide)

variable {m k : Machine} {cell left right : CellRef}

theorem content_number (h : m.typeName cell = "number") : ∃ d, m.content cell = .number d := by
  have hkind : (m.content cell).kind = .number := name_injective h
  generalize m.content cell = content at hkind
  cases content <;> cases hkind
  exact ⟨_, rfl⟩

theorem content_string (h : m.typeName cell = "string") : ∃ s, m.content cell = .string s := by
  have hkind : (m.content cell).kind = .string := name_injective h
  generalize m.content cell = content at hkind
  cases content <;> cases hkind
  exact ⟨_, rfl⟩

theorem content_boolean (h : m.typeName cell = "boolean") : ∃ b, m.content cell = .boolean b := by
  have hkind : (m.content cell).kind = .boolean := name_injective h
  generalize m.content cell = content at hkind
  cases content <;> cases hkind
  exact ⟨_, rfl⟩

theorem content_custom (h : m.typeName cell = "custom_type") :
    ∃ ref, m.content cell = .custom ref := by
  have hkind : (m.content cell).kind = .customType := name_injective h
  generalize m.content cell = content at hkind
  cases content <;> cases hkind
  exact ⟨_, rfl⟩

/-! ### Rules -/

section

variable (hleft : left.index < m.cells.size) (hright : right.index < m.cells.size)
  (call : Call) (symbol : String) {rule : BinaryRule}

include hleft hright in
/-- A rule that makes a number out of two numbers is settled. -/
theorem settled_arithmetic
    (hrule : ∀ a b, ∃ result, rule.arithmetic? call.scale a b = some result) :
    m.Settled (rule.apply call symbol left right) := by
  obtain ⟨result, hresult⟩ := hrule ((m.numberKey? left).getD (Decimal.ofInt 0))
    ((m.numberKey? right).getD (Decimal.ofInt 0))
  refine (m.settled_ofNumber result).congr fun k hk ↦ ?_
  have hnumber {cell : CellRef} (hcell : cell.index < m.cells.size) :
      k.numberKey? cell = m.numberKey? cell := by
    unfold Machine.numberKey?
    rw [hk.cells.content cell hcell]
  unfold BinaryRule.apply
  rw [Run.get_bind]
  dsimp only
  rw [hnumber hleft, hnumber hright, hresult]

/-- A rule for truth values is settled. -/
theorem settled_logical (hrule : rule = .and ∨ rule = .or ∨ rule = .xor) :
    m.Settled (rule.apply call symbol left right) := by
  refine Machine.settled_of_alloc fun k _ ↦ ?_
  rcases hrule with rfl | rfl | rfl
  · exact ⟨_, rfl⟩
  · exact ⟨_, rfl⟩
  · exact ⟨_, rfl⟩

theorem settled_repeatString (m : Machine) (s : String) (count : Decimal) :
    m.Settled (repeatString s count) := by
  unfold repeatString
  by_cases hcount : (!count.isWhole || decide (count.sign < 0)) = true
  · refine Machine.settled_of_fail fun k _ ↦ ?_
    rw [if_pos hcount]
    exact ⟨_, rfl⟩
  · by_cases hempty : s = ""
    · refine Machine.settled_of_alloc fun k _ ↦ ⟨.string "", ?_⟩
      rw [if_neg hcount, if_pos hempty]
      rfl
    · by_cases hsize : ((maxRepeatSize / s.utf8ByteSize : Nat) : Int) < count.coeff
      · refine Machine.settled_of_fail fun k _ ↦ ?_
        rw [if_neg hcount, if_neg hempty]
        dsimp only
        rw [if_pos hsize]
        exact ⟨_, rfl⟩
      · refine Machine.settled_of_alloc fun k _ ↦ ⟨.string (Text.repeatText count.coeff.toNat s), ?_⟩
        rw [if_neg hcount, if_neg hempty]
        dsimp only
        rw [if_neg hsize]
        rfl

include hleft hright in
/-- The repetition of a string is settled. -/
theorem settled_repeat {s : String} {d : Decimal}
    (hrule : rule = .repeatLeft ∧ m.content left = .string s ∧ m.content right = .number d ∨
      rule = .repeatRight ∧ m.content left = .number d ∧ m.content right = .string s) :
    m.Settled (rule.apply call symbol left right) := by
  refine (settled_repeatString m s d).congr fun k hk ↦ ?_
  rw [← hk.cells.content left hleft, ← hk.cells.content right hright] at hrule
  have htext {cell : CellRef} (hcell : k.content cell = .string s) : k.display cell = s := by
    unfold Machine.display Machine.displayDepth
    rw [Machine.displayIn, hcell]
  have hnumber {cell : CellRef} (hcell : k.content cell = .number d) :
      k.numberKey? cell = some d := by
    unfold Machine.numberKey?
    rw [hcell]
  unfold BinaryRule.apply
  rw [Run.get_bind]
  rcases hrule with ⟨rfl, htext', hnumber'⟩ | ⟨rfl, hnumber', htext'⟩
  · dsimp only [BinaryRule.arithmetic?]
    rw [htext htext', hnumber hnumber']
    rfl
  · dsimp only [BinaryRule.arithmetic?]
    rw [htext htext', hnumber hnumber']
    rfl

/-- A comparison is settled if the order of the values is, or the failure to give one. -/
theorem settled_compare {relation : Relation}
    (h : (∀ k, m.Grown k → ∃ order, compareValues left right k = .ok order k) ∨
      ∀ k, m.Grown k → ∃ e, compareValues left right k = .error e k) :
    m.Settled ((BinaryRule.compare relation).apply call symbol left right) := by
  have hrun (k : Machine) : (BinaryRule.compare relation).apply call symbol left right k =
      (compareValues left right >>= fun order ↦ newBoolean (relation.holds order)) k := rfl
  rcases h with hvalue | hfailure
  · refine Machine.settled_of_alloc fun k hk ↦ ?_
    obtain ⟨order, horder⟩ := hvalue k hk
    exact ⟨.boolean (relation.holds order), (hrun k).trans (Run.bind_ok horder)⟩
  · refine Machine.settled_of_fail fun k hk ↦ ?_
    obtain ⟨e, he⟩ := hfailure k hk
    exact ⟨e, (hrun k).trans (Run.bind_error he)⟩

include hleft hright in
/-- Values of one plain type are compared without a change of the machine, on all grown machines
with the same success. -/
theorem compareValues_settled {type : String} (htype : type ∈ plainTypes)
    (hl : m.typeName left = type) (hr : m.typeName right = type) :
    (∀ k, m.Grown k → ∃ order, compareValues left right k = .ok order k) ∨
      ∀ k, m.Grown k → ∃ e, compareValues left right k = .error e k := by
  simp only [plainTypes, List.mem_cons, List.not_mem_nil, or_false] at htype
  rcases htype with rfl | rfl | rfl | rfl
  · obtain ⟨x, hx⟩ := content_number hl
    obtain ⟨y, hy⟩ := content_number hr
    refine .inl fun k hk ↦ ⟨x.cmp y, ?_⟩
    rw [← hk.cells.content left hleft] at hx
    rw [← hk.cells.content right hright] at hy
    unfold compareValues Machine.number?
    rw [Run.get_bind, hx, hy]
    rfl
  · obtain ⟨s, hs⟩ := content_string hl
    refine .inl fun k hk ↦ ⟨Text.compareText s (k.display right), ?_⟩
    rw [← hk.cells.content left hleft] at hs
    unfold compareValues
    rw [Run.get_bind, hs]
    rfl
  · obtain ⟨x, hx⟩ := content_boolean hl
    refine .inl fun k hk ↦ ⟨compare x.toNat (k.isTrue right).toNat, ?_⟩
    rw [← hk.cells.content left hleft] at hx
    unfold compareValues
    rw [Run.get_bind, hx]
    rfl
  · obtain ⟨ref, hcustom⟩ := content_custom hl
    obtain ⟨ref', hcustom'⟩ := content_custom hr
    have hcontent (k : Machine) (hk : m.Grown k) :
        k.content left = .custom ref ∧ k.content right = .custom ref' :=
      ⟨(hk.cells.content left hleft).trans hcustom, (hk.cells.content right hright).trans hcustom'⟩
    have hinstance (k : Machine) (hk : m.Grown k) (ref : InstanceRef) :
        k.instanceOf ref = m.instanceOf ref := by
      rw [← hk.rest]
      rfl
    cases hvalue : m.instanceOf ref with
    | vector type x y z =>
      refine .inl fun k hk ↦ ?_
      unfold compareValues
      rw [Run.get_bind, (hcontent k hk).1, (hcontent k hk).2]
      dsimp only
      rw [hinstance k hk, hvalue]
      dsimp only
      cases k.instanceOf ref' <;> exact ⟨_, rfl⟩
    | odd type mode =>
      refine .inr fun k hk ↦ ?_
      unfold compareValues
      rw [Run.get_bind, (hcontent k hk).1, (hcontent k hk).2]
      dsimp only
      rw [hinstance k hk, hvalue]
      exact ⟨_, rfl⟩
    | counted type count =>
      refine .inr fun k hk ↦ ?_
      unfold compareValues
      rw [Run.get_bind, (hcontent k hk).1, (hcontent k hk).2]
      dsimp only
      rw [hinstance k hk, hvalue]
      exact ⟨_, rfl⟩

include hleft hright in
/-- An elementwise action on two values of its types is settled. -/
theorem settled_binary {first second : String}
    (haction : (Action.binary first second rule).isElementwise = true)
    (hl : m.typeName left = first) (hr : m.typeName right = second) :
    m.Settled (rule.apply call symbol left right) := by
  have hnumbers {rule : BinaryRule}
      (hrule : ∀ a b, ∃ result, rule.arithmetic? call.scale a b = some result) :
      m.Settled (rule.apply call symbol left right) :=
    settled_arithmetic hleft hright call symbol hrule
  cases rule with
  | subtract | multiply | divide | remainder | modulo | power | shiftLeft | shiftRight | bitAnd
  | bitOr => exact hnumbers fun a b ↦ ⟨_, rfl⟩
  | and => exact settled_logical call symbol (.inl rfl)
  | or => exact settled_logical call symbol (.inr (.inl rfl))
  | xor => exact settled_logical call symbol (.inr (.inr rfl))
  | repeatLeft =>
    simp only [Action.isElementwise, Bool.and_eq_true, decide_eq_true_eq] at haction
    obtain ⟨s, hs⟩ := content_string (hl.trans haction.1)
    obtain ⟨d, hd⟩ := content_number (hr.trans haction.2)
    exact settled_repeat hleft hright call symbol (.inl ⟨rfl, hs, hd⟩)
  | repeatRight =>
    simp only [Action.isElementwise, Bool.and_eq_true, decide_eq_true_eq] at haction
    obtain ⟨d, hd⟩ := content_number (hl.trans haction.1)
    obtain ⟨s, hs⟩ := content_string (hr.trans haction.2)
    exact settled_repeat hleft hright call symbol (.inr ⟨rfl, hd, hs⟩)
  | compare relation =>
    simp only [Action.isElementwise, Bool.and_eq_true, decide_eq_true_eq, List.contains_iff_mem]
      at haction
    obtain ⟨rfl, htype⟩ := haction
    exact settled_compare call symbol (compareValues_settled hleft hright htype hl hr)
  | add | concatText | append | equal | notEqual | orElse | pipe => cases haction

end

/-- An elementwise action on one value of its type is settled. -/
theorem settled_unary {operand : String} {rule : UnaryRule} (hcell : cell.index < m.cells.size)
    (haction : (Action.unary operand rule).isElementwise = true)
    (htype : m.typeName cell = operand) :
    m.Settled (rule.apply cell) := by
  have hread (k : Machine) (hk : m.Grown k) : content cell k = .ok (m.content cell) k := by
    rw [← hk.cells.content cell hcell]
    rfl
  cases rule with
  | factorial =>
    simp only [Action.isElementwise, decide_eq_true_eq] at haction
    obtain ⟨d, hd⟩ := content_number (htype.trans haction)
    refine (m.settled_ofNumber d.factorial).congr fun k hk ↦ ?_
    unfold UnaryRule.apply
    rw [Run.bind_ok (hread k hk), hd]
  | negate =>
    simp only [Action.isElementwise, decide_eq_true_eq] at haction
    obtain ⟨d, hd⟩ := content_number (htype.trans haction)
    refine (m.settled_ofNumber (.ok d.neg)).congr fun k hk ↦ ?_
    unfold UnaryRule.apply
    rw [Run.bind_ok (hread k hk), hd]
    rfl
  | complement =>
    simp only [Action.isElementwise, decide_eq_true_eq] at haction
    obtain ⟨d, hd⟩ := content_number (htype.trans haction)
    refine (m.settled_ofNumber (d.whole.map fun x ↦ Decimal.ofInt (Bits.complement x))).congr
      fun k hk ↦ ?_
    unfold UnaryRule.apply
    rw [Run.bind_ok (hread k hk), hd]
    dsimp only
    cases d.whole <;> rfl
  | not =>
    refine Machine.settled_of_alloc fun k hk ↦ ⟨.boolean (!k.isTrue cell), ?_⟩
    unfold UnaryRule.apply
    rw [Run.bind_ok (hread k hk)]
    rfl
  | step | same | parse => cases haction

/-! ### Operators -/

namespace Operator

/-- An operator on two numbers computes the number its rule makes of them. -/
theorem dispatch2_numbers {op : Operator} {rule : BinaryRule} {a b : Decimal} (call : Call)
    (fuel : Nat) {result : Except NumberError Decimal}
    (hrule : op.binaryRule? "number" "number" = some rule)
    (hresult : rule.arithmetic? call.scale a b = some result) (hleft : k.content left = .number a)
    (hright : k.content right = .number b) :
    op.dispatch2 call (fuel + 1) left right k = (do newNumber (← Run.ofNumber result)) k := by
  have htypes : k.typeName left = "number" ∧ k.typeName right = "number" := by
    unfold Machine.typeName
    rw [hleft, hright]
    exact ⟨rfl, rfl⟩
  have hnumbers : k.numberKey? left = some a ∧ k.numberKey? right = some b := by
    unfold Machine.numberKey?
    rw [hleft, hright]
    exact ⟨rfl, rfl⟩
  rw [dispatch2, Run.get_bind, htypes.1, htypes.2, hrule]
  dsimp only
  rw [BinaryRule.apply, Run.get_bind]
  dsimp only
  rw [hnumbers.1, hnumbers.2, Option.getD_some, Option.getD_some, hresult]

/-- Operators that have actions, all of them elementwise. -/
structure IsElementwise (op : Operator) : Prop where
  acts : op.actions.isEmpty = false
  actions : ∀ action ∈ op.actions, action.isElementwise = true

/-- The types an elementwise action takes are those of plain values. -/
theorem plain_of_elementwise {left right : String} {rule : BinaryRule}
    (h : (Action.binary left right rule).isElementwise = true) :
    left ∈ plainTypes ∧ right ∈ plainTypes := by
  cases rule <;>
    simp only [Action.isElementwise, Bool.and_eq_true, decide_eq_true_eq, List.contains_iff_mem,
      Bool.false_eq_true] at h
  case compare => exact ⟨h.2, h.1 ▸ h.2⟩
  all_goals
    rw [h.1, h.2]
    decide

theorem plain_of_elementwise_unary {operand : String} {rule : UnaryRule}
    (h : (Action.unary operand rule).isElementwise = true) : operand ∈ plainTypes := by
  cases rule <;> simp only [Action.isElementwise, decide_eq_true_eq, Bool.false_eq_true] at h
  all_goals
    rw [h]
    decide

variable {op : Operator} {x y : Content}

/-- The rule that two operands find is that of an elementwise action on values of their types. -/
theorem IsElementwise.of_binaryRule? (h : op.IsElementwise) {rule : BinaryRule}
    (hrule : op.binaryRule? x.typeName y.typeName = some rule) :
    (Action.binary x.typeName y.typeName rule).isElementwise = true := by
  obtain ⟨action, hmem, haction⟩ := List.exists_of_findSome?_eq_some hrule
  cases action with
  | unary => cases haction
  | binary first second found =>
    have hplain := plain_of_elementwise (h.actions _ hmem)
    dsimp only at haction
    split at haction
    · rename_i htypes
      cases haction
      rw [Bool.and_eq_true] at htypes
      have hfirst := name_of_isType hplain.1 htypes.1
      have hsecond := name_of_isType hplain.2 htypes.2
      change (Action.binary x.kind.name y.kind.name rule).isElementwise = _
      rw [hfirst, hsecond]
      exact h.actions _ hmem
    · cases haction

theorem IsElementwise.of_unaryRule? (h : op.IsElementwise) {rule : UnaryRule}
    (hrule : op.unaryRule? x.typeName = some rule) :
    (Action.unary x.typeName rule).isElementwise = true := by
  obtain ⟨action, hmem, haction⟩ := List.exists_of_findSome?_eq_some hrule
  cases action with
  | binary => cases haction
  | unary operand found =>
    have hplain := plain_of_elementwise_unary (h.actions _ hmem)
    dsimp only at haction
    split at haction
    · rename_i htype
      cases haction
      have hname := name_of_isType hplain htype
      change (Action.unary x.kind.name rule).isElementwise = _
      rw [hname]
      exact h.actions _ hmem
    · cases haction

/-- Objects find no rule. -/
theorem IsElementwise.binaryRule?_eq_none (h : op.IsElementwise)
    (hobject : x.typeName = "object" ∨ y.typeName = "object") :
    op.binaryRule? x.typeName y.typeName = none := by
  refine Option.eq_none_iff_forall_ne_some.mpr fun rule hrule ↦ ?_
  have hplain := plain_of_elementwise (h.of_binaryRule? hrule)
  rcases hobject with hobject | hobject
  · exact absurd (hobject ▸ hplain.1) (by decide)
  · exact absurd (hobject ▸ hplain.2) (by decide)

theorem IsElementwise.unaryRule?_eq_none (h : op.IsElementwise) (hobject : x.typeName = "object") :
    op.unaryRule? x.typeName = none := by
  refine Option.eq_none_iff_forall_ne_some.mpr fun rule hrule ↦ ?_
  have hplain := plain_of_elementwise_unary (h.of_unaryRule? hrule)
  exact absurd (hobject ▸ hplain) (by decide)

/-- An elementwise operator on one plain value is settled. -/
theorem IsElementwise.settled_dispatch1 (h : op.IsElementwise) (fuel : Nat)
    (hcell : cell.index < m.cells.size) (hplain : m.tableOf? cell = none) :
    m.Settled (op.dispatch1 (fuel + 1) cell) := by
  have hsame (k : Machine) (hk : m.Grown k) :
      k.typeName cell = m.typeName cell ∧ k.tableOf? cell = none := by
    refine ⟨?_, (hk.tableOf? hcell).trans hplain⟩
    unfold Machine.typeName
    rw [hk.cells.content cell hcell]
  cases hrule : op.unaryRule? (m.typeName cell) with
  | some rule =>
    refine (settled_unary hcell (h.of_unaryRule? hrule) rfl).congr fun k hk ↦ ?_
    rw [dispatch1, Run.get_bind, (hsame k hk).1, hrule]
  | none =>
    refine Machine.settled_of_fail fun k hk ↦ ?_
    rw [dispatch1, Run.get_bind, (hsame k hk).1, hrule, (hsame k hk).2]
    exact ⟨_, rfl⟩

/-- An elementwise operator on two plain values is settled. -/
theorem IsElementwise.settled_dispatch2 (h : op.IsElementwise) (call : Call) (fuel : Nat)
    (hleft : left.index < m.cells.size) (hright : right.index < m.cells.size)
    (hplain : m.tableOf? left = none) (hplain' : m.tableOf? right = none) :
    m.Settled (op.dispatch2 call (fuel + 1) left right) := by
  have hsame (k : Machine) (hk : m.Grown k) {cell : CellRef} (hcell : cell.index < m.cells.size) :
      k.typeName cell = m.typeName cell := by
    unfold Machine.typeName
    rw [hk.cells.content cell hcell]
  cases hrule : op.binaryRule? (m.typeName left) (m.typeName right) with
  | some rule =>
    refine (settled_binary hleft hright call op.symbol (h.of_binaryRule? hrule) rfl rfl).congr
      fun k hk ↦ ?_
    rw [dispatch2, Run.get_bind, hsame k hk hleft, hsame k hk hright, hrule]
  | none =>
    refine Machine.settled_of_fail fun k hk ↦ ?_
    rw [dispatch2, Run.get_bind, hsame k hk hleft, hsame k hk hright, hrule,
      (hk.tableOf? hleft).trans hplain, (hk.tableOf? hright).trans hplain']
    exact ⟨_, rfl⟩

/-! ### The table of the language -/

/-- The operator `+` of the language: it adds numbers, and joins texts with anything. -/
def plus : Operator :=
  between "+" 110 [numeric2 .add, .binary "string" "any" .concatText,
    .binary "any" "string" .concatText]

theorem plus_mem : plus ∈ standardOperators := by
  simp [standardOperators, plus]

/-- The operator `*` of the language: it multiplies numbers, and repeats texts. -/
def times : Operator :=
  between "*" 120 [numeric2 .multiply, .binary "string" "number" .repeatLeft,
    .binary "number" "string" .repeatRight]

theorem times_mem : times ∈ standardOperators := by
  simp [standardOperators, times]

/-- The operators of the language that take no objects, with their fixities. -/
def elementwise : List (String × Fixity) :=
  ["-", "/", "%", "%%", "^^", "*", "<<", ">>", "<", "<=", ">", ">=", "&", "^", "|", "&&", "||"].map
      (·, .infixOp) ++
    ["-", "!", "~"].map (·, .prefixOp) ++ [("!", .postfixOp)]

theorem find?_elementwise {symbol : String} {fixity : Fixity} (h : (symbol, fixity) ∈ elementwise) :
    ∃ op, standard.find? symbol fixity = some op ∧ op.fixity = fixity ∧ op.IsElementwise := by
  have hall : ∀ entry ∈ elementwise, ∃ op ∈ standardOperators, op.key = entry ∧
      op.actions.isEmpty = false ∧ op.actions.all Action.isElementwise = true := by decide
  obtain ⟨op, hop, hkey, hacts, hactions⟩ := hall _ h
  cases hkey
  exact ⟨op, find?_standard hop, rfl, hacts, List.all_eq_true.mp hactions⟩

end Operator

end TreeScript
