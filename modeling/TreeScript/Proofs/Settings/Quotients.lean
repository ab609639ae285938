import Mathlib.Logic.Relation
import TreeScript.Proofs.Broadcasting.Leaves
import TreeScript.Proofs.Numbers.Rational
import TreeScript.Proofs.Settings.InForce
import TreeScript.Proofs.Visit

/-!
# Quotients keep to the scale

A quotient is rounded to as many fractional digits as the scale says (`Decimal.scale_divide_le`). An
object is divided value by value. The object that comes out is new, and so are the cells of its
values, of which every number is a quotient (`Machine.Quotients`), so all numbers within it keep to
the scale, however deep they are (`applyOperator_fits`). That is so for the value of every
expression that divides (`operation_fits`).
-/

set_option autoImplicit false

namespace TreeScript

namespace Decimal

/-- Assumes: a scale that is not negative. A quotient has no more fractional digits. -/
theorem scale_divide_le {a b d : Decimal} {scale : Int} (hscale : 0 ≤ scale)
    (h : a.divide b scale = .ok d) : d.scale ≤ scale := by
  unfold divide at h
  split at h
  · cases h
  · cases h
    unfold divRound ofScientific
    dsimp only
    split
    · have hreduced := scale_reduce_le (roundDiv (a.coeff * tenTo b.scale * tenTo scale.toNat)
        (b.coeff * tenTo a.scale * tenTo (-scale).toNat)) (- -scale).toNat
      omega
    · exact hscale

end Decimal

namespace Machine

/-- All numbers within a value have at most so many fractional digits. -/
def Fits (m : Machine) (scale : Int) (cell : CellRef) : Prop :=
  ∀ part d, Relation.ReflTransGen m.Part cell part → m.content part = .number d → d.scale ≤ scale

variable {m m₀ n : Machine} {scale : Int} {cell : CellRef}

theorem Unwound.fits (h : m.Unwound n) (hfits : m.Fits scale cell) : n.Fits scale cell := by
  have hpart : n.Part = m.Part := by
    funext whole part
    unfold Part
    simp only [h.content, h.table]
  unfold Fits
  rw [hpart]
  simp only [h.content]
  exact hfits

/-- A machine on which, since another one, numbers that fit a scale and objects of new cells were
made. -/
structure Quotients (m₀ : Machine) (scale : Int) (m : Machine) : Prop where
  cells : m₀.cells.size ≤ m.cells.size
  tables : m₀.tables.size ≤ m.tables.size
  number : ∀ cell d, m₀.cells.size ≤ cell.index → m.content cell = .number d → d.scale ≤ scale
  object : ∀ cell ref, m₀.cells.size ≤ cell.index → m.content cell = .object ref →
    m₀.tables.size ≤ ref.index
  values : ∀ ref, m₀.tables.size ≤ ref.index → ∀ cell ∈ (m.table ref).values,
    m₀.cells.size ≤ cell.index

namespace Quotients

theorem start (m₀ : Machine) (scale : Int) : m₀.Quotients scale m₀ where
  cells := Nat.le_refl _
  tables := Nat.le_refl _
  number cell d hnew hcontent := by
    rw [content_of_missing hnew] at hcontent
    cases hcontent
  object cell ref hnew hcontent := by
    rw [content_of_missing hnew] at hcontent
    cases hcontent
  values ref hnew cell hcell := by
    rw [table_of_missing hnew] at hcell
    cases hcell

/-- Assumes: a number that fits the scale, an object that is new, or neither. It may go into a cell.
-/
theorem withCell (h : m₀.Quotients scale m) {content : Content}
    (hnumber : ∀ d, content = .number d → d.scale ≤ scale)
    (hobject : ∀ ref, content = .object ref → m₀.tables.size ≤ ref.index) :
    m₀.Quotients scale (m.withCell content) where
  cells := Nat.le_trans h.cells (m.keepsCells_withCell content).size
  tables := h.tables
  number cell d hnew hcontent := by
    rw [Machine.content_withCell] at hcontent
    split at hcontent
    · exact hnumber d hcontent
    · exact h.number cell d hnew hcontent
  object cell ref hnew hcontent := by
    rw [Machine.content_withCell] at hcontent
    split at hcontent
    · exact hobject ref hcontent
    · exact h.object cell ref hnew hcontent
  values := h.values

theorem withTable (h : m₀.Quotients scale m) : m₀.Quotients scale m.withTable where
  cells := h.cells
  tables := Nat.le_trans h.tables m.grown_withTable.size
  number := h.number
  object := h.object
  values ref hnew cell hcell := by
    rw [table_withTable] at hcell
    exact h.values ref hnew cell hcell

/-- A new value may go into any table. -/
theorem enter (h : m₀.Quotients scale m) {value : CellRef} (hvalue : m₀.cells.size ≤ value.index)
    (target : TableRef) (key : CellRef) :
    m₀.Quotients scale (m.after (.enter target key value)) where
  cells := h.cells
  tables := Nat.le_trans h.tables (Nat.le_of_eq (size_after m _).2.symm)
  number := h.number
  object := h.object
  values ref hnew cell hcell := by
    rcases mem_values_enter hcell with ⟨rfl, -⟩ | hcell
    · exact hvalue
    · exact h.values ref hnew cell hcell

/-- What is within a new value is new, so all numbers there fit. -/
theorem fits (h : m₀.Quotients scale m) (hnew : m₀.cells.size ≤ cell.index) :
    m.Fits scale cell := by
  have hwithin : ∀ part, Relation.ReflTransGen m.Part cell part → m₀.cells.size ≤ part.index := by
    intro part hwithin
    induction hwithin with
    | refl => exact hnew
    | tail _ hstep ih =>
      obtain ⟨ref, hobject, hvalue⟩ := hstep
      exact h.values ref (h.object _ ref ih hobject) _ hvalue
  exact fun part d hpart hnumber ↦ h.number part d (hwithin part hpart) hnumber

/-! ### Dividing -/

/-- A computation that makes a new value. -/
def Makes (m₀ : Machine) (scale : Int) : Run CellRef → Prop :=
  Maintains (m₀.Quotients scale) fun cell ↦ m₀.cells.size ≤ cell.index

theorem newNumber {d : Decimal} (hd : d.scale ≤ scale) : Makes m₀ scale (newNumber d) := by
  refine .of_modifyGet (fun m hm ↦ hm.withCell ?_ nofun) fun m hm ↦ hm.cells
  rintro _ ⟨⟩
  exact hd

theorem newEmpty : Makes m₀ scale newEmpty :=
  .of_modifyGet (fun _ hm ↦ hm.withCell nofun nofun) fun _ hm ↦ hm.cells

theorem divide (call : Call) (hscale : 0 ≤ call.scale) (symbol : String) (left right : CellRef) :
    Makes m₀ call.scale (BinaryRule.divide.apply call symbol left right) := by
  refine .get_bind fun m _ ↦ ?_
  change Maintains _ _ (Run.ofNumber (Decimal.divide _ _ call.scale) >>= TreeScript.newNumber)
  generalize hquotient : Decimal.divide _ _ call.scale = quotient
  cases quotient with
  | ok d => exact newNumber (Decimal.scale_divide_le hscale hquotient)
  | error e => exact .fail _

/-- Assumes: an action that makes a new value of every entry. Mapping the values of an object makes
a new object. -/
theorem mapValues (ref : TableRef) {act : CellRef → CellRef → Run CellRef}
    (hact : ∀ key value, Makes m₀ scale (act key value)) :
    Makes m₀ scale (Operator.mapValues ref act) := by
  have hcreated : Maintains (m₀.Quotients scale) (fun out ↦ m₀.tables.size ≤ out.index) newTable :=
    .of_modifyGet (fun _ hm ↦ hm.withTable) fun _ hm ↦ hm.tables
  have hentered (out : TableRef) (key : CellRef) {value : CellRef}
      (hvalue : m₀.cells.size ≤ value.index) :
      Spares (m₀.Quotients scale) (setEntry out key value) :=
    fun m hm ↦ .ok (hm.enter hvalue out key) trivial
  refine hcreated.bind fun out hout ↦ ?_
  have hwalk : Spares (m₀.Quotients scale) (forEntries ref () fun _ entry ↦ do
      let value ← act entry.key entry.value
      setEntry out entry.key value) := by
    refine .get_bind fun m _ ↦ Maintains.foldlM (fun _ _ i _ ↦ .get_bind fun n _ ↦ ?_) () trivial
    split
    · exact (hact _ _).bind fun value hvalue ↦ hentered out _ hvalue
    · exact .pure trivial
  refine hwalk.bind fun _ ↦ .of_modifyGet (fun m hm ↦ hm.withCell nofun ?_) fun m hm ↦ hm.cells
  rintro _ ⟨⟩
  exact hout

/-- Assumes: an operator that only divides. What it makes of two operands is new. -/
theorem dispatch2 {op : Operator}
    (hdivides : ∀ left right rule, op.binaryRule? left right = some rule → rule = .divide)
    (call : Call) (hscale : 0 ≤ call.scale) (fuel : Nat) :
    ∀ left right, Makes m₀ call.scale (op.dispatch2 call fuel left right) := by
  induction fuel with
  | zero => exact fun _ _ ↦ .throw _
  | succ fuel ih =>
    intro left right
    refine .get_bind fun m _ ↦ ?_
    split
    · rename_i rule hrule
      rw [hdivides _ _ rule hrule]
      exact divide call hscale op.symbol left right
    · split
      · rename_i s t _ _
        have hkeys : Spares (m₀.Quotients call.scale) (op.requireSameKeys s t) := by
          refine .get_bind fun m _ ↦ ?_
          refine Spares.check (.fail _) (.ite (fun _ ↦ .fail _) fun _ ↦ .pure trivial)
        refine hkeys.bind fun _ ↦ mapValues s fun key value ↦ .get_bind fun n _ ↦ ?_
        split
        · exact ih _ _
        · exact newEmpty.bind fun other _ ↦ ih value other
      · exact mapValues _ fun _ value ↦ ih value right
      · exact mapValues _ fun _ value ↦ ih left value
      · exact .fail _

/-- What the division of the language makes is new. -/
theorem evaluate (call : Call) (hscale : 0 ≤ call.scale) (args : List CellRef) :
    Makes m₀ call.scale (Operator.standard.evaluate call "/" .infixOp args) := by
  let op : Operator := Operator.between "/" 120 [Operator.numeric2 .divide]
  have hop : op ∈ Operator.standardOperators := by decide
  have hfound : Operator.standard.find? "/" .infixOp = some op := Operator.find?_standard hop
  have hdivides (left right : String) (rule : BinaryRule)
      (hrule : op.binaryRule? left right = some rule) : rule = .divide := by
    obtain ⟨action, haction, hrule⟩ := List.exists_of_findSome?_eq_some hrule
    obtain rfl := List.mem_singleton.mp haction
    change (if _ then some BinaryRule.divide else none) = some rule at hrule
    split at hrule
    · exact (Option.some.inj hrule).symm
    · cases hrule
  unfold OperatorTable.evaluate
  rw [hfound]
  refine .ite (fun _ ↦ .bind (.fail _) fun _ h ↦ h) fun harity ↦ ?_
  refine .ite (fun _ ↦ .bind (.fail _) fun _ h ↦ h) fun _ ↦ ?_
  match args with
  | [left, right] => exact dispatch2 hdivides call hscale call.fuel left right
  | [_] => exact absurd (Nat.ne_of_lt Nat.one_lt_two) harity
  | [] | _ :: _ :: _ :: _ => exact newEmpty

end Quotients

end Machine

/-! ### Expressions -/

/-- The scale that quotients are rounded to is never negative. -/
theorem Call.effectiveScale_nonneg (scale : Int) : 0 ≤ effectiveScale scale := by
  unfold effectiveScale
  split <;> omega

/-- A computation gives, where an invariant holds, only values of which something holds on the
machine it leaves. -/
def Yields {α : Type} (I : Machine → Prop) (P : Machine → α → Prop) (x : Run α) : Prop :=
  ∀ m, I m → ∀ a n, x m = .ok a n → P n a

namespace Yields

variable {I : Machine → Prop} {α β : Type} {P : Machine → β → Prop}

theorem bind {x : Run α} {f : α → Run β} (hfirst : Spares I x) (hrest : ∀ a, Yields I P (f a)) :
    Yields I P (x >>= f) := by
  intro m hm b n h
  obtain ⟨a, k, hx, hf⟩ := Run.bind_eq_ok_iff.mp h
  exact hrest a k (hfirst.of_ok hm hx).1 b n hf

theorem throw (e : Failure) : Yields I P (throw e) := fun _ _ _ _ h ↦ nomatch h

theorem raise (site : Site) (kind : ErrorKind) (message : String) :
    Yields I P (site.raise kind message) := fun _ _ _ _ h ↦ nomatch h

end Yields

section

variable {scale suggestions : Int} {interp : Interp} {site : Site}

/-- All numbers within what the division makes keep to the scale in force. -/
theorem applyOperator_fits (args : List CellRef) :
    Yields (Machine.InForce scale suggestions) (fun n z ↦ n.Fits (Call.effectiveScale scale) z)
      (interp.applyOperator site "/" .infixOp args) := by
  intro m hm z n h
  let call : Call :=
    { scale := Call.effectiveScale m.options.divisionScale
      invoke := fun name function args => interp.call site name .none function args
      fuel := interp.fuel }
  have hevaluate : Machine.Quotients.Makes m call.scale
      (Operator.standard.evaluate call "/" .infixOp args) :=
    Machine.Quotients.evaluate call (Call.effectiveScale_nonneg _) args
  have hmakes := Indifferent.traced site .typeMismatch hevaluate
  obtain ⟨hquotients, hnew⟩ := hmakes.of_ok (.start m _) h
  rw [← hm.scale]
  exact hquotients.fits hnew

/-- Assumes: an interpreter that keeps settings in force. All numbers within the value of an
expression that divides keep to the scale in force. -/
theorem operation_fits
    (heval : ∀ site mode node,
      Spares (Machine.InForce scale suggestions) (interp.eval site mode node))
    (operands : List Node) :
    Yields (Machine.InForce scale suggestions) (fun n z ↦ n.Fits (Call.effectiveScale scale) z)
      (interp.operation site "/" .infixOp operands) := by
  have hvalue (node : Node) (mode : Mode) :
      Spares (Machine.InForce scale suggestions) (interp.value site node mode) :=
    (heval site mode node).bind fun _ ↦ .pure trivial
  have happlied (first second : Node) (left : CellRef) :
      Yields (Machine.InForce scale suggestions) (fun n z ↦ n.Fits (Call.effectiveScale scale) z) (do
        let right ← interp.value site second
        interp.applyOperator site "/" .infixOp [left, right]) :=
    .bind (hvalue second _) fun right ↦ applyOperator_fits [left, right]
  unfold Interp.operation
  split
  · exact .raise site _ _
  · rename_i op _
    by_cases hcount : operands.length ≠ op.arity
    · rw [if_pos hcount]
      exact fun _ _ _ _ h ↦ nomatch h
    · rw [if_neg hcount]
      match operands with
      | [first, second] =>
        refine .bind (hvalue first _) fun left ↦ .bind (.get_bind fun _ _ ↦ .pure trivial) fun c ↦ ?_
        split
        · rename_i b
          rw [if_neg (by cases b <;> decide)]
          exact happlied first second left
        · exact happlied first second left
      | [] | [_] | _ :: _ :: _ :: _ =>
        exact .bind (Maintains.mapM fun node _ ↦ hvalue node _).spares fun values ↦
          applyOperator_fits values

end

/-- All numbers within the value of an expression that divides keep to the scale in force. -/
theorem eval_operation_fits {scale suggestions : Int} (n : Nat) (site : Site) (mode : Mode)
    (operands : List Node) :
    Yields (Machine.InForce scale suggestions)
      (fun k (result : Completion) ↦ k.Fits (Call.effectiveScale scale) result.value)
      ((interp n).eval site mode (.operation "/" .infixOp operands)) := by
  cases n with
  | zero => exact .throw _
  | succ n =>
    intro m hm result k h
    change (interp n).evalNode site mode (.operation "/" .infixOp operands) m = .ok result k at h
    obtain ⟨depth, recorded, style, announced, done, hrecord, hannounce, hnode⟩ :=
      Visit.evalNode_parts h
    obtain ⟨last, hlast, hunwound⟩ := Visit.evalNode_ok hrecord hannounce hnode
    cases hlast.symm.trans h
    have hforce : announced.InForce scale suggestions :=
      ((InForce.announce site _).of_ok ((InForce.record site _).of_ok hm hrecord).1 hannounce).1
    change ((interp n).operation site "/" .infixOp operands >>= fun z ↦ pure { value := z })
      announced = .ok result done at hnode
    obtain ⟨z, k', hoperation, hdone⟩ := Run.bind_eq_ok_iff.mp hnode
    cases hdone
    exact hunwound.fits (operation_fits (fun site mode node ↦ inForce_eval n site mode node)
      operands announced hforce z _ hoperation)

end TreeScript
