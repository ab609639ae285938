import TreeScript.Proofs.Broadcasting.Elementwise
import TreeScript.Proofs.InjectedSymbols
import TreeScript.Proofs.Tandem.Basic

/-!
# Operands that are left out

The operators `&&` and `||` do not evaluate their right operand if the left one is the truth value
that decides (`Connective.decisive`). The operators themselves, as entries of the table and as
functions, are given both operands, and work on objects value by value. `short_circuit_agrees` says
that evaluation succeeds wherever the operator does on the two values, and that the results are
equal unless the left operand decides and the right one is an object: the operator then makes an
object of truth values, and evaluation gives the truth value of the left operand
(`false_and_list_is_false`).

The two may run with different fuel, on machines that differ in what has been logged, and with other
ways to call functions. So what the operator achieves is carried over from one run to the other
(`Run.ExtendedBy`), first for the parts an operator is put together of and then by the depth of the
operands (`Connective.evaluate_extendedBy`).
-/

set_option autoImplicit false

namespace TreeScript

/-- Wherever the first computation gives a value the second one gives the same, also on a machine
that is alike, and leaves a machine that is alike. -/
def Run.ExtendedBy {α : Type} (x y : Run α) : Prop :=
  ∀ (m m' n : Machine) (a : α), m.Alike m' → x m = .ok a n → ∃ n', y m' = .ok a n' ∧ n.Alike n'

namespace Run.ExtendedBy

variable {α β σ : Type} {x y : Run α}

theorem of_throw (e : Failure) (y : Run α) : ExtendedBy (throw e) y := by
  intro m m' n a _ hx
  cases hx

theorem of_steady (h : Steady x) : ExtendedBy x x := by
  intro m m' n a halike hx
  have hends := h m m' m m' (.refl m) ⟨halike, .refl m, .refl m'⟩
  rw [hx] at hends
  revert hends
  generalize x m' = outcome
  intro hends
  cases hends with
  | ok _ hlike hvalue => exact ⟨_, congrArg (EStateM.Result.ok · _) hvalue.symm, hlike.1⟩

theorem bind {f g : α → Run β} (hfirst : ExtendedBy x y) (hrest : ∀ a, ExtendedBy (f a) (g a)) :
    ExtendedBy (x >>= f) (y >>= g) := by
  intro m m' n b halike hboth
  obtain ⟨a, k, hx, hf⟩ := bind_eq_ok_iff.mp hboth
  obtain ⟨k', hy, halike'⟩ := hfirst m m' k a halike hx
  obtain ⟨n', hg, halike''⟩ := hrest a k k' n b halike' hf
  exact ⟨n', (bind_ok hy).trans hg, halike''⟩

theorem get_bind {f g : Machine → Run α} (h : ∀ m m', m.Alike m' → ExtendedBy (f m) (g m')) :
    ExtendedBy (get >>= f) (get >>= g) :=
  fun m m' n a halike hf ↦ h m m' halike m m' n a halike hf

theorem foldlM {f g : σ → α → Run σ} (xs : List α) (h : ∀ s a, ExtendedBy (f s a) (g s a)) :
    ∀ s, ExtendedBy (xs.foldlM f s) (xs.foldlM g s) := by
  induction xs with
  | nil => exact fun s ↦ of_steady (.pure s)
  | cons a as ih =>
    intro s
    rw [List.foldlM_cons, List.foldlM_cons]
    exact (h s a).bind ih

theorem forEntries {f g : σ → Entry → Run σ} (ref : TableRef) (init : σ)
    (h : ∀ s entry, ExtendedBy (f s entry) (g s entry)) :
    ExtendedBy (forEntries ref init f) (forEntries ref init g) := by
  refine (of_steady (.tableOf ref)).bind fun _ ↦ foldlM _ (fun s i ↦ ?_) init
  refine (of_steady (.tableOf ref)).bind fun _ ↦ ?_
  split
  · exact h s _
  · exact of_steady (.pure s)

theorem mapValues {f g : CellRef → CellRef → Run CellRef} (ref : TableRef)
    (h : ∀ key value, ExtendedBy (f key value) (g key value)) :
    ExtendedBy (Operator.mapValues ref f) (Operator.mapValues ref g) := by
  refine (of_steady .newTable).bind fun out ↦ (forEntries ref () fun _ entry ↦ ?_).bind fun _ ↦
    of_steady (.newObject out)
  exact (h _ _).bind fun value ↦ of_steady (.setEntry out entry.key value)

end Run.ExtendedBy

open Run in
/-- Assumes: rules whose results do not depend on the ways to call functions, and no less fuel. An
operator makes of its operands what it made of them. -/
theorem Operator.dispatch2_extendedBy {op : Operator} {call call' : Call}
    (hrules : ∀ first second rule left right, op.binaryRule? first second = some rule →
      ExtendedBy (rule.apply call op.symbol left right) (rule.apply call' op.symbol left right))
    {fuel fuel' : Nat} (hfuel : fuel ≤ fuel') :
    ∀ left right, ExtendedBy (op.dispatch2 call fuel left right)
      (op.dispatch2 call' fuel' left right) := by
  -- Both runs go down the operands together, and the first one is never the deeper one.
  induction fuel generalizing fuel' with
  | zero => exact fun _ _ ↦ .of_throw _ _
  | succ fuel ih =>
    obtain ⟨fuel', rfl⟩ : ∃ less, fuel' = less + 1 := ⟨fuel' - 1, by omega⟩
    have hinner := ih (Nat.le_of_succ_le_succ hfuel)
    intro left right
    refine .get_bind fun m m' halike ↦ ?_
    rw [halike.typeName, halike.tableOf?]
    cases hrule : op.binaryRule? (m.typeName left) (m.typeName right) with
    | some rule => exact hrules _ _ rule left right hrule
    | none =>
      dsimp only
      cases m.tableOf? left with
      | some s =>
        cases m.tableOf? right with
        | some t =>
          refine (ExtendedBy.of_steady (.requireSameKeys op s t)).bind fun _ ↦
            .mapValues s fun key value ↦ .get_bind fun n n' halike' ↦ ?_
          rw [halike'.lookUp]
          split
          · exact hinner value _
          · exact (ExtendedBy.of_steady .newEmpty).bind fun other ↦ hinner value other
        | none => exact .mapValues s fun _ value ↦ hinner value right
      | none =>
        cases m.tableOf? right with
        | some t => exact .mapValues t fun _ value ↦ hinner left value
        | none => exact .of_throw _ _

/-! ### The operators -/

/-- The two operators that may leave their right operand out. -/
inductive Connective where
  | conjunction | disjunction

namespace Connective

def symbol : Connective → String
  | conjunction => "&&"
  | disjunction => "||"

/-- The truth value of the left operand that decides. -/
def decisive : Connective → Bool
  | conjunction => false
  | disjunction => true

/-- What becomes of two truth values. -/
def combine : Connective → Bool → Bool → Bool
  | conjunction => and
  | disjunction => or

def rule : Connective → BinaryRule
  | conjunction => .and
  | disjunction => .or

theorem combine_decisive (c : Connective) (b : Bool) : c.combine c.decisive b = c.decisive := by
  cases c <;> rfl

variable (c : Connective) {call call' : Call} {left right result : CellRef} {m n : Machine}

theorem apply_rule (call : Call) (symbol : String) (left right : CellRef) :
    c.rule.apply call symbol left right =
      get >>= fun m ↦ newBoolean (c.combine (m.isTrue left) (m.isTrue right)) := by
  cases c <;> rfl

/-- The entry of the table under the symbol. -/
def operator : Connective → Operator
  | conjunction => Operator.between "&&" 40 [Operator.boolean2 .and]
  | disjunction => Operator.between "||" 30 [Operator.boolean2 .or]

theorem actions_operator : c.operator.actions = [Operator.boolean2 c.rule] := by
  cases c <;> rfl

theorem find?_symbol : Operator.standard.find? c.symbol .infixOp = some c.operator := by
  have hmem : c.operator ∈ Operator.standardOperators := by
    cases c <;> simp [operator, Operator.standardOperators]
  have hfound := Operator.find?_standard hmem
  cases c <;> exact hfound

theorem arity_operator : c.operator.arity = 2 := by
  cases c <;> rfl

theorem evaluate_eq_dispatch2 (call : Call) (left right : CellRef) :
    Operator.standard.evaluate call c.symbol .infixOp [left, right] =
      c.operator.dispatch2 call call.fuel left right := by
  have hfixity : c.operator.fixity = .infixOp := by cases c <;> rfl
  have hacts : c.operator.actions.isEmpty = false := by rw [actions_operator]; rfl
  exact funext (Operator.evaluate_eq_dispatch rfl c.find?_symbol hfixity hacts)

variable {c}

/-- The one action takes two truth values. -/
theorem binaryRule?_eq_some_iff {left right : Content} {rule : BinaryRule} :
    c.operator.binaryRule? left.typeName right.typeName = some rule ↔
      left.typeName = "boolean" ∧ right.typeName = "boolean" ∧ rule = c.rule := by
  have hboolean (content : Content) :
      isType content.typeName "boolean" = true ↔ content.typeName = "boolean" := by
    refine ⟨name_of_isType (by simp [plainTypes]), fun h ↦ ?_⟩
    rw [h]
    decide
  unfold Operator.binaryRule?
  rw [actions_operator, List.findSome?_singleton]
  unfold Operator.boolean2
  dsimp only
  rw [Option.ite_none_right_eq_some, Bool.and_eq_true, hboolean, hboolean, and_assoc,
    Option.some_inj, eq_comm (a := rule)]

/-- More fuel and other ways to call functions make no difference to a result. -/
theorem evaluate_extendedBy (hfuel : call.fuel ≤ call'.fuel) (left right : CellRef) :
    Run.ExtendedBy (Operator.standard.evaluate call c.symbol .infixOp [left, right])
      (Operator.standard.evaluate call' c.symbol .infixOp [left, right]) := by
  rw [evaluate_eq_dispatch2, evaluate_eq_dispatch2]
  refine Operator.dispatch2_extendedBy (fun first second rule left right hrule ↦ ?_) hfuel left
    right
  have hrule : rule = c.rule := by
    unfold Operator.binaryRule? at hrule
    rw [actions_operator, List.findSome?_singleton] at hrule
    exact (Option.some_inj.mp (Option.ite_none_right_eq_some.mp hrule).2).symm
  rw [hrule, apply_rule, apply_rule]
  refine .get_bind fun m m' halike ↦ ?_
  rw [halike.isTrue]
  exact .of_steady (.newBoolean _)

/-- Of two truth values the operator makes a truth value. It takes nothing else but objects, and
then makes an object. -/
theorem evaluate_eq_ok
    (h : Operator.standard.evaluate call c.symbol .infixOp [left, right] m = .ok result n) :
    (∃ a b, m.content left = .boolean a ∧ m.content right = .boolean b ∧
        n.content result = .boolean (c.combine a b)) ∨
      ((m.tableOf? left ≠ none ∨ m.tableOf? right ≠ none) ∧
        ∃ ref, n.content result = .object ref) := by
  rw [evaluate_eq_dispatch2] at h
  have hmapped {ref : TableRef} {act : CellRef → CellRef → Run CellRef} {k : Machine}
      (hmaps : Operator.mapValues ref act k = .ok result n) :
      ∃ ref, n.content result = .object ref := by
    obtain ⟨out, k₁, -, hrest⟩ := Run.bind_eq_ok_iff.mp hmaps
    obtain ⟨_, k₂, -, hnew⟩ := Run.bind_eq_ok_iff.mp hrest
    cases hnew
    exact ⟨out, Machine.content_new k₂ (.object out)⟩
  cases hfuel : call.fuel with
  | zero =>
    rw [hfuel] at h
    cases h
  | succ fuel =>
    rw [hfuel, Operator.dispatch2, Run.get_bind] at h
    cases hrule : c.operator.binaryRule? (m.typeName left) (m.typeName right) with
    | some rule =>
      obtain ⟨hleft, hright, rfl⟩ := binaryRule?_eq_some_iff.mp hrule
      obtain ⟨a, ha⟩ := content_boolean hleft
      obtain ⟨b, hb⟩ := content_boolean hright
      have htrue {cell : CellRef} {b : Bool} (hcell : m.content cell = .boolean b) :
          m.isTrue cell = b := by
        unfold Machine.isTrue
        rw [Machine.isTrueIn, hcell]
      rw [hrule] at h
      dsimp only at h
      rw [apply_rule, Run.get_bind, htrue ha, htrue hb] at h
      cases h
      exact .inl ⟨a, b, ha, hb, Machine.content_new m _⟩
    | none =>
      rw [hrule] at h
      dsimp only at h
      cases hleft : m.tableOf? left with
      | some s =>
        refine .inr ⟨.inl (Option.some_ne_none s), ?_⟩
        rw [hleft] at h
        cases hright : m.tableOf? right with
        | some t =>
          rw [hright] at h
          obtain ⟨_, k, -, hmaps⟩ := Run.bind_eq_ok_iff.mp h
          exact hmapped hmaps
        | none =>
          rw [hright] at h
          exact hmapped h
      | none =>
        rw [hleft] at h
        cases hright : m.tableOf? right with
        | some t =>
          rw [hright] at h
          exact .inr ⟨.inr (Option.some_ne_none t), hmapped h⟩
        | none =>
          rw [hright] at h
          cases h

end Connective

/-! ### Both operands given -/

/-- The operator gives a result for two values, with at most some fuel: as an entry of the table, or
as the function that the operator in parentheses stands for. -/
inductive Connective.Gives (c : Connective) (fuel : Nat) (left right : CellRef) (m : Machine)
    (result : CellRef) (n : Machine) : Prop
  | table {call : Call} (hfuel : call.fuel ≤ fuel)
      (hresult : Operator.standard.evaluate call c.symbol .infixOp [left, right] m = .ok result n)
  | function {interp : Interp} {site : Site} {name : String} {preparation : Preparation}
      {function : CellRef} {stamp : Stamp} (hfuel : interp.fuel ≤ fuel)
      (hfunction : m.content function = .native stamp (.operator c.symbol .infixOp))
      (hresult :
        interp.callValue site name preparation function [left, right] m = .ok result n)

/-- An operator in parentheses stands for a function that is the entry of the table. -/
theorem Connective.content_operatorValue (c : Connective) (site : Site) (m : Machine) :
    ∃ function stamp n, Interp.operatorValue site c.symbol .infixOp m = .ok function n ∧
      n.content function = .native stamp (.operator c.symbol .infixOp) := by
  have hmade : Interp.operatorValue site c.symbol .infixOp m = (do
      alloc (.native (← newStamp) (.operator c.symbol .infixOp))) m := by
    unfold Interp.operatorValue
    rw [c.find?_symbol]
    rfl
  exact ⟨_, _, _, hmade, Machine.content_new _ _⟩

/-- What differs in the stack traces and the log only does so the other way round, too. -/
theorem Machine.Unwound.symm {m n : Machine} (h : m.Unwound n) : n.Unwound m := by
  unfold Unwound
  rw [← h]

namespace Connective.Gives

variable {c : Connective} {fuel : Nat} {left right result : CellRef} {m n : Machine}

/-- Either way the entry of the table gives the result, on a machine that is alike. -/
theorem evaluates (h : c.Gives fuel left right m result n) :
    ∃ call k, call.fuel ≤ fuel ∧ m.Unwound k ∧
      Operator.standard.evaluate call c.symbol .infixOp [left, right] k = .ok result n := by
  cases h with
  | @table call hfuel hresult => exact ⟨call, m, hfuel, .refl m, hresult⟩
  | @function interp site name preparation function stamp hfuel hfunction hresult =>
    obtain ⟨k, hannounced, hunwound⟩ := announceCall_apply name [left, right] m
    obtain ⟨call, hcall, hfuel'⟩ : ∃ call, interp.callFrom site k = .ok call k ∧
        call.fuel = interp.fuel := ⟨_, rfl, rfl⟩
    refine ⟨call, k, Nat.le_trans (Nat.le_of_eq hfuel') hfuel, hunwound, ?_⟩
    have hread : content function m = .ok (.native stamp (.operator c.symbol .infixOp)) m := by
      rw [← hfunction]
      rfl
    have hcallable :
        ¬(!(Content.native stamp (.operator c.symbol .infixOp)).isFunction) = true := nofun
    rw [Interp.callValue_eq, Run.bind_ok hread] at hresult
    unfold Interp.callContent Interp.callFunction at hresult
    rw [if_neg hcallable] at hresult
    dsimp only at hresult
    rw [Run.bind_ok hannounced, Run.bind_ok hcall] at hresult
    exact Run.of_traced_ok hresult

/-- Evaluation that applies the operator to the two values comes to the same result. -/
theorem applyOperator (h : c.Gives fuel left right m result n) {interp : Interp}
    (hfuel : fuel ≤ interp.fuel) (site : Site) :
    ∃ n', interp.applyOperator site c.symbol .infixOp [left, right] m = .ok result n' ∧
      n.Alike n' := by
  obtain ⟨call, k, hless, hunwound, hresult⟩ := h.evaluates
  obtain ⟨call', hcall, hfuel'⟩ : ∃ call', interp.callFrom site m = .ok call' m ∧
      call'.fuel = interp.fuel := ⟨_, rfl, rfl⟩
  have hmore : call.fuel ≤ call'.fuel := hfuel' ▸ Nat.le_trans hless hfuel
  obtain ⟨n', hagain, halike⟩ := evaluate_extendedBy hmore left right k m n result
    (.of_unwound hunwound.symm) hresult
  refine ⟨n', ?_, halike⟩
  unfold Interp.applyOperator
  rw [Run.bind_ok hcall]
  exact Run.traced_ok site .typeMismatch hagain

/-- The operator takes two truth values, or else an object, and makes an object then. -/
theorem result_cases (h : c.Gives fuel left right m result n) :
    (∃ a b, m.content left = .boolean a ∧ m.content right = .boolean b ∧
        n.content result = .boolean (c.combine a b)) ∨
      ((m.tableOf? left ≠ none ∨ m.tableOf? right ≠ none) ∧
        ∃ ref, n.content result = .object ref) := by
  obtain ⟨call, k, -, hunwound, hresult⟩ := h.evaluates
  have htable : k.tableOf? = m.tableOf? := (Machine.Alike.of_unwound hunwound).tableOf?
  have hcases := evaluate_eq_ok hresult
  rwa [hunwound.content, hunwound.content, htable] at hcases

end Connective.Gives

/-! ### Equal results -/

namespace Machine

/-- A value on one machine is equal to a value on another one: it is, once that value has been
brought over. An object can be brought over where the machines are alike. -/
structure EqualAcross (m : Machine) (a : CellRef) (n : Machine) (b : CellRef) : Prop where
  alike : n.tableOf? b ≠ none → m.Alike n
  equal : (m.withCell (n.content b)).equal a ⟨m.cells.size⟩ = true

variable {m n : Machine} {a b : CellRef}

/-- What is brought over is compared by what the two cells hold. -/
theorem contents_brought_over (hheld : m.content a ≠ .empty) (content : Content) :
    (m.withCell content).content a = m.content a ∧
      (m.withCell content).content ⟨m.cells.size⟩ = content :=
  ⟨(m.grown_withCell content).cells.content a (bound_of_content hheld), content_new m content⟩

theorem equalAcross_booleans_iff {x y : Bool} (ha : m.content a = .boolean x)
    (hb : n.content b = .boolean y) : m.EqualAcross a n b ↔ x = y := by
  have hheld : m.content a ≠ .empty := by rw [ha]; exact nofun
  obtain ⟨hleft, hright⟩ := contents_brought_over hheld (n.content b)
  have hequal : (m.withCell (n.content b)).equal a ⟨m.cells.size⟩ = (x == y) := by
    unfold Machine.equal
    rw [equalIn, hleft, hright, ha, hb]
  have hplain : n.tableOf? b = none := by
    unfold Machine.tableOf?
    rw [hb]
  refine ⟨fun h ↦ beq_iff_eq.mp (hequal.symm.trans h.equal),
    fun hsame ↦ ⟨fun h ↦ (h hplain).elim, ?_⟩⟩
  rw [hequal, hsame]
  exact beq_self_eq_true y

/-- An object is equal to itself on a machine that is alike. -/
theorem equalAcross_object {ref : TableRef} (halike : m.Alike n) (ha : m.content a = .object ref) :
    m.EqualAcross a n a := by
  have hb : n.content a = .object ref := by
    rcases halike.content_cases a with hsame | ⟨_, _, _, hfunction, -⟩
    · exact hsame.trans ha
    · cases ha.symm.trans hfunction
  have hheld : m.content a ≠ .empty := by rw [ha]; exact nofun
  obtain ⟨hleft, hright⟩ := contents_brought_over hheld (n.content a)
  refine ⟨fun _ ↦ halike, ?_⟩
  unfold Machine.equal
  rw [equalIn, hleft, hright, ha, hb]
  dsimp only
  rw [if_pos (.inl rfl)]

/-- An object is not equal to a truth value. -/
theorem not_equalAcross_boolean {ref : TableRef} {y : Bool} (ha : m.content a = .object ref)
    (hb : n.content b = .boolean y) : ¬m.EqualAcross a n b := by
  intro h
  have hheld : m.content a ≠ .empty := by rw [ha]; exact nofun
  obtain ⟨hleft, hright⟩ := contents_brought_over hheld (n.content b)
  have hequal := h.equal
  unfold Machine.equal at hequal
  rw [equalIn, hleft, hright, ha, hb] at hequal
  cases hequal

end Machine

/-! ### Evaluation -/

namespace Connective

variable {c : Connective} {interp : Interp} {site : Site} {first second : Node}
  {m m₁ m₂ : Machine} {left right : CellRef}

/-- Where the left operand decides, the truth value is the result. -/
theorem operation_decided (hleft : interp.value site first .required m = .ok left m₁)
    (hdecides : m₁.content left = .boolean c.decisive) :
    interp.operation site c.symbol .infixOp [first, second] m = newBoolean c.decisive m₁ := by
  have hread : content left m₁ = .ok (.boolean c.decisive) m₁ := by
    rw [← hdecides]
    rfl
  have harity : ¬[first, second].length ≠ c.operator.arity :=
    not_not_intro c.arity_operator.symm
  unfold Interp.operation
  rw [c.find?_symbol]
  dsimp only
  rw [if_neg harity, Run.bind_ok hleft, Run.bind_ok hread]
  cases c <;> rfl

/-- Where the left operand does not decide, the operator is applied to both. -/
theorem operation_undecided (hleft : interp.value site first .required m = .ok left m₁)
    (hopen : m₁.content left ≠ .boolean c.decisive) :
    interp.operation site c.symbol .infixOp [first, second] m = (do
      let right ← interp.value site second
      interp.applyOperator site c.symbol .infixOp [left, right]) m₁ := by
  have hread : content left m₁ = .ok (m₁.content left) m₁ := rfl
  have harity : ¬[first, second].length ≠ c.operator.arity :=
    not_not_intro c.arity_operator.symm
  unfold Interp.operation
  rw [c.find?_symbol]
  dsimp only
  rw [if_neg harity, Run.bind_ok hleft, Run.bind_ok hread]
  generalize m₁.content left = held at hopen
  split
  · rename_i b
    have hother : (c.symbol == "||" && b || c.symbol == "&&" && !b) = false := by
      cases c <;> cases b <;> first | rfl | exact absurd rfl hopen
    rw [hother]
    rfl
  · rfl

/-- Assumes: the values of two operands, of which the second leaves the first one as it is, and a
result that the operator gives for them, with no more fuel than the evaluator has. The evaluation of
the operator between the operands succeeds. Its result is equal to that of the operator, unless the
left operand decides and the right one is an object; wherever the left operand decides, the result
is the truth value it holds. -/
theorem short_circuit_agrees {m₃ : Machine} {strict : CellRef} (mode : Mode)
    (hleft : interp.value site first .required m = .ok left m₁)
    (hright : interp.value site second .required m₁ = .ok right m₂)
    (hkept : m₂.content left = m₁.content left)
    (hstrict : c.Gives interp.fuel left right m₂ strict m₃) :
    ∃ result n, interp.expression site mode (.operation c.symbol .infixOp [first, second]) m =
        .ok result n ∧
      (m₃.EqualAcross strict n result ↔
        ¬(m₁.content left = .boolean c.decisive ∧ m₂.tableOf? right ≠ none)) ∧
      (m₁.content left = .boolean c.decisive → n.content result = .boolean c.decisive) := by
  change ∃ result n, interp.operation site c.symbol .infixOp [first, second] m = _ ∧ _
  by_cases hdecides : m₁.content left = .boolean c.decisive
  · have hmade : newBoolean c.decisive m₁ =
        .ok ⟨m₁.cells.size⟩ (m₁.withCell (.boolean c.decisive)) := rfl
    have hresult := Machine.content_new m₁ (.boolean c.decisive)
    refine ⟨_, _, (operation_decided hleft hdecides).trans hmade, ?_, fun _ ↦ hresult⟩
    rcases hstrict.result_cases with ⟨a, b, ha, hb, hboth⟩ | ⟨hobject, ref, hmade'⟩
    · have hplain : m₂.tableOf? right = none := by
        unfold Machine.tableOf?
        rw [hb]
      cases (hkept.trans hdecides).symm.trans ha
      rw [Machine.equalAcross_booleans_iff hboth hresult]
      exact ⟨fun _ h ↦ h.2 hplain, fun _ ↦ c.combine_decisive b⟩
    · have hplain : m₂.tableOf? left = none := by
        unfold Machine.tableOf?
        rw [hkept, hdecides]
      have hright := hobject.resolve_left (not_not_intro hplain)
      exact ⟨fun h ↦ (Machine.not_equalAcross_boolean hmade' hresult h).elim,
        fun h ↦ (h ⟨hdecides, hright⟩).elim⟩
  · obtain ⟨n, happlied, halike⟩ := hstrict.applyOperator (Nat.le_refl _) site
    have hequal : m₃.EqualAcross strict n strict := by
      rcases hstrict.result_cases with ⟨a, b, -, -, hboth⟩ | ⟨-, ref, hmade⟩
      · refine (Machine.equalAcross_booleans_iff hboth ?_).mpr rfl
        rcases halike.content_cases strict with hsame | ⟨_, _, _, hfunction, -⟩
        · exact hsame.trans hboth
        · cases hboth.symm.trans hfunction
      · exact Machine.equalAcross_object halike hmade
    refine ⟨strict, n, ?_, iff_of_true hequal fun h ↦ hdecides h.1, fun h ↦ (hdecides h).elim⟩
    rw [operation_undecided hleft hdecides, Run.bind_ok hright, happlied]

end Connective

namespace ListOperand

/-- A machine with a source whose variable `list` is an array of one truth value. -/
def machine : Machine where
  cells := #[.boolean true, .number (Decimal.ofInt 0), .object ⟨0⟩]
  tables := #[
    { slots := #[⟨⟨1⟩, ⟨0⟩⟩], size := 1, capacity := 1,
      index := Std.HashMap.insert {} (.number (Decimal.ofInt 0)) 0 }]
  scopes := #[Std.TreeMap.insert {} "list" ⟨2⟩]
  traces := #[{}]
  contexts := #[{ source := "main", globals := ⟨0⟩, trace := ⟨0⟩ }]

def site : Site := ⟨⟨0⟩, (machine.context ⟨0⟩).frame⟩

/-- A truth value and the list are evaluated, the latter without changing anything but stack traces
and the log, and conjunction takes the two. -/
theorem operands (b : Bool) : ∃ m₁ m₂ strict m₃,
    (interp 3).value site (.boolean b) .required machine = .ok ⟨3⟩ m₁ ∧
      m₁.content ⟨3⟩ = .boolean b ∧
      (interp 3).value site (.identifier "list") .required m₁ = .ok ⟨2⟩ m₂ ∧ m₁.Unwound m₂ ∧
      m₂.tableOf? ⟨2⟩ = some ⟨0⟩ ∧
      Connective.conjunction.Gives (interp 3).fuel ⟨3⟩ ⟨2⟩ m₂ strict m₃ := by
  obtain ⟨m₁, hleft, hm₁⟩ := Interp.value_boolean (m := machine) 2 site b rfl
  have hvisible : m₁.visible? site "list" = some ⟨2⟩ := by
    rw [hm₁.visible?]
    change machine.visible? site "list" = some ⟨2⟩
    decide
  have hdebugger : m₁.options.debugger = none := by rw [hm₁.options]; rfl
  obtain ⟨m₂, hright, hm₂⟩ := Interp.value_variable 2 (nofun : Mode.required ≠ .createNew)
    hdebugger hvisible
  have hresult : Outcome.value? (Connective.conjunction.operator.dispatch2 (Call.detached 20 2) 2
      ⟨3⟩ ⟨2⟩ (machine.withCell (.boolean b))) = some ⟨5⟩ := by
    cases b <;> decide
  let call := Call.detached 20 2
  have hfuel : call.fuel ≤ call.fuel := Nat.le_refl _
  obtain ⟨m₃, hstrict, -⟩ :=
    Connective.evaluate_extendedBy (c := .conjunction) hfuel ⟨3⟩ ⟨2⟩ _ _ _ _
    (.of_unwound (hm₁.trans hm₂))
    ((congrFun (Connective.evaluate_eq_dispatch2 _ _ _ _) _).trans (Outcome.eq_ok hresult))
  refine ⟨m₁, m₂, ⟨5⟩, m₃, hleft, hm₁.content ⟨3⟩, hright, hm₂, ?_,
    .table (Nat.le_refl _) hstrict⟩
  rw [(Machine.Alike.of_unwound (hm₁.trans hm₂)).tableOf?]
  rfl

end ListOperand

namespace Connective

open ListOperand

/-- `true && list` gives what the operator makes of the two values. -/
theorem true_and_list : ∃ m₁ m₂ strict m₃ result n,
    (interp 3).value site (.boolean true) .required machine = .ok ⟨3⟩ m₁ ∧
      (interp 3).value site (.identifier "list") .required m₁ = .ok ⟨2⟩ m₂ ∧
      conjunction.Gives (interp 3).fuel ⟨3⟩ ⟨2⟩ m₂ strict m₃ ∧
      (interp 3).expression site .required
        (.operation "&&" .infixOp [.boolean true, .identifier "list"]) machine = .ok result n ∧
      m₃.EqualAcross strict n result := by
  obtain ⟨m₁, m₂, strict, m₃, hleft, hheld, hright, hunwound, -, hstrict⟩ := operands true
  obtain ⟨result, n, hresult, hequal, -⟩ :=
    short_circuit_agrees .required hleft hright (hunwound.content ⟨3⟩) hstrict
  refine ⟨m₁, m₂, strict, m₃, result, n, hleft, hright, hstrict, hresult, hequal.mpr fun h ↦ ?_⟩
  cases hheld.symm.trans h.1

/-- `false && list` gives `false`, though the operator makes a list of the two values. -/
theorem false_and_list_is_false : ∃ m₁ m₂ strict m₃ result n,
    (interp 3).value site (.boolean false) .required machine = .ok ⟨3⟩ m₁ ∧
      (interp 3).value site (.identifier "list") .required m₁ = .ok ⟨2⟩ m₂ ∧ m₁.Unwound m₂ ∧
      conjunction.Gives (interp 3).fuel ⟨3⟩ ⟨2⟩ m₂ strict m₃ ∧
      (interp 3).expression site .required
        (.operation "&&" .infixOp [.boolean false, .identifier "list"]) machine = .ok result n ∧
      n.content result = .boolean false ∧ ¬m₃.EqualAcross strict n result := by
  obtain ⟨m₁, m₂, strict, m₃, hleft, hheld, hright, hunwound, hobject, hstrict⟩ := operands false
  have hmade : newBoolean false m₁ = .ok ⟨m₁.cells.size⟩ (m₁.withCell (.boolean false)) := rfl
  have hresult := Machine.content_new m₁ (.boolean false)
  refine ⟨m₁, m₂, strict, m₃, _, _, hleft, hright, hunwound, hstrict,
    (operation_decided (c := conjunction) hleft hheld).trans hmade, hresult, ?_⟩
  rcases hstrict.result_cases with ⟨_, b, -, hb, -⟩ | ⟨-, ref, hlist⟩
  · cases (Machine.tableOf?_eq_some_iff.mp hobject).symm.trans hb
  · exact Machine.not_equalAcross_boolean hlist hresult

end Connective

end TreeScript
