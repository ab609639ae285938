import TreeScript.Proofs.Iteration.Arrays
import TreeScript.Proofs.Objects.Construction
import TreeScript.Proofs.Objects.Stepping

/-!
# Cells of their own

What is put into an array or an object, passed to a function, handed back by it or bound by a loop
is stored in a new cell (`Machine.Stores`), though the value itself may lie in a cell that a
variable or another object shares (`storesFreshly`). To assign to what was there before therefore
leaves alone what is stored (`leavesStored`); both together are
`stored_values_have_cells_of_their_own`.

The operators `++` and `--` change a number where it is, and those of an object one by one. They
leave alone what cannot be reached from their operand; but a variable may hold the very list that a
value has been put into, and then a step of the variable changes what is stored
(`step_changes_stored_value`).
-/

set_option autoImplicit false

namespace TreeScript

/-! ### Storing -/

namespace Machine

/-- A value that was found on one machine is stored in a cell that this machine did not have. What
it had is as it was. -/
structure Stores (before : Machine) (value cell : CellRef) (after : Machine) : Prop where
  fresh : before.cells.size ≤ cell.index
  bound : cell.index < after.cells.size
  content : value.index < before.cells.size → after.content cell = before.content value
  kept : before.KeepsCells after

/-- Values are stored in as many cells, which are different from each other. -/
structure StoresAll (before : Machine) (values cells : List CellRef) (after : Machine) :
    Prop where
  each : List.Forall₂ (fun value cell ↦ before.Stores value cell after) values cells
  distinct : cells.Nodup
  kept : before.KeepsCells after

theorem StoresAll.nil (m : Machine) : m.StoresAll [] [] m := ⟨.nil, .nil, .refl m⟩

/-- A value that was found on a machine is stored, and entered under a key of an object. -/
def Enters (before : Machine) (value : CellRef) (ref : TableRef) (after : Machine) : Prop :=
  ∃ (stored : Machine) (key cell : CellRef), before.Stores value cell stored ∧
    after = stored.after (.enter ref key cell)

variable {m n k : Machine} {value cell : CellRef} {values cells : List CellRef}

/-- To copy a value is to store it. -/
theorem stores_withCell (m : Machine) (value : CellRef) :
    m.Stores value ⟨m.cells.size⟩ (m.withCell (m.content value)) where
  fresh := Nat.le_refl _
  bound := size_lt_push _ _
  content _ := m.content_new _
  kept := keepsCells_withCell m _

/-- A stored value stays where the cells stay. -/
theorem Stores.trans (h : m.Stores value cell n) (hkept : n.KeepsCells k) :
    m.Stores value cell k where
  fresh := h.fresh
  bound := Nat.lt_of_lt_of_le h.bound hkept.size
  content hvalue := (hkept.content cell h.bound).trans (h.content hvalue)
  kept := h.kept.trans hkept

/-- A value that was there before is stored later. -/
theorem Stores.of_kept (hkept : m.KeepsCells n) (h : n.Stores value cell k) :
    m.Stores value cell k where
  fresh := Nat.le_trans hkept.size h.fresh
  bound := h.bound
  content hvalue := (h.content (Nat.lt_of_lt_of_le hvalue hkept.size)).trans
    (hkept.content value hvalue)
  kept := hkept.trans h.kept

theorem StoresAll.fresh (h : m.StoresAll values cells n) :
    ∀ cell ∈ cells, m.cells.size ≤ cell.index := by
  have heach := h.each
  clear h
  induction heach with
  | nil => exact nofun
  | cons hstores _ ih => exact List.forall_mem_cons.mpr ⟨hstores.fresh, ih⟩

theorem StoresAll.trans (h : m.StoresAll values cells n) (hkept : n.KeepsCells k) :
    m.StoresAll values cells k :=
  ⟨h.each.imp fun _ _ hstores ↦ hstores.trans hkept, h.distinct, h.kept.trans hkept⟩

theorem StoresAll.of_kept (hkept : m.KeepsCells n) (h : n.StoresAll values cells k) :
    m.StoresAll values cells k :=
  ⟨h.each.imp fun _ _ hstores ↦ .of_kept hkept hstores, h.distinct, hkept.trans h.kept⟩

/-- Values that are stored after another one. -/
theorem StoresAll.cons (hfirst : m.Stores value cell n) (h : n.StoresAll values cells k) :
    m.StoresAll (value :: values) (cell :: cells) k := by
  refine ⟨.cons (hfirst.trans h.kept) (h.each.imp fun _ _ ↦ .of_kept hfirst.kept),
    List.nodup_cons.mpr ⟨fun hmem ↦ ?_, h.distinct⟩, hfirst.kept.trans h.kept⟩
  exact Nat.not_le_of_lt hfirst.bound (h.fresh cell hmem)

end Machine

/-- Copies are stored one after the other. -/
theorem copyAll_stores (values : List CellRef) (m : Machine) :
    ∃ cells n, values.mapM copy m = .ok cells n ∧ m.StoresAll values cells n ∧ m.GrowsCells n := by
  induction values generalizing m with
  | nil => exact ⟨[], m, rfl, .nil m, .refl m⟩
  | cons value values ih =>
    let n := m.withCell (m.content value)
    have hcopied : copy value m = .ok ⟨m.cells.size⟩ n := rfl
    have hstores := m.stores_withCell value
    obtain ⟨cells, k, hcopies, hall, hgrows⟩ := ih n
    refine ⟨⟨m.cells.size⟩ :: cells, k, ?_, .cons hstores hall,
      (Machine.GrowsCells.withCell m _).trans hgrows⟩
    rw [List.mapM_cons, Run.bind_ok hcopied, Run.bind_ok hcopies]
    rfl

/-! ### Arrays -/

/-- Adds an element to an array. -/
def Interp.addElement (interp : Interp) (site : Site) (ref : TableRef) (result : CellRef)
    (element : Node × Nat) : Run Unit := do
  let inner ← site.forkSelf result
  let value ← interp.value inner element.1
  setEntry ref (← newNumber (Decimal.ofInt element.2)) (← copy value)

/-- A loop without a state is a fold. -/
theorem forIn_eq_foldlM {α : Type} (act : α → Run Unit) (xs : List α) :
    (forIn xs ⟨⟩ fun x _ ↦ act x >>= fun _ ↦ pure (.yield ⟨⟩) : Run PUnit) =
      xs.foldlM (fun _ x ↦ act x) ⟨⟩ := by
  induction xs with
  | nil => rfl
  | cons x xs ih =>
    rw [List.forIn_cons, List.foldlM_cons, bind_assoc]
    refine bind_congr fun _ ↦ ?_
    rw [pure_bind]
    exact ih

namespace Interp

variable {interp : Interp} {site : Site} {m n : Machine} {result : CellRef}

theorem arrayLiteral_eq (interp : Interp) (site : Site) (elements : List Node) :
    interp.arrayLiteral site elements = (do
      let ref ← newTable
      let result ← newObject ref
      elements.zipIdx.foldlM (fun _ ↦ interp.addElement site ref result) ⟨⟩
      return result) := by
  unfold arrayLiteral
  refine bind_congr fun ref ↦ bind_congr fun result ↦ ?_
  rw [← forIn_eq_foldlM]
  unfold addElement
  simp only [bind_assoc]

/-- The value of an element is stored in the array. -/
theorem addElement_stores {ref : TableRef} {element : Node × Nat}
    (h : interp.addElement site ref result element m = .ok () n) :
    ∃ inner forked value before, site.forkSelf result m = .ok inner forked ∧
      interp.value inner element.1 .required forked = .ok value before ∧
      before.Enters value ref n := by
  unfold addElement at h
  obtain ⟨inner, forked, hforked, h⟩ := Run.bind_eq_ok_iff.mp h
  obtain ⟨value, before, hvalue, h⟩ := Run.bind_eq_ok_iff.mp h
  cases h
  let numbered := before.withCell (.number (Decimal.ofInt element.2))
  have hkept : before.KeepsCells numbered := Machine.keepsCells_withCell before _
  exact ⟨inner, forked, value, before, hforked, hvalue, _, ⟨before.cells.size⟩, _,
    .of_kept hkept (numbered.stores_withCell value), rfl⟩

/-! ### Objects -/

theorem addAll_eq_foldlM (interp : Interp) (site : Site) (result : CellRef) (ref : TableRef)
    (portions : List Portion) : interp.addAll site result ref portions =
      portions.foldlM (fun _ ↦ interp.add site result ref) ⟨⟩ := by
  induction portions with
  | nil => rfl
  | cons portion portions ih =>
    rw [addAll, List.foldlM_cons]
    exact bind_congr fun _ ↦ ih

/-- What a portion of a literal object is to put into it, unless it is an object that is extended:
an argument, or the value of an expression, once that has been evaluated. -/
inductive Finds (interp : Interp) (site : Site) (result : CellRef) :
    Portion → Machine → CellRef → Machine → Prop
  | field {name : String} {args : TableRef} {value : CellRef} {m : Machine}
      (hargs : (m.lookUpName site.frame "args").bind m.tableOf? = some args)
      (hvalue : m.lookUpText args name = some value) :
    Finds interp site result (.field name) m value m
  | entry {key node : Node} {inner : Site} {named own value : CellRef}
      {m forked keyed ready before : Machine}
      (hforked : site.forkSelf result m = .ok inner forked)
      (hkey : interp.entryKey inner key forked = .ok named keyed)
      (hown : undollar named keyed = .ok own ready)
      (hvalue : interp.value inner node .required ready = .ok value before) :
    Finds interp site result (.entry key node) m value before

/-- What a portion is to put into an object is stored there. -/
theorem add_stores {ref : TableRef} {portion : Portion} (hown : ∀ node, portion ≠ .base node)
    (h : interp.add site result ref portion m = .ok () n) :
    ∃ value before, interp.Finds site result portion m value before ∧
      before.Enters value ref n := by
  rw [← addAll_singleton] at h
  obtain ⟨interludes, writes, hgathers⟩ := exists_gathers h
  cases hgathers with
  | base => exact absurd rfl (hown _)
  | @field name portions args value _ k _ write _ _ hargs hvalue hk hwrite hrest =>
    cases hrest
    subst hk hwrite
    exact ⟨value, m, .field hargs hvalue, _, _, _,
      (m.stores_withCell value).trans (Machine.keepsCells_withCell _ _), rfl⟩
  | @entry key node portions inner named own value _ forked keyed ready before k _ write _ _
      hforked hkey hundollared hvalue hk hwrite hrest =>
    cases hrest
    subst hk hwrite
    exact ⟨value, before, .entry hforked hkey hundollared hvalue, _, _, _,
      before.stores_withCell value, rfl⟩

end Interp

/-! ### Calls and loops -/

/-- A scope in which names have been bound to cells, one after the other. -/
def Scope.bindAll (scope : Scope) (names : List String) (cells : List CellRef) : Scope :=
  (names.zip cells).foldl (fun scope (name, cell) ↦ scope.insert name cell) scope

/-- Assumes: a body that is opened. The arguments are stored, and there is a new scope more, which
is the only one of the frame of the body. -/
theorem openBody_parts {site inner : Site} {name : String} {preparation : Preparation}
    {function : CellRef} {closure : Closure} {args : List CellRef} {m start : Machine}
    (h : openBody site name preparation function closure args m = .ok inner start) :
    ∃ cells, m.StoresAll args cells start ∧ args.length = closure.params.length ∧
      inner = ⟨closure.context,
        { top := ⟨m.scopes.size⟩, outer := [], trace := site.frame.trace }⟩ ∧
      start.scopes = m.scopes.push (closure.bodyScope m preparation cells) := by
  obtain ⟨hchecked, hlength⟩ : checkArity site function closure args m = .ok () m ∧
      args.length = closure.params.length := by
    unfold openBody at h
    obtain ⟨_, n, hchecked, -⟩ := Run.bind_eq_ok_iff.mp h
    unfold checkArity at hchecked ⊢
    by_cases harity : args.length ≠ closure.params.length
    · rw [if_pos harity] at hchecked
      cases hchecked
    · rw [if_neg harity]
      exact ⟨rfl, not_not.mp harity⟩
  obtain ⟨cells, n, hcopies, hall, hgrows⟩ := copyAll_stores args m
  let scope := closure.bodyScope n preparation cells
  let frame : Frame := { top := ⟨n.scopes.size⟩, outer := [], trace := site.frame.trace }
  have hforked : site.frame.forkWith scope n = .ok frame (n.withScope scope) := rfl
  obtain ⟨entered, hentered, hunwound⟩ : ∃ entered,
      site.frame.enter name (n.withScope scope) = .ok () entered ∧
        (n.withScope scope).Unwound entered :=
    ⟨_, rfl, rfl⟩
  unfold openBody at h
  rw [Run.bind_ok hchecked, Run.bind_ok hcopies, Run.get_bind, Run.bind_ok hforked,
    Run.bind_ok hentered] at h
  cases h
  have hscopes : n.scopes = m.scopes := by rw [← hgrows.same]
  have hscope : scope = closure.bodyScope m preparation cells := by
    unfold scope
    rw [← hgrows.same]
    rfl
  refine ⟨cells, hall.trans (Machine.keepsCells_of_eq hunwound.cells), hlength, ?_, ?_⟩
  · unfold frame
    rw [hscopes]
  · rw [← hunwound, ← hscope, ← hscopes]
    rfl

/-- Assumes: a body that is opened. The arguments are stored, and the parameters are bound to where
they are stored. -/
theorem openBody_stores {site inner : Site} {name : String} {preparation : Preparation}
    {function : CellRef} {closure : Closure} {args : List CellRef} {m start : Machine}
    (h : openBody site name preparation function closure args m = .ok inner start) :
    ∃ cells visible, m.StoresAll args cells start ∧ inner.frame.outer = [] ∧
      start.scope inner.frame.top = Scope.bindAll visible closure.params cells := by
  obtain ⟨cells, hall, -, rfl, hscopes⟩ := openBody_parts h
  refine ⟨cells, (preparation.scope.overlay (m.scope (m.context closure.context).globals)).overlay
    (m.snapshot closure.frame), hall, rfl, ?_⟩
  exact (Machine.scope_congr hscopes _).trans ((m.scope_withScope _ _).trans (if_pos rfl))

/-- The cells a loop binds its variables to: the element, its parts, or the second one of two. -/
inductive Machine.Spreads (m : Machine) (element : CellRef) (names : List String) :
    List CellRef → Prop
  | whole {name : String} (hnames : names = [name]) : Spreads m element names [element]
  | parts {ref : TableRef} (hobject : m.content element = .object ref)
      (hlength : (m.table ref).values.length = names.length) :
    Spreads m element names (m.table ref).values
  | second {ref : TableRef} {name : String} {key value : CellRef} (hnames : names = [name])
      (hobject : m.content element = .object ref) (hpair : (m.table ref).values = [key, value]) :
    Spreads m element names [value]

/-- Binding names one after the other to copies stores what is copied. -/
theorem bindCopies_stores (frame : Frame) (names : List String) (values : List CellRef)
    (m : Machine) (hlength : values.length = names.length)
    (hframe : frame.top.index < m.scopes.size) :
    ∃ cells n, (forIn (names.zip values) PUnit.unit fun (binding : String × CellRef) _ ↦ do
        frame.putOnTop binding.1 (← copy binding.2)
        return .yield PUnit.unit) m = .ok PUnit.unit n ∧ m.StoresAll values cells n ∧
      n.scope frame.top = Scope.bindAll (m.scope frame.top) names cells := by
  induction names generalizing values m with
  | nil =>
    cases List.length_eq_zero_iff.mp hlength
    exact ⟨[], m, rfl, .nil m, rfl⟩
  | cons name names ih =>
    obtain ⟨value, values, rfl⟩ := List.exists_cons_of_length_eq_add_one hlength
    let stored := m.withCell (m.content value)
    let bound := stored.bound frame.top name ⟨m.cells.size⟩
    have hframe' : frame.top.index < bound.scopes.size :=
      Nat.lt_of_lt_of_eq hframe Array.size_modify.symm
    obtain ⟨cells, n, hloop, hall, hscope⟩ :=
      ih values bound (Nat.succ.inj hlength) hframe'
    have hfirst : m.Stores value ⟨m.cells.size⟩ bound :=
      (m.stores_withCell value).trans (Machine.keepsCells_of_eq rfl)
    refine ⟨⟨m.cells.size⟩ :: cells, n, ?_, .cons hfirst hall, ?_⟩
    · rw [List.zip_cons_cons, List.forIn_cons]
      exact hloop
    · rw [hscope, Machine.scope_bound, if_pos ⟨rfl, hframe⟩]
      rfl

/-- Assumes: a frame that is there. To bind the variables of a loop is to store what they are bound
to. -/
theorem bindElement_stores {names : List String} {element : CellRef} {frame : Frame} {m n : Machine}
    (hframe : frame.top.index < m.scopes.size)
    (h : Interp.bindElement names element frame m = .ok () n) :
    ∃ values cells, m.Spreads element names values ∧ m.StoresAll values cells n ∧
      n.scope frame.top = Scope.bindAll (m.scope frame.top) names cells := by
  -- A single variable is bound as in the loop over one name.
  have hsingle {name : String} {value : CellRef}
      (hbound : (copy value >>= frame.putOnTop name) m = .ok () n) :
      ∃ cells, m.StoresAll [value] cells n ∧
        n.scope frame.top = Scope.bindAll (m.scope frame.top) [name] cells := by
    obtain ⟨cells, n', hloop, hall, hscope⟩ := bindCopies_stores frame [name] [value] m rfl hframe
    cases hbound
    cases hloop
    exact ⟨cells, hall, hscope⟩
  unfold Interp.bindElement at h
  rw [Run.get_bind] at h
  dsimp only at h
  cases harray : (m.tableOf? element).filter m.isArray with
  | none =>
    rw [harray, Option.map_none] at h
    dsimp only at h
    split at h
    · obtain ⟨cells, hall, hscope⟩ := hsingle h
      exact ⟨_, cells, .whole rfl, hall, hscope⟩
    · cases h
  | some ref =>
    have hobject : m.content element = .object ref :=
      Machine.tableOf?_eq_some_iff.mp (Option.filter_eq_some_iff.mp harray).1
    rw [harray, Option.map_some] at h
    dsimp only at h
    generalize hitems : (m.table ref).values = items at h
    split at h
    · rename_i hlength
      obtain ⟨cells, n', hloop, hall, hscope⟩ :=
        bindCopies_stores frame names items m hlength hframe
      rw [bind_pure] at h
      cases hloop.symm.trans h
      subst hitems
      exact ⟨_, cells, .parts hobject hlength, hall, hscope⟩
    · split at h
      · rename_i key value name hother
        obtain ⟨cells, hall, hscope⟩ := hsingle h
        exact ⟨_, cells, .second rfl hobject hitems, hall, hscope⟩
      · cases h

/-- Assumes: a parenthesis with other than one element, which is evaluated. The values of its
elements are stored, and make an array. -/
theorem Interp.parenthesis_stores {interp : Interp} {site : Site} {mode : Mode}
    {elements : List Node} {m n : Machine} {result : CellRef} (hcount : elements.length ≠ 1)
    (h : interp.parenthesis site mode elements m = .ok result n) :
    ∃ values before cells, interp.values site elements m = .ok values before ∧
      before.StoresAll values cells n ∧ n.IsArrayOf result cells := by
  have hlist : interp.parenthesis site mode elements =
      (do newArray (← (← interp.values site elements).mapM copy)) := by
    unfold parenthesis
    split
    · exact absurd rfl hcount
    · rfl
  rw [hlist] at h
  obtain ⟨values, before, hvalues, h⟩ := Run.bind_eq_ok_iff.mp h
  obtain ⟨cells, stored, hcopies, hall, -⟩ := copyAll_stores values before
  rw [Run.bind_ok hcopies] at h
  obtain ⟨out, n', hmade, hgrown, harray⟩ := Machine.newArray_items cells stored
  cases hmade.symm.trans h
  exact ⟨values, before, cells, hvalues, hall.trans hgrown.cells, harray⟩

/-- What closes the body of a function stores its value. -/
theorem closeBody_stores {site : Site} {name : String} {closure : Closure} {result : Completion}
    {m n : Machine} {cell : CellRef} (h : closeBody site name closure result m = .ok cell n) :
    m.Stores result.value cell n := by
  unfold closeBody at h
  split at h
  · cases h
  · cases h
    exact m.stores_withCell result.value

/-! ### Assigning -/

namespace Operator

/-- The operators that call a function. -/
def piping : List String := ["|>", ">|"]

theorem fixity_of_stepping : ∀ op ∈ standardOperators, op.symbol ∈ stepping →
    op.fixity ≠ .infixOp := by
  decide

/-- Operators between two values keep the cells there are, unless they call a function. -/
theorem evaluate_keepsCells {symbol : String} (hsymbol : symbol ∉ piping) (call : Call)
    (args : List CellRef) (m : Machine) :
    m.KeepsCells (Outcome.final (standard.evaluate call symbol .infixOp args m)) := by
  by_cases hstepping : symbol ∈ stepping
  · have hnone : standard.find? symbol .infixOp = none := by
      refine Option.eq_none_iff_forall_ne_some.mpr fun op hfound ↦ ?_
      have hsame := List.find?_some hfound
      rw [Bool.and_eq_true, beq_iff_eq, beq_iff_eq] at hsame
      exact fixity_of_stepping op (standard_perm.mem_iff.mp (List.mem_of_find?_eq_some hfound))
        (hsame.1 ▸ hstepping) hsame.2
    unfold OperatorTable.evaluate
    rw [hnone]
    exact .refl m
  · have hspares : symbol ∉ disturbing := fun hmem ↦
      (List.mem_append (s := stepping) (t := piping)).mp hmem |>.elim hstepping hsymbol
    have hends : Outcome.Holds (m.Added (fun _ ↦ True) []) _
        (standard.evaluate call symbol .infixOp args m) :=
      holds_evaluate hspares call .infixOp (fun _ _ ↦ trivial) fun _ _ _ _ _ _ _ _ _ ↦
        .inr trivial
    revert hends
    generalize standard.evaluate call symbol .infixOp args m = o
    intro hends
    cases hends with
    | ok hn => exact hn.grown.cells
    | error hn => exact hn.grown.cells

end Operator

namespace Interp

variable {interp : Interp} {site : Site} {operator : String} {target node : Node}
  {m evaluated found : Machine} {new result cell : CellRef}

/-- Applying an operator between two values keeps the cells there are, unless it calls a
function. -/
theorem applyOperator_keepsCells (interp : Interp) (site : Site)
    (hoperator : operator ∉ Operator.piping) (args : List CellRef) (m : Machine) :
    m.KeepsCells (Outcome.final (interp.applyOperator site operator .infixOp args m)) := by
  have hevaluate (call : Call) : Spares (fun k ↦ m.KeepsCells k)
      (Operator.standard.evaluate call operator .infixOp args) := fun k hk ↦
    .of_final (hk.trans (Operator.evaluate_keepsCells hoperator call args k))
  have hkeeps : Spares (fun k ↦ m.KeepsCells k)
      (interp.applyOperator site operator .infixOp args) :=
    .get_bind fun _ _ ↦ Indifferent.traced site _ (hevaluate _)
  exact hkeeps.final (.refl m)

/-- What an assignment does once its value and its target have been evaluated. -/
def finishAssignment (interp : Interp) (site : Site) (operator : String) (target : Node)
    (new result : CellRef) : Run CellRef := do
  if operator ≠ "" && operator ≠ "=" && !(← content result).isEmpty then
    let combined ← interp.applyOperator site operator .infixOp [result, new]
    inherit result combined
  else inherit result new
  noteAssignment target result

/-- Assumes: an assignment the value and the target of which have been evaluated. -/
theorem assign_finish (hhint : assignmentHint? target = none)
    (hvalue : interp.value site node .required m = .ok new evaluated)
    (htarget : interp.value site target .createIfMissing evaluated = .ok result found) :
    interp.assign site operator target node m =
      interp.finishAssignment site operator target new result found := by
  rw [assign_eq, hhint]
  change interp.assignTo site operator target node m = _
  unfold assignTo
  rw [Run.bind_ok hvalue, Run.bind_ok htarget]
  rfl

/-- The last thing an assignment does is to overwrite the cell of the target. -/
theorem content_overwritten (hother : cell ≠ result) (source : CellRef) (done : Machine) :
    (Outcome.final ((inherit result source >>= fun _ ↦ noteAssignment target result)
      done)).content cell = done.content cell := by
  obtain ⟨m', hnoted, hunwound⟩ :=
    noteAssignment_apply target result (done.after (.overwrite result (done.content source)))
  have hrun : (inherit result source >>= fun _ ↦ noteAssignment target result) done =
      .ok result m' := hnoted
  have hkept : (done.after (.overwrite result (done.content source))).content cell =
      done.content cell :=
    Machine.content_after fun hsame ↦ hother hsame.symm
  rw [hrun]
  exact (hunwound.content cell).trans hkept

/-- Assumes: an assignment, not by an operator that calls a function, the value and the target of
which have been evaluated. However it ends, the cells that were there then hold what they held,
apart from that of the target. -/
theorem content_finishAssignment (hoperator : operator ∉ Operator.piping) (hother : cell ≠ result)
    (hcell : cell.index < found.cells.size) :
    (Outcome.final (interp.finishAssignment site operator target new result found)).content cell =
      found.content cell := by
  have hread : content result found = .ok (found.content result) found := rfl
  unfold finishAssignment
  rw [Run.bind_ok hread]
  dsimp only
  split
  · have hkeeps := applyOperator_keepsCells interp site hoperator [result, new] found
    cases hcombined : interp.applyOperator site operator .infixOp [result, new] found with
    | ok combined done =>
      rw [hcombined] at hkeeps
      rw [Run.bind_ok hcombined, content_overwritten hother combined done]
      exact hkeeps.content cell hcell
    | error e done =>
      rw [hcombined] at hkeeps
      rw [Run.bind_error hcombined]
      exact hkeeps.content cell hcell
  · exact content_overwritten hother new found

/-- Assumes: an assignment by an operator that calls a function. After the call, the cells hold what
they held, apart from that of the target. -/
theorem content_finishPiping {combined : CellRef} {done : Machine}
    (hoperator : operator ∈ Operator.piping) (hheld : found.content result ≠ .empty)
    (hcombined : interp.applyOperator site operator .infixOp [result, new] found =
      .ok combined done) (hother : cell ≠ result) :
    (Outcome.final (interp.finishAssignment site operator target new result found)).content cell =
      done.content cell := by
  have hread : content result found = .ok (found.content result) found := rfl
  have hcombines : (operator ≠ "" && operator ≠ "=" && !(found.content result).isEmpty) = true := by
    have hfull : (found.content result).isEmpty = false := by
      cases hcontent : found.content result with
      | empty => exact absurd hcontent hheld
      | _ => rfl
    rw [hfull]
    rcases List.mem_pair.mp hoperator with rfl | rfl <;> decide
  unfold finishAssignment
  rw [Run.bind_ok hread]
  dsimp only
  rw [if_pos hcombines, Run.bind_ok hcombined]
  exact content_overwritten hother combined done

end Interp

/-! ### Lists that stay -/

namespace Machine

variable {m n : Machine} {ref : TableRef} {items : List CellRef}

/-- Stack traces and the log are neither cells nor tables. -/
theorem Unwound.keepsFrom (h : m.Unwound n) : KeepsFrom 0 m n :=
  keepsFrom_of_eq h.cells (by rw [← h])

/-- Assumes: a cell that does not hold a number. To overwrite it leaves arrays alone. -/
theorem HasItems.overwrite (h : m.HasItems ref items) {target : CellRef}
    (hother : ∀ d, m.content target ≠ .number d) (c : Content) :
    (m.after (.overwrite target c)).HasItems ref items := by
  refine h.congr h.orderly.table rfl (fun key hkey ↦ ?_) fun key hkey ↦ content_after ?_
  · obtain ⟨entry, hentry, rfl⟩ := List.mem_map.mp hkey
    exact Nat.lt_of_lt_of_eq (h.orderly.keys entry hentry) (size_after m _).1.symm
  · rintro rfl
    have hnumber := List.mem_map_of_mem (f := m.content) hkey
    rw [h.keys] at hnumber
    obtain ⟨_, -, hcontent⟩ := List.mem_map.mp hnumber
    exact hother _ hcontent.symm

end Machine

/-! ### What is stored, and what leaves it alone -/

/-- Whatever is put into arrays and objects, passed to functions, handed back by them and bound by
loops is stored in new cells. -/
structure StoresFreshly (n : Nat) : Prop where
  /-- Each turn of an array literal stores the value of its element, once that has been
  evaluated. -/
  elements : ∀ {site : Site} {elements : List Node} {m last : Machine} {result : CellRef},
    (interp n).arrayLiteral site elements m = .ok result last →
      ∃ turns, Steps (fun _ ↦ (interp n).addElement site ⟨m.tables.size⟩ result) ()
          (m.withTable.withCell (.object ⟨m.tables.size⟩)) turns () last ∧
        turns.map Turn.element = elements.zipIdx ∧
        ∀ turn ∈ turns, ∃ inner forked value before,
          site.forkSelf result turn.before = .ok inner forked ∧
          (interp n).value inner turn.element.1 .required forked = .ok value before ∧
          before.Enters value ⟨m.tables.size⟩ turn.after
  /-- Each turn of a literal object stores the argument of its field, or the value of its entry, and
  only what an object brings along that is extended is not stored anew. -/
  portions : ∀ {site : Site} {entries : List (Node × Node)} {m last : Machine} {result : CellRef},
    (interp n).assemble site entries m = .ok result last →
      ∃ turns, Steps (fun _ ↦ (interp n).add site result ⟨m.tables.size⟩) ()
          (m.withTable.withCell (.object ⟨m.tables.size⟩)) turns () last ∧
        turns.map Turn.element = Interp.portions entries ∧
        ∀ turn ∈ turns, (∀ node, turn.element ≠ .base node) → ∃ value before,
          (interp n).Finds site result turn.element turn.before value before ∧
          before.Enters value ⟨m.tables.size⟩ turn.after
  /-- The array of a parenthesis has the cells that the values of its elements are stored in. -/
  parentheses : ∀ {site : Site} {mode : Mode} {elements : List Node} {m last : Machine}
    {result : CellRef}, elements.length ≠ 1 →
      (interp n).parenthesis site mode elements m = .ok result last →
        ∃ values before cells, (interp n).values site elements m = .ok values before ∧
          before.StoresAll values cells last ∧ last.IsArrayOf result cells
  /-- The frame of a body is a single scope, which binds the parameters to the cells that the
  arguments are stored in. -/
  parameters : ∀ {site inner : Site} {name : String} {preparation : Preparation}
    {function : CellRef} {closure : Closure} {args : List CellRef} {m start : Machine},
    openBody site name preparation function closure args m = .ok inner start →
      ∃ cells visible, m.StoresAll args cells start ∧ inner.frame.outer = [] ∧
        start.scope inner.frame.top = Scope.bindAll visible closure.params cells
  /-- A call gives the cell that the value of the body is stored in. -/
  results : ∀ {site : Site} {name : String} {preparation : Preparation} {function cell : CellRef}
    {args : List CellRef} {m last ended : Machine} {body : ControlFlow.Spot} {result : Completion},
    ControlFlow.BodyStarts site name preparation function args m body →
    body.outcome = .ok result ended →
    (interp (body.fuel + 1)).call site name preparation function args m = .ok cell last →
      ended.Stores result.value cell last
  /-- The new scope of a pass binds the variables of the loop to the cells that the element, or its
  parts, are stored in. -/
  loops : ∀ {site inner : Site} {names : List String} {element : CellRef}
    {m forked last : Machine}, site.fork m = .ok inner forked →
      site.traced .invalidControl (Interp.bindElement names element inner.frame) forked =
        .ok () last →
      ∃ values cells, forked.Spreads element names values ∧ forked.StoresAll values cells last ∧
        last.scope inner.frame.top = Scope.bindAll {} names cells

/-- What is done to cells that a machine had leaves alone a cell that it did not have. -/
structure LeavesStored (n : Nat) (before : Machine) (cell : CellRef) : Prop where
  /-- An assignment, from the time that its value and its target have been evaluated. -/
  assignment : ∀ {site : Site} {operator : String} {target node : Node}
    {m evaluated found : Machine} {new result : CellRef}, operator ∉ Operator.piping →
      Interp.assignmentHint? target = none →
      (interp n).value site node .required m = .ok new evaluated →
      (interp n).value site target .createIfMissing evaluated = .ok result found →
      result.index < before.cells.size → cell.index < found.cells.size →
        (Outcome.final ((interp n).assign site operator target node m)).content cell =
          found.content cell
  /-- An assignment by an operator that calls a function, from the time that the function has been
  called. -/
  piping : ∀ {site : Site} {operator : String} {target node : Node}
    {m evaluated found done : Machine} {new result combined : CellRef},
      operator ∈ Operator.piping → Interp.assignmentHint? target = none →
      (interp n).value site node .required m = .ok new evaluated →
      (interp n).value site target .createIfMissing evaluated = .ok result found →
      found.content result ≠ .empty →
      (interp n).applyOperator site operator .infixOp [result, new] found = .ok combined done →
      result.index < before.cells.size →
        (Outcome.final ((interp n).assign site operator target node m)).content cell =
          done.content cell
  /-- A step by `++` or `--`, from the time that its operand has been evaluated, unless the cell can
  be reached from the operand. -/
  stepping : ∀ {site : Site} {symbol : String} {fixity : Fixity} {operand : Node}
    {m found : Machine} {target : CellRef}, symbol ∈ Operator.stepping →
      fixity ∈ Operator.beside →
      (interp n).value site operand (Operator.operandMode fixity) m = .ok target found →
      ¬found.GetsTo target cell → cell.index < found.cells.size →
        (Outcome.final ((interp n).operation site symbol fixity [operand] m)).content cell =
          found.content cell

theorem storesFreshly (n : Nat) : StoresFreshly n where
  elements {site elements m last result} h := by
    have htable : newTable m = .ok ⟨m.tables.size⟩ m.withTable := rfl
    have hobject : newObject ⟨m.tables.size⟩ m.withTable =
        .ok ⟨m.cells.size⟩ (m.withTable.withCell (.object ⟨m.tables.size⟩)) := rfl
    rw [Interp.arrayLiteral_eq, Run.bind_ok htable, Run.bind_ok hobject] at h
    obtain ⟨_, filled, hfilled, hresult⟩ := Run.bind_eq_ok_iff.mp h
    cases hresult
    obtain ⟨turns, hsteps, helements⟩ := Steps.of_foldlM hfilled
    exact ⟨turns, hsteps, helements, hsteps.forall_turns Interp.addElement_stores⟩
  portions {site entries m last result} h := by
    have htable : newTable m = .ok ⟨m.tables.size⟩ m.withTable := rfl
    have hobject : newObject ⟨m.tables.size⟩ m.withTable =
        .ok ⟨m.cells.size⟩ (m.withTable.withCell (.object ⟨m.tables.size⟩)) := rfl
    rw [Interp.assemble_eq, Run.bind_ok htable, Run.bind_ok hobject] at h
    obtain ⟨_, filled, hfilled, hresult⟩ := Run.bind_eq_ok_iff.mp h
    cases hresult
    rw [Interp.addAll_eq_foldlM] at hfilled
    obtain ⟨turns, hsteps, helements⟩ := Steps.of_foldlM hfilled
    exact ⟨turns, hsteps, helements,
      hsteps.forall_turns fun hadded hown ↦ Interp.add_stores hown hadded⟩
  parentheses hcount h := Interp.parenthesis_stores hcount h
  parameters h := openBody_stores h
  results {site name preparation function cell args m last ended body result} hstarts hbody h := by
    obtain ⟨closure, hcall⟩ := hstarts.call_eq
    rw [hcall, Run.bind_ok hbody] at h
    exact closeBody_stores h
  loops {site inner names element m forked last} hforked h := by
    have hbound := Run.of_traced_ok h
    cases hforked
    have htop : m.scopes.size < (m.withScope {}).scopes.size := size_lt_push _ _
    obtain ⟨values, cells, hspreads, hall, hscope⟩ := bindElement_stores htop hbound
    have hempty : (m.withScope {}).scope ⟨m.scopes.size⟩ = {} :=
      (m.scope_withScope {} _).trans (if_pos rfl)
    exact ⟨values, cells, hspreads, hall,
      hscope.trans (congrArg (Scope.bindAll · names cells) hempty)⟩

theorem leavesStored (n : Nat) {before : Machine} {cell : CellRef}
    (hfresh : before.cells.size ≤ cell.index) : LeavesStored n before cell where
  assignment hoperator hhint hvalue htarget hold hcell := by
    rw [Interp.assign_finish hhint hvalue htarget]
    refine Interp.content_finishAssignment hoperator ?_ hcell
    rintro rfl
    exact Nat.not_le_of_lt hold hfresh
  piping hoperator hhint hvalue htarget hheld hcombined hold := by
    rw [Interp.assign_finish hhint hvalue htarget]
    refine Interp.content_finishPiping hoperator hheld hcombined ?_
    rintro rfl
    exact Nat.not_le_of_lt hold hfresh
  stepping hsymbol hfixity hoperand hreach hcell :=
    ((Interp.operation_stepped hsymbol hfixity hoperand).content _ hcell).resolve_right
      fun hchanged ↦ hreach hchanged.1

/-- Whatever is put into arrays and objects, passed to functions, handed back by them and bound by
loops is stored in new cells, and no assignment to a cell that was there before changes what they
hold. Neither does a step by `++` or `--`, unless it gets to them by way of an object. -/
theorem stored_values_have_cells_of_their_own (n : Nat) :
    StoresFreshly n ∧ ∀ {before after : Machine} {value cell : CellRef},
      before.Stores value cell after → LeavesStored n before cell :=
  ⟨storesFreshly n, fun hstores ↦ leavesStored n hstores.fresh⟩

namespace SteppedCopies

/-- A machine with a source whose variables are `n`, which is 1, and `x`, which is empty. -/
def machine : Machine where
  cells := #[.number (Decimal.ofInt 1), .empty]
  scopes := #[(Std.TreeMap.insert {} "n" ⟨0⟩).insert "x" ⟨1⟩]
  traces := #[{}]
  contexts := #[{ source := "main", globals := ⟨0⟩, trace := ⟨0⟩ }]

def site : Site := ⟨⟨0⟩, (machine.context ⟨0⟩).frame⟩

/-- The value of `n`, twice. -/
def pair : Node := .parenthesis [.identifier "n", .identifier "n"]

/-- What is visible at the site does not change while the pair is evaluated, which stores the value
of `n` twice. -/
structure Listed (list : CellRef) (cells : List CellRef) (listed : Machine) : Prop where
  stores : machine.StoresAll [⟨0⟩, ⟨0⟩] cells listed
  array : listed.IsArrayOf list cells
  visible : listed.visible? site "x" = some ⟨1⟩
  options : listed.options = machine.options

theorem node_pair (k : Machine) (hk : machine.Unwound k) : ∃ list cells listed,
    (interp 3).node site .required pair k = .ok { value := list } listed ∧
      Listed list cells listed := by
  have hdebugger : k.options.debugger = none := by rw [hk.options]; rfl
  have hn : k.visible? site "n" = some ⟨0⟩ := by
    rw [hk.visible?]
    decide
  obtain ⟨k₁, hfirst, hk₁⟩ :=
    Interp.value_variable 2 (nofun : Mode.required ≠ .createNew) hdebugger hn
  obtain ⟨k₂, hsecond, hk₂⟩ :=
    Interp.value_variable 2 (nofun : Mode.required ≠ .createNew)
      (hk₁.options ▸ hdebugger) ((hk₁.visible? site "n").trans hn)
  have hfound : machine.Unwound k₂ := (hk.trans hk₁).trans hk₂
  obtain ⟨cells, copied, hcopies, hall, hgrows⟩ := copyAll_stores [⟨0⟩, ⟨0⟩] k₂
  obtain ⟨list, listed, hmade, hgrown, harray⟩ := Machine.newArray_items cells copied
  have hvalues : (interp 3).values site [.identifier "n", .identifier "n"] k =
      .ok [⟨0⟩, ⟨0⟩] k₂ := by
    unfold Interp.values
    rw [List.mapM_cons, Run.bind_ok hfirst, List.mapM_cons, bind_assoc, Run.bind_ok hsecond]
    rfl
  have hpair : (interp 3).expression site .required pair k = .ok list listed := by
    change (do newArray (← (← (interp 3).values site _).mapM copy)) k = _
    rw [Run.bind_ok hvalues, Run.bind_ok hcopies, hmade]
  refine ⟨list, cells, listed, ?_, ?_, harray, ?_, ?_⟩
  · change ((interp 3).expression site .required pair >>= _) k = _
    rw [Run.bind_ok hpair]
    rfl
  · exact .of_kept (Machine.keepsCells_of_eq hfound.cells) (hall.trans hgrown.cells)
  · rw [← hgrown.rest]
    change copied.visible? site "x" = _
    rw [hgrows.visible?, hfound.visible?]
    decide
  · rw [← hgrown.rest]
    change copied.options = _
    rw [← hgrows.same]
    exact hfound.options

/-- `x = (n, n)` stores the value of `n` in two cells of a list, which is then found in `x`. -/
theorem assign_pair : ∃ list cell other ref listed assigned ready,
    (interp 4).value site pair .required machine = .ok list listed ∧
      machine.StoresAll [⟨0⟩, ⟨0⟩] [cell, other] listed ∧
      (interp 4).assign site "=" (.identifier "x") pair machine = .ok ⟨1⟩ assigned ∧
      (interp 4).value site (.identifier "x") .required assigned = .ok ⟨1⟩ ready ∧
      assigned.Unwound ready ∧ ready.content ⟨1⟩ = .object ref ∧ ready.HasItems ref [cell, other] ∧
      ∀ stored ∈ [cell, other], ready.content stored = listed.content stored := by
  obtain ⟨list, evaluated, listed, hlist, hevaluated, cells, h⟩ :=
    Interp.value_of_node (m := machine) (Q := fun list listed ↦ ∃ cells, Listed list cells listed)
      rfl fun k hk ↦ by
        obtain ⟨list, cells, listed, hnode, h⟩ := node_pair k hk
        exact ⟨list, listed, hnode, cells, h⟩
  have hstores := h.stores.trans (Machine.keepsCells_of_eq hevaluated.cells)
  obtain ⟨ref, hheld, hitems⟩ := h.array.kept hevaluated.keepsFrom
  have hdebugger : listed.options.debugger = none := by
    rw [hevaluated.options, h.options]
    rfl
  have hvisible : listed.visible? site "x" = some ⟨1⟩ :=
    (hevaluated.visible? site "x").trans h.visible
  obtain ⟨found, htarget, hfound⟩ := Interp.value_variable 3
    (nofun : Mode.createIfMissing ≠ .createNew) hdebugger hvisible
  obtain ⟨assigned, hassigned, hunwound⟩ :=
    Interp.assign_ok (.inr (rfl : "=" = "=")) rfl hlist htarget
  have hstays : assigned.visible? site "x" = some ⟨1⟩ :=
    (hunwound.visible? site "x").trans ((hfound.visible? site "x").trans hvisible)
  obtain ⟨ready, hoperand, hready⟩ := Interp.value_variable 3
    (nofun : Mode.required ≠ .createNew)
    (by rw [hunwound.options]; exact hfound.options ▸ hdebugger) hstays
  have hfinal := hunwound.trans hready
  have hcells : machine.cells.size ≤ found.cells.size := hfound.cells ▸ hstores.kept.size
  -- The variable was empty, so that it is not one of the keys of the list.
  have hempty : found.content ⟨1⟩ = .empty :=
    (hfound.content ⟨1⟩).trans (hstores.kept.content ⟨1⟩ Nat.one_lt_two)
  have hwritten := ((hitems.kept hfound.keepsFrom).overwrite
    (by rw [hempty]; exact fun _ ↦ nofun) (found.content list)).kept hfinal.keepsFrom
  obtain ⟨cell, other, rfl⟩ : ∃ cell other, cells = [cell, other] :=
    List.length_eq_two.mp hstores.each.length_eq.symm
  refine ⟨list, cell, other, ref, listed, assigned, ready, hlist, hstores, hassigned, hoperand,
    hready, ?_, hwritten, fun stored hstored ↦ ?_⟩
  · rw [hfinal.content, Machine.content_overwrite, if_pos ⟨rfl, hcells⟩, hfound.content, hheld]
  · have hkept : (found.after (.overwrite ⟨1⟩ (found.content list))).content stored =
        found.content stored := by
      refine Machine.content_after fun hsame ↦ ?_
      exact absurd (hstores.fresh stored hstored) (hsame ▸ by decide)
    rw [hfinal.content, hkept, hfound.content]

/-- `x = (n, n)` stores the value of `n` in a new cell, and `x++` then adds to what this cell holds,
though `x` is a variable that was there before: it holds the list that the cell belongs to. -/
theorem step_changes_stored_value : ∃ list cell result listed assigned stepped,
    (interp 4).value site pair .required machine = .ok list listed ∧
      machine.Stores ⟨0⟩ cell listed ∧ machine.visible? site "x" = some ⟨1⟩ ∧
      (interp 4).assign site "=" (.identifier "x") pair machine = .ok ⟨1⟩ assigned ∧
      assigned.content cell = .number (Decimal.ofInt 1) ∧
      (interp 4).operation site "++" .postfixOp [.identifier "x"] assigned = .ok result stepped ∧
      stepped.content cell = .number (Decimal.ofInt 2) := by
  obtain ⟨list, cell, other, ref, listed, assigned, ready, hlist, hall, hassigned, hoperand,
    hready, hobject, hitems, hkept⟩ := assign_pair
  obtain ⟨hstores, hrest⟩ := List.forall₂_cons.mp hall.each
  have hone : ∀ stored ∈ [cell, other], ready.content stored = .number (Decimal.ofInt 1) := by
    have hfirst := hstores.content Nat.zero_lt_two
    have hsecond := (List.forall₂_cons.mp hrest).1.content Nat.zero_lt_two
    exact List.forall_mem_cons.mpr ⟨(hkept _ (List.mem_cons_self ..)).trans hfirst,
      List.forall_mem_singleton.mpr ((hkept _ (List.mem_cons_of_mem _ (.head _))).trans hsecond)⟩
  have hplusplus : "++" ∈ Operator.stepping := List.mem_cons_self ..
  obtain ⟨result, stepped, hstep, hraises⟩ := Interp.operation_raises hplusplus
    (by decide : Fixity.postfixOp ∈ Operator.beside) (by decide) hoperand hobject hitems.orderly
    (hitems.values.symm ▸ ⟨fun stored hstored ↦ ⟨_, hone stored hstored⟩, hall.distinct⟩)
  rw [hitems.values] at hraises
  have hmem : cell ∈ [cell, other] := List.mem_cons_self ..
  exact ⟨list, cell, result, listed, assigned, stepped, hlist, hstores, by decide,
    hassigned, (hready.content cell).symm.trans (hone cell hmem), hstep,
    hraises.number cell hmem _ (hone cell hmem)⟩

end SteppedCopies

end TreeScript
