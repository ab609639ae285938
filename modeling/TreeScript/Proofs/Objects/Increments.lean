import TreeScript.Proofs.Activations
import TreeScript.Proofs.BlockScopes
import TreeScript.Proofs.Objects.Stepping

/-!
# Increments of variables

`++` and `--` step a number in the cell it is in, and with it everything that shares the cell. In front
of a variable they do not: the variable is renewed first, which means that it is bound to a copy of
its cell from then on, and the copy is stepped. A name that is not bound is created, also where an
inline import exports it. In each case what is stepped lies in a new cell that is no object
(`Interp.value_nested_gains`), and from there nothing else can be reached. So the cells that were
there keep what they hold, however the evaluation ends (`Interp.operation_keeps`), and a number that a
scope of the frame binds has its successor in a new cell, which the same scope binds the name to
(`Interp.value_nested_renews`).

Parentheses hand on how their element is to be evaluated, so a variable is renewed inside any number
of them.
-/

set_option autoImplicit false

namespace TreeScript

/-- A node within a number of pairs of parentheses. -/
def Node.nested : Nat → Node → Node
  | 0, node => node
  | depth + 1, node => .parenthesis [nested depth node]

/-! ### Evaluating a node -/

namespace Visit

variable {interp : Interp} {site : Site} {mode : Mode} {node : Node} {m : Machine}

/-- To record and announce a node changes nothing that the work depends on. -/
theorem sameWork_announced {recorded announced : Machine} {depth : Option Nat} {style : Int}
    (hrecord : record site node m = .ok depth recorded)
    (hannounce : announce site node recorded = .ok style announced) : m.SameWork announced := by
  have hindifferent : Indifferent m.SameWork := fun _ _ hsame hm ↦ hm.trans hsame
  obtain ⟨_, _, hrecord', hunwound⟩ := record_apply site node m
  cases hrecord.symm.trans hrecord'
  exact ((hindifferent.announce site node).of_ok (.of_unwound hunwound) hannounce).1

/-- Assumes: a node whose evaluation gave a result. Its construct gave that result, and neither before
nor after that anything changed that the work depends on. -/
theorem evalNode_sameWork {last : Machine} {result : Completion}
    (h : interp.evalNode site mode node m = .ok result last) :
    ∃ announced done, m.SameWork announced ∧
      interp.node site mode node announced = .ok result done ∧ done.SameWork last := by
  obtain ⟨depth, recorded, style, announced, done, hrecord, hannounce, hnode⟩ := evalNode_parts h
  obtain ⟨last', heval, hlast⟩ := evalNode_ok hrecord hannounce hnode
  cases h.symm.trans heval
  exact ⟨announced, done, sameWork_announced hrecord hannounce, hnode, .of_unwound hlast⟩

end Visit

/-- Assumes: what does not look at the stack traces and the log. If the rule for a node establishes it
on the machine it comes to, then so does the evaluation of the node. -/
theorem Indifferent.holds_evalNode {I : Machine → Prop} {Q : Completion → Prop} (hI : Indifferent I)
    {m : Machine} (hm : I m) {interp : Interp} {site : Site} {mode : Mode} {node : Node}
    (hnode : ∀ announced, m.SameWork announced →
      Outcome.Holds I Q (interp.node site mode node announced)) :
    Outcome.Holds I Q (interp.evalNode site mode node m) := by
  have hfinal : I (Outcome.final (interp.evalNode site mode node m)) :=
    hI.final_evalNode hm fun _ _ _ announced hrecord hannounce _ ↦
      (hnode announced (Visit.sameWork_announced hrecord hannounce)).final
  cases heval : interp.evalNode site mode node m with
  | error e last =>
    rw [heval] at hfinal
    exact .error hfinal
  | ok result last =>
    rw [heval] at hfinal
    obtain ⟨announced, done, hannounced, hresult, -⟩ := Visit.evalNode_sameWork heval
    have hends := hnode announced hannounced
    rw [hresult] at hends
    cases hends with
    | ok _ hQ => exact .ok hfinal hQ

namespace Machine

variable {m n k : Machine}

/-- What a name stands for does not depend on what surrounds the work. -/
theorem SameWork.visible? (h : m.SameWork n) (site : Site) (name : String) :
    n.visible? site name = m.visible? site name := by
  rw [← h.same]
  rfl

/-- A name is not visible at a site or does not stand for an object there. -/
def NoObject (m : Machine) (site : Site) (name : String) : Prop :=
  ∀ cell, m.visible? site name = some cell → m.tableOf? cell = none

theorem SameWork.noObject (h : m.SameWork n) {site : Site} {name : String}
    (hplain : m.NoObject site name) : n.NoObject site name := by
  intro cell hvisible
  rw [h.visible?] at hvisible
  unfold tableOf?
  rw [h.content]
  exact hplain cell hvisible

/-! ### New cells that are no objects -/

/-- The cells of a machine are still there and hold what they held, and what is new is no object. -/
structure GainsPlain (m n : Machine) : Prop extends m.KeepsCells n where
  plain : ∀ cell : CellRef, m.cells.size ≤ cell.index → n.tableOf? cell = none

theorem gainsPlain_of_eq (hcells : n.cells = m.cells) : m.GainsPlain n where
  toKeepsCells := keepsCells_of_eq hcells
  plain cell hnew := by
    rw [tableOf?, content_of_missing (by rwa [hcells])]

theorem GainsPlain.refl (m : Machine) : m.GainsPlain m := gainsPlain_of_eq rfl

theorem GainsPlain.trans (h : m.GainsPlain n) (h' : n.GainsPlain k) : m.GainsPlain k where
  toKeepsCells := h.toKeepsCells.trans h'.toKeepsCells
  plain cell hnew := by
    by_cases hold : cell.index < n.cells.size
    · unfold tableOf?
      rw [h'.content cell hold]
      exact h.plain cell hnew
    · exact h'.plain cell (Nat.le_of_not_lt hold)

theorem gainsPlain_withCell {content : Content} (hplain : ∀ ref, content ≠ .object ref) :
    m.GainsPlain (m.withCell content) where
  toKeepsCells := keepsCells_withCell m content
  plain cell hnew := by
    refine Option.eq_none_iff_forall_ne_some.mpr fun ref hobject ↦ ?_
    rw [tableOf?_eq_some_iff, Machine.content_withCell] at hobject
    split at hobject
    · exact hplain ref hobject
    · rw [content_of_missing hnew] at hobject
      cases hobject

theorem indifferent_gainsPlain (m : Machine) : Indifferent m.GainsPlain :=
  fun _ _ hsame h ↦ h.trans (gainsPlain_of_eq hsame.cells)

/-- A cell that is no object may be copied. -/
theorem GainsPlain.copy {cell : CellRef} (hplain : m.tableOf? cell = none) :
    m.GainsPlain (m.withCell (m.content cell)) :=
  gainsPlain_withCell fun ref hobject ↦ by
    rw [tableOf?_eq_some_iff.mpr hobject] at hplain
    cases hplain

/-- From what is no object nothing can be reached. -/
theorem eq_of_getsTo {target cell : CellRef} (hplain : m.tableOf? target = none)
    (h : m.GetsTo target cell) : cell = target := by
  rcases Relation.ReflTransGen.cases_head h with rfl | ⟨part, ⟨ref, hobject, -⟩, -⟩
  · rfl
  · rw [tableOf?_eq_some_iff.mpr hobject] at hplain
    cases hplain

/-- Assumes: a new cell that is no object. While it is stepped, the cells that were there keep what
they hold. -/
theorem GainsPlain.stepped {target : CellRef} (h : m.GainsPlain n)
    (hnew : m.cells.size ≤ target.index) (hstepped : n.Stepped target k) : m.KeepsCells k := by
  refine ⟨Nat.le_trans h.size hstepped.cells, fun cell hcell ↦ ?_⟩
  rcases hstepped.content cell (Nat.lt_of_lt_of_le hcell h.size) with hkept | ⟨hreached, -⟩
  · exact hkept.trans (h.content cell hcell)
  · cases eq_of_getsTo (h.plain target hnew) hreached
    exact absurd hcell (Nat.not_lt_of_le hnew)

/-- A name that has been renewed stands for a new cell with the same content. -/
theorem SameWork.content_renewed {ref : ScopeRef} {name : String} {content : Content}
    (h : ((m.withCell content).bound ref name ⟨m.cells.size⟩).SameWork n) :
    n.content ⟨m.cells.size⟩ = content := by
  rw [h.content]
  exact m.content_new content

/-- A name is bound to a new cell with a certain number, in a scope of the frame that bound it
before. -/
structure Incremented (m : Machine) (frame : Frame) (ref : ScopeRef) (name : String) (d : Decimal)
    (cell : CellRef) (n : Machine) : Prop where
  new : m.cells.size ≤ cell.index
  number : n.content cell = .number d
  binder : n.binderOf? frame name = some ref
  binds : (n.scope ref)[name]? = some cell

end Machine

/-! ### What a renewed name gives -/

namespace Chain

variable {chain : Chain} {name : String} {m : Machine}

/-- What a chain has come to is a cell that a machine does not have. -/
def ComesToNew (m : Machine) (r : Resolution) : Prop :=
  ∃ cell, r.value = some cell ∧ m.cells.size ≤ cell.index

/-- Binding a name leaves the cells as they are. -/
theorem spares_modifyScope (ref : ScopeRef) (change : Scope → Scope) :
    Spares m.GainsPlain (modifyScope ref change) :=
  .of_modify fun _ h ↦ h.trans (Machine.gainsPlain_of_eq rfl)

theorem spares_put (frame : Frame) (cell : CellRef) : Spares m.GainsPlain (frame.put name cell) :=
  .get_bind fun _ _ ↦ spares_modifyScope _ _

theorem spares_forkWith (frame : Frame) (scope : Scope) :
    Spares m.GainsPlain (frame.forkWith scope) :=
  .bind (.of_modifyGet (fun _ h ↦ h.trans (Machine.gainsPlain_of_eq rfl)) fun _ _ ↦ trivial)
    fun _ ↦ .pure trivial

/-- A name that does not stand for an object is renewed with a cell that is no object. -/
theorem holds_refresh (hmode : chain.mode = .createNew) {cell : CellRef}
    (hplain : m.tableOf? cell = none) {rebind : CellRef → Run Unit}
    (hrebind : ∀ fresh, Spares m.GainsPlain (rebind fresh)) :
    Outcome.Holds m.GainsPlain (fun fresh ↦ m.cells.size ≤ fresh.index)
      (chain.refresh cell rebind m) := by
  have hcopied : copy cell m = .ok ⟨m.cells.size⟩ (m.withCell (m.content cell)) := rfl
  unfold refresh
  rw [if_pos hmode, Run.bind_ok hcopied]
  refine Spares.bind (hrebind _) (fun _ ↦ .pure ?_) _ (.copy hplain)
  exact Nat.le_refl m.cells.size

/-- Where a name is to be created, inline imports are passed over, and any other one gives no value. -/
theorem maintains_switchToImport (r : Resolution) (imports : List Import) :
    Maintains m.GainsPlain (fun moved ↦ ∀ r', moved = some r' → r'.value = none)
      (chain.switchToImport name true r imports) := by
  induction imports with
  | nil => exact .pure nofun
  | cons i imports ih =>
    rw [switchToImport_cons]
    cases i.target with
    | none => exact Indifferent.raiseAt chain.site _ _
    | some ref =>
      refine .get_bind fun n _ ↦ .ite (fun hfits ↦ ?_) fun _ ↦ ih
      have halias : i.inline = false := by
        unfold Machine.fits at hfits
        cases hinline : i.inline with
        | false => rfl
        | true =>
          rw [hinline] at hfits
          cases hfits
      refine Maintains.map (Q := fun moved ↦ moved.value = none) some ?_ fun moved hvalue r' hsame ↦ ?_
      · unfold follow requireHome requireDefined enterModule
        rw [halias]
        refine Spares.bind (.ite (fun _ ↦ ?_) fun _ ↦ .pure trivial) fun _ ↦ ?_
        · exact .ite (fun _ ↦ Indifferent.raiseAt chain.site _ _)
            fun _ ↦ Indifferent.raiseAt chain.site _ _
        · refine Spares.bind (.ite (fun h ↦ absurd h Bool.false_ne_true) fun _ ↦ .pure trivial)
            fun _ ↦ ?_
          exact Spares.bind (spares_forkWith _ _) fun _ ↦ .pure rfl
      · cases hsame
        exact hvalue

/-- A name that is not bound is created, and stands for a new cell that is no object. -/
theorem maintains_resolveForeign (hmode : chain.mode = .createNew) (i : Nat) :
    Maintains m.GainsPlain (ComesToNew m) (chain.resolveForeign i true name chain.start) := by
  have hindifferent := m.indifferent_gainsPlain
  have hcreates : chain.mode.creates = true := by rw [hmode]; rfl
  refine .get_bind fun n _ ↦ ?_
  rw [hcreates]
  refine (maintains_switchToImport _ _).bind fun moved hmoved ↦ ?_
  cases moved with
  | some moved =>
    refine .get_bind fun k _ ↦ (hindifferent.logStep i name _).bind fun _ ↦ ?_
    rw [hmoved moved rfl]
    exact Maintains.bind (Indifferent.raiseAt chain.site _ _) fun _ h ↦ False.elim h
  | none =>
    dsimp only
    rw [if_neg fun h ↦ h.2 rfl, createName_eq]
    unfold requireCreating
    rw [hcreates]
    refine Spares.bind (.ite (fun h ↦ absurd h Bool.false_ne_true) fun _ ↦ .pure trivial) fun _ ↦ ?_
    refine Maintains.bind (Q := fun cell ↦ m.cells.size ≤ cell.index) ?_ fun cell hnew ↦ ?_
    · exact fun k hk ↦ .ok (hk.trans (Machine.gainsPlain_withCell nofun)) hk.size
    · refine (spares_put _ cell).bind fun _ ↦ (hindifferent.logStep i name "created").bind fun _ ↦ ?_
      exact .pure ⟨cell, rfl, hnew⟩

/-- Assumes: a mode that renews names, and a name that does not stand for an object. It resolves to a
new cell that is no object. -/
theorem holds_resolveName (hmode : chain.mode = .createNew) (i : Nat)
    (hplain : m.NoObject chain.site name) :
    Outcome.Holds m.GainsPlain (ComesToNew m) (chain.resolveName i true name chain.start m) := by
  have hfound {cell : CellRef} (source : String) {rebind : CellRef → Run Unit}
      (hvisible : m.visible? chain.site name = some cell)
      (hrebind : ∀ fresh, Spares m.GainsPlain (rebind fresh)) :
      Outcome.Holds m.GainsPlain (ComesToNew m) ((do
        let cell ← chain.refresh cell rebind
        logStep i name source
        return { chain.start with value := some cell } : Run Resolution) m) :=
    Maintains.bind_after (holds_refresh hmode (hplain cell hvisible) hrebind) fun cell hnew ↦
      (m.indifferent_gainsPlain.logStep i name source).bind fun _ ↦ .pure ⟨cell, rfl, hnew⟩
  unfold resolveName
  rw [Run.get_bind]
  dsimp only [start]
  cases hlocal : m.lookUpName chain.site.frame name with
  | some cell =>
    refine hfound "local symbols" ?_ (spares_put _)
    unfold Machine.visible?
    rw [hlocal, Option.some_or]
  | none =>
    dsimp only
    rw [Run.get_bind]
    cases hglobal : m.global? chain.site.context name with
    | some cell =>
      refine hfound "global variables" ?_ fun fresh ↦ .get_bind fun _ _ ↦ spares_modifyScope _ _
      unfold Machine.visible?
      rw [hlocal, Option.none_or, hglobal]
    | none => exact maintains_resolveForeign hmode i m (.refl m)

/-- A chain that is nothing but such a name comes to what the name resolves to. -/
theorem holds_head (interp : Interp) (hmode : chain.mode = .createNew)
    (hplain : m.NoObject chain.site name) :
    Outcome.Holds m.GainsPlain (ComesToNew m) (chain.head interp true name m) := by
  unfold head
  rw [Run.get_bind]
  split
  · obtain ⟨n, hlog, hn⟩ := logInfo_apply ("resolve start: " ++ chain.origin.code) m
    rw [Run.bind_ok hlog]
    have hends : Outcome.Holds n.GainsPlain (ComesToNew n)
        (chain.resolveName 0 true name chain.start n) :=
      holds_resolveName hmode 0 (Machine.SameWork.noObject (.of_unwound hn) hplain)
    refine hends.mono (fun k hk ↦ (Machine.gainsPlain_of_eq hn.cells).trans hk) fun r hr ↦ ?_
    obtain ⟨cell, hvalue, hnew⟩ := hr
    exact ⟨cell, hvalue, hn.cells ▸ hnew⟩
  · exact holds_resolveName hmode 0 hplain

end Chain

namespace Interp

variable {site : Site} {name symbol : String} {m : Machine}

/-- Assumes: a name that does not stand for an object. Where names are renewed, the rule for the name
gives a new cell that is no object. -/
theorem holds_node_variable (n : Nat)
    (hplain : m.NoObject site name) :
    Outcome.Holds m.GainsPlain (fun result ↦ m.cells.size ≤ result.value.index)
      ((interp n).node site .createNew (.identifier name) m) := by
  let chain : Chain := { origin := .identifier name, site, mode := .createNew }
  have hhead := chain.holds_head (interp n) rfl hplain
  have hnode : (interp n).node site .createNew (.identifier name) = (do
      let r ← chain.head (interp n) true name
      let cell ← chain.resolveSteps (interp n) 1 (.identifier name) [] r
      return { value := cell }) := by
    change (resolve (interp n) site (.identifier name) .createNew [.identifier name] >>= _) = _
    rw [Chain.resolve_cons, bind_assoc]
    rfl
  rw [hnode]
  refine Maintains.bind_after hhead fun r hr ↦ ?_
  obtain ⟨cell, hvalue, hnew⟩ := hr
  unfold Chain.resolveSteps
  rw [hvalue]
  exact .pure hnew

/-- Assumes: a name that does not stand for an object, within any number of parentheses. Where names
are renewed, it evaluates to a new cell that is no object. -/
theorem value_nested_gains (n depth : Nat)
    (hplain : m.NoObject site name) :
    Outcome.Holds m.GainsPlain (fun cell ↦ m.cells.size ≤ cell.index)
      ((interp n).value site (.nested depth (.identifier name)) .createNew m) := by
  induction n generalizing depth m with
  | zero => exact .error (.refl m)
  | succ n ih =>
    refine Maintains.bind_after (Q := fun result ↦ m.cells.size ≤ result.value.index)
      (m.indifferent_gainsPlain.holds_evalNode (.refl m) fun announced hsame ↦ ?_)
      fun result hnew ↦ .pure hnew
    have hplain' : announced.NoObject site name := hsame.noObject hplain
    have hkept : ∀ k, announced.GainsPlain k → m.GainsPlain k :=
      fun k hk ↦ (Machine.gainsPlain_of_eq hsame.cells).trans hk
    cases depth with
    | zero =>
      refine (holds_node_variable n hplain').mono hkept fun result hnew ↦ ?_
      exact hsame.cells ▸ hnew
    | succ depth =>
      have hinner := (ih depth hplain').mono (R := fun cell ↦
        m.cells.size ≤ cell.index) hkept fun cell hnew ↦ hsame.cells ▸ hnew
      exact Maintains.bind_after hinner fun cell hnew ↦ .pure hnew

/-- However an increment of such a name ends, the cells that were there keep what they hold. -/
theorem operation_keeps (n depth : Nat) (hsymbol : symbol ∈ Operator.stepping)
    (hplain : m.NoObject site name) :
    m.KeepsCells (Outcome.final ((interp n).operation site symbol .prefixOp
      [.nested depth (.identifier name)] m)) := by
  have hfront : Fixity.prefixOp ∈ Operator.beside := List.mem_cons_self ..
  have hoperand := value_nested_gains n depth hplain
  cases hvalue : (interp n).value site (.nested depth (.identifier name)) .createNew m with
  | error e found =>
    rw [hvalue] at hoperand
    rw [operation_stepping hsymbol hfront]
    change m.KeepsCells (Outcome.final (((interp n).value site (.nested depth (.identifier name))
      .createNew >>= _) m))
    rw [Run.bind_error hvalue]
    exact hoperand.final.toKeepsCells
  | ok target found =>
    rw [hvalue] at hoperand
    cases hoperand with
    | ok hfound hnew => exact hfound.stepped hnew (operation_stepped hsymbol hfront hvalue)

/-! ### Numbers -/

section

variable {ref : ScopeRef} {cell : CellRef}

/-- Assumes: a name that a scope of the frame binds, within any number of parentheses, which gives a
value where names are renewed. It gives a copy of its cell, which the scope binds it to. -/
theorem value_nested_renews (n depth : Nat) {target : CellRef} {found : Machine}
    (hbinder : m.binderOf? site.frame name = some ref)
    (hlocal : m.lookUpName site.frame name = some cell)
    (h : (interp n).value site (.nested depth (.identifier name)) .createNew m = .ok target found) :
    target = ⟨m.cells.size⟩ ∧
      ((m.withCell (m.content cell)).bound ref name ⟨m.cells.size⟩).SameWork found := by
  induction n generalizing depth m target found with
  | zero => cases h
  | succ n ih =>
    change ((interp n).evalNode site .createNew (.nested depth (.identifier name)) >>= _) m = _ at h
    obtain ⟨result, last, heval, hvalue⟩ := Run.bind_eq_ok_iff.mp h
    cases hvalue
    obtain ⟨announced, done, hsame, hnode, hdone⟩ := Visit.evalNode_sameWork heval
    have hbinder' : announced.binderOf? site.frame name = some ref := by rwa [← hsame.same]
    have hlocal' : announced.lookUpName site.frame name = some cell := by rwa [← hsame.same]
    suffices hrenewed : result.value = ⟨announced.cells.size⟩ ∧
        ((announced.withCell (announced.content cell)).bound ref name
          ⟨announced.cells.size⟩).SameWork done by
      rw [hsame.cells, hsame.content] at hrenewed
      refine ⟨hrenewed.1, .trans ?_ (hrenewed.2.trans hdone)⟩
      exact { hsame with same := by rw [← hsame.same]; rfl }
    cases depth with
    | zero =>
      obtain ⟨done', hgives, hrenewed⟩ := node_renewed n hbinder' hlocal'
      cases hnode.symm.trans hgives
      exact ⟨rfl, .of_unwound hrenewed⟩
    | succ depth =>
      change ((interp n).value site (.nested depth (.identifier name)) .createNew >>= _) announced =
        _ at hnode
      obtain ⟨target, inner, hinner, hgives⟩ := Run.bind_eq_ok_iff.mp hnode
      cases hgives
      exact ih depth hbinder' hlocal' hinner

/-- Assumes: no debugger, and more fuel than there are parentheses. The name does give a value. -/
theorem value_nested_ok (n depth : Nat) (hdebugger : m.options.debugger = none) (hfuel : depth < n)
    (hbinder : m.binderOf? site.frame name = some ref)
    (hlocal : m.lookUpName site.frame name = some cell) :
    ∃ target found,
      (interp n).value site (.nested depth (.identifier name)) .createNew m = .ok target found := by
  induction n generalizing depth m with
  | zero => exact absurd hfuel (Nat.not_lt_zero _)
  | succ n ih =>
    have hnode : ∀ k, m.Unwound k → ∃ target done,
        (interp n).node site .createNew (.nested depth (.identifier name)) k =
          .ok { value := target } done ∧ True := by
      intro k hk
      have hbinder' : k.binderOf? site.frame name = some ref := by rwa [← hk]
      have hlocal' : k.lookUpName site.frame name = some cell := by rwa [← hk]
      cases depth with
      | zero =>
        obtain ⟨done, hnode, -⟩ := node_renewed n hbinder' hlocal'
        exact ⟨_, done, hnode, trivial⟩
      | succ depth =>
        obtain ⟨target, found, hinner⟩ := ih depth (hk.options ▸ hdebugger)
          (Nat.lt_of_succ_lt_succ hfuel) hbinder' hlocal'
        refine ⟨target, found, ?_, trivial⟩
        change ((interp n).value site (.nested depth (.identifier name)) .createNew >>= _) k = _
        rw [Run.bind_ok hinner]
        rfl
    obtain ⟨target, -, found, hvalue, -⟩ := value_of_node hdebugger hnode
    exact ⟨target, found, hvalue⟩

/-- To apply an operator that steps numbers takes fuel. -/
theorem fuel_of_applyOperator {interp : Interp} {op : Operator} {target result : CellRef}
    {last : Machine} (hop : op ∈ Operator.standardOperators)
    (hsymbol : op.symbol ∈ Operator.stepping) (hfixity : op.fixity ∈ Operator.beside)
    (h : interp.applyOperator site op.symbol op.fixity [target] m = .ok result last) :
    1 ≤ interp.fuel := by
  unfold applyOperator callFrom at h
  rw [bind_assoc, Run.get_bind] at h
  have happlied := Run.of_traced_ok h
  rw [Operator.evaluate_eq_dispatch1 hop hsymbol hfixity] at happlied
  dsimp only at happlied
  cases hfuel : interp.fuel with
  | zero =>
    rw [hfuel] at happlied
    cases happlied
  | succ fuel => exact Nat.le_add_left 1 fuel

/-- Assumes: an increment of a name within any number of parentheses, which gives a value. A scope of
the frame binds the name to a number. The value is a new cell with the successor of the number, which
the scope binds the name to. -/
theorem operation_increments (n depth : Nat) (hsymbol : symbol ∈ Operator.stepping) {d : Decimal}
    {result : CellRef} {last : Machine} (hbinder : m.binderOf? site.frame name = some ref)
    (hcell : (m.scope ref)[name]? = some cell) (hnumber : m.content cell = .number d)
    (h : (interp n).operation site symbol .prefixOp [.nested depth (.identifier name)] m =
      .ok result last) :
    m.Incremented site.frame ref name (d + Decimal.ofInt (Operator.delta symbol)) result last := by
  have hfront : Fixity.prefixOp ∈ Operator.beside := List.mem_cons_self ..
  have hlocal : m.lookUpName site.frame name = some cell :=
    (Machine.lookUpName_of_binder hbinder).trans hcell
  have happlied := h
  rw [operation_stepping hsymbol hfront] at happlied
  obtain ⟨target, found, hoperand, happlied⟩ := Run.bind_eq_ok_iff.mp happlied
  obtain ⟨rfl, hrenewed⟩ := value_nested_renews n depth hbinder hlocal hoperand
  have hheld : found.content ⟨m.cells.size⟩ = .number d := hrenewed.content_renewed.trans hnumber
  have hfuel : 1 ≤ (interp n).fuel := by
    obtain ⟨op, hop, rfl, hfixity⟩ := Operator.exists_stepping symbol hsymbol .prefixOp hfront
    rw [← hfixity] at happlied hfront
    exact fuel_of_applyOperator hop hsymbol hfront happlied
  cases h.symm.trans (operation_raises_number hsymbol hfront hfuel hoperand hheld)
  have hbase : ∀ other : ScopeRef, found.scope other =
      (m.bound ref name ⟨m.cells.size⟩).scope other := fun other ↦ hrenewed.scope other
  refine ⟨Nat.le_refl _, ?_, ?_, ?_⟩
  · have hsize : m.cells.size < found.cells.size := by
      rw [hrenewed.cells]
      exact size_lt_push _ _
    have hgrown := (Machine.keepsCells_withCell found (.number d)).size
    exact Machine.content_overwrite_self (Nat.lt_of_lt_of_le hsize hgrown) _
  · have hnames : m.Names (fun _ ↦ True) (m.bound ref name ⟨m.cells.size⟩) :=
      .bound name _ fun _ ↦ by
        rw [Std.TreeMap.contains_eq_isSome_getElem?, hcell, Option.isSome_some]
    refine (List.find?_congr fun other _ ↦ ?_).trans
      ((hnames.binderOf? (fun _ _ ↦ trivial) name).trans hbinder)
    exact congrArg (fun scope : Scope ↦ scope.contains name) (hbase other)
  · change (found.scope ref)[name]? = _
    rw [hbase, Machine.getElem?_scope_bound, if_pos ⟨rfl, rfl, Machine.scope_exists hcell⟩]
    rfl

end

end Interp

/-! ### The whole expression -/

section

variable {site : Site} {name symbol : String} {m : Machine}

/-- The rule for an expression with an operator in front gives what the operation gives. -/
theorem Interp.node_front (interp : Interp) (mode : Mode) (operand : Node) :
    interp.node site mode (.operation symbol .prefixOp [operand]) = (do
      let cell ← interp.operation site symbol .prefixOp [operand]
      return { value := cell }) :=
  rfl

theorem Interp.node_front_ok {interp : Interp} (mode : Mode) {operand : Node} {result : CellRef}
    {last : Machine} (h : interp.operation site symbol .prefixOp [operand] m = .ok result last) :
    interp.node site mode (.operation symbol .prefixOp [operand]) m =
      .ok { value := result } last := by
  rw [node_front, Run.bind_ok h]
  rfl

/-- However an increment is evaluated, the cells that were there keep what they hold. -/
theorem Interp.eval_increment_keeps (n depth : Nat) (mode : Mode)
    (hsymbol : symbol ∈ Operator.stepping)
    (hplain : m.NoObject site name) :
    m.KeepsCells (Outcome.final ((interp n).eval site mode
      (.operation symbol .prefixOp [.nested depth (.identifier name)]) m)) := by
  cases n with
  | zero => exact .refl m
  | succ n =>
    have hindifferent : Indifferent m.KeepsCells := fun _ _ hsame h ↦
      h.trans (Machine.keepsCells_of_eq hsame.cells)
    have hends : Outcome.Holds m.KeepsCells (fun _ ↦ True) ((interp n).evalNode site mode
        (.operation symbol .prefixOp [.nested depth (.identifier name)]) m) := by
      refine hindifferent.holds_evalNode (.refl m) fun announced hsame ↦ ?_
      have hkept := (Machine.keepsCells_of_eq hsame.cells).trans
        (operation_keeps n depth hsymbol (hsame.noObject hplain))
      rw [node_front]
      exact Maintains.bind_after (.of_final hkept) fun _ _ ↦ .pure trivial
    exact hends.final

variable {ref : ScopeRef} {cell : CellRef} {d : Decimal}

/-- Assumes: an increment of a number that a scope of the frame binds, which gives a result. -/
theorem Interp.eval_increment (n depth : Nat) (mode : Mode) (hsymbol : symbol ∈ Operator.stepping)
    {result : Completion} {last : Machine} (hbinder : m.binderOf? site.frame name = some ref)
    (hcell : (m.scope ref)[name]? = some cell) (hnumber : m.content cell = .number d)
    (h : (interp n).eval site mode
      (.operation symbol .prefixOp [.nested depth (.identifier name)]) m = .ok result last) :
    m.Incremented site.frame ref name (d + Decimal.ofInt (Operator.delta symbol)) result.value
      last := by
  cases n with
  | zero => cases h
  | succ n =>
    have heval : (interp n).evalNode site mode
      (.operation symbol .prefixOp [.nested depth (.identifier name)]) m = .ok result last := h
    obtain ⟨announced, done, hsame, hnode, hdone⟩ := Visit.evalNode_sameWork heval
    rw [node_front] at hnode
    obtain ⟨target, k, hoperation, hgives⟩ := Run.bind_eq_ok_iff.mp hnode
    cases hgives
    have hbinder' : announced.binderOf? site.frame name = some ref := by rwa [← hsame.same]
    have hcell' : (announced.scope ref)[name]? = some cell := by rwa [hsame.scope]
    have hnumber' : announced.content cell = .number d := by rwa [hsame.content]
    have hdoes := operation_increments n depth hsymbol hbinder' hcell' hnumber' hoperation
    refine ⟨hsame.cells ▸ hdoes.new, ?_, ?_, ?_⟩
    · rw [hdone.content]
      exact hdoes.number
    · rw [← hdone.same]
      exact hdoes.binder
    · rw [hdone.scope]
      exact hdoes.binds

/-- Assumes: an increment of a number that a scope of the frame binds, without a debugger, and with
fuel for the parentheses. It gives a result. -/
theorem Interp.eval_increment_ok (n depth : Nat) (mode : Mode) (hsymbol : symbol ∈ Operator.stepping)
    (hbinder : m.binderOf? site.frame name = some ref)
    (hcell : (m.scope ref)[name]? = some cell) (hnumber : m.content cell = .number d)
    (hdebugger : m.options.debugger = none) (hfuel : depth + 2 < n) :
    ∃ result last, (interp n).eval site mode
      (.operation symbol .prefixOp [.nested depth (.identifier name)]) m = .ok result last := by
  obtain ⟨n, rfl⟩ := Nat.exists_eq_add_of_le' (Nat.le_trans (Nat.le_add_left 2 depth) hfuel.le)
  have hdepth : depth < n := Nat.lt_of_add_lt_add_right hfuel
  have hsteps : 1 ≤ (interp (n + 1)).fuel := Nat.one_le_of_lt hdepth
  have hfront : Fixity.prefixOp ∈ Operator.beside := List.mem_cons_self ..
  have hnode : ∀ k, m.Unwound k → ∃ result done, (interp (n + 1)).node site mode
      (.operation symbol .prefixOp [.nested depth (.identifier name)]) k = .ok result done ∧ True := by
    intro k hk
    have hbinder' : k.binderOf? site.frame name = some ref := by rwa [← hk]
    have hlocal : k.lookUpName site.frame name = some cell := by
      rw [Machine.lookUpName_of_binder hbinder', hk.scope]
      exact hcell
    obtain ⟨target, found, hoperand⟩ := value_nested_ok (n + 1) depth (hk.options ▸ hdebugger)
      (Nat.lt_succ_of_lt hdepth) hbinder' hlocal
    obtain ⟨rfl, hrenewed⟩ := value_nested_renews (n + 1) depth hbinder' hlocal hoperand
    have hheld : found.content ⟨k.cells.size⟩ = .number d := by
      rw [hrenewed.content_renewed, hk.content]
      exact hnumber
    have hgives := operation_raises_number hsymbol hfront hsteps hoperand hheld
    exact ⟨_, _, node_front_ok mode hgives, trivial⟩
  obtain ⟨result, -, last, heval, -⟩ := eval_of_node hdebugger hnode
  exact ⟨result, last, heval⟩

end

/-- Assumes: a variable that is not bound or does not stand for an object, within any number of
parentheses, behind `++` or `--`. However the evaluation of this expression ends, the cells that were
there hold what they held. If a scope of the frame binds the variable to a number, then any result is
a new cell with the successor of the number (or with the predecessor), which the same scope binds the
variable to; and without a debugger, and with fuel for the parentheses, there is a result. -/
theorem increment_renews_variable (n depth : Nat) (site : Site) (mode : Mode) {symbol name : String}
    {m : Machine} (hsymbol : symbol ∈ Operator.stepping) (hplain : m.NoObject site name) :
    let node : Node := .operation symbol .prefixOp [.nested depth (.identifier name)]
    m.KeepsCells (Outcome.final ((interp n).eval site mode node m)) ∧
    ∀ (ref : ScopeRef) (cell : CellRef) (d : Decimal), m.binderOf? site.frame name = some ref →
      (m.scope ref)[name]? = some cell → m.content cell = .number d →
        (∀ result last, (interp n).eval site mode node m = .ok result last →
          m.Incremented site.frame ref name (d + Decimal.ofInt (Operator.delta symbol))
            result.value last) ∧
        (m.options.debugger = none → depth + 2 < n →
          ∃ result last, (interp n).eval site mode node m = .ok result last) := by
  intro node
  refine ⟨Interp.eval_increment_keeps n depth mode hsymbol hplain,
    fun ref cell d hbinder hcell hnumber ↦ ⟨fun result last h ↦ ?_, fun hdebugger hfuel ↦ ?_⟩⟩
  · exact Interp.eval_increment n depth mode hsymbol hbinder hcell hnumber h
  · exact Interp.eval_increment_ok n depth mode hsymbol hbinder hcell hnumber hdebugger hfuel

namespace SharedNumber

/-- A machine on which two names of an outer scope stand for one number. The inner scope is empty. -/
def machine : Machine where
  cells := #[.number (.ofInt 1)]
  scopes := #[Std.TreeMap.insert (Std.TreeMap.insert {} "x" ⟨0⟩) "y" ⟨0⟩, {}]
  traces := #[{}]
  contexts := #[{ source := "main", globals := ⟨0⟩, trace := ⟨0⟩ }]

def site : Site := ⟨⟨0⟩, { top := ⟨1⟩, outer := [⟨0⟩], trace := ⟨0⟩ }⟩

end SharedNumber

open SharedNumber in
/-- `++(x)` makes the outer scope bind `x` to a new cell, and leaves `y` what it was. -/
theorem increment_of_shared_number :
    "++" ∈ Operator.stepping ∧ machine.NoObject site "x" ∧
      ∃ result last, (interp 4).eval site .required
          (.operation "++" .prefixOp [.nested 1 (.identifier "x")]) machine = .ok result last ∧
        machine.Incremented site.frame ⟨0⟩ "x" (.ofInt 2) result.value last ∧
        last.content ⟨0⟩ = .number (.ofInt 1) := by
  have hsymbol : "++" ∈ Operator.stepping := by decide
  have hplain : machine.NoObject site "x" := by
    intro cell hvisible
    have hfirst : machine.visible? site "x" = some ⟨0⟩ := by decide
    cases hfirst.symm.trans hvisible
    rfl
  have hbinder : machine.binderOf? site.frame "x" = some ⟨0⟩ := by decide
  have hcell : (machine.scope ⟨0⟩)["x"]? = some ⟨0⟩ := by decide
  obtain ⟨hkept, hnumber⟩ := increment_renews_variable 4 1 site .required hsymbol hplain
  obtain ⟨hresult, hexists⟩ := hnumber ⟨0⟩ ⟨0⟩ (.ofInt 1) hbinder hcell rfl
  obtain ⟨result, last, heval⟩ := hexists rfl (by decide)
  have hsum : Decimal.ofInt 1 + Decimal.ofInt (Operator.delta "++") = .ofInt 2 := by decide
  refine ⟨hsymbol, hplain, result, last, heval, hsum ▸ hresult result last heval, ?_⟩
  rw [heval] at hkept
  exact hkept.content ⟨0⟩ (by decide)

end TreeScript
