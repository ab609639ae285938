import TreeScript.Proofs.ControlFlow
import TreeScript.Proofs.Objects.KeyCells

/-!
# Injected symbols

A call on an object injects `self`, as does the call of the initialiser of a literal object, and a
construction injects `args` (`Injects`). The injected symbol is the first layer of the scope a body
starts with, below the variables of the source the function was defined in and below what was
visible where it was defined. So it is what the body sees unless a parameter, or something visible
at the definition, goes by the name (`Closure.getElem?_bodyScope`): a constructor inside of another
one finds the `args` of the outer one, and a method that was defined inside of a literal object
keeps the `self` of that object. `injected_symbol_yields_to_definition` says so for every call that
injects a symbol.
-/

set_option autoImplicit false

namespace TreeScript

/-- The site a closure was defined at. -/
def Closure.home (closure : Closure) : Site :=
  { context := closure.context, frame := closure.frame }

/-- What a preparation binds. -/
def Preparation.binding? : Preparation → Option (String × CellRef)
  | .none => Option.none
  | .args object => some ("args", object)
  | .self receiver => some ("self", receiver)

/-- A name, in whatever expression it stands, resolves to a cell at a site. -/
def Site.Resolves (site : Site) (m : Machine) (name : String) (cell : CellRef) : Prop :=
  ∀ (interp : Interp) (origin : Node), ∃ m',
    resolve interp site origin .required [.identifier name] m = .ok cell m'

/-- A value is an object that maps each parameter to its argument, and nothing else to anything. Of
parameters that share a name the last one counts. -/
def Machine.MapsParameters (m : Machine) (object : CellRef) (params : List String)
    (args : List CellRef) : Prop :=
  ∃ ref, m.content object = .object ref ∧
    ∀ id, (m.table ref).get? id =
      ((params.zip args).reverse.find? fun binding ↦ KeyId.string binding.1 == id).map Prod.snd

/-! ### The scope of a body -/

/-- What a snapshot binds is what its frame sees. -/
theorem Machine.getElem?_snapshot (m : Machine) (frame : Frame) (name : String) :
    (m.snapshot frame)[name]? = m.lookUpName frame name := by
  unfold snapshot lookUpName
  induction frame.scopes with
  | nil => rfl
  | cons ref refs ih =>
    rw [List.foldr_cons, List.findSome?_cons, Scope.getElem?_overlay, ih]
    cases (m.scope ref)[name]? <;> rfl

/-- What is prepared is all that the first layer of a body's scope binds. -/
theorem Preparation.getElem?_scope {preparation : Preparation} {symbol : String} {cell : CellRef}
    (hsymbol : preparation.binding? = some (symbol, cell)) :
    preparation.scope[symbol]? = some cell := by
  cases preparation with
  | none => cases hsymbol
  | args object =>
    cases hsymbol
    exact Std.TreeMap.getElem?_insert_self
  | self receiver =>
    cases hsymbol
    exact Std.TreeMap.getElem?_insert_self

/-- Assumes: a name that is no parameter. The scope of a body binds it to what was visible at the
definition of the function, and else to what was prepared. -/
theorem Closure.getElem?_bodyScope (closure : Closure) (m : Machine) (preparation : Preparation)
    (copies : List CellRef) {name : String} (hparam : name ∉ closure.params) :
    (closure.bodyScope m preparation copies)[name]? =
      (m.visible? closure.home name).or preparation.scope[name]? := by
  have habsent : ((closure.params.zip copies).map Prod.fst).contains name = false := by
    rw [Bool.eq_false_iff]
    intro hcontains
    obtain ⟨⟨param, cell⟩, hbinding, rfl⟩ := List.mem_map.mp (List.contains_iff_mem.mp hcontains)
    exact hparam (List.of_mem_zip hbinding).1
  unfold bodyScope
  dsimp only
  rw [Scope.foldl_insert, Std.TreeMap.getElem?_insertMany_list_of_contains_eq_false habsent,
    Scope.getElem?_overlay, Scope.getElem?_overlay, Machine.getElem?_snapshot, Option.or_assoc.symm]
  rfl

/-! ### The start of a body -/

/-- Two machines differ in nothing but cells that the second has in addition. -/
structure Machine.GrowsCells (m n : Machine) : Prop where
  same : { m with cells := n.cells } = n
  content : ∀ cell : CellRef, cell.index < m.cells.size → n.content cell = m.content cell
  size : m.cells.size ≤ n.cells.size

namespace Machine.GrowsCells

variable {m n k : Machine}

theorem refl (m : Machine) : m.GrowsCells m := ⟨rfl, fun _ _ ↦ rfl, Nat.le_refl _⟩

theorem trans (hmn : m.GrowsCells n) (hnk : n.GrowsCells k) : m.GrowsCells k where
  same := by rw [← hnk.same, ← hmn.same]
  content cell hcell := by
    rw [hnk.content cell (Nat.lt_of_lt_of_le hcell hmn.size), hmn.content cell hcell]
  size := Nat.le_trans hmn.size hnk.size

theorem withCell (m : Machine) (content : Content) : m.GrowsCells (m.withCell content) where
  same := rfl
  content cell hcell := by rw [Machine.content_old hcell]
  size := by
    change _ ≤ (m.cells.push content).size
    rw [Array.size_push]
    exact Nat.le_succ _

/-- What names stand for does not depend on the cells. -/
theorem visible? (h : m.GrowsCells n) (site : Site) (name : String) :
    n.visible? site name = m.visible? site name := by
  rw [← h.same]
  rfl

end Machine.GrowsCells

/-- Copying cells gives as many new ones. -/
theorem copies_apply (args : List CellRef) (m : Machine) :
    ∃ copies n, args.mapM copy m = .ok copies n ∧ m.GrowsCells n := by
  induction args generalizing m with
  | nil => exact ⟨[], m, rfl, .refl m⟩
  | cons arg args ih =>
    have hcopied : copy arg m = .ok ⟨m.cells.size⟩ (m.withCell (m.content arg)) := rfl
    obtain ⟨copies, n, hcopies, hgrows⟩ := ih (m.withCell (m.content arg))
    refine ⟨⟨m.cells.size⟩ :: copies, n, ?_, (Machine.GrowsCells.withCell m _).trans hgrows⟩
    rw [List.mapM_cons, Run.bind_ok hcopied, Run.bind_ok hcopies]
    rfl

/-- Assumes: as many arguments as parameters. The body of a function is opened, and a name that is
no parameter stands there for what was visible at the definition, and else for what was prepared.
The tables, and the cells there were, stay what they are. -/
theorem openBody_apply (site : Site) (name : String) (preparation : Preparation)
    (function : CellRef) {closure : Closure} {args : List CellRef} (m : Machine)
    (harity : args.length = closure.params.length) :
    ∃ inner start, openBody site name preparation function closure args m = .ok inner start ∧
      (∀ symbol ∉ closure.params, start.visible? inner symbol =
        (m.visible? closure.home symbol).or preparation.scope[symbol]?) ∧
      start.tables = m.tables ∧
      ∀ cell : CellRef, cell.index < m.cells.size → start.content cell = m.content cell := by
  obtain ⟨copies, n, hcopies, hgrows⟩ := copies_apply args m
  have hchecked : checkArity site function closure args m = .ok () m := by
    unfold checkArity
    rw [if_neg (not_not_intro harity)]
    rfl
  let scope := closure.bodyScope n preparation copies
  let frame : Frame := { top := ⟨n.scopes.size⟩, outer := [], trace := site.frame.trace }
  have hforked : site.frame.forkWith scope n = .ok frame (n.withScope scope) := rfl
  obtain ⟨start, hentered, hunwound⟩ : ∃ start,
      site.frame.enter name (n.withScope scope) = .ok () start ∧
        (n.withScope scope).Unwound start :=
    ⟨_, rfl, rfl⟩
  refine ⟨⟨closure.context, frame⟩, start, ?_, fun symbol hparam ↦ ?_, ?_, fun cell hcell ↦ ?_⟩
  · unfold openBody
    rw [Run.bind_ok hchecked, Run.bind_ok hcopies, Run.get_bind, Run.bind_ok hforked,
      Run.bind_ok hentered]
    rfl
  · have hscope : scope[symbol]? =
        (m.visible? closure.home symbol).or preparation.scope[symbol]? := by
      rw [← hgrows.visible?]
      exact closure.getElem?_bodyScope n preparation copies hparam
    have hlocal : (n.withScope scope).lookUpName frame symbol = scope[symbol]? := by
      unfold Machine.lookUpName Frame.scopes
      rw [List.findSome?_cons, Machine.scope_withScope, if_pos rfl]
      cases scope[symbol]? <;> rfl
    rw [hunwound.visible?]
    rw [← hscope]
    unfold Machine.visible?
    rw [hlocal]
    cases hbound : scope[symbol]? with
    | some cell => rfl
    | none =>
      -- What the scope does not bind is no variable of the source either.
      rw [Option.none_or]
      unfold Machine.global?
      rw [Machine.scope_withScope]
      split
      · exact hbound
      · have hglobal : (n.visible? closure.home symbol).or preparation.scope[symbol]? = none := by
          rw [hgrows.visible?, ← hscope, hbound]
        exact (Option.or_eq_none_iff.mp (Option.or_eq_none_iff.mp hglobal).1).2
  · rw [← hunwound, ← hgrows.same]
    rfl
  · rw [hunwound.content]
    exact hgrows.content cell hcell

/-- A name that is visible at a site resolves to its cell. -/
theorem Machine.resolves_of_visible {m : Machine} {site : Site} {name : String} {cell : CellRef}
    (hvisible : m.visible? site name = some cell) : site.Resolves m name cell := by
  intro interp origin
  let chain : Chain := { origin, site, mode := .required }
  obtain ⟨m', hhead, -⟩ :=
    chain.head_of_visible interp (nofun : Mode.required ≠ .createNew) true hvisible
  refine ⟨m', ?_⟩
  rw [Chain.resolve_cons]
  dsimp only
  rw [List.isEmpty_nil, Run.bind_ok hhead]
  rfl

/-! ### The arguments of a construction -/

/-- Assumes: an object in order. Setting a text key makes it lead to the value, and leaves what
other keys lead to and what cells hold as it was. -/
theorem setText_apply (m : Machine) (ref : TableRef) (key : String) (value : CellRef)
    (horderly : m.Orderly ref) :
    ∃ n, setText ref key value m = .ok () n ∧ n.Orderly ref ∧
      (∀ id, (n.table ref).get? id =
        if KeyId.string key == id then some value else (m.table ref).get? id) ∧
      m.cells.size ≤ n.cells.size ∧
      ∀ cell : CellRef, cell.index < m.cells.size → n.content cell = m.content cell := by
  let keyed := m.withCell (.string key)
  have hkeyed : keyed.Orderly ref := horderly.withCell _
  have hgrows : m.GrowsCells keyed := .withCell m _
  have hbound : (⟨m.cells.size⟩ : CellRef).index < keyed.cells.size := size_lt_push _ _
  have hkey : keyed.keyId ⟨m.cells.size⟩ = .string key := by
    unfold Machine.keyId
    rw [Machine.content_new]
    rfl
  refine ⟨keyed.after (.enter ref ⟨m.cells.size⟩ value), rfl, hkeyed.after fun _ ↦ hbound,
    fun id ↦ ?_, hgrows.size, hgrows.content⟩
  rw [hkeyed.get?_enter, hkey]
  simp only [beq_iff_eq, eq_comm (a := id)]
  rfl

/-- Assumes: an object in order. After setting text keys one by one, each key leads to what it was
set to last, or else to what it led to before. -/
theorem setTexts_apply (bindings : List (String × CellRef)) {m : Machine} {ref : TableRef}
    (horderly : m.Orderly ref) :
    ∃ n, (forIn bindings PUnit.unit fun (binding : String × CellRef) _ ↦ do
        setText ref binding.1 binding.2
        return .yield PUnit.unit) m = .ok PUnit.unit n ∧
      (∀ id, (n.table ref).get? id =
        ((bindings.reverse.find? fun binding ↦ KeyId.string binding.1 == id).map Prod.snd).or
          ((m.table ref).get? id)) ∧
      m.cells.size ≤ n.cells.size ∧
      ∀ cell : CellRef, cell.index < m.cells.size → n.content cell = m.content cell := by
  induction bindings generalizing m with
  | nil => exact ⟨m, rfl, fun _ ↦ rfl, Nat.le_refl _, fun _ _ ↦ rfl⟩
  | cons binding bindings ih =>
    obtain ⟨k, hset, hkept, hfirst, hsize, hcontent⟩ :=
      setText_apply m ref binding.1 binding.2 horderly
    obtain ⟨n, hrest, hlast, hsize', hcontent'⟩ := ih hkept
    refine ⟨n, ?_, fun id ↦ ?_, Nat.le_trans hsize hsize', fun cell hcell ↦ ?_⟩
    · have hstep : (do
          setText ref binding.1 binding.2
          return ForInStep.yield PUnit.unit : Run (ForInStep PUnit)) m = .ok (.yield ⟨⟩) k := by
        rw [Run.bind_ok hset]
        rfl
      rw [List.forIn_cons, Run.bind_ok hstep]
      exact hrest
    · rw [hlast, hfirst, List.reverse_cons, List.find?_append, Option.map_or, Option.or_assoc]
      refine congrArg _ ?_
      rw [List.find?_singleton]
      split <;> rfl
    · rw [hcontent' cell (Nat.lt_of_lt_of_le hcell hsize), hcontent cell hcell]

/-- Assumes: a function of the language. The object its arguments are given in maps its parameters
to them. -/
theorem argsObject_apply {m : Machine} {function : CellRef} {stamp : Stamp} {closure : Closure}
    (hclosure : m.content function = .function stamp closure) (args : List CellRef) :
    ∃ object n, Interp.argsObject function args m = .ok object n ∧
      n.MapsParameters object closure.params args ∧ object.index < n.cells.size ∧
      ∀ cell : CellRef, cell.index < m.cells.size → n.content cell = m.content cell := by
  let ref : TableRef := ⟨m.tables.size⟩
  have hread : content function m = .ok (.function stamp closure) m := by
    rw [← hclosure]
    rfl
  have hcreated : newTable m = .ok ref m.withTable := rfl
  obtain ⟨k, hset, htable, hsize, hcontent⟩ :=
    setTexts_apply (closure.params.zip args) m.orderly_newTable
  have hmade : newObject ref k = .ok ⟨k.cells.size⟩ (k.withCell (.object ref)) := rfl
  have hgrows : k.GrowsCells (k.withCell (.object ref)) := .withCell k _
  refine ⟨⟨k.cells.size⟩, k.withCell (.object ref), ?_, ⟨ref, ?_, fun id ↦ ?_⟩, ?_,
    fun cell hcell ↦ ?_⟩
  · unfold Interp.argsObject
    rw [Run.bind_ok hread]
    dsimp only
    rw [Run.bind_ok hcreated, Run.bind_ok hset, hmade]
  · rw [Machine.content_new]
  · have hempty : (m.withTable.table ref).get? id = none := by
      rw [m.table_new]
      exact Table.get?_empty id
    refine Eq.trans (htable id) ?_
    rw [hempty, Option.or_none]
  · exact size_lt_push _ _
  · rw [hgrows.content cell (Nat.lt_of_lt_of_le hcell hsize)]
    exact hcontent cell hcell

/-! ### Calls that inject a symbol -/

/-- A call, with what it injects. -/
structure Invocation where
  site : Site
  name : String
  preparation : Preparation
  function : CellRef
  args : List CellRef

def Invocation.run (c : Invocation) (interp : Interp) : Run CellRef :=
  interp.call c.site c.name c.preparation c.function c.args

namespace Interp

/-- A literal object without the call of its initialiser. -/
def assemble (interp : Interp) (site : Site) (entries : List (Node × Node)) : Run CellRef := do
  let ref ← newTable
  let result ← newObject ref
  for (key, value) in entries do
    match directive? key with
    | some .bases => interp.extend site ref value
    | some .fields => copyFields site ref value
    | _ => pure ()
  for (key, value) in entries do
    if (directive? key).isNone then
      interp.addEntry site ref result key value
  return result

/-- The initialiser of a literal object. -/
def initialiser? (entries : List (Node × Node)) : Option (Node × Node) :=
  entries.reverse.find? fun (key, _) => directive? key == some .initialiser

/-- Calls the initialiser of a literal object. -/
def initialise (interp : Interp) (site : Site) (entries : List (Node × Node)) (result : CellRef) :
    Run CellRef :=
  match initialiser? entries with
  | some (_, node) => do
    let inner ← site.forkSelf result
    let init ← interp.value inner node
    let _ ← interp.call inner "$init" (.self result) init []
    return result
  | none => return result

/-- A literal object is assembled, and then its initialiser is called. -/
theorem mapLiteral_eq (interp : Interp) (site : Site) (entries : List (Node × Node)) :
    interp.mapLiteral site entries =
      interp.assemble site entries >>= interp.initialise site entries := by
  unfold mapLiteral assemble initialise initialiser?
  simp only [bind_assoc, pure_bind]
  all_goals rfl

end Interp

/-- From a machine on, an action comes to a call of a closure that injects a symbol, on another
machine. -/
inductive Injects (interp : Interp) (closure : Closure) (m : Machine) :
    Run CellRef → Invocation → Machine → Prop
  /-- A chain has come to a function, with an object behind it, and calls it. -/
  | method {chain : Chain} {i : Nat} {before : Node} {nodes steps : List Node} {r : Resolution}
      {function receiver : CellRef} {args : List CellRef} {stamp : Stamp} {called : Machine}
      (hvalue : r.value = some function) (hself : (Chain.remember m r).self = some receiver)
      (hargs : interp.values chain.site nodes m = .ok args called)
      (hclosure : called.content function = .function stamp closure) :
    Injects interp closure m (chain.resolveSteps interp i before (.call nodes :: steps) r)
      ⟨chain.site, before.code, .self receiver, function, args⟩ called
  /-- A literal object that has been assembled calls its initialiser. -/
  | initialiser {site inner : Site} {entries : List (Node × Node)} {key node : Node}
      {object function : CellRef} {stamp : Stamp} {assembled forked called : Machine}
      (hentry : Interp.initialiser? entries = some (key, node))
      (hassembled : interp.assemble site entries m = .ok object assembled)
      (hforked : site.forkSelf object assembled = .ok inner forked)
      (hfunction : interp.value inner node .required forked = .ok function called)
      (hclosure : called.content function = .function stamp closure) :
    Injects interp closure m (interp.mapLiteral site entries)
      ⟨inner, "$init", .self object, function, []⟩ called
  /-- A construction has evaluated its callee and its arguments, and calls the callee. -/
  | construction {site : Site} {callee : Node} {nodes : List Node} {function object : CellRef}
      {args : List CellRef} {stamp : Stamp} {found evaluated called : Machine}
      (hfunction : interp.value site callee .required m = .ok function found)
      (hargs : interp.values site nodes found = .ok args evaluated)
      (hclosure : evaluated.content function = .function stamp closure)
      (hobject : Interp.argsObject function args evaluated = .ok object called) :
    Injects interp closure m (interp.construct site callee nodes)
      ⟨site, callee.code, .args object, function, args⟩ called

namespace Injects

variable {interp : Interp} {closure : Closure} {m called : Machine} {act : Run CellRef}
  {c : Invocation}

/-- An action that comes to a call makes it. -/
theorem comes_to_call (h : Injects interp closure m act c called) :
    ∃ rest : CellRef → Run CellRef, act m = (c.run interp >>= rest) called := by
  cases h with
  | @method chain i before nodes steps r function receiver args stamp _ hvalue hself hargs
      hclosure =>
    have hkept : (Chain.remember m r).value = some function := by
      unfold Chain.remember
      split <;> exact hvalue
    refine ⟨fun result ↦ do
      logStep i (Node.call nodes).code "function call"
      chain.resolveSteps interp (i + 1) (.call nodes) steps
        { Chain.remember m r with value := some result }, ?_⟩
    rw [Chain.resolveSteps_cons]
    unfold Chain.advance
    rw [bind_assoc, Run.get_bind]
    unfold Chain.takeStep
    rw [hkept]
    dsimp only
    unfold Chain.resolveStep
    dsimp only
    rw [hself]
    simp only [bind_assoc, pure_bind]
    rw [Run.bind_ok hargs]
    rfl
  | @initialiser site inner entries key node object function stamp assembled forked _ hentry
      hassembled hforked hfunction hclosure =>
    refine ⟨fun _ ↦ pure object, ?_⟩
    rw [Interp.mapLiteral_eq, Run.bind_ok hassembled]
    unfold Interp.initialise
    rw [hentry]
    dsimp only
    rw [Run.bind_ok hforked, Run.bind_ok hfunction]
    rfl
  | @construction site callee nodes function object args stamp found evaluated _ hfunction hargs
      hclosure hobject =>
    have hread : content function evaluated = .ok (.function stamp closure) evaluated := by
      rw [← hclosure]
      rfl
    refine ⟨pure, ?_⟩
    unfold Interp.construct
    rw [Run.bind_ok hfunction, Run.bind_ok hargs, Run.bind_ok hread]
    dsimp only
    have hfunction : ¬(!(Content.function stamp closure).isFunction) = true := nofun
    rw [if_neg hfunction, bind_pure, Run.bind_ok hobject]
    rfl

/-- The callee is the closure. -/
theorem content_function (h : Injects interp closure m act c called) :
    ∃ stamp, called.content c.function = .function stamp closure := by
  cases h with
  | @method _ _ _ _ _ _ _ _ _ stamp _ _ _ _ hclosure => exact ⟨stamp, hclosure⟩
  | @initialiser _ _ _ _ _ _ _ stamp _ _ _ _ _ _ _ hclosure => exact ⟨stamp, hclosure⟩
  | @construction _ _ _ function object args stamp _ evaluated _ _ _ hclosure hobject =>
    obtain ⟨object', n, hmade, -, -, hkept⟩ := argsObject_apply hclosure args
    cases hobject.symm.trans hmade
    have hholds : evaluated.content function ≠ .empty := by
      rw [hclosure]
      exact nofun
    exact ⟨stamp, (hkept function (Machine.bound_of_content hholds)).trans hclosure⟩

/-- What a construction injects is an object of its arguments. -/
theorem mapsParameters (h : Injects interp closure m act c called) {object : CellRef}
    (hargs : c.preparation = .args object) :
    called.MapsParameters object closure.params c.args := by
  cases h with
  | method => cases hargs
  | initialiser => cases hargs
  | construction hfunction hvalues hclosure hobject =>
    cases hargs
    obtain ⟨object', n, hmade, hmaps, -⟩ := argsObject_apply hclosure _
    cases hobject.symm.trans hmade
    exact hmaps

end Injects

/-- Announcing a call changes at most the log. -/
theorem announceCall_apply (name : String) (args : List CellRef) (m : Machine) :
    ∃ n, announceCall name args m = .ok () n ∧ m.Unwound n := by
  unfold announceCall
  rw [Run.get_bind]
  split
  · exact logInfo_apply ("calling function [" ++ name ++ "] with parameters [" ++
      Node.commas (args.map m.display) ++ "]") m
  · exact ⟨m, rfl, .refl m⟩

/-- A call of a function goes by what the function is, on a machine where at most the log is another
one. -/
theorem Interp.callValue_announced (interp : Interp) (site : Site) (name : String)
    (preparation : Preparation) (args : List CellRef) {m : Machine} {function : CellRef}
    {callee : Content} (hcallee : m.content function = callee)
    (hfunction : callee.isFunction = true) :
    ∃ call k, call.fuel = interp.fuel ∧ m.Unwound k ∧
      interp.callValue site name preparation function args m =
        (match callee with
        | .function _ closure => interp.callClosure site name preparation function closure args
        | .native _ native => site.traced .native (native.run interp site call args)
        | .method _ method receiver => site.traced .native (method.run call receiver args)
        | .hostMethod _ method receiver => site.traced .native (method.run call receiver args)
        | _ => newEmpty : Run CellRef) k := by
  obtain ⟨k, hannounced, hunwound⟩ := announceCall_apply name args m
  obtain ⟨call, hcall, hfuel⟩ : ∃ call, interp.callFrom site k = .ok call k ∧
      call.fuel = interp.fuel := ⟨_, rfl, rfl⟩
  have hread : content function m = .ok callee m := by
    rw [← hcallee]
    rfl
  have hcallable : ¬(!callee.isFunction) = true := by
    rw [hfunction]
    exact nofun
  refine ⟨call, k, hfuel, hunwound, ?_⟩
  rw [callValue_eq, Run.bind_ok hread]
  unfold callContent callFunction
  rw [if_neg hcallable]
  refine (Run.bind_ok hannounced).trans ((Run.bind_ok hcall).trans ?_)
  cases callee <;> rfl

open ControlFlow in
/-- Assumes: a call that injects a symbol, into a closure that takes as many arguments and has no
parameter of that name. The call comes to the evaluation of the body, and at its start the symbol
resolves to what it stood for where the closure was defined, if it stood for anything there, and
else to what was injected: to the last object on the way of the chain, to the literal object, or to
an object that maps the parameters to the arguments. -/
theorem injected_symbol_yields_to_definition {n : Nat} {closure : Closure} {m called : Machine}
    {act : Run CellRef} {c : Invocation} {symbol : String} {injected : CellRef}
    (hinjects : Injects (interp (n + 1)) closure m act c called)
    (hsymbol : c.preparation.binding? = some (symbol, injected))
    (hparam : symbol ∉ closure.params) (harity : c.args.length = closure.params.length) :
    ∃ (inner : Site) (start : Machine) (rest : CellRef → Run CellRef),
      act m = (c.run (interp (n + 1)) >>= rest) called ∧
      BodyStarts c.site c.name c.preparation c.function c.args called
        ⟨n, inner, .required, closure.body, start⟩ ∧
      inner.Resolves start symbol ((called.visible? closure.home symbol).getD injected) ∧
      (c.preparation = .args injected → start.MapsParameters injected closure.params c.args) := by
  obtain ⟨rest, hcomes⟩ := hinjects.comes_to_call
  obtain ⟨stamp, hclosure⟩ := hinjects.content_function
  obtain ⟨announced, hannounce, hannounced⟩ := announceCall_apply c.name c.args called
  obtain ⟨inner, start, hopen, hvisible, htables, hcells⟩ :=
    openBody_apply c.site c.name c.preparation c.function announced harity
  refine ⟨inner, start, rest, hcomes, .intro hclosure hannounce hopen, ?_, fun hargs ↦ ?_⟩
  · refine Machine.resolves_of_visible ?_
    rw [hvisible symbol hparam, hannounced.visible?, Preparation.getElem?_scope hsymbol]
    cases called.visible? closure.home symbol <;> rfl
  · obtain ⟨ref, hobject, hmaps⟩ := hinjects.mapsParameters hargs
    refine ⟨ref, ?_, fun id ↦ ?_⟩
    · have hholds : called.content injected ≠ .empty := by
        rw [hobject]
        exact nofun
      have hbound : injected.index < announced.cells.size := by
        rw [hannounced.cells]
        exact Machine.bound_of_content hholds
      rw [hcells injected hbound, hannounced.content, hobject]
    · have htable : start.table ref = called.table ref :=
        (Machine.table_congr htables ref).trans (hannounced.table ref)
      rw [htable, hmaps]

/-- A method that gives its `self`, defined where `self` was bound. -/
def borrowedMethod : Closure where
  params := []
  body := .identifier "self"
  context := ⟨0⟩
  frame := { top := ⟨1⟩, outer := [⟨0⟩], trace := ⟨0⟩ }

/-- A machine with that method, the object it was defined in, and another object. -/
def borrowingMachine : Machine where
  cells := #[.function ⟨0⟩ borrowedMethod, .object ⟨0⟩, .object ⟨1⟩]
  tables := #[{}, {}]
  scopes := #[{}, Std.TreeMap.insert {} "self" ⟨1⟩]
  traces := #[{}]
  contexts := #[{ source := "main", globals := ⟨0⟩, trace := ⟨0⟩ }]

/-- A chain that has come to the method by way of the other object. -/
def borrowingChain : Chain where
  origin := .access [.identifier "other", .identifier "method", .call []]
  site := { context := ⟨0⟩, frame := { top := ⟨0⟩, outer := [], trace := ⟨0⟩, isRoot := true } }
  mode := .required

/-- Called on the other object, the method sees the object it was defined in. -/
theorem borrowed_method_keeps_its_self :
    let r : Resolution :=
      { context := ⟨0⟩, frame := borrowingChain.site.frame, value := some ⟨0⟩, self := some ⟨2⟩ }
    let c : Invocation := ⟨borrowingChain.site, "method", .self ⟨2⟩, ⟨0⟩, []⟩
    ∃ (inner : Site) (start : Machine) (rest : CellRef → Run CellRef),
      borrowingChain.resolveSteps (interp 3) 2 (.identifier "method") [.call []] r
          borrowingMachine =
        (c.run (interp 3) >>= rest) borrowingMachine ∧
      ControlFlow.BodyStarts c.site c.name c.preparation c.function c.args borrowingMachine
        ⟨2, inner, .required, borrowedMethod.body, start⟩ ∧
      inner.Resolves start "self" ⟨1⟩ := by
  intro r c
  have hinjects : Injects (interp 3) borrowedMethod borrowingMachine
      (borrowingChain.resolveSteps (interp 3) 2 (.identifier "method") [.call []] r) c
      borrowingMachine :=
    @Injects.method _ _ _ borrowingChain 2 (.identifier "method") [] [] r _ _ _ ⟨0⟩ _ rfl rfl rfl
      rfl
  have hseen : borrowingMachine.visible? borrowedMethod.home "self" = some ⟨1⟩ := by decide
  obtain ⟨inner, start, rest, hcomes, hstarts, hresolves, -⟩ :=
    injected_symbol_yields_to_definition hinjects rfl List.not_mem_nil rfl
  rw [hseen] at hresolves
  exact ⟨inner, start, rest, hcomes, hstarts, hresolves⟩

end TreeScript
