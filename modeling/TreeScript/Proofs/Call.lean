import TreeScript.Proofs.Run
import TreeScript.Eval.Interp

/-!
# The parts of a call

A call reads the content of the callee once and then depends on what it found (`callValue_eq`). The
call of a function of the language has three parts (`callClosure_eq`): `openBody` makes the frame of
the body, the body is evaluated there, and `closeBody` turns the way it ended into the result.
`callValue_closure` joins the two for a callee that holds a closure.

The evaluator changes the scopes of a machine by adding one (`withScope`), by binding a name
(`bound`) and by unbinding one (`unbound`); the lemmas on them say what each scope is afterwards. A
scope overlaid by another binds what the other binds, and else what it binds itself
(`getElem?_overlay`). So the scope a function body starts with has a name for each variable of the
source that the function was defined in, whatever else it is overlaid by (`contains_bodyScope`).
-/

set_option autoImplicit false

namespace TreeScript

/-- The symbols a function gets before all others. -/
def Preparation.scope : Preparation → Scope
  | .none => {}
  | .args object => Std.TreeMap.insert {} "args" object
  | .self receiver => Std.TreeMap.insert {} "self" receiver

/-- The bindings a body starts with: what was prepared, the variables of the defining source, what
was visible at the definition, and the parameters, each overlaid by the next. -/
def Closure.bodyScope (closure : Closure) (m : Machine) (preparation : Preparation)
    (copies : List CellRef) : Scope :=
  let globals := m.scope (m.context closure.context).globals
  let visible := (preparation.scope.overlay globals).overlay (m.snapshot closure.frame)
  (closure.params.zip copies).foldl (fun scope (name, cell) => scope.insert name cell) visible

/-- Refuses a wrong number of arguments. -/
def checkArity (site : Site) (function : CellRef) (closure : Closure) (args : List CellRef) :
    Run Unit := do
  if args.length ≠ closure.params.length then
    let shown ← display function
    TreeScript.raise site.frame closure.context .arity
      s!"Function [{shown}] requires {closure.params.length} arguments, but {args.length} were given"

/-- The site the body of a function is evaluated at. -/
def openBody (site : Site) (name : String) (preparation : Preparation) (function : CellRef)
    (closure : Closure) (args : List CellRef) : Run Site := do
  checkArity site function closure args
  let copies ← args.mapM copy
  let m ← get
  let frame ← site.frame.forkWith (closure.bodyScope m preparation copies)
  site.frame.enter name
  return { context := closure.context, frame }

/-- The result of a call whose body has ended: a copy of its value, unless a signal for a loop is
left. -/
def closeBody (site : Site) (name : String) (closure : Closure) (result : Completion) :
    Run CellRef := do
  if result.flow.needsLoop then
    TreeScript.raise site.frame closure.context .invalidControl
      ("Unexpected " ++ result.flow.word ++ " outside of a loop in function [" ++ name ++ "]")
  copy result.value

/-- Logs a call where calls are logged. -/
def announceCall (name : String) (args : List CellRef) : Run Unit := do
  if (← get).options.logCalls then
    let m ← get
    logInfo
      ("calling function [" ++ name ++ "] with parameters [" ++
        Node.commas (args.map m.display) ++ "]")

namespace Interp

/-- Calls what is known to be a function. -/
def callFunction (interp : Interp) (site : Site) (name : String) (preparation : Preparation)
    (function : CellRef) (args : List CellRef) (content : Content) : Run CellRef := do
  announceCall name args
  let call ← interp.callFrom site
  match content with
  | .function _ closure => interp.callClosure site name preparation function closure args
  | .native _ native => site.traced .native (native.run interp site call args)
  | .method _ method receiver => site.traced .native (method.run call receiver args)
  | .hostMethod _ method receiver => site.traced .native (method.run call receiver args)
  | _ => newEmpty

/-- Calls a function with a given content. -/
def callContent (interp : Interp) (site : Site) (name : String) (preparation : Preparation)
    (function : CellRef) (args : List CellRef) (content : Content) : Run CellRef := do
  if !content.isFunction then
    let shown ← display function
    site.raise .typeMismatch ("Value is not a function [" ++ shown ++ "]")
  interp.callFunction site name preparation function args content

/-- A call reads the content of the callee and goes by it. -/
theorem callValue_eq (interp : Interp) (site : Site) (name : String) (preparation : Preparation)
    (function : CellRef) (args : List CellRef) :
    interp.callValue site name preparation function args =
      content function >>= interp.callContent site name preparation function args := by
  unfold callValue
  refine bind_congr fun content ↦ ?_
  have hannounced (rest : Run CellRef) :
      (do
        if (← get).options.logCalls then
          let m ← get
          logInfo
            ("calling function [" ++ name ++ "] with parameters [" ++
              Node.commas (args.map m.display) ++ "]")
        rest) = announceCall name args >>= fun _ ↦ rest := by
    unfold announceCall
    rw [bind_assoc]
    refine bind_congr fun m ↦ ?_
    split
    · rw [bind_assoc]
    · rw [pure_bind]
  unfold callContent callFunction
  by_cases hother : (!content.isFunction) = true
  · rw [if_pos hother, if_pos hother]
    exact bind_congr fun _ ↦ bind_congr fun _ ↦ hannounced _
  · rw [if_neg hother, if_neg hother]
    exact hannounced _

/-- The call of a function of the language opens its body, evaluates it and closes it. -/
theorem callClosure_eq (interp : Interp) (site : Site) (name : String) (preparation : Preparation)
    (function : CellRef) (closure : Closure) (args : List CellRef) :
    interp.callClosure site name preparation function closure args = (do
      let inner ← openBody site name preparation function closure args
      let result ← interp.eval inner .required closure.body
      closeBody site name closure result) := by
  unfold callClosure openBody checkArity closeBody
  by_cases hlength : args.length ≠ closure.params.length
  · simp only [if_pos hlength, bind_assoc, pure_bind]
    rfl
  · simp only [if_neg hlength, bind_assoc, pure_bind]
    rfl

/-- Assumes: a callee that holds a closure. The call announces itself, opens the body, evaluates it
and closes it. -/
theorem callValue_closure {interp : Interp} {site : Site} {name : String}
    {preparation : Preparation} {function : CellRef} {args : List CellRef} {stamp : Stamp} {closure : Closure} {m : Machine}
    (hclosure : m.content function = .function stamp closure) :
    interp.callValue site name preparation function args m = (do
      announceCall name args
      let inner ← openBody site name preparation function closure args
      let result ← interp.eval inner .required closure.body
      closeBody site name closure result) m := by
  rw [callValue_eq, Run.bind_ok (show content function m = .ok (m.content function) m from rfl),
    hclosure, ← callClosure_eq]
  rfl

end Interp

/-! ### What scopes bind -/

namespace Scope

/-- Inserting the bindings of a list one by one inserts them all. -/
theorem foldl_insert (bindings : List (String × CellRef)) :
    ∀ scope : Scope,
      bindings.foldl (fun acc binding ↦ acc.insert binding.1 binding.2) scope =
        scope.insertMany bindings := by
  induction bindings with
  | nil => exact fun scope ↦ Std.TreeMap.insertMany_nil.symm
  | cons binding bindings ih =>
    intro scope
    rw [List.foldl_cons, ih, Std.TreeMap.insertMany_cons]

/-- An overlaid scope binds what the scope above binds, and else what the one below does. -/
theorem getElem?_overlay (base inner : Scope) (name : String) :
    (base.overlay inner)[name]? = (inner[name]?).or base[name]? := by
  unfold overlay
  by_cases hempty : base.isEmpty = true
  · rw [if_pos hempty, Std.TreeMap.getElem?_of_isEmpty hempty, Option.or_none]
  · rw [if_neg hempty, Std.TreeMap.foldl_eq_foldl_toList, foldl_insert]
    cases hinner : inner[name]? with
    | none =>
      have habsent : (inner.toList.map Prod.fst).contains name = false := by
        rw [Std.TreeMap.map_fst_toList_eq_keys, Std.TreeMap.contains_keys,
          Std.TreeMap.contains_eq_isSome_getElem?, hinner]
        rfl
      rw [Std.TreeMap.getElem?_insertMany_list_of_contains_eq_false habsent, Option.none_or]
    | some cell =>
      have hmem : (name, cell) ∈ inner.toList :=
        Std.TreeMap.mem_toList_iff_getElem?_eq_some.mpr hinner
      rw [Std.TreeMap.getElem?_insertMany_list_of_mem Std.ReflCmp.compare_self
        Std.TreeMap.distinct_keys_toList hmem, Option.some_or]

/-- An overlaid scope has the names of both scopes. -/
theorem contains_overlay (base inner : Scope) (name : String) :
    (base.overlay inner).contains name = (inner.contains name || base.contains name) := by
  rw [Std.TreeMap.contains_eq_isSome_getElem?, getElem?_overlay, Option.isSome_or,
    ← Std.TreeMap.contains_eq_isSome_getElem?, ← Std.TreeMap.contains_eq_isSome_getElem?]

/-- Inserting bindings keeps the names there are. -/
theorem contains_insertMany {scope : Scope} {name : String} (h : scope.contains name)
    (bindings : List (String × CellRef)) : (scope.insertMany bindings).contains name := by
  rw [Std.TreeMap.contains_insertMany_list, h, Bool.true_or]

end Scope

namespace Machine

/-- A machine with one more scope. -/
def withScope (m : Machine) (scope : Scope) : Machine := { m with scopes := m.scopes.push scope }

/-- A machine in which a scope binds a name to a cell. -/
def bound (m : Machine) (ref : ScopeRef) (name : String) (cell : CellRef) : Machine :=
  { m with scopes := m.scopes.modify ref.index (·.insert name cell) }

/-- A machine in which a scope does not bind a name. -/
def unbound (m : Machine) (ref : ScopeRef) (name : String) : Machine :=
  { m with scopes := m.scopes.modify ref.index (·.erase name) }

/-- The new scope is the one it was made with, and the others are what they were. -/
theorem scope_withScope (m : Machine) (scope : Scope) (ref : ScopeRef) :
    (m.withScope scope).scope ref = if ref.index = m.scopes.size then scope else m.scope ref :=
  getD_push m.scopes ref.index scope {}

/-- A scope in which a name was bound has that binding more, and the others are what they were. -/
theorem scope_bound (m : Machine) (target ref : ScopeRef) (name : String) (cell : CellRef) :
    (m.bound target name cell).scope ref =
      if target.index = ref.index ∧ ref.index < m.scopes.size then (m.scope ref).insert name cell
      else m.scope ref :=
  getD_modify m.scopes target.index ref.index {} (·.insert name cell)

/-- A scope from which a name was removed does not have it, and the others are what they were. -/
theorem scope_unbound (m : Machine) (target ref : ScopeRef) (name : String) :
    (m.unbound target name).scope ref =
      if target.index = ref.index ∧ ref.index < m.scopes.size then (m.scope ref).erase name
      else m.scope ref :=
  getD_modify m.scopes target.index ref.index {} (·.erase name)

end Machine

/-- The body of a closure has a name for each variable of the source it was defined in. -/
theorem Closure.contains_bodyScope (closure : Closure) {m : Machine} (preparation : Preparation)
    (copies : List CellRef) {name : String} (h : (m.global? closure.context name).isSome) :
    (closure.bodyScope m preparation copies).contains name := by
  unfold bodyScope
  dsimp only
  rw [Scope.foldl_insert]
  refine Scope.contains_insertMany ?_ _
  rw [Scope.contains_overlay, Scope.contains_overlay]
  have hglobal : (m.scope (m.context closure.context).globals).contains name = true := by
    rwa [Std.TreeMap.contains_eq_isSome_getElem?]
  rw [hglobal, Bool.true_or, Bool.or_true]

end TreeScript
