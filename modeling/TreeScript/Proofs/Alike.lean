import TreeScript.Proofs.Run
import TreeScript.Eval.Statement
import TreeScript.Eval.Native
import TreeScript.Method.Text

/-!
# Machines a program cannot tell apart

Two machines are alike when they differ at most in what no value depends on: the recorded stack
traces, the log, the output, the options that only concern these, and the stack trace that the frame
of a closure writes to. Every question the evaluator asks a machine has the same answer on machines
that are alike; the lemmas of this module say so, one for each question.
-/

set_option autoImplicit false

namespace TreeScript

/-- A frame that writes to another stack trace. -/
def Frame.retraced (frame : Frame) (trace : TraceRef) : Frame := { frame with trace }

/-- A closure whose frame writes to another stack trace. -/
def Closure.retraced (closure : Closure) (trace : TraceRef) : Closure :=
  { closure with frame := closure.frame.retraced trace }

/-- Two sites whose frames differ at most in the stack trace they write to. -/
inductive Site.Alike (site : Site) : Site → Prop
  | retraced (trace : TraceRef) : Alike site { site with frame := site.frame.retraced trace }

namespace Content

/-- Two contents that differ at most in the stack trace of the frame of a closure. -/
inductive Alike : Content → Content → Prop
  | same (content : Content) : Alike content content
  | closure (stamp : Stamp) (closure : Closure) (trace : TraceRef) :
    Alike (.function stamp closure) (.function stamp (closure.retraced trace))

variable {c c' : Content}

theorem Alike.kind (h : c.Alike c') : c'.kind = c.kind := by
  cases h <;> rfl

theorem Alike.typeName (h : c.Alike c') : c'.typeName = c.typeName := by
  cases h <;> rfl

theorem Alike.isEmpty (h : c.Alike c') : c'.isEmpty = c.isEmpty := by
  cases h <;> rfl

theorem Alike.isFunction (h : c.Alike c') : c'.isFunction = c.isFunction := by
  cases h <;> rfl

theorem Alike.paramCount? (h : c.Alike c') : c'.paramCount? = c.paramCount? := by
  cases h <;> rfl

theorem Alike.keyId (h : c.Alike c') : c'.keyId = c.keyId := by
  cases h <;> rfl

end Content

namespace Machine

/-- Two machines that differ at most in stack traces, log, output and the options about them. -/
structure Alike (m m' : Machine) : Prop where
  size : m'.cells.size = m.cells.size
  content : ∀ cell, (m.content cell).Alike (m'.content cell)
  tables : m'.tables = m.tables
  scopes : m'.scopes = m.scopes
  iterators : m'.iterators = m.iterators
  instances : m'.instances = m.instances
  contexts : m'.contexts = m.contexts
  loaded : m'.loaded = m.loaded
  natives : m'.natives = m.natives
  stamps : m'.stamps = m.stamps
  divisionScale : m'.options.divisionScale = m.options.divisionScale
  suggestions : m'.options.suggestions = m.options.suggestions

namespace Alike

theorem refl (m : Machine) : m.Alike m :=
  ⟨rfl, fun _ ↦ .same _, rfl, rfl, rfl, rfl, rfl, rfl, rfl, rfl, rfl, rfl⟩

/-- Machines that differ at most in the recorded stack traces and in the log are alike. -/
theorem of_unwound {m m' : Machine} (h : m.Unwound m') : m.Alike m' := by
  rw [← h]
  exact ⟨rfl, fun _ ↦ .same _, rfl, rfl, rfl, rfl, rfl, rfl, rfl, rfl, rfl, rfl⟩

variable {m m' : Machine} (h : m.Alike m')
include h

/-- A cell holds the same on both machines, or closures that differ in a stack trace only. -/
theorem content_cases (cell : CellRef) :
    m'.content cell = m.content cell ∨
      ∃ (stamp : Stamp) (closure : Closure) (trace : TraceRef),
        m.content cell = .function stamp closure ∧
        m'.content cell = .function stamp (closure.retraced trace) := by
  have hcontent := h.content cell
  revert hcontent
  generalize m.content cell = c
  generalize m'.content cell = c'
  intro hcontent
  cases hcontent with
  | same => exact Or.inl rfl
  | closure stamp closure trace => exact Or.inr ⟨stamp, closure, trace, rfl, rfl⟩

/-- An argument that may be missing holds the same on both machines, or closures that differ in a
stack trace only. -/
theorem argument_cases (cell? : Option CellRef) :
    cell?.map m'.content = cell?.map m.content ∨
      ∃ (stamp : Stamp) (closure : Closure) (trace : TraceRef),
        cell?.map m.content = some (.function stamp closure) ∧
        cell?.map m'.content = some (.function stamp (closure.retraced trace)) := by
  cases cell? with
  | none => exact Or.inl rfl
  | some cell =>
    rcases h.content_cases cell with hc | ⟨stamp, closure, trace, hc, hc'⟩
    · exact Or.inl (congrArg some hc)
    · exact Or.inr ⟨stamp, closure, trace, congrArg some hc, congrArg some hc'⟩

/-! ### Parts of the store -/

theorem kind : m'.kind = m.kind := funext fun cell ↦ (h.content cell).kind

theorem typeName : m'.typeName = m.typeName := funext fun cell ↦ (h.content cell).typeName

theorem keyId : m'.keyId = m.keyId := funext fun cell ↦ (h.content cell).keyId

theorem table : m'.table = m.table := by
  funext ref
  unfold Machine.table
  rw [h.tables]

theorem scope : m'.scope = m.scope := by
  funext ref
  unfold Machine.scope
  rw [h.scopes]

theorem context : m'.context = m.context := by
  funext ref
  unfold Machine.context
  rw [h.contexts]

theorem instanceOf : m'.instanceOf = m.instanceOf := by
  funext ref
  unfold Machine.instanceOf
  rw [h.instances]

theorem iterator : m'.iterator = m.iterator := by
  funext ref
  unfold Machine.iterator
  rw [h.iterators]

theorem remaining : m'.remaining = m.remaining := by
  funext ref
  unfold Machine.remaining
  rw [h.iterator]

theorem module? : m'.module? = m.module? := by
  funext ref
  unfold Machine.module?
  rw [h.context]

theorem tableOf? : m'.tableOf? = m.tableOf? := by
  funext cell
  unfold Machine.tableOf?
  rcases h.content_cases cell with hc | ⟨_, _, _, hc, hc'⟩
  · rw [hc]
  · rw [hc, hc']

theorem lookUp : m'.lookUp = m.lookUp := by
  funext ref key
  unfold Machine.lookUp
  rw [h.table, h.keyId]

theorem lookUpText : m'.lookUpText = m.lookUpText := by
  funext ref key
  unfold Machine.lookUpText
  rw [h.table]

/-! ### Texts -/

theorem numberKey? : m'.numberKey? = m.numberKey? := by
  funext cell
  unfold Machine.numberKey?
  rcases h.content_cases cell with hc | ⟨_, _, _, hc, hc'⟩
  · rw [hc]
  · rw [hc, hc']

theorem highestKey : m'.highestKey = m.highestKey := by
  funext ref
  unfold Machine.highestKey
  rw [h.table, h.numberKey?]

theorem isArray : m'.isArray = m.isArray := by
  funext ref
  have hkey : m'.isArrayKey = m.isArrayKey := by
    funext cell
    unfold Machine.isArrayKey
    rw [h.numberKey?]
  have hzero : m'.isZeroKey = m.isZeroKey := by
    funext cell
    unfold Machine.isZeroKey
    rw [h.numberKey?]
  unfold Machine.isArray
  rw [h.table, h.highestKey, hkey, hzero]

theorem displayIn : ∀ fuel, m'.displayIn fuel = m.displayIn fuel := by
  intro fuel
  induction fuel with
  | zero =>
    funext outer cell
    rfl
  | succ fuel ih =>
    funext outer cell
    unfold Machine.displayIn
    rcases h.content_cases cell with hc | ⟨_, _, _, hc, hc'⟩
    · rw [hc, h.instanceOf, h.table, h.isArray, ih]
    · rw [hc, hc']
      rfl

theorem display : m'.display = m.display := by
  funext cell
  unfold Machine.display Machine.displayDepth
  rw [h.displayIn, h.tables, h.instances]

theorem describe : m'.describe = m.describe := by
  funext cell
  unfold Machine.describe
  rw [h.display, h.typeName]

theorem keyList : Operator.keyList m' = Operator.keyList m := by
  funext ref
  unfold Operator.keyList
  rw [h.table, h.display]

theorem noCombination : Operator.noCombination m' = Operator.noCombination m := by
  funext op left right
  unfold Operator.noCombination
  rw [h.describe]

/-! ### Truth, numbers and order -/

theorem isTrueIn : ∀ fuel, m'.isTrueIn fuel = m.isTrueIn fuel := by
  intro fuel
  induction fuel with
  | zero =>
    funext cell
    rfl
  | succ fuel ih =>
    funext cell
    unfold Machine.isTrueIn
    rcases h.content_cases cell with hc | ⟨_, _, _, hc, hc'⟩
    · rw [hc, h.table, h.instanceOf, ih]
    · rw [hc, hc']

theorem isTrue : m'.isTrue = m.isTrue := by
  funext cell
  unfold Machine.isTrue
  rw [h.instances, h.isTrueIn]

theorem number? : m'.number? = m.number? := by
  funext cell
  unfold Machine.number?
  rcases h.content_cases cell with hc | ⟨_, _, _, hc, hc'⟩
  · rw [hc, h.instanceOf, h.numberKey?]
  · rw [hc, hc']

theorem simpleOrder : m'.simpleOrder = m.simpleOrder := by
  funext a b
  unfold Machine.simpleOrder
  rcases h.content_cases a with ha | ⟨_, _, _, ha, ha'⟩
  · rcases h.content_cases b with hb | ⟨_, _, _, hb, hb'⟩
    · rw [ha, hb, h.display]
    · rw [ha, hb, hb', h.display]
      cases m.content a <;> rfl
  · rw [ha, ha']

theorem vectorOrder : m'.vectorOrder = m.vectorOrder := by
  funext x y x' y'
  unfold Machine.vectorOrder
  rw [h.simpleOrder]

theorem equalIn : ∀ fuel, m'.equalIn fuel = m.equalIn fuel := by
  intro fuel
  induction fuel with
  | zero =>
    funext assumed a b
    rfl
  | succ fuel ih =>
    funext assumed a b
    unfold Machine.equalIn
    rcases h.content_cases a with ha | ⟨_, _, _, ha, ha'⟩
    · rcases h.content_cases b with hb | ⟨_, _, _, hb, hb'⟩
      · rw [ha, hb, h.table, h.lookUp, h.instanceOf, h.vectorOrder, ih]
      · rw [ha, hb, hb']
        cases m.content a <;> rfl
    · rcases h.content_cases b with hb | ⟨_, _, _, hb, hb'⟩
      · rw [ha, ha', hb]
        cases m.content b <;> rfl
      · rw [ha, ha', hb, hb']
        rfl

theorem equal : m'.equal = m.equal := by
  funext a b
  unfold Machine.equal
  rw [h.tables, h.equalIn]

theorem distinctEntries :
    ObjectMethod.distinctEntries m' = ObjectMethod.distinctEntries m := by
  funext entries
  unfold ObjectMethod.distinctEntries
  rw [h.equal]

theorem countValues : ObjectMethod.countValues m' = ObjectMethod.countValues m := by
  funext values
  unfold ObjectMethod.countValues
  rw [h.equal]

theorem elementArgs : CommonMethod.elementArgs m' = CommonMethod.elementArgs m := by
  funext self element params
  unfold CommonMethod.elementArgs
  rw [h.tableOf?, h.table, h.isArray, h.kind]

theorem argType : TreeScript.argType m' = TreeScript.argType m := by
  funext args i
  unfold TreeScript.argType
  rw [h.typeName]

/-! ### Names -/

theorem lookUpName : m'.lookUpName = m.lookUpName := by
  funext frame name
  unfold Machine.lookUpName
  rw [h.scope]

theorem binderOf? : m'.binderOf? = m.binderOf? := by
  funext frame name
  unfold Machine.binderOf?
  rw [h.scope]

theorem snapshot : m'.snapshot = m.snapshot := by
  funext frame
  unfold Machine.snapshot
  rw [h.scope]

theorem global? : m'.global? = m.global? := by
  funext context name
  unfold Machine.global?
  rw [h.scope, h.context]

theorem candidates : m'.candidates = m.candidates := by
  funext cell
  unfold Machine.candidates
  rcases h.content_cases cell with hc | ⟨_, _, _, hc, hc'⟩
  · rw [hc, h.table, h.display, h.instanceOf, h.kind]
  · rw [hc, hc', h.kind]

theorem exports : m'.exports = m.exports := by
  funext ref symbol
  unfold Machine.exports
  rw [h.module?]

theorem moduleName : m'.moduleName = m.moduleName := by
  funext ref
  unfold Machine.moduleName
  rw [h.module?]

theorem candidateNames : m'.candidateNames = m.candidateNames := by
  funext previous context
  unfold Machine.candidateNames Machine.variableNames
  rw [h.candidates, h.scope, h.context, h.module?]

theorem unresolvedMessage : m'.unresolvedMessage = m.unresolvedMessage := by
  funext origin name previous context
  unfold Machine.unresolvedMessage
  rw [h.candidateNames, h.suggestions, h.display]

theorem native? : m'.native? = m.native? := by
  funext modules name
  unfold Machine.native?
  rw [h.natives]

theorem lastSite? : Native.lastSite? m' = Native.lastSite? m := by
  unfold Native.lastSite?
  rw [h.loaded, h.context]

end Alike

end Machine

end TreeScript
