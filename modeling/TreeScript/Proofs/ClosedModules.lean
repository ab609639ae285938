import TreeScript.Proofs.Comparison.Evaluation
import TreeScript.Proofs.Enclosure.CoreModules

/-!
# Forbidden core modules are closed

A core module whose import is forbidden is closed to the sources of users: whatever a session loads
and runs, no source but the module's own comes to hold one of its natives in a variable, or in
anything that can be reached from one (`forbidden_module_is_closed`). The module is enclosed when
the session starts, every step keeps it so, and nothing open leads to anything enclosed.

This takes the sources to leave the name of the module alone (`SourceText.LeavesAlone`). Native
declarations are looked up under the names of the modules a source exports and under the name of the
source itself, and the list of forbidden imports has no part in that, so a source that takes the
name of a forbidden module can declare its natives (`namesake_declares_native`).
-/

set_option autoImplicit false

namespace TreeScript

open Session Enclosure

/-! ### What can be reached -/

namespace Machine

/-- A value mentions the cells that can be got at from it in one step: the keys and values of an
object, the receiver of a method, what an iterator has yet to hand out, the parts of an instance,
and the variables a function sees. -/
inductive Mentions (m : Machine) (cell : CellRef) : CellRef → Prop
  | key {ref : TableRef} {entry : Entry} (h : m.content cell = .object ref)
      (hentry : entry ∈ (m.table ref).entries) : Mentions m cell entry.key
  | value {ref : TableRef} {entry : Entry} (h : m.content cell = .object ref)
      (hentry : entry ∈ (m.table ref).entries) : Mentions m cell entry.value
  | receiver {stamp : Stamp} {method : Method} {receiver : CellRef}
      (h : m.content cell = .method stamp method receiver) : Mentions m cell receiver
  | hostReceiver {stamp : Stamp} {method : HostMethod} {receiver : CellRef}
      (h : m.content cell = .hostMethod stamp method receiver) : Mentions m cell receiver
  | remaining {ref : IteratorRef} {item : CellRef} (h : m.content cell = .iterator ref)
      (hitem : item ∈ m.remaining ref) : Mentions m cell item
  | part {ref : InstanceRef} {type : HostType} {x y part : CellRef} {z : Option CellRef}
      (h : m.content cell = .custom ref) (hinstance : m.instanceOf ref = .vector type x y z)
      (hpart : part ∈ x :: y :: z.toList) : Mentions m cell part
  | captured {stamp : Stamp} {closure : Closure} {ref : ScopeRef} {name : String} {seen : CellRef}
      (h : m.content cell = .function stamp closure) (hvisible : ref ∈ closure.frame.scopes)
      (hbound : (m.scope ref)[name]? = some seen) : Mentions m cell seen
  | defining {stamp : Stamp} {closure : Closure} {name : String} {seen : CellRef}
      (h : m.content cell = .function stamp closure)
      (hbound : m.global? closure.context name = some seen) : Mentions m cell seen

/-- What can be got at from a value in any number of steps. -/
inductive Reaches (m : Machine) (cell : CellRef) : CellRef → Prop
  | here : Reaches m cell cell
  | step {middle target : CellRef} (h : Reaches m cell middle) (hmentions : m.Mentions middle target) :
      Reaches m cell target

/-- A source holds a native of a module if one of its variables reaches a value whose implementation
is registered under the module. -/
def HoldsNative (m : Machine) (source : ContextRef) (module : String) : Prop :=
  ∃ (name : String) (cell target : CellRef) (stamp : Stamp) (binding : NativeBinding),
    m.global? source name = some cell ∧ m.Reaches cell target ∧ binding ∈ m.natives ∧
      binding.module = module ∧ m.content target = .native stamp binding.function

end Machine

namespace Enclosure

variable {K : Enclosure} {m : Machine}

/-- An open value mentions open cells only. -/
theorem Holds.mentions (hm : K.Holds m) {cell target : CellRef} (hcell : K.OpenCell cell)
    (h : m.Mentions cell target) : K.OpenCell target := by
  have hcontent := hm.content cell hcell
  cases h with
  | key hfound hentry => exact ((hm.table _ (hm.openObject hcell hfound)).entries _ hentry).key
  | value hfound hentry => exact ((hm.table _ (hm.openObject hcell hfound)).entries _ hentry).value
  | receiver hfound =>
    rw [hfound] at hcontent
    exact hcontent
  | hostReceiver hfound =>
    rw [hfound] at hcontent
    exact hcontent
  | remaining hfound hitem =>
    rw [hfound] at hcontent
    exact hm.remaining _ hcontent target hitem
  | part _ hinstance hpart =>
    have hparts := hinstance ▸ hm.instanceOf _
    obtain ⟨hx, hy, hz⟩ := hparts
    rcases List.mem_cons.mp hpart with rfl | hpart
    · exact hx
    · rcases List.mem_cons.mp hpart with rfl | hpart
      · exact hy
      · exact hz target (Option.mem_toList.mp hpart)
  | captured hfound hvisible hbound =>
    rw [hfound] at hcontent
    exact hm.bindings _ (hcontent.2 _ hvisible) _ target hbound
  | defining hfound hbound =>
    rw [hfound] at hcontent
    exact hm.global? hcontent.1 _ target hbound

theorem Holds.reaches (hm : K.Holds m) {cell target : CellRef} (hcell : K.OpenCell cell)
    (h : m.Reaches cell target) : K.OpenCell target := by
  induction h with
  | here => exact hcell
  | step _ hmentions ih => exact hm.mentions ih hmentions

/-- An open source holds no enclosed native. -/
theorem Holds.not_holdsNative (hm : K.Holds m) {source : ContextRef} (hopen : K.OpenContext source)
    {module : String} (hmodule : K.module module) : ¬m.HoldsNative source module := by
  rintro ⟨name, cell, target, stamp, binding, hbound, hreaches, hbinding, rfl, hfound⟩
  have hcontent := hm.content target (hm.reaches (hm.global? hopen name cell hbound) hreaches)
  rw [hfound] at hcontent
  exact hcontent (hm.registered binding hbinding hmodule)

end Enclosure

/-! ### Sessions -/

namespace Session

/-- What a user can have a session do. -/
inductive Step where
  | load (source : SourceText)
  | run (source : String)
  | evaluate (source : SourceText)
  | evaluateIn (source : SourceText)
  | program (name : String) (entry : Option SourceText) (sources : List SourceText)

/-- Takes a step. -/
def Step.act : Step → Run Unit
  | load source => do let _ ← Session.load source.name source.statements
  | run source => do let _ ← Session.run source
  | evaluate source => do let _ ← Session.evaluate source.name source.statements
  | evaluateIn source => do let _ ← Session.evaluateIn source.name source.statements
  | program name entry sources => do let _ ← runProgram name entry sources

/-- A source that neither takes the name of a module nor exports a module of that name. -/
structure SourceText.LeavesAlone (module : String) (source : SourceText) : Prop where
  name : source.name ≠ module
  exports : ExportsNothing module source.statements

/-- A step whose sources leave a module alone, and that runs no statements in the source of the
module itself. -/
def Step.LeavesAlone (module : String) (home : ContextRef) (m : Machine) : Step → Prop
  | load source | evaluate source => source.LeavesAlone module
  | run _ => True
  | evaluateIn source =>
    ExportsNothing module source.statements ∧ Lookup.context? m source.name ≠ some home
  | program _ entry sources => ∀ source ∈ entry.toList ++ sources, source.LeavesAlone module

/-- The machines that steps lead to which leave a module alone, whether they fail or not. -/
inductive Leads (module : String) (home : ContextRef) (m : Machine) : Machine → Prop
  | start : Leads module home m m
  | step {n : Machine} {step : Step} (h : Leads module home m n)
      (hstep : step.LeavesAlone module home n) :
      Leads module home m (Outcome.final (step.act n))

end Session

namespace Enclosure

variable {K : Enclosure} {m : Machine}

/-- A step that leaves the enclosed module alone keeps the enclosure. -/
theorem Respected.step (hm : K.Respected m) {module : String} {home : ContextRef}
    (hmodule : ∀ name, K.module name → name = module)
    (hhome : ∀ context, K.context context → context = home) {step : Step}
    (hstep : step.LeavesAlone module home m) : K.Respected (Outcome.final (step.act m)) := by
  -- What a step gives is dropped.
  have hdropped {α : Type} {x : Run α} (h : Outcome.Holds K.Respected (fun _ ↦ True) (x m)) :
      K.Respected (Outcome.final ((do let _ ← x : Run Unit) m)) := by
    cases hx : x m with
    | ok a n =>
      rw [hx] at h
      cases h with
      | ok hn =>
        rw [Run.bind_ok hx]
        exact hn
    | error e n =>
      rw [hx] at h
      cases h with
      | error hn =>
        rw [Run.bind_error hx]
        exact hn
  have hnamed {source : SourceText} (h : source.LeavesAlone module) : ¬K.module source.name :=
    fun hname ↦ h.name (hmodule _ hname)
  have hexported {statements : List Node} (h : ExportsNothing module statements) :
      ∀ name, K.module name → ExportsNothing name statements :=
    fun name hname ↦ hmodule name hname ▸ h
  cases step with
  | load source => exact hdropped (load (hnamed hstep) (hexported hstep.exports) m hm)
  | run source => exact hdropped (respected (fun _ ↦ run source) m hm)
  | evaluate source => exact hdropped (evaluate (hnamed hstep) (hexported hstep.exports) m hm)
  | evaluateIn source =>
    obtain ⟨hexports, htarget⟩ := hstep
    have hends : Outcome.Holds (K.spanning m.contexts.size).Holds (fun _ ↦ True)
        (Session.evaluateIn source.name source.statements m) :=
      evaluateIn (hexported hexports) hm fun context hfound henclosed ↦
        htarget (hhome context henclosed ▸ hfound)
    exact hdropped (respected_of_holds hends)
  | program name entry sources =>
    refine hdropped (runProgram name (fun source hmem ↦ ?_) m hm)
    exact ⟨hnamed (hstep source hmem), hexported (hstep source hmem).exports⟩

/-- Steps that leave the enclosed module alone keep the enclosure. -/
theorem Respected.leads (hm : K.Respected m) {module : String} {home : ContextRef}
    (hmodule : ∀ name, K.module name → name = module)
    (hhome : ∀ context, K.context context → context = home) {n : Machine}
    (hsteps : Leads module home m n) : K.Respected n := by
  induction hsteps with
  | start => exact hm
  | step _ hstep ih => exact ih.step hmodule hhome hstep

end Enclosure

/-- Assumes: a session started with a core module among the forbidden imports and not among the
automatic ones, and steps that leave the module alone. No source but the module's own holds one of
its natives, in a variable or in anything that a variable reaches. -/
theorem forbidden_module_is_closed {place : Nat} {core : CoreModule}
    (hcore : CoreModule.all[place]? = some core) {options : Options} {level : LogLevel}
    {m₀ m : Machine} (hstart : Session.start options { logLevel := level } = .ok () m₀)
    (hforbidden : core.name ∈ options.forbiddenImports)
    (hautomatic : ImportsNothing core.name options.autoImports)
    (hsteps : Leads core.name ⟨place⟩ m₀ m) {source : ContextRef}
    (hloaded : source.index < m.contexts.size) (hother : source ≠ ⟨place⟩) :
    ¬m.HoldsNative source core.name := by
  obtain ⟨hfurnished, hforbids, himports⟩ := Furnished.of_start hstart
  have hstarted : (core.enclosure (List.mem_of_getElem? hcore) ⟨place⟩ m₀).Holds m₀ :=
    hfurnished.holds hcore (hforbids ▸ hforbidden) (himports ▸ hautomatic)
  have hm := hstarted.respected.leads (fun _ h ↦ h) (fun _ h ↦ h) hsteps
  exact hm.not_holdsNative ⟨hother, hloaded⟩ rfl

/-- A session in which the module of the basic functions may not be imported. -/
def restrictedSession : Machine :=
  Outcome.final (Session.start { forbiddenImports := ["system"] } {})

/-- Evaluating a source that sets a variable and declares a native of the forbidden module. -/
def declaringStep (name : String) : Step :=
  .evaluate ⟨name, [.assignment "=" (.identifier "x") (.boolean true),
    .declaration "print" [] none true]⟩

/-- The session starts. A source gets its variable, and if it has the name of the module also the
native. -/
theorem restrictedSession_runs :
    Outcome.value? (Session.start { forbiddenImports := ["system"] } {}) = some () ∧
      (let m := Outcome.final ((declaringStep "user").act restrictedSession)
      4 < m.contexts.size ∧ (m.global? ⟨4⟩ "x").isSome) ∧
      (let m := Outcome.final ((declaringStep "system").act restrictedSession)
      (m.global? ⟨4⟩ "print").any fun cell ↦ (m.content cell).isAmong fun function ↦
        m.natives.any fun binding ↦ binding.module == "system" && binding.function == function) := by
  decide +kernel

theorem start_restrictedSession :
    Session.start { forbiddenImports := ["system"] } {} = .ok () restrictedSession :=
  Outcome.eq_ok restrictedSession_runs.1

/-- The source gets its variable and nothing else. -/
theorem system_is_closed_to_declaration :
    let m := Outcome.final ((declaringStep "user").act restrictedSession)
    (4 < m.contexts.size ∧ (m.global? ⟨4⟩ "x").isSome) ∧ ¬m.HoldsNative ⟨4⟩ "system" := by
  intro m
  have hran : 4 < m.contexts.size ∧ (m.global? ⟨4⟩ "x").isSome := restrictedSession_runs.2.1
  have hsteps : Leads "system" ⟨0⟩ restrictedSession m := by
    refine .step .start ⟨?_, fun symbols hmem ↦ ?_⟩
    · decide
    · simp at hmem
  have hcore : CoreModule.all[0]? = some ⟨"system", _⟩ := rfl
  exact ⟨hran, forbidden_module_is_closed hcore start_restrictedSession (List.mem_singleton.mpr rfl)
    (fun _ h ↦ nomatch h) hsteps hran.1 (by decide)⟩

/-- A source that takes the name of a forbidden module can declare its natives. -/
theorem namesake_declares_native :
    "system" ∈ restrictedSession.options.forbiddenImports ∧
      (Outcome.final ((declaringStep "system").act restrictedSession)).HoldsNative ⟨4⟩ "system" := by
  obtain ⟨-, hforbids, -⟩ := Furnished.of_start start_restrictedSession
  refine ⟨hforbids ▸ List.mem_singleton.mpr rfl, ?_⟩
  obtain ⟨-, -, hdeclared⟩ := restrictedSession_runs
  generalize Outcome.final ((declaringStep "system").act restrictedSession) = m at hdeclared ⊢
  obtain ⟨cell, hbound, hamong⟩ := (Option.any_eq_true ..).mp hdeclared
  cases hfound : m.content cell with
  | native stamp function =>
    rw [hfound] at hamong
    obtain ⟨binding, hmem, hbinding⟩ := List.any_eq_true.mp hamong
    rw [Bool.and_eq_true, beq_iff_eq, beq_iff_eq] at hbinding
    obtain ⟨hmodule, rfl⟩ := hbinding
    exact ⟨"print", cell, cell, stamp, binding, hbound, .here, hmem, hmodule, hfound⟩
  | _ =>
    rw [hfound] at hamong
    cases hamong

end TreeScript
