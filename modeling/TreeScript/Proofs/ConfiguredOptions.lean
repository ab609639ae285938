import TreeScript.Project.Decode
import TreeScript.Proofs.BalancedTraces
import TreeScript.Proofs.Settings.Quotients
import TreeScript.Proofs.Settings.Starting

/-!
# Configured options take effect

A session starts with the options of every manifest that is read (`Settings.InRange.checkOptions`),
and they are in force then. Of two of them zero counts as not set: a manifest that sets the division
scale or the number of suggestions to zero gets the default (`Settings.effective`). What a session
does after that never changes these two (`Machine.Comes.inForce`). So on every machine that comes
about quotients keep to the scale, and messages offer no more names than the number of suggestions
allows (`configured_options_take_effect`).
-/

set_option autoImplicit false

namespace TreeScript

/-! ### Suggestions -/

namespace Suggestion

variable (name : String) (candidates : List String) (limit : Nat)

theorem length_suggest_le : (suggest name candidates limit).length ≤ limit :=
  List.length_take_le ..

/-- Only candidates are suggested. -/
theorem mem_of_mem_suggest {offered : String} (h : offered ∈ suggest name candidates limit) :
    offered ∈ candidates := by
  obtain ⟨⟨_, likeness⟩, hranked, rfl⟩ := List.mem_map.mp (List.mem_of_mem_take h)
  obtain ⟨candidate, hknown, hsame⟩ := List.mem_map.mp (List.mem_mergeSort.mp hranked)
  obtain ⟨rfl, -⟩ := Prod.mk.inj hsame
  have hdistinct := List.mem_eraseDups.mp (List.mem_mergeSort.mp hknown)
  exact (List.mem_filter.mp hdistinct).1

end Suggestion

/-- The message about a name that cannot be resolved, with the names that are offered for it. -/
def Machine.offering (m : Machine) (origin : Node) (name : String) (previous : Option CellRef)
    (offered : List String) : String :=
  "Cannot resolve symbol '" ++ name ++ "' on [" ++ origin.code ++ "]" ++
    (match previous with
      | some cell => "\nEvaluation stopped at value: " ++ m.display cell
      | none => "") ++
    if offered.isEmpty then ""
    else "\nDid you mean " ++ Node.commas (offered.map fun name => "'" ++ name ++ "'") ++ "?"

/-! ### What the settings say -/

/-- What a machine does under a division scale and a number of suggestions. All numbers within a
quotient keep to the scale, be it that of an expression or that of an assignment, and a message
about a name that cannot be resolved offers at most so many names, all of which are known. -/
structure Machine.Obeys (scale suggestions : Int) (m : Machine) : Prop where
  quotient : ∀ (n : Nat) (site : Site) (args : List CellRef) (z : CellRef) (k : Machine),
    (interp n).applyOperator site "/" .infixOp args m = .ok z k → k.Fits scale z
  expression : ∀ (n : Nat) (site : Site) (mode : Mode) (operands : List Node) (result : Completion)
    (k : Machine), (interp n).eval site mode (.operation "/" .infixOp operands) m = .ok result k →
      k.Fits scale result.value
  message : ∀ (origin : Node) (name : String) (previous : Option CellRef) (context : ContextRef),
    ∃ offered : List String, offered.length ≤ suggestions ∧
      (∀ other ∈ offered, other ∈ m.candidateNames previous context) ∧
      m.unresolvedMessage origin name previous context = m.offering origin name previous offered

/-- Assumes: a scale and a number of suggestions that are in range. A machine on which they are in
force obeys them. -/
theorem Machine.InForce.obeys {m : Machine} {scale suggestions : Int}
    (h : m.InForce scale suggestions) (hscale : 0 < scale) (hsuggestions : 0 ≤ suggestions) :
    m.Obeys scale suggestions := by
  have hrounded : Call.effectiveScale scale = scale := if_neg (by omega)
  refine ⟨fun n site args z k hz ↦ ?_, fun n site mode operands result k hresult ↦ ?_,
    fun origin name previous context ↦ ?_⟩
  · rw [← hrounded]
    exact applyOperator_fits args m h z k hz
  · rw [← hrounded]
    exact eval_operation_fits n site mode operands m h result k hresult
  · refine ⟨Suggestion.suggest name (m.candidateNames previous context) suggestions.toNat, ?_,
      fun other ↦ Suggestion.mem_of_mem_suggest _ _ _, ?_⟩
    · have hlength := Suggestion.length_suggest_le name (m.candidateNames previous context)
        suggestions.toNat
      omega
    · rw [← h.suggestions]
      rfl

/-- A machine comes about from another one by what a host has a session do, other than setting the
options, by evaluations and calls anywhere, and by whatever else leaves the options as they are. -/
inductive Machine.Comes (m₀ : Machine) : Machine → Prop
  | start : Comes m₀ m₀
  | step {m : Machine} (step : Session.HostStep)
    (hstep : ∀ options, step ≠ .request (.configure options)) (h : Comes m₀ m) :
    Comes m₀ (step.leaves m)
  | eval {m : Machine} (n : Nat) (site : Site) (mode : Mode) (node : Node) (h : Comes m₀ m) :
    Comes m₀ (Outcome.final ((interp n).eval site mode node m))
  | call {m : Machine} (n : Nat) (site : Site) (name : String) (preparation : Preparation)
    (function : CellRef) (args : List CellRef) (h : Comes m₀ m) :
    Comes m₀ (Outcome.final ((interp n).call site name preparation function args m))
  | other {m n : Machine} (hoptions : n.options = m.options) (h : Comes m₀ m) : Comes m₀ n

/-- A step of a host that does not set the options keeps settings in force. -/
theorem Session.HostStep.inForce {m : Machine} {scale suggestions : Int} (step : HostStep)
    (hstep : ∀ options, step ≠ .request (.configure options)) (h : m.InForce scale suggestions) :
    (step.leaves m).InForce scale suggestions := by
  cases step with
  | request asked =>
    refine ((kept_inForce scale suggestions).request asked fun options hsets ↦ ?_).final h
    exact absurd (congrArg HostStep.request hsets) (hstep options)
  | call source function args =>
    exact ((kept_inForce scale suggestions).callFunction source function args).final h

/-- Settings that are in force stay so on all machines that come about. -/
theorem Machine.Comes.inForce {m₀ m : Machine} {scale suggestions : Int} (h : m₀.Comes m)
    (hstart : m₀.InForce scale suggestions) : m.InForce scale suggestions := by
  induction h with
  | start => exact hstart
  | step step hstep _ ih => exact step.inForce hstep ih
  | eval n site mode node _ ih => exact (inForce_eval n site mode node).final ih
  | call n site name preparation function args _ ih =>
    exact (inForce_call n site name preparation function args).final ih
  | other hoptions _ ih => exact InForce.of_options ih hoptions

/-! ### Manifests -/

namespace Project

/-- The options that are in force after a session has started with these settings. A division scale
or a number of suggestions that is zero counts as not set. -/
def Settings.effective (s : Settings) : Options :=
  { s.options with
    divisionScale := if s.divisionScale = 0 then defaultDivisionScale else s.divisionScale
    suggestions :=
      if s.suggestions.getD 0 = 0 then Session.defaultSuggestions else s.suggestions.getD 0 }

/-- Settings in range: those of which nothing is wrong. -/
structure Settings.InRange (s : Settings) : Prop where
  scale : 0 ≤ s.divisionScale ∧ s.divisionScale ≤ maxDivisionScale
  suggestions : 0 ≤ s.suggestions.getD 0
  trace : 0 ≤ s.trace ∧ s.trace ≤ Native.maxTraceStyle

/-- Settings of which nothing is wrong are in range. -/
theorem Settings.inRange_of_issues {s : Settings} (h : s.issues = []) : s.InRange := by
  have hnone {p : Prop} [Decidable p] {issue : Issue} (hempty : (if p then [issue] else []) = []) :
      ¬p := by
    rintro hp
    rw [if_pos hp] at hempty
    cases hempty
  unfold issues at h
  rw [List.append_eq_nil_iff, List.append_eq_nil_iff] at h
  obtain ⟨⟨hscale, hsuggestions⟩, htrace⟩ := h
  have hscale := hnone hscale
  have htrace := hnone htrace
  refine ⟨by omega, ?_, by omega⟩
  cases hset : s.suggestions with
  | none => exact Int.le_refl 0
  | some n =>
    rw [hset] at hsuggestions
    exact Int.not_lt.mp (hnone hsuggestions)

/-- The settings of a manifest that is read are in range. -/
theorem Manifest.inRange {path text : String} {manifest : Manifest}
    (hparse : Manifest.parse path text = .ok manifest) : manifest.settings.InRange := by
  unfold Manifest.parse at hparse
  split at hparse
  · cases hparse
  · cases hparse
  · split at hparse
    · cases hparse
    · split at hparse
      · rename_i hissues
        cases hparse
        rw [List.isEmpty_iff] at hissues
        unfold Manifest.issues at hissues
        rw [List.append_eq_nil_iff, List.append_eq_nil_iff] at hissues
        exact Settings.inRange_of_issues hissues.1.2
      · cases hparse

namespace Settings.InRange

variable {s : Settings}

theorem scale_pos (h : s.InRange) : 0 < s.effective.divisionScale := by
  have hscale := h.scale
  unfold effective
  dsimp only
  split
  · decide
  · omega

theorem suggestions_nonneg (h : s.InRange) : 0 ≤ s.effective.suggestions := by
  have hsuggestions := h.suggestions
  unfold effective
  dsimp only
  split
  · decide
  · exact hsuggestions

/-- Options in range pass the check. -/
theorem checkOptions (h : s.InRange) : Session.checkOptions s.options = .ok s.effective := by
  have hscale : divisionScaleIssue? (if s.options.divisionScale = 0 then
      (defaultDivisionScale : Int) else s.options.divisionScale) = none := by
    have hbound : s.effective.divisionScale ≤ maxDivisionScale := by
      unfold effective
      dsimp only
      split
      · decide
      · exact h.scale.2
    exact if_neg (not_or.mpr ⟨Int.not_lt.mpr (Int.le_of_lt h.scale_pos), Int.not_lt.mpr hbound⟩)
  have hsuggestions : ¬(if s.options.suggestions = 0 then Session.defaultSuggestions
      else s.options.suggestions) < 0 := Int.not_lt.mpr h.suggestions_nonneg
  have htrace : ¬(s.options.trace < 0 ∨ Native.maxTraceStyle < s.options.trace) := by
    have htrace := h.trace
    change ¬(s.trace < 0 ∨ Native.maxTraceStyle < s.trace)
    omega
  unfold Session.checkOptions
  dsimp only
  rw [hscale, if_neg hsuggestions, if_neg htrace]
  rfl

end Settings.InRange

end Project

/-- A session starts with the options of every manifest that is read, and all of them are in force
then, except that zero counts as a division scale or a number of suggestions that is not set. On
every machine that comes about after that, quotients have at most as many fractional digits as the
division scale says, and messages offer at most as many names as there may be suggestions. -/
theorem configured_options_take_effect {path text : String} {manifest : Project.Manifest}
    (hparse : Project.Manifest.parse path text = .ok manifest) (level : LogLevel) :
    ∃ m₀, Session.start manifest.settings.options { logLevel := level } = .ok () m₀ ∧
      m₀.options = manifest.settings.effective ∧
      ∀ m, m₀.Comes m → m.Obeys manifest.settings.effective.divisionScale
        manifest.settings.effective.suggestions := by
  have hrange := Project.Manifest.inRange hparse
  obtain ⟨m₀, hstart, hoptions⟩ := Session.start_succeeds hrange.checkOptions level
  refine ⟨m₀, hstart, hoptions, fun m hm ↦ ?_⟩
  have hforce : m₀.InForce manifest.settings.effective.divisionScale
      manifest.settings.effective.suggestions := by
    constructor <;> rw [hoptions]
  exact (hm.inForce hforce).obeys hrange.scale_pos hrange.suggestions_nonneg

/-- A manifest that asks for five digits and no suggestions gets the five digits, but three
suggestions. -/
theorem no_suggestions_count_as_unset :
    ∃ manifest, Project.Manifest.parse "menter.yml"
        "name: t\nentry: main.json\noptions:\n  division_scale: 5\n  suggestions: 0\n" = .ok manifest ∧
      manifest.settings.suggestions = some 0 ∧
      ∃ m₀, Session.start manifest.settings.options { logLevel := .error } = .ok () m₀ ∧
        ∀ m, m₀.Comes m → m.Obeys 5 3 := by
  have hread : (Project.Manifest.parse "menter.yml"
      "name: t\nentry: main.json\noptions:\n  division_scale: 5\n  suggestions: 0\n").toOption.any
        (fun manifest ↦ decide (manifest.settings.suggestions = some 0 ∧
          manifest.settings.effective.divisionScale = 5 ∧
          manifest.settings.effective.suggestions = 3)) = true := by decide +kernel
  generalize hparse : Project.Manifest.parse "menter.yml" _ = parsed at hread ⊢
  cases parsed with
  | error _ => cases hread
  | ok manifest =>
    obtain ⟨hset, hscale, hsuggestions⟩ := of_decide_eq_true hread
    obtain ⟨m₀, hstart, -, hobeys⟩ := configured_options_take_effect hparse .error
    rw [hscale, hsuggestions] at hobeys
    exact ⟨manifest, rfl, hset, m₀, hstart, hobeys⟩

end TreeScript
