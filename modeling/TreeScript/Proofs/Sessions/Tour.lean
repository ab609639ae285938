import Mathlib.Logic.Relation
import TreeScript.Proofs.Comparison.Twins
import TreeScript.Proofs.Sources

/-!
# Tours through the sources

A session evaluates sources one after the other, each of them after the sources it depends on. A
`Tour` spells out how that goes, without fuel: sources that have been evaluated or are being
evaluated are passed by, and for the others come first the sources they depend on and then their own
body. The bodies are listed in the order they are run in, each with the machine it began on and how
it ended (`BodyRun`). Running a body changes nothing about the sources
(`evaluateStatements_sameSources`), so bodies do not overlap, and the only thing a tour changes
about the sources is which of them count as evaluated (`Tour.advances`, `Tour.evaluated_iff`).

From this follows in which order the bodies are run. No body is run twice (`Tour.nodup`), and only
those of sources that the tour was asked for, or that these depend on (`Tour.dependsOn`). When a
body begins, each source it depends on counts as evaluated or is being evaluated (`Tour.ready`), and
the latter are sources that depend on it in turn (`Tour.stack`). When a tour has succeeded, all that
its sources depend on counts as evaluated (`Tour.reached`).
-/

set_option autoImplicit false

namespace TreeScript

/-! ### Running statements -/

/-- Runs during which it is followed that the sources stay as they are. -/
def Tracking.sources : Tracking where
  Inv _ := True
  Later := Machine.SameSources
  Sites _ s s' := s.Alike s'
  avoided _ := false
  later_refl := .refl
  later_trans := .trans
  inv_later _ _ := trivial
  sites_later _ h := h
  sites_alike h := h
  untouched _ h _ := h
  withScope _ _ := rfl
  sites_fork := Tracking.nothing.sites_fork
  sites_open _ trace' _ _ _ := .retraced trace'
  bound _ _ _ _ hnew := .trans hnew.sources rfl
  boundReceiver _ _ _ := rfl
  rebound _ _ _ _ hnew := .trans hnew.sources rfl
  unbound _ _ _ _ := rfl
  lastSite := Tracking.nothing.lastSite

/-- However an evaluation ends, the sources are as before. -/
theorem evaluation_sameSources (n : Nat) (site : Site) (mode : Mode) (node : Node) (m : Machine) :
    m.SameSources (Outcome.final ((interp n).eval site mode node m)) := by
  have hevaluates : Tracking.sources.comparison.Evaluates (interp n) := by
    rw [← interpAvoiding_nothing n]
    exact Tracking.sources.comparison.evaluates_interpAvoiding n
  have hsites : Tracking.sources.comparison.Sites m site site := .retraced site.frame.trace
  exact ((hevaluates.eval mode node hsites).now ⟨.refl m, trivial⟩).later

namespace Session

open Lookup

/-- However statements end that are run in a source, the sources are as before. -/
theorem evaluateStatements_sameSources (context : ContextRef) (statements : List Node)
    (m : Machine) : m.SameSources (Outcome.final (evaluateStatements context statements m)) := by
  let site : Site := { context, frame := (m.context context).frame }
  have hsame := evaluation_sameSources fuel site .required (.root statements) m
  unfold evaluateStatements
  rw [Run.get_bind]
  cases heval : (interp fuel).eval site .required (.root statements) m with
  | ok result n =>
    rw [heval] at hsame
    rw [Run.bind_ok heval]
    split
    · exact hsame
    · exact hsame
  | error e n =>
    rw [heval] at hsame
    rw [Run.bind_error heval]
    exact hsame

end Session

/-! ### What becomes of the sources -/

namespace Machine

open Session.Lookup

/-- A source that counts as evaluated or is being evaluated. -/
def Entered (m : Machine) (context : ContextRef) : Prop :=
  (m.context context).evaluated = true ∨ context ∈ m.evaluating

/-- A source comes to another one by going from a source to one it depends on, any number of
times. -/
def DependsOn (m : Machine) : ContextRef → ContextRef → Prop :=
  Relation.ReflTransGen fun a b ↦ b ∈ dependencies m a

/-- A machine on which a source has begun to be evaluated. -/
def opening (m : Machine) (context : ContextRef) : Machine :=
  { m with evaluating := context :: m.evaluating }

/-- A machine on which a source is no longer being evaluated. -/
def closing (m : Machine) (context : ContextRef) : Machine :=
  { m with evaluating := m.evaluating.filter (· ≠ context) }

/-- The machine on which the body of a source begins, which counts as evaluated from then on. -/
def starting (m : Machine) (context : ContextRef) : Machine :=
  (Outcome.final (logVerbose ("evaluating " ++ (m.context context).source) m)).withContext context
    fun c ↦ { c with evaluated := true }

/-- A machine has become another, and nothing about the sources has changed but that some of them
now count as evaluated. -/
structure Advances (m n : Machine) : Prop where
  size : n.contexts.size = m.contexts.size
  context : ∀ c, n.context c = { m.context c with evaluated := (n.context c).evaluated }
  evaluated : ∀ c, (m.context c).evaluated = true → (n.context c).evaluated = true
  loaded : n.loaded = m.loaded
  hostModules : n.hostModules = m.hostModules

variable {m n k : Machine} {c d : ContextRef}

namespace Advances

theorem of_sameSources (h : m.SameSources n) : m.Advances n where
  size := by rw [h.contexts]
  context c := by rw [h.context]
  evaluated c hc := by rwa [h.context]
  loaded := h.loaded
  hostModules := h.hostModules

theorem refl (m : Machine) : m.Advances m := of_sameSources (.refl m)

theorem trans (hmn : m.Advances n) (hnk : n.Advances k) : m.Advances k where
  size := hnk.size.trans hmn.size
  context c := by rw [hnk.context, hmn.context]
  evaluated c hc := hnk.evaluated c (hmn.evaluated c hc)
  loaded := hnk.loaded.trans hmn.loaded
  hostModules := hnk.hostModules.trans hmn.hostModules

/-- Which sources are being evaluated does not matter. -/
theorem marked (h : m.Advances n) (evaluating evaluating' : List ContextRef) :
    ({ m with evaluating } : Machine).Advances { n with evaluating := evaluating' } :=
  ⟨h.size, h.context, h.evaluated, h.loaded, h.hostModules⟩

theorem body (h : m.Advances n) (c : ContextRef) : (n.context c).body = (m.context c).body := by
  rw [h.context]

theorem dependencies (h : m.Advances n) (c : ContextRef) :
    dependencies n c = dependencies m c := by
  unfold Session.Lookup.dependencies
  rw [h.context]

theorem dependsOn_iff (h : m.Advances n) : n.DependsOn c d ↔ m.DependsOn c d := by
  have hsame : (fun a b ↦ b ∈ Session.Lookup.dependencies n a) =
      fun a b ↦ b ∈ Session.Lookup.dependencies m a := by
    funext a b
    rw [h.dependencies]
  unfold DependsOn
  rw [hsame]

theorem entered (h : m.Advances n) (hevaluating : n.evaluating = m.evaluating)
    (hc : m.Entered c) : n.Entered c := by
  rcases hc with hc | hc
  · exact .inl (h.evaluated c hc)
  · exact .inr (hevaluating ▸ hc)

end Advances

/-- The log is all that the announcement of a body changes. -/
theorem sameSources_logVerbose (text : String) (m : Machine) :
    m.SameSources (Outcome.final (logVerbose text m)) := by
  change m.SameSources (if m.logLevel = .verbose then _ else m)
  split
  · rfl
  · rfl

/-- Assumes: a source that exists. When its body begins, it and no other source has come to count as
evaluated. -/
theorem context_starting (hexists : c.index < m.contexts.size) (d : ContextRef) :
    (m.starting c).context d =
      if d = c then { m.context c with evaluated := true } else m.context d := by
  have hlogged := sameSources_logVerbose ("evaluating " ++ (m.context c).source) m
  unfold starting
  rw [context_withContext (by rwa [hlogged.contexts]), hlogged.context, hlogged.context]

theorem evaluating_starting (m : Machine) (c : ContextRef) :
    (m.starting c).evaluating = m.evaluating :=
  (sameSources_logVerbose _ m).evaluating

theorem advances_starting (hexists : c.index < m.contexts.size) : m.Advances (m.starting c) := by
  have hlogged := sameSources_logVerbose ("evaluating " ++ (m.context c).source) m
  constructor
  · unfold starting withContext
    rw [Array.size_modify, hlogged.contexts]
  · intro d
    rw [context_starting hexists]
    split
    · rename_i hsame
      rw [hsame]
    · rfl
  · intro d hd
    rw [context_starting hexists]
    split
    · rfl
    · exact hd
  · exact hlogged.loaded
  · exact hlogged.hostModules

/-- Assumes: a source that exists. Those that count as evaluated when its body begins did so before,
but for itself. -/
theorem evaluated_starting_iff (hexists : c.index < m.contexts.size) :
    ((m.starting c).context d).evaluated = true ↔ (m.context d).evaluated = true ∨ d = c := by
  rw [context_starting hexists]
  by_cases hsame : d = c
  · simp [hsame]
  · simp [hsame]

/-- Assumes: a source that is not being evaluated. Opening and closing it undo each other. -/
theorem evaluating_closing {evaluating : List ContextRef} (h : n.evaluating = c :: evaluating)
    (hidle : c ∉ evaluating) : (n.closing c).evaluating = evaluating := by
  unfold closing
  rw [h]
  simp only [ne_eq, decide_not, List.filter_cons, decide_true, Bool.not_true, Bool.false_eq_true,
    if_false]
  exact List.filter_eq_self.mpr fun d hd ↦ by
    have hother : d ≠ c := fun h ↦ hidle (h ▸ hd)
    simp [hother]

end Machine

namespace Session

open Lookup

/-! ### Tours -/

/-- A body that has been run: whose it is, the machine it began on, and how it ended. -/
structure BodyRun where
  context : ContextRef
  start : Machine
  outcome : Outcome CellRef

namespace BodyRun

/-- A body that came to its end. -/
def Completed (run : BodyRun) : Prop := ∃ cell m, run.outcome = .ok cell m

end BodyRun

/-- The machine on which a tour goes on behind a source that it passes by. Nothing happens where the
sources come from the list of all that are loaded; elsewhere an empty value stands for the
source. -/
def passing (listed : Bool) (m : Machine) : Machine := if listed then m else m.withCell .empty

/-- A tour through some sources: the bodies that are run, and how the tour ends. It ends where a
body fails. -/
inductive Tour : Bool → List ContextRef → Machine → List BodyRun → Outcome Unit → Prop
  | nil {listed : Bool} {m : Machine} : Tour listed [] m [] (.ok () m)
  | pass {listed : Bool} {c : ContextRef} {cs : List ContextRef} {m : Machine} {runs : List BodyRun}
      {o : Outcome Unit} (hentered : m.Entered c) (hrest : Tour listed cs (passing listed m) runs o) :
      Tour listed (c :: cs) m runs o
  | run {listed : Bool} {c : ContextRef} {cs : List ContextRef} {m n k : Machine}
      {runs later : List BodyRun} {cell : CellRef} {o : Outcome Unit}
      (hexists : c.index < m.contexts.size) (hnew : ¬m.Entered c)
      (hbefore : Tour false (dependencies m c) (m.opening c) runs (.ok () n))
      (hbody : evaluateStatements c (n.context c).body (n.starting c) = .ok cell k)
      (hrest : Tour listed cs (k.closing c) later o) :
      Tour listed (c :: cs) m (runs ++ ⟨c, n.starting c, .ok cell k⟩ :: later) o
  | failBefore {listed : Bool} {c : ContextRef} {cs : List ContextRef} {m n : Machine}
      {runs : List BodyRun} {e : Failure}
      (hexists : c.index < m.contexts.size) (hnew : ¬m.Entered c)
      (hbefore : Tour false (dependencies m c) (m.opening c) runs (.error e n)) :
      Tour listed (c :: cs) m runs (.error e (n.closing c))
  | fail {listed : Bool} {c : ContextRef} {cs : List ContextRef} {m n k : Machine}
      {runs : List BodyRun} {e : Failure}
      (hexists : c.index < m.contexts.size) (hnew : ¬m.Entered c)
      (hbefore : Tour false (dependencies m c) (m.opening c) runs (.ok () n))
      (hbody : evaluateStatements c (n.context c).body (n.starting c) = .error e k) :
      Tour listed (c :: cs) m (runs ++ [⟨c, n.starting c, .error e k⟩]) (.error e (k.closing c))

theorem sameSources_passing (listed : Bool) (m : Machine) : m.SameSources (passing listed m) := by
  unfold passing
  split
  · rfl
  · rfl

/-- A place in two lists, one behind the other, is in the first or in the second. -/
theorem split_of_append {α : Type} {first second before after : List α} {a : α}
    (h : first ++ second = before ++ a :: after) :
    (∃ rest, first = before ++ a :: rest) ∨
      ∃ between, before = first ++ between ∧ second = between ++ a :: after := by
  rcases List.append_eq_append_iff.mp h with ⟨between, hbefore, hsecond⟩ | ⟨rest, hfirst, hafter⟩
  · exact .inr ⟨between, hbefore, hsecond⟩
  · rcases List.cons_eq_append_iff.mp hafter with ⟨rfl, hsecond⟩ | ⟨rest, rfl, -⟩
    · exact .inr ⟨[], by rw [hfirst, List.append_nil, List.append_nil], hsecond⟩
    · exact .inl ⟨rest, hfirst⟩

namespace Tour

variable {listed : Bool} {c d : ContextRef} {cs : List ContextRef} {m n k : Machine}
  {runs : List BodyRun} {o : Outcome Unit}

/-! ### What a tour changes -/

theorem advances_opening (m : Machine) (c : ContextRef) : m.Advances (m.opening c) :=
  (Machine.Advances.refl m).marked m.evaluating (c :: m.evaluating)

theorem advances_closing (m : Machine) (c : ContextRef) : m.Advances (m.closing c) :=
  (Machine.Advances.refl m).marked m.evaluating _

/-- Statements that have been run leave the sources as they are. -/
theorem sameSources_body {statements : List Node} {o : Outcome CellRef}
    (hbody : evaluateStatements c statements m = o) : m.SameSources (Outcome.final o) := by
  rw [← hbody]
  exact evaluateStatements_sameSources c statements m

section Body

/-! A source that exists is opened, the sources it depends on are gone through, and its body is
run. -/

variable {statements : List Node} {ended : Outcome CellRef}
  (hexists : c.index < m.contexts.size) (hbefore : (m.opening c).Advances n)
  (hbody : evaluateStatements c statements (n.starting c) = ended)

include hexists hbefore

/-- Where the body begins, nothing about the sources has changed but that some count as
evaluated. -/
theorem advances_begun : m.Advances (n.starting c) := by
  have hstarting : n.Advances (n.starting c) :=
    Machine.advances_starting (by rw [hbefore.size]; exact hexists)
  exact (advances_opening m c).trans (hbefore.trans hstarting)

include hbody

/-- Where the source is closed, nothing else has changed about the sources. -/
theorem advances_ended : m.Advances ((Outcome.final ended).closing c) :=
  (advances_begun hexists hbefore).trans
    ((Machine.Advances.of_sameSources (sameSources_body hbody)).trans (advances_closing _ c))

/-- Where the source is closed, it counts as evaluated and so do those that did before its body. -/
theorem evaluated_ended_iff :
    (((Outcome.final ended).closing c).context d).evaluated = true ↔
      (n.context d).evaluated = true ∨ d = c := by
  have hended : ((Outcome.final ended).closing c).context d = (n.starting c).context d :=
    (sameSources_body hbody).context d
  rw [hended, Machine.evaluated_starting_iff (by rw [hbefore.size]; exact hexists)]

omit hexists hbefore in
/-- Where the source is closed, the same sources are being evaluated as before it was opened. -/
theorem evaluating_ended (hnew : ¬m.Entered c) (hopen : n.evaluating = c :: m.evaluating) :
    ((Outcome.final ended).closing c).evaluating = m.evaluating := by
  have hended : (Outcome.final ended).evaluating = c :: m.evaluating :=
    (sameSources_body hbody).evaluating.trans ((n.evaluating_starting c).trans hopen)
  exact Machine.evaluating_closing hended fun h ↦ hnew (.inr h)

end Body

/-- A tour changes nothing about the sources but that some of them come to count as evaluated. -/
theorem advances (h : Tour listed cs m runs o) : m.Advances (Outcome.final o) := by
  induction h with
  | nil => exact .refl _
  | pass _ _ ih => exact (Machine.Advances.of_sameSources (sameSources_passing _ _)).trans ih
  | run hexists _ _ hbody _ ihbefore ihrest =>
    exact (advances_ended hexists ihbefore hbody).trans ihrest
  | failBefore _ _ _ ihbefore =>
    exact (advances_opening _ _).trans (ihbefore.trans (advances_closing _ _))
  | fail hexists _ _ hbody ihbefore => exact advances_ended hexists ihbefore hbody

/-- When a tour has ended, the same sources are being evaluated as before. -/
theorem evaluating (h : Tour listed cs m runs o) :
    (Outcome.final o).evaluating = m.evaluating := by
  induction h with
  | nil => rfl
  | pass _ _ ih => exact ih.trans (sameSources_passing _ _).evaluating
  | run _ hnew _ hbody _ ihbefore ihrest => exact ihrest.trans (evaluating_ended hbody hnew ihbefore)
  | failBefore _ hnew _ ihbefore =>
    exact Machine.evaluating_closing ihbefore fun h ↦ hnew (.inr h)
  | fail _ hnew _ hbody ihbefore => exact evaluating_ended hbody hnew ihbefore

/-- What is entered when a tour begins is entered when it ends. -/
theorem entered (h : Tour listed cs m runs o) (hc : m.Entered c) : (Outcome.final o).Entered c :=
  h.advances.entered h.evaluating hc

theorem entered_passing (listed : Bool) (hc : m.Entered c) : (passing listed m).Entered c :=
  (Machine.Advances.of_sameSources (sameSources_passing listed m)).entered
    (sameSources_passing listed m).evaluating hc

/-- The sources that come to count as evaluated are those whose bodies are run. -/
theorem evaluated_iff (h : Tour listed cs m runs o) (d : ContextRef) :
    ((Outcome.final o).context d).evaluated = true ↔
      (m.context d).evaluated = true ∨ d ∈ runs.map (·.context) := by
  induction h with
  | nil => simp [Outcome.final]
  | pass _ _ ih => rw [ih, (sameSources_passing _ _).context]
  | @run _ c _ m n k _ _ _ _ hexists _ hbefore hbody _ ihbefore ihrest =>
    have hopened : (n.context d).evaluated = true ↔ _ := ihbefore
    have hopening : (m.opening c).context d = m.context d := rfl
    have hended :
        ((k.closing c).context d).evaluated = true ↔ (n.context d).evaluated = true ∨ d = c :=
      evaluated_ended_iff hexists hbefore.advances hbody
    rw [ihrest, hended, hopened, hopening]
    simp only [List.map_append, List.map_cons, List.mem_append, List.mem_cons, or_assoc]
  | failBefore _ _ _ ihbefore => exact ihbefore
  | @fail _ c _ m n k _ _ hexists _ hbefore hbody ihbefore =>
    have hopened : (n.context d).evaluated = true ↔ _ := ihbefore
    have hopening : (m.opening c).context d = m.context d := rfl
    have hended :
        ((k.closing c).context d).evaluated = true ↔ (n.context d).evaluated = true ∨ d = c :=
      evaluated_ended_iff hexists hbefore.advances hbody
    refine hended.trans ?_
    rw [hopened, hopening]
    simp only [List.map_append, List.map_cons, List.map_nil, List.mem_append, List.mem_singleton,
      or_assoc]

/-! ### Which bodies are run -/

/-- The sources whose bodies are run have not been entered when the tour begins. -/
theorem not_entered (h : Tour listed cs m runs o) : ∀ d ∈ runs.map (·.context), ¬m.Entered d := by
  have hopening {m : Machine} {c d : ContextRef} (hd : ¬(m.opening c).Entered d) : ¬m.Entered d :=
    fun h ↦ hd (h.imp_right (List.mem_cons_of_mem c))
  induction h with
  | nil => simp
  | pass _ _ ih => exact fun d hd hentered ↦ ih d hd (entered_passing _ hentered)
  | run hexists hnew hbefore hbody _ ihbefore ihrest =>
    intro d hd
    simp only [List.map_append, List.map_cons, List.mem_append, List.mem_cons] at hd
    rcases hd with hd | rfl | hd
    · exact hopening (ihbefore d hd)
    · exact hnew
    · have hadvances := advances_ended hexists hbefore.advances hbody
      have hevaluating := evaluating_ended hbody hnew hbefore.evaluating
      exact fun hentered ↦ ihrest d hd (hadvances.entered hevaluating hentered)
  | failBefore _ _ _ ihbefore => exact fun d hd ↦ hopening (ihbefore d hd)
  | fail _ hnew _ _ ihbefore =>
    intro d hd
    simp only [List.map_append, List.map_cons, List.map_nil, List.mem_append,
      List.mem_singleton] at hd
    rcases hd with hd | rfl
    · exact hopening (ihbefore d hd)
    · exact hnew

/-- No body is run twice. -/
theorem nodup (h : Tour listed cs m runs o) : (runs.map (·.context)).Nodup := by
  -- A source is being evaluated while those it depends on are gone through.
  have hself {c : ContextRef} {m : Machine} {runs : List BodyRun} {o : Outcome Unit}
      (hbefore : Tour false (dependencies m c) (m.opening c) runs o) :
      c ∉ runs.map (·.context) :=
    fun hc ↦ hbefore.not_entered c hc (.inr (List.mem_cons_self ..))
  induction h with
  | nil => exact List.nodup_nil
  | pass _ _ ih => exact ih
  | @run _ c _ _ _ _ _ _ _ _ hexists _ hbefore hbody hrest ihbefore ihrest =>
    have hended (d : ContextRef) := evaluated_ended_iff (d := d) hexists hbefore.advances hbody
    rw [List.map_append, List.map_cons]
    refine List.nodup_append.mpr ⟨ihbefore, List.nodup_cons.mpr ⟨fun hc ↦ ?_, ihrest⟩, ?_⟩
    · exact hrest.not_entered c hc (.inl ((hended c).mpr (.inr rfl)))
    · rintro d hd other hother rfl
      rcases List.mem_cons.mp hother with rfl | hother
      · exact hself hbefore hd
      · refine hrest.not_entered d hother (.inl ((hended d).mpr (.inl ?_)))
        exact (hbefore.evaluated_iff d).mpr (.inr hd)
  | failBefore _ _ _ ihbefore => exact ihbefore
  | @fail _ c _ _ _ _ _ _ _ _ hbefore _ ihbefore =>
    have hlast : ([c] : List ContextRef).Nodup := by simp
    rw [List.map_append, List.map_cons, List.map_nil]
    refine List.nodup_append.mpr ⟨ihbefore, hlast, ?_⟩
    rintro d hd other hother rfl
    rw [List.mem_singleton.mp hother] at hd
    exact hself hbefore hd

/-- The bodies that are run are those of sources the tour goes through, and of sources these depend
on. -/
theorem dependsOn (h : Tour listed cs m runs o) :
    ∀ d ∈ runs.map (·.context), ∃ c ∈ cs, m.DependsOn c d := by
  have hopened {c d : ContextRef} {m : Machine}
      (hd : ∃ x ∈ dependencies m c, (m.opening c).DependsOn x d) : m.DependsOn c d := by
    obtain ⟨x, hx, hd⟩ := hd
    exact Relation.ReflTransGen.head hx ((advances_opening m c).dependsOn_iff.mp hd)
  have hlater {c d : ContextRef} {cs : List ContextRef} {m n : Machine} (hadvances : m.Advances n)
      (hd : ∃ x ∈ cs, n.DependsOn x d) : ∃ x ∈ c :: cs, m.DependsOn x d := by
    obtain ⟨x, hx, hd⟩ := hd
    exact ⟨x, List.mem_cons_of_mem c hx, hadvances.dependsOn_iff.mp hd⟩
  induction h with
  | nil => simp
  | pass _ _ ih =>
    exact fun d hd ↦ hlater (.of_sameSources (sameSources_passing _ _)) (ih d hd)
  | run hexists _ hbefore hbody _ ihbefore ihrest =>
    intro d hd
    simp only [List.map_append, List.map_cons, List.mem_append, List.mem_cons] at hd
    rcases hd with hd | rfl | hd
    · exact ⟨_, List.mem_cons_self .., hopened (ihbefore d hd)⟩
    · exact ⟨_, List.mem_cons_self .., .refl⟩
    · exact hlater (advances_ended hexists hbefore.advances hbody) (ihrest d hd)
  | failBefore _ _ _ ihbefore =>
    exact fun d hd ↦ ⟨_, List.mem_cons_self .., hopened (ihbefore d hd)⟩
  | fail _ _ _ _ ihbefore =>
    intro d hd
    simp only [List.map_append, List.map_cons, List.map_nil, List.mem_append,
      List.mem_singleton] at hd
    rcases hd with hd | rfl
    · exact ⟨_, List.mem_cons_self .., hopened (ihbefore d hd)⟩
    · exact ⟨_, List.mem_cons_self .., .refl⟩

/-- A tour that succeeds enters all the sources it goes through. -/
theorem covers (h : Tour listed cs m runs o) (hok : o = .ok () n) : ∀ c ∈ cs, n.Entered c := by
  induction h with
  | nil => exact fun _ hc ↦ nomatch hc
  | pass hentered hrest ih =>
    intro c hc
    rcases List.mem_cons.mp hc with rfl | hc
    · have hlast := hrest.entered (entered_passing _ hentered)
      rwa [hok] at hlast
    · exact ih hok c hc
  | run hexists _ hbefore hbody hrest _ ihrest =>
    intro c hc
    rcases List.mem_cons.mp hc with rfl | hc
    · have hended := (evaluated_ended_iff hexists hbefore.advances hbody).mpr (.inr rfl)
      have hlast := hrest.entered (.inl hended)
      rwa [hok] at hlast
    · exact ihrest hok c hc
  | failBefore => cases hok
  | fail => cases hok

/-! ### How bodies are run -/

/-- Each body is run on the statements of its source, on a machine on which nothing about the
sources has changed but that some count as evaluated. -/
theorem begins (h : Tour listed cs m runs o) : ∀ run ∈ runs, m.Advances run.start ∧
    run.outcome = evaluateStatements run.context (m.context run.context).body run.start := by
  have hlater {m n : Machine} {run : BodyRun} (hadvances : m.Advances n)
      (hrun : n.Advances run.start ∧
        run.outcome = evaluateStatements run.context (n.context run.context).body run.start) :
      m.Advances run.start ∧
        run.outcome = evaluateStatements run.context (m.context run.context).body run.start := by
    rw [hadvances.body] at hrun
    exact ⟨hadvances.trans hrun.1, hrun.2⟩
  have hbegun {c : ContextRef} {m n : Machine} {ended : Outcome CellRef}
      (hexists : c.index < m.contexts.size) (hbefore : (m.opening c).Advances n)
      (hbody : evaluateStatements c (n.context c).body (n.starting c) = ended) :
      m.Advances (n.starting c) ∧
        ended = evaluateStatements c (m.context c).body (n.starting c) := by
    have hsame : (n.context c).body = (m.context c).body := hbefore.body c
    rw [hsame] at hbody
    exact ⟨advances_begun hexists hbefore, hbody.symm⟩
  induction h with
  | nil => exact fun _ hrun ↦ nomatch hrun
  | pass _ _ ih =>
    exact fun run hrun ↦ hlater (.of_sameSources (sameSources_passing _ _)) (ih run hrun)
  | run hexists _ hbefore hbody _ ihbefore ihrest =>
    intro run hrun
    rcases List.mem_append.mp hrun with hrun | hrun
    · exact hlater (advances_opening _ _) (ihbefore run hrun)
    · rcases List.mem_cons.mp hrun with rfl | hrun
      · exact hbegun hexists hbefore.advances hbody
      · exact hlater (advances_ended hexists hbefore.advances hbody) (ihrest run hrun)
  | failBefore _ _ _ ihbefore =>
    exact fun run hrun ↦ hlater (advances_opening _ _) (ihbefore run hrun)
  | fail hexists _ hbefore hbody ihbefore =>
    intro run hrun
    rcases List.mem_append.mp hrun with hrun | hrun
    · exact hlater (advances_opening _ _) (ihbefore run hrun)
    · rw [List.mem_singleton.mp hrun]
      exact hbegun hexists hbefore.advances hbody

/-- When a body begins, each source that its own depends on counts as evaluated or is being
evaluated. -/
theorem ready (h : Tour listed cs m runs o) :
    ∀ run ∈ runs, ∀ d ∈ dependencies m run.context, run.start.Entered d := by
  have hbegun {c d : ContextRef} {m n : Machine} {runs : List BodyRun}
      (hexists : c.index < m.contexts.size)
      (hbefore : Tour false (dependencies m c) (m.opening c) runs (.ok () n))
      (hd : d ∈ dependencies m c) : (n.starting c).Entered d := by
    have hopened : (m.opening c).Advances n := hbefore.advances
    have hstarting : n.Advances (n.starting c) :=
      Machine.advances_starting (by rw [hopened.size]; exact hexists)
    exact hstarting.entered (n.evaluating_starting c) (hbefore.covers rfl d hd)
  induction h with
  | nil => exact fun _ hrun ↦ nomatch hrun
  | @pass listed _ _ m _ _ _ _ ih =>
    have hsame := Machine.Advances.of_sameSources (sameSources_passing listed m)
    exact fun run hrun d hd ↦ ih run hrun d (by rwa [hsame.dependencies])
  | @run _ c _ m _ k _ _ _ _ hexists _ hbefore hbody _ ihbefore ihrest =>
    intro run hrun d hd
    rcases List.mem_append.mp hrun with hrun | hrun
    · exact ihbefore run hrun d hd
    · rcases List.mem_cons.mp hrun with rfl | hrun
      · exact hbegun hexists hbefore hd
      · have hadvances : m.Advances (k.closing c) :=
          advances_ended hexists hbefore.advances hbody
        exact ihrest run hrun d (by rwa [hadvances.dependencies])
  | failBefore _ _ _ ihbefore => exact fun run hrun d hd ↦ ihbefore run hrun d hd
  | fail hexists _ hbefore _ ihbefore =>
    intro run hrun d hd
    rcases List.mem_append.mp hrun with hrun | hrun
    · exact ihbefore run hrun d hd
    · rw [List.mem_singleton.mp hrun] at hd ⊢
      exact hbegun hexists hbefore hd

/-- Assumes: a tour through sources that all those depend on that are being evaluated. When a body
begins, all sources that are being evaluated depend on its source. -/
theorem stack (h : Tour listed cs m runs o)
    (hpath : ∀ x ∈ m.evaluating, ∀ c ∈ cs, m.DependsOn x c) :
    ∀ run ∈ runs, ∀ x ∈ run.start.evaluating, m.DependsOn x run.context := by
  -- The path to a source goes on to those it depends on.
  have hopened {c : ContextRef} {cs : List ContextRef} {m : Machine}
      (hpath : ∀ x ∈ m.evaluating, ∀ d ∈ c :: cs, m.DependsOn x d) :
      ∀ x ∈ (m.opening c).evaluating, ∀ d ∈ dependencies m c, (m.opening c).DependsOn x d := by
    intro x hx d hd
    rw [(advances_opening m c).dependsOn_iff]
    rcases List.mem_cons.mp hx with rfl | hx
    · exact Relation.ReflTransGen.single hd
    · exact (hpath x hx c (List.mem_cons_self ..)).tail hd
  have hbegun {c x : ContextRef} {cs : List ContextRef} {m n : Machine}
      (hpath : ∀ x ∈ m.evaluating, ∀ d ∈ c :: cs, m.DependsOn x d)
      (hopen : n.evaluating = c :: m.evaluating) (hx : x ∈ (n.starting c).evaluating) :
      m.DependsOn x c := by
    rw [n.evaluating_starting c, hopen] at hx
    rcases List.mem_cons.mp hx with rfl | hx
    · exact .refl
    · exact hpath x hx c (List.mem_cons_self ..)
  induction h with
  | nil => exact fun _ hrun ↦ nomatch hrun
  | @pass listed _ _ m _ _ _ _ ih =>
    intro run hrun x hx
    have hadvances := Machine.Advances.of_sameSources (sameSources_passing listed m)
    refine hadvances.dependsOn_iff.mp (ih (fun y hy d hd ↦ ?_) run hrun x hx)
    rw [(sameSources_passing listed m).evaluating] at hy
    exact hadvances.dependsOn_iff.mpr (hpath y hy d (List.mem_cons_of_mem _ hd))
  | run hexists hnew hbefore hbody _ ihbefore ihrest =>
    intro run hrun x hx
    rcases List.mem_append.mp hrun with hrun | hrun
    · exact (advances_opening _ _).dependsOn_iff.mp (ihbefore (hopened hpath) run hrun x hx)
    · rcases List.mem_cons.mp hrun with rfl | hrun
      · exact hbegun hpath hbefore.evaluating hx
      · have hadvances := advances_ended hexists hbefore.advances hbody
        refine hadvances.dependsOn_iff.mp (ihrest (fun y hy d hd ↦ ?_) run hrun x hx)
        have hy := evaluating_ended hbody hnew hbefore.evaluating ▸ hy
        exact hadvances.dependsOn_iff.mpr (hpath y hy d (List.mem_cons_of_mem _ hd))
  | failBefore _ _ _ ihbefore =>
    intro run hrun x hx
    exact (advances_opening _ _).dependsOn_iff.mp (ihbefore (hopened hpath) run hrun x hx)
  | fail _ _ hbefore _ ihbefore =>
    intro run hrun x hx
    rcases List.mem_append.mp hrun with hrun | hrun
    · exact (advances_opening _ _).dependsOn_iff.mp (ihbefore (hopened hpath) run hrun x hx)
    · rw [List.mem_singleton.mp hrun] at hx ⊢
      exact hbegun hpath hbefore.evaluating hx

/-- When a body begins, the sources that count as evaluated are those that did when the tour began,
those whose bodies have been run before it, and its own. -/
theorem evaluated_start_iff (h : Tour listed cs m runs o) {earlier later : List BodyRun}
    {run : BodyRun} (hsplit : runs = earlier ++ run :: later) (d : ContextRef) :
    (run.start.context d).evaluated = true ↔
      (m.context d).evaluated = true ∨ d ∈ earlier.map (·.context) ∨ d = run.context := by
  have hbegun {c : ContextRef} {m n : Machine} {runs : List BodyRun}
      (hexists : c.index < m.contexts.size)
      (hbefore : Tour false (dependencies m c) (m.opening c) runs (.ok () n)) :
      ((n.starting c).context d).evaluated = true ↔
        (m.context d).evaluated = true ∨ d ∈ runs.map (·.context) ∨ d = c := by
    have hopened : (m.opening c).Advances n := hbefore.advances
    rw [Machine.evaluated_starting_iff (by rw [hopened.size]; exact hexists), ← or_assoc]
    exact or_congr_left (hbefore.evaluated_iff d)
  induction h generalizing earlier run later with
  | nil => simp at hsplit
  | @pass listed _ _ m _ _ _ _ ih =>
    refine (ih hsplit).trans ?_
    rw [(sameSources_passing listed m).context]
  | @run _ c _ m n k _ _ _ _ hexists _ hbefore hbody _ ihbefore ihrest =>
    rcases split_of_append hsplit with ⟨rest, hfirst⟩ | ⟨between, rfl, hsecond⟩
    · exact ihbefore hfirst
    · rcases List.cons_eq_append_iff.mp hsecond with ⟨rfl, hown⟩ | ⟨between, rfl, hlater⟩
      · obtain ⟨rfl, -⟩ := List.cons.inj hown
        rw [List.append_nil]
        exact hbegun hexists hbefore
      · have hended : ((k.closing c).context d).evaluated = true ↔
            ((n.starting c).context d).evaluated = true := by
          rw [show (k.closing c).context d = (n.starting c).context d from
            (sameSources_body hbody).context d]
        refine (ihrest hlater).trans ?_
        rw [hended, hbegun hexists hbefore]
        simp only [List.map_append, List.map_cons, List.mem_append, List.mem_cons, or_assoc]
  | failBefore _ _ _ ihbefore => exact ihbefore hsplit
  | fail hexists _ hbefore _ ihbefore =>
    rcases split_of_append hsplit with ⟨rest, hfirst⟩ | ⟨between, rfl, hsecond⟩
    · exact ihbefore hfirst
    · rcases List.cons_eq_append_iff.mp hsecond with ⟨rfl, hown⟩ | ⟨between, rfl, hlater⟩
      · obtain ⟨rfl, -⟩ := List.cons.inj hown
        rw [List.append_nil]
        exact hbegun hexists hbefore
      · simp at hlater

/-- Assumes: a tour that begins where nothing is being evaluated. When a body begins, the sources
its own depends on, and that do not depend on it in turn, count as evaluated since before the tour
or have had their bodies run. -/
theorem after_dependencies (h : Tour listed cs m runs o) (hidle : m.evaluating = [])
    {earlier later : List BodyRun} {run : BodyRun} (hsplit : runs = earlier ++ run :: later)
    {d : ContextRef} (hd : d ∈ dependencies m run.context) (hback : ¬m.DependsOn d run.context) :
    (m.context d).evaluated = true ∨ d ∈ earlier.map (·.context) := by
  have hrun : run ∈ runs := by
    rw [hsplit]
    exact List.mem_append_right _ (List.mem_cons_self ..)
  rcases h.ready run hrun d hd with hevaluated | hevaluating
  · rcases (h.evaluated_start_iff hsplit d).mp hevaluated with hbefore | hearlier | rfl
    · exact .inl hbefore
    · exact .inr hearlier
    · exact absurd .refl hback
  · have hpath : ∀ x ∈ m.evaluating, ∀ c ∈ cs, m.DependsOn x c := by
      rw [hidle]
      exact fun _ hx ↦ nomatch hx
    exact absurd (h.stack hpath run hrun d hevaluating) hback

/-! ### How tours end -/

/-- In a tour that succeeds all bodies come to their end. -/
theorem completed (h : Tour listed cs m runs o) (hok : o = .ok () n) :
    ∀ run ∈ runs, run.Completed := by
  induction h generalizing n with
  | nil => exact fun _ hrun ↦ nomatch hrun
  | pass _ _ ih => exact ih hok
  | run _ _ _ _ _ ihbefore ihrest =>
    intro run hrun
    rcases List.mem_append.mp hrun with hrun | hrun
    · exact ihbefore rfl run hrun
    · rcases List.mem_cons.mp hrun with rfl | hrun
      · exact ⟨_, _, rfl⟩
      · exact ihrest hok run hrun
  | failBefore => cases hok
  | fail => cases hok

/-- A tour that fails does so with the last body it runs, and those before it came to their end. -/
theorem failed (h : Tour listed cs m runs o) {e : Failure} (herror : o = .error e n) :
    ∃ earlier run k, runs = earlier ++ [run] ∧ run.outcome = .error e k ∧
      ∀ run ∈ earlier, run.Completed := by
  induction h generalizing n with
  | nil => cases herror
  | pass _ _ ih => exact ih herror
  | @run _ c _ _ n' k runs _ cell _ _ _ hbefore _ _ _ ihrest =>
    obtain ⟨earlier, last, ended, rfl, hlast, hearlier⟩ := ihrest herror
    refine ⟨runs ++ ⟨c, n'.starting c, .ok cell k⟩ :: earlier, last, ended, ?_, hlast, ?_⟩
    · rw [List.append_assoc, List.cons_append]
    intro run hrun
    rcases List.mem_append.mp hrun with hrun | hrun
    · exact hbefore.completed rfl run hrun
    · rcases List.mem_cons.mp hrun with rfl | hrun
      · exact ⟨_, _, rfl⟩
      · exact hearlier run hrun
  | failBefore _ _ _ ihbefore =>
    cases herror
    exact ihbefore rfl
  | fail _ _ hbefore =>
    cases herror
    exact ⟨_, _, _, rfl, rfl, hbefore.completed rfl⟩

/-- A tour all of whose bodies come to their end does so, too. -/
theorem ok_of_completed (h : Tour listed cs m runs o) (hcompleted : ∀ run ∈ runs, run.Completed) :
    ∃ n, o = .ok () n := by
  cases ho : o with
  | ok _ n => exact ⟨n, rfl⟩
  | error e n =>
    obtain ⟨earlier, run, k, rfl, herror, -⟩ := h.failed ho
    obtain ⟨cell, k', hok⟩ := hcompleted run (List.mem_append_right _ (List.mem_singleton_self run))
    rw [herror] at hok
    cases hok

/-- Assumes: a tour that succeeds. The sources that are being evaluated when a body begins were so
when the tour began, or get their bodies run as well. -/
theorem settles (h : Tour listed cs m runs o) (hok : o = .ok () n) : ∀ run ∈ runs,
    ∀ x ∈ run.start.evaluating, x ∈ m.evaluating ∨ x ∈ runs.map (·.context) := by
  induction h generalizing n with
  | nil => exact fun _ hrun ↦ nomatch hrun
  | @pass listed _ _ m _ _ _ _ ih =>
    rw [← (sameSources_passing listed m).evaluating]
    exact ih hok
  | @run _ c _ m n' k _ _ _ _ _ hnew hbefore hbody _ ihbefore ihrest =>
    have hopened : n'.evaluating = c :: m.evaluating := hbefore.evaluating
    have hended : (k.closing c).evaluating = m.evaluating := evaluating_ended hbody hnew hopened
    rw [List.map_append, List.map_cons]
    intro run hrun x hx
    rcases List.mem_append.mp hrun with hrun | hrun
    · rcases ihbefore rfl run hrun x hx with hx | hx
      · rcases List.mem_cons.mp hx with rfl | hx
        · exact .inr (List.mem_append_right _ (List.mem_cons_self ..))
        · exact .inl hx
      · exact .inr (List.mem_append_left _ hx)
    · rcases List.mem_cons.mp hrun with rfl | hrun
      · change x ∈ (n'.starting c).evaluating at hx
        rw [n'.evaluating_starting c, hopened] at hx
        rcases List.mem_cons.mp hx with rfl | hx
        · exact .inr (List.mem_append_right _ (List.mem_cons_self ..))
        · exact .inl hx
      · rcases ihrest hok run hrun x hx with hx | hx
        · exact .inl (hended ▸ hx)
        · exact .inr (List.mem_append_right _ (List.mem_cons_of_mem _ hx))
  | failBefore => cases hok
  | fail => cases hok

/-- Assumes: a tour that succeeds, and begins where nothing is being evaluated and where all that
evaluated sources depend on counts as evaluated. Then the same is so where it ends, and all that the
sources depend on which it goes through counts as evaluated there. -/
theorem reached (h : Tour listed cs m runs (.ok () n)) (hidle : m.evaluating = [])
    (hclosed : ∀ c, (m.context c).evaluated = true →
      ∀ d ∈ dependencies m c, (m.context d).evaluated = true) :
    ∀ c ∈ cs, ∀ d, m.DependsOn c d → (n.context d).evaluated = true := by
  have hstep (c d : ContextRef) (hc : (n.context c).evaluated = true)
      (hd : d ∈ dependencies m c) : (n.context d).evaluated = true := by
    refine (h.evaluated_iff d).mpr ?_
    rcases (h.evaluated_iff c).mp hc with hc | hc
    · exact .inl (hclosed c hc d hd)
    · obtain ⟨run, hrun, rfl⟩ := List.mem_map.mp hc
      rcases h.ready run hrun d hd with hentered | hentered
      · obtain ⟨earlier, later, rfl⟩ := List.append_of_mem hrun
        rcases (h.evaluated_start_iff rfl d).mp hentered with hd | hd | rfl
        · exact .inl hd
        · rw [List.map_append]
          exact .inr (List.mem_append_left _ hd)
        · exact .inr hc
      · rcases h.settles rfl run hrun d hentered with hd | hd
        · rw [hidle] at hd
          exact nomatch hd
        · exact .inr hd
  intro c hc d hd
  induction hd with
  | refl =>
    rcases h.covers rfl c hc with hc | hc
    · exact hc
    · have hidle' : n.evaluating = m.evaluating := h.evaluating
      rw [hidle', hidle] at hc
      exact nomatch hc
  | tail _ hd ih => exact hstep _ _ ih hd

/-! ### Putting tours together -/

/-- A tour that fails at its first source does not come to the others. -/
theorem stop {e : Failure} (h : Tour listed [c] m runs (.error e n)) :
    Tour listed (c :: cs) m runs (.error e n) := by
  cases h with
  | pass _ hrest => nomatch hrest
  | run _ _ _ _ hrest => nomatch hrest
  | failBefore hexists hnew hbefore => exact .failBefore hexists hnew hbefore
  | fail hexists hnew hbefore hbody => exact .fail hexists hnew hbefore hbody

/-- Behind its first source a tour goes on with the others. -/
theorem cons {later : List BodyRun} (h : Tour listed [c] m runs (.ok () n))
    (hrest : Tour listed cs n later o) : Tour listed (c :: cs) m (runs ++ later) o := by
  cases h with
  | pass hentered hnil =>
    cases hnil
    exact .pass hentered hrest
  | run hexists hnew hbefore hbody hnil =>
    cases hnil
    rw [List.append_assoc]
    exact .run hexists hnew hbefore hbody hrest

/-- A tour through sources that have been entered passes them all by. -/
theorem passing_all (listed : Bool) (hentered : ∀ c ∈ cs, m.Entered c) :
    ∃ n, Tour listed cs m [] (.ok () n) := by
  induction cs generalizing m with
  | nil => exact ⟨m, .nil⟩
  | cons c cs ih =>
    obtain ⟨n, hrest⟩ := ih (m := passing listed m) fun d hd ↦
      entered_passing listed (hentered d (List.mem_cons_of_mem c hd))
    exact ⟨n, .pass (hentered c (List.mem_cons_self ..)) hrest⟩

/-- A tour through a source that is new, and depends on sources only that have been entered, runs
its body and no other. -/
theorem alone (listed : Bool) (hexists : c.index < m.contexts.size) (hnew : ¬m.Entered c)
    (hentered : ∀ d ∈ dependencies m c, (m.opening c).Entered d) :
    ∃ run o, run.context = c ∧ Tour listed [c] m [run] o := by
  obtain ⟨n, hbefore⟩ := passing_all false hentered
  cases hbody : evaluateStatements c (n.context c).body (n.starting c) with
  | ok cell k => exact ⟨_, _, rfl, .run hexists hnew hbefore hbody .nil⟩
  | error e k => exact ⟨_, _, rfl, .fail hexists hnew hbefore hbody⟩

/-- A source that has not been entered is gone through in the same way in a list of all sources. -/
theorem listed_of_new (h : Tour false [c] m runs o) (hnew : ¬m.Entered c) :
    Tour true [c] m runs o := by
  cases h with
  | pass hentered => exact absurd hentered hnew
  | run hexists hnew hbefore hbody hnil =>
    cases hnil
    exact .run hexists hnew hbefore hbody .nil
  | failBefore hexists hnew hbefore => exact .failBefore hexists hnew hbefore
  | fail hexists hnew hbefore hbody => exact .fail hexists hnew hbefore hbody

/-- There is one tour through given sources. -/
theorem unique {runs' : List BodyRun} {o' : Outcome Unit} (h : Tour listed cs m runs o)
    (h' : Tour listed cs m runs' o') : runs = runs' ∧ o = o' := by
  induction h generalizing runs' o' with
  | nil =>
    cases h'
    exact ⟨rfl, rfl⟩
  | pass hentered _ ih =>
    cases h' with
    | pass _ hrest' => exact ih hrest'
    | run _ hnew => exact absurd hentered hnew
    | failBefore _ hnew => exact absurd hentered hnew
    | fail _ hnew => exact absurd hentered hnew
  | run _ hnew _ hbody _ ihbefore ihrest =>
    cases h' with
    | pass hentered => exact absurd hentered hnew
    | run _ _ hbefore' hbody' hrest' =>
      obtain ⟨rfl, hsame⟩ := ihbefore hbefore'
      cases hsame
      rw [hbody] at hbody'
      cases hbody'
      obtain ⟨rfl, rfl⟩ := ihrest hrest'
      exact ⟨rfl, rfl⟩
    | failBefore _ _ hbefore' => cases (ihbefore hbefore').2
    | fail _ _ hbefore' hbody' =>
      cases (ihbefore hbefore').2
      rw [hbody] at hbody'
      cases hbody'
  | failBefore _ hnew _ ihbefore =>
    cases h' with
    | pass hentered => exact absurd hentered hnew
    | run _ _ hbefore' => cases (ihbefore hbefore').2
    | failBefore _ _ hbefore' =>
      obtain ⟨rfl, hsame⟩ := ihbefore hbefore'
      cases hsame
      exact ⟨rfl, rfl⟩
    | fail _ _ hbefore' => cases (ihbefore hbefore').2
  | fail _ hnew _ hbody ihbefore =>
    cases h' with
    | pass hentered => exact absurd hentered hnew
    | run _ _ hbefore' hbody' =>
      cases (ihbefore hbefore').2
      rw [hbody] at hbody'
      cases hbody'
    | failBefore _ _ hbefore' => cases (ihbefore hbefore').2
    | fail _ _ hbefore' hbody' =>
      obtain ⟨rfl, hsame⟩ := ihbefore hbefore'
      cases hsame
      rw [hbody] at hbody'
      cases hbody'
      exact ⟨rfl, rfl⟩

end Tour

end Session

end TreeScript
