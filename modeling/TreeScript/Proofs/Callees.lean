import TreeScript.Proofs.Comparison.Twins
import TreeScript.Proofs.Objects.Variables

/-!
# Callees

What a callee leads to does not depend on whether it is evaluated on its own or is the head of an
access chain (`Chain.reaches_callee`). The node a chain comes from is read for the texts of failures
only, so that chains which differ in nothing else give the same results (`Run.Agree`). A name that
ends a chain leads to the same as one that is followed by other steps, unless it leads to a module
(`Chain.resolveName_final`). What surrounds a node that is evaluated on its own changes the stack
traces and the log, so that from there on the two runs are runs on twins (`Outcome.Together`).
-/

set_option autoImplicit false

namespace TreeScript

namespace Run

variable {α β : Type}

/-- Two computations give the same results. Where they fail, they may do so differently. -/
def Agree (x y : Run α) : Prop := ∀ m a n, x m = .ok a n ↔ y m = .ok a n

namespace Agree

theorem refl (x : Run α) : Agree x x := fun _ _ _ ↦ Iff.rfl

theorem of_fails {x y : Run α} (hx : Fails x) (hy : Fails y) : Agree x y :=
  fun _ _ _ ↦ iff_of_false hx.ne_ok hy.ne_ok

theorem bind {x y : Run α} {f g : α → Run β} (h : Agree x y) (hrest : ∀ a, Agree (f a) (g a)) :
    Agree (x >>= f) (y >>= g) := by
  intro m b n
  rw [bind_eq_ok_iff, bind_eq_ok_iff]
  exact exists_congr fun a ↦ exists_congr fun k ↦ and_congr (h m a k) (hrest a k b n)

theorem bind_right (x : Run α) {f g : α → Run β} (h : ∀ a, Agree (f a) (g a)) :
    Agree (x >>= f) (x >>= g) :=
  (refl x).bind h

theorem map {x y : Run α} (f : α → β) (h : Agree x y) : Agree (f <$> x) (f <$> y) := by
  rw [map_eq_pure_bind, map_eq_pure_bind]
  exact h.bind fun a ↦ refl _

theorem ite {p : Prop} [Decidable p] {x y u v : Run α} (hx : p → Agree x y) (hu : ¬p → Agree u v) :
    Agree (if p then x else u) (if p then y else v) := by
  split
  · exact hx ‹p›
  · exact hu ‹¬p›

end Agree

/-- What fails to give a value lets nothing follow. -/
theorem value?_bind_eq_none {x : Run α} {f : α → Run β} {m : Machine}
    (h : Outcome.value? (x m) = none) : Outcome.value? ((x >>= f) m) = none := by
  cases hx : x m with
  | ok a n =>
    rw [hx] at h
    cases h
  | error e n =>
    rw [bind_error hx]
    rfl

end Run

/-! ### The node a chain comes from -/

namespace Chain

open Run

variable (chain : Chain) (origin : Node)

/-- The same chain, as if it came from another node. -/
def comingFrom : Chain := { chain with origin }

/-- Where a chain comes from matters for the texts of failures only. -/
theorem switchToImport_agree (name : String) (writing : Bool) (r : Resolution)
    (imports : List Import) :
    Agree (chain.switchToImport name writing r imports)
      ((chain.comingFrom origin).switchToImport name writing r imports) := by
  induction imports with
  | nil => exact .refl _
  | cons i imports ih =>
    rw [switchToImport_cons, switchToImport_cons]
    cases i.target with
    | none => exact .refl _
    | some ref =>
      refine .bind_right _ fun m ↦ .ite (fun _ ↦ ?_) fun _ ↦ ih
      refine .map _ (.bind (.ite (fun _ ↦ .ite ?_ ?_) fun _ ↦ .refl _) fun _ ↦ .refl _)
      · exact fun _ ↦ .of_fails (chain.fails_raise _ _) ((chain.comingFrom origin).fails_raise _ _)
      · exact fun _ ↦ .of_fails (chain.fails_raise _ _) ((chain.comingFrom origin).fails_raise _ _)

theorem createName_agree (i : Nat) (isFinal : Bool) (name : String) (r : Resolution) :
    Agree (chain.createName i isFinal name r)
      ((chain.comingFrom origin).createName i isFinal name r) := by
  rw [createName_eq, createName_eq]
  refine .bind (.ite (fun _ ↦ .of_fails ?_ ?_) fun _ ↦ .refl _) fun _ ↦ .refl _
  · exact .get_bind fun _ ↦ chain.fails_raise _ _
  · exact .get_bind fun _ ↦ (chain.comingFrom origin).fails_raise _ _

theorem resolveForeign_agree (i : Nat) (isFinal : Bool) (name : String) (r : Resolution) :
    Agree (chain.resolveForeign i isFinal name r)
      ((chain.comingFrom origin).resolveForeign i isFinal name r) := by
  refine .bind_right _ fun m ↦ .bind (chain.switchToImport_agree origin name _ r _) fun found ↦ ?_
  cases found with
  | some moved =>
    refine .bind_right _ fun _ ↦ .bind_right _ fun _ ↦ .ite (fun _ ↦ ?_) fun _ ↦ .refl _
    exact .of_fails ((chain.fails_raise _ _).bind _)
      (((chain.comingFrom origin).fails_raise _ _).bind _)
  | none =>
    refine .ite (fun _ ↦ .refl _) fun _ ↦ ?_
    have hcreated := chain.createName_agree origin i isFinal name r
    have hmode : (chain.comingFrom origin).mode = chain.mode := rfl
    rw [hmode]
    split
    · exact .refl _
    · exact hcreated

theorem resolveName_agree (i : Nat) (isFinal : Bool) (name : String) (r : Resolution) :
    Agree (chain.resolveName i isFinal name r)
      ((chain.comingFrom origin).resolveName i isFinal name r) := by
  refine .bind_right _ fun m ↦ ?_
  split
  · exact .refl _
  · refine .bind_right _ fun k ↦ ?_
    split
    · exact .refl _
    · exact chain.resolveForeign_agree origin i isFinal name r

variable (interp : Interp)

theorem resolveStep_agree (i : Nat) (isFinal : Bool) (before step : Node) (value : CellRef)
    (r : Resolution) :
    Agree (chain.resolveStep interp i isFinal before step value r)
      ((chain.comingFrom origin).resolveStep interp i isFinal before step value r) := by
  unfold resolveStep
  split
  · exact .refl _
  · have hkey : (chain.comingFrom origin).stepKey interp step = chain.stepKey interp step := rfl
    rw [hkey]
    refine .bind_right _ fun key ↦ .bind_right _ fun found ↦ ?_
    split
    · exact .refl _
    · have hcreated := chain.createName_agree origin i isFinal
      refine .ite (fun _ ↦ .bind_right _ fun created ↦ .bind_right _ fun taken ↦ ?_) fun _ ↦
        .bind_right _ fun shown ↦ hcreated shown r
      refine .ite (fun _ ↦ .of_fails ?_ ?_) fun _ ↦ .refl _
      · exact .get_bind fun _ ↦ (chain.fails_raise _ _).bind _
      · exact .get_bind fun _ ↦ ((chain.comingFrom origin).fails_raise _ _).bind _

theorem advance_agree (i : Nat) (isFinal : Bool) (before step : Node) (r : Resolution) :
    Agree (chain.advance interp i isFinal before step r)
      ((chain.comingFrom origin).advance interp i isFinal before step r) := by
  refine .bind_right _ fun m ↦ ?_
  unfold takeStep
  split
  · exact chain.resolveStep_agree origin interp i isFinal before _ _ _
  · exact chain.resolveName_agree origin i isFinal _ _
  · exact .refl _

theorem resolveSteps_agree (steps : List Node) (i : Nat) (before : Node) (r : Resolution) :
    Agree (chain.resolveSteps interp i before steps r)
      ((chain.comingFrom origin).resolveSteps interp i before steps r) := by
  induction steps generalizing i before r with
  | nil => exact .refl _
  | cons step steps ih =>
    rw [resolveSteps_cons, resolveSteps_cons]
    exact (chain.advance_agree origin interp i _ before step r).bind fun r ↦ ih (i + 1) step r

/-- Nothing is before the first step. -/
theorem advance_first (i : Nat) (isFinal : Bool) (before before' step : Node) {r : Resolution}
    (hnone : r.value = none) :
    chain.advance interp i isFinal before step r =
      chain.advance interp i isFinal before' step r := by
  refine bind_congr fun m ↦ ?_
  rw [remember_of_no_value m hnone]
  unfold takeStep
  rw [hnone]
  cases step <;> rfl

/-- What a name at the head of a chain leads to as the end of the chain is what it leads to before
other steps, unless that is a module. -/
theorem resolveName_final (hmode : chain.mode.creates = false) (i : Nat) (name : String)
    {r r' : Resolution} {m n : Machine} :
    chain.resolveName i true name r m = .ok r' n ↔
      chain.resolveName i false name r m = .ok r' n ∧ r'.value.isSome := by
  have hvalue (h : chain.resolveName i true name r m = .ok r' n) : r'.value.isSome := by
    cases nameStep_of_resolveName h with
    | moved _ _ hfinal => cases hfinal
    | bound | global | inlined | symbols | created => rfl
  have hforeign (hsome : r'.value.isSome) :
      chain.resolveForeign i true name r m = .ok r' n ↔
        chain.resolveForeign i false name r m = .ok r' n := by
    unfold resolveForeign
    rw [Run.get_bind, Run.get_bind, hmode, Bool.false_and, Bool.false_and]
    rw [Run.bind_eq_ok_iff, Run.bind_eq_ok_iff]
    refine exists_congr fun found ↦ exists_congr fun k ↦ and_congr_right fun _ ↦ ?_
    cases found with
    | some moved =>
      dsimp only
      rw [Run.get_bind, Run.get_bind, Run.bind_eq_ok_iff, Run.bind_eq_ok_iff]
      refine exists_congr fun _ ↦ exists_congr fun l ↦ and_congr_right fun _ ↦ ?_
      rw [Bool.and_true, Bool.and_false, if_neg Bool.false_ne_true]
      by_cases hnone : moved.value.isNone = true
      · rw [if_pos hnone]
        refine iff_of_false ((chain.fails_raise _ _).bind _).ne_ok fun hmoved ↦ ?_
        cases hmoved
        rw [Option.isNone_iff_eq_none.mp hnone] at hsome
        cases hsome
      · rw [if_neg hnone]
    | none =>
      dsimp only
      split
      · exact Iff.rfl
      · have hcreates (isFinal : Bool) := fails_createName hmode i isFinal name r
        refine iff_of_false (Fails.ne_ok ?_) (Fails.ne_ok ?_)
        · cases r.module <;> exact hcreates true
        · cases r.module <;> exact hcreates false
  have hsame (hsome : r'.value.isSome) :
      chain.resolveName i true name r m = .ok r' n ↔
        chain.resolveName i false name r m = .ok r' n := by
    unfold resolveName
    rw [Run.get_bind, Run.get_bind]
    cases m.lookUpName r.frame name with
    | some cell => exact Iff.rfl
    | none =>
      dsimp only
      rw [Run.get_bind, Run.get_bind]
      cases m.global? r.context name with
      | some cell => exact Iff.rfl
      | none => exact hforeign hsome
  exact ⟨fun h ↦ ⟨(hsame (hvalue h)).mp h, hvalue h⟩, fun h ↦ (hsame h.2).mpr h.1⟩

end Chain

/-! ### Outcomes that go together -/

namespace Machine

variable {m m' n : Machine}

/-- What twins have recorded and logged does not matter. -/
theorem Twin.unwound_left (h : m.Twin m') (hn : m.Unwound n) : n.Twin m' := by
  rw [← hn]
  exact { h with }

theorem Twin.unwound_right (h : m.Twin m') (hn : m'.Unwound n) : m.Twin n := by
  rw [← hn]
  exact { h with }

end Machine

/-- Two outcomes that both give the same value and leave machines that differ at most in what is
recorded for stack traces and in the log, or that both give none. -/
inductive Outcome.Together {α : Type} : Outcome α → Outcome α → Prop
  | ok (a : α) {m m' : Machine} (htwin : m.Twin m') : Together (.ok a m) (.ok a m')
  | error {o o' : Outcome α} (ho : o.value? = none) (ho' : o'.value? = none) : Together o o'

namespace Outcome.Together

variable {α β : Type}

theorem of_ends {m : Machine} {o o' : Outcome α}
    (h : Tracking.nothing.comparison.Ends (fun _ ↦ Eq) m o o') : o.Together o' := by
  cases h with
  | ok _ hlike hvalue =>
    cases hvalue
    exact .ok _ hlike.1
  | error => exact .error rfl rfl

theorem cases {o o' : Outcome α} (h : o.Together o') :
    (∃ a n n', o = .ok a n ∧ o' = .ok a n' ∧ n.Twin n') ∨ o.value? = none ∧ o'.value? = none := by
  cases h with
  | ok a htwin => exact .inl ⟨a, _, _, rfl, rfl, htwin⟩
  | error ho ho' => exact .inr ⟨ho, ho'⟩

/-- Sequences go together if their first parts do, and their second parts do after them. -/
theorem bind {x y : Run α} {f g : α → Run β} {m m' : Machine} (h : Together (x m) (y m'))
    (hrest : ∀ a n n', x m = .ok a n → n.Twin n' → Together (f a n) (g a n')) :
    Together ((x >>= f) m) ((y >>= g) m') := by
  rcases h.cases with ⟨a, n, n', hx, hy, htwin⟩ | ⟨hx, hy⟩
  · rw [Run.bind_ok hx, Run.bind_ok hy]
    exact hrest a n n' hx htwin
  · exact .error (Run.value?_bind_eq_none hx) (Run.value?_bind_eq_none hy)

/-- What agrees with an outcome that goes together goes together as well. -/
theorem agree {x y : Run α} {o : Outcome α} {m : Machine} (h : o.Together (x m))
    (hsame : Run.Agree x y) : o.Together (y m) := by
  cases hx : x m with
  | ok a n =>
    rwa [(hsame m a n).mp hx, ← hx]
  | error e n =>
    rw [hx] at h
    cases h with
    | error ho =>
      refine .error ho ?_
      cases hy : y m with
      | ok a k => rw [(hsame m a k).mpr hy] at hx; cases hx
      | error => rfl

end Outcome.Together

/-- Assumes: no debugger. Around the rule for its construct, the evaluation of a node changes at
most the stack traces and the log. -/
theorem Visit.evalNode_announced (interp : Interp) (site : Site) (mode : Mode) (node : Node)
    {m : Machine} (hdebugger : m.options.debugger = none) : ∃ k, m.Unwound k ∧
      (∀ result done, interp.node site mode node k = .ok result done →
        ∃ last, interp.evalNode site mode node m = .ok result last ∧ done.Unwound last) ∧
      (Outcome.value? (interp.node site mode node k) = none →
        Outcome.value? (interp.evalNode site mode node m) = none) := by
  obtain ⟨depth, recorded, style, k, hrecord, hannounce, hk⟩ :=
    record_announce_apply site node hdebugger
  refine ⟨k, hk, fun result done hnode ↦ evalNode_ok hrecord hannounce hnode, fun hnone ↦ ?_⟩
  cases heval : interp.evalNode site mode node m with
  | error => rfl
  | ok result last =>
    obtain ⟨_, _, _, _, done, hrecord', hannounce', hnode⟩ := evalNode_parts heval
    cases hrecord.symm.trans hrecord'
    cases hannounce.symm.trans hannounce'
    rw [hnode] at hnone
    cases hnone

/-- Assumes: no debugger, and rules that go together wherever they come in. So do the evaluations of
the nodes. -/
theorem Outcome.Together.evalNode {interp : Interp} {site : Site} {mode mode' : Mode}
    {node node' : Node} {m : Machine} (hdebugger : m.options.debugger = none)
    (h : ∀ k k', m.Unwound k → k.Twin k' →
      Together (interp.node site mode node k) (interp.node site mode' node' k')) :
    Together (interp.evalNode site mode node m) (interp.evalNode site mode' node' m) := by
  obtain ⟨k, hk, hvalue, hnone⟩ := Visit.evalNode_announced interp site mode node hdebugger
  obtain ⟨k', hk', hvalue', hnone'⟩ := Visit.evalNode_announced interp site mode' node' hdebugger
  have htwin := ((Machine.Twin.refl m).unwound_left hk).unwound_right hk'
  rcases (h k k' hk htwin).cases with ⟨result, done, done', hnode, hnode', htwin⟩ | ⟨hnode, hnode'⟩
  · obtain ⟨last, heval, hlast⟩ := hvalue result done hnode
    obtain ⟨last', heval', hlast'⟩ := hvalue' result done' hnode'
    rw [heval, heval']
    exact .ok result ((htwin.unwound_left hlast).unwound_right hlast')
  · exact .error (hnone hnode) (hnone' hnode')

/-- Twin runs of the interpreter itself. -/
theorem evaluates_twins (n : Nat) : Tracking.nothing.comparison.Evaluates (interp n) := by
  rw [← interpAvoiding_nothing n]
  exact Tracking.nothing.comparison.evaluates_interpAvoiding n

/-- A node has the same value on twins. -/
theorem value_twins (n : Nat) (site : Site) (node : Node) {m m' : Machine} (htwin : m.Twin m') :
    Outcome.Together ((interp n).value site node .required m)
      ((interp n).value site node .required m') := by
  have hsites : site.Alike site := .retraced site.frame.trace
  have hsame := (evaluates_twins n).value (m := m) hsites node .required
  exact .of_ends (hsame.now ⟨htwin, trivial⟩)

/-! ### The callee -/

namespace Chain

variable {chain : Chain} {site : Site} {callee : Node} {m m' : Machine}

/-- Where a callee leads to, as a node of its own and as the first step of a chain: to the same
cell, or nowhere on its own. A chain may then still have moved into a module. -/
inductive Reaches : Outcome CellRef → Outcome Resolution → Prop
  | found {cell : CellRef} {r : Resolution} {k k' : Machine} (hvalue : r.value = some cell)
    (hself : r.self = none) (htwin : k.Twin k') : Reaches (.ok cell k) (.ok r k')
  | lost {o : Outcome CellRef} {o' : Outcome Resolution} (ho : o.value? = none)
    (ho' : ∀ r k', o' = .ok r k' → r.value = none) : Reaches o o'

theorem Reaches.cases {o : Outcome CellRef} {o' : Outcome Resolution} (h : Reaches o o') :
    (∃ cell r k k', o = .ok cell k ∧ o' = .ok r k' ∧ r.value = some cell ∧ r.self = none ∧
      k.Twin k') ∨ o.value? = none ∧ ∀ r k', o' = .ok r k' → r.value = none := by
  cases h with
  | found hvalue hself htwin => exact .inl ⟨_, _, _, _, rfl, rfl, hvalue, hself, htwin⟩
  | lost ho ho' => exact .inr ⟨ho, ho'⟩

/-- Resolving a chain takes its first step and then the others, once it has been logged. -/
theorem resolve_apply (interp : Interp) (site : Site) (origin : Node) (mode : Mode) (step : Node)
    (steps : List Node) (m : Machine) : ∃ k, m.Unwound k ∧
      resolve interp site origin mode (step :: steps) m = (do
        let chain : Chain := { origin, site, mode }
        let r ← chain.advance interp 0 steps.isEmpty origin step chain.start
        chain.resolveSteps interp 1 step steps r) k := by
  unfold resolve
  rw [if_neg (by simp)]
  dsimp only
  rw [Run.get_bind, resolveSteps_cons]
  split
  · obtain ⟨k, hlog, hk⟩ := logInfo_apply ("resolve start: " ++ origin.code) m
    exact ⟨k, hk, Run.bind_ok hlog⟩
  · exact ⟨m, .refl m, rfl⟩

/-- What a name leads to gives a chain nothing to call a function on. -/
theorem self_of_resolveName {i : Nat} {isFinal : Bool} {name : String} {r r' : Resolution}
    (h : chain.resolveName i isFinal name r m = .ok r' m') : r'.self = r.self := by
  cases nameStep_of_resolveName h <;> rfl

/-- On twins, chains that come from different nodes resolve a name to the same. -/
theorem resolveName_twins (chain : Chain) (origin : Node) (i : Nat) (isFinal : Bool) (name : String)
    {l : Machine} (htwin : l.Twin m') :
    (∃ r r' done done',
      (chain.comingFrom origin).resolveName i isFinal name chain.start l = .ok r done ∧
        chain.resolveName i isFinal name chain.start m' = .ok r' done' ∧
        r'.value = r.value ∧ r'.self = none ∧ done.Twin done') ∨
      Outcome.value? ((chain.comingFrom origin).resolveName i isFinal name chain.start l) = none ∧
        Outcome.value? (chain.resolveName i isFinal name chain.start m') = none := by
  have hchain : Tracking.nothing.comparison.Chains l chain chain :=
    .at chain.site (.retraced chain.site.frame.trace)
  have hstart : Tracking.nothing.comparison.Resolutions l chain.start chain.start :=
    .at chain.start.frame (.retraced chain.start.frame.trace)
  have hends := (Comparison.resolveName hchain i isFinal name hstart).now ⟨htwin, trivial⟩
  have hagree := chain.resolveName_agree origin i isFinal name chain.start l
  revert hends
  cases hname : chain.resolveName i isFinal name chain.start l with
  | ok r done =>
    cases hname' : chain.resolveName i isFinal name chain.start m' with
    | ok r' done' =>
      intro hends
      cases hends with
      | ok _ hlike hsame =>
        refine .inl ⟨r, r', done, done', (hagree r done).mp hname, rfl, ?_,
          self_of_resolveName hname', hlike.1⟩
        obtain ⟨_, _⟩ := hsame
        rfl
    | error => nofun
  | error e done =>
    cases hname' : chain.resolveName i isFinal name chain.start m' with
    | ok => nofun
    | error =>
      intro _
      refine .inr ⟨?_, rfl⟩
      cases hother : (chain.comingFrom origin).resolveName i isFinal name chain.start l with
      | ok r done' =>
        rw [(hagree r done').mpr hother] at hname
        cases hname
      | error => rfl

/-- Assumes: no debugger. A name on its own has the value that a chain which begins with it comes to
at once, if there is one. -/
theorem value_name (n : Nat) (chain : Chain) (hmode : chain.mode = .required) (name : String)
    (hdebugger : m.options.debugger = none) :
    let alone := chain.comingFrom (.identifier name)
    ∃ l, m.Unwound l ∧
      (∀ cell r done, alone.resolveName 0 false name chain.start l = .ok r done →
        r.value = some cell → ∃ last,
          (interp (n + 1)).value chain.site (.identifier name) .required m = .ok cell last ∧
            done.Unwound last) ∧
      ((∀ r done, alone.resolveName 0 false name chain.start l = .ok r done → r.value = none) →
        Outcome.value? ((interp (n + 1)).value chain.site (.identifier name) .required m) =
          none) := by
  intro alone
  obtain ⟨k, hk, hvalue, hnone⟩ :=
    Visit.evalNode_announced (interp n) chain.site .required (.identifier name) hdebugger
  obtain ⟨l, hl, hresolve⟩ := resolve_apply (interp n) chain.site (.identifier name) .required
    (.identifier name) [] k
  have hnode : (interp n).node chain.site .required (.identifier name) k =
      (do
        let r ← alone.resolveName 0 true name chain.start
        let cell ← alone.resolveSteps (interp n) 1 (.identifier name) [] r
        return ({ value := cell } : Completion)) l := by
    rw [← bind_assoc]
    obtain ⟨origin, site, mode⟩ := chain
    cases hmode
    exact Run.bind_congr_left hresolve
  have hcreates : alone.mode.creates = false := congrArg Mode.creates hmode
  have hfinal {r : Resolution} {done : Machine} :
      alone.resolveName 0 true name chain.start l = .ok r done ↔
        alone.resolveName 0 false name chain.start l = .ok r done ∧ r.value.isSome :=
    resolveName_final alone hcreates 0 name
  refine ⟨l, hk.trans hl, fun cell r done hname hcell ↦ ?_, fun hlost ↦ ?_⟩
  · obtain ⟨last, heval, hlast⟩ := hvalue { value := cell } done (by
      rw [hnode, Run.bind_ok (hfinal.mpr ⟨hname, by rw [hcell]; rfl⟩)]
      unfold resolveSteps
      rw [hcell]
      rfl)
    exact ⟨last, Run.bind_ok heval, hlast⟩
  · refine Run.value?_bind_eq_none (hnone ?_)
    rw [hnode]
    refine Run.value?_bind_eq_none ?_
    cases hname : alone.resolveName 0 true name chain.start l with
    | ok r done =>
      obtain ⟨hbefore, hsome⟩ := hfinal.mp hname
      rw [hlost r done hbefore] at hsome
      cases hsome
    | error => rfl

/-- A name leads to the same cell on its own and before a call. -/
theorem reaches_name (n : Nat) (hmode : chain.mode = .required) (name : String)
    (hdebugger : m.options.debugger = none) (htwin : m.Twin m') :
    Reaches ((interp (n + 1)).value chain.site (.identifier name) .required m)
      (chain.resolveName 0 false name chain.start m') := by
  obtain ⟨l, hl, hfound, hlost⟩ := value_name n chain hmode name hdebugger
  rcases chain.resolveName_twins (.identifier name) 0 false name (htwin.unwound_left hl) with
    ⟨r, r', done, done', hname, hname', hvalue, hself, htwin⟩ | ⟨hnone, hnone'⟩
  · rw [hname']
    cases hcell : r.value with
    | some cell =>
      obtain ⟨last, hlast, hunwound⟩ := hfound cell r done hname hcell
      rw [hlast]
      exact .found (hvalue.trans hcell) hself (htwin.unwound_left hunwound)
    | none =>
      refine .lost (hlost fun other k hother ↦ ?_) fun other k hother ↦ ?_
      · cases hname.symm.trans hother
        exact hcell
      · cases hother
        exact hvalue.trans hcell
  · refine .lost (hlost fun r done hname ↦ ?_) fun r k hname ↦ ?_
    · rw [hname] at hnone
      cases hnone
    · rw [hname] at hnone'
      cases hnone'

/-- A callee leads to the same cell on its own and before a call. -/
theorem reaches_callee (n : Nat) (hmode : chain.mode = .required) (before callee : Node)
    (hdebugger : m.options.debugger = none) (htwin : m.Twin m') :
    Reaches ((interp (n + 1)).value chain.site callee .required m)
      (chain.advance (interp (n + 1)) 0 false before callee chain.start m') := by
  change Reaches _ (chain.takeStep (interp (n + 1)) 0 false before callee chain.start m')
  rcases chain.takeStep_cases (interp (n + 1)) 0 false before callee chain.start with
    ⟨_, hsome, _⟩ | ⟨name, _, rfl, hstep⟩ | ⟨_, _, hstep⟩
  · cases hsome
  · rw [hstep]
    exact reaches_name n hmode name hdebugger htwin
  · rw [hstep]
    rcases (value_twins (n + 1) chain.site callee htwin).cases with
      ⟨cell, k, k', hvalue, hvalue', htwin⟩ | ⟨hvalue, hvalue'⟩
    · obtain ⟨l, hlog, hl⟩ := logStep_apply 0 callee.code "evaluated node" k'
      rw [hvalue, Run.bind_ok hvalue', Run.bind_ok hlog]
      exact .found rfl rfl (htwin.unwound_right hl)
    · refine .lost hvalue fun r k hstep ↦ ?_
      have hnone := Run.value?_bind_eq_none (f := fun value ↦ do
        logStep 0 callee.code "evaluated node"
        return { chain.start with value := some value }) hvalue'
      rw [hstep] at hnone
      cases hnone

end Chain

end TreeScript
