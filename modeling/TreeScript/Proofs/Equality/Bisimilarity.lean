import TreeScript.Proofs.Equality.Comparing

/-!
# Equality is bisimilarity

Two values are bisimilar if some relation that holds of them leads from each pair of values it holds
of to pairs it holds of again: the two are the same, or both are objects of one size, and for each
entry of the one the other has an entry under that key with a value that is related to it. So
objects that contain themselves can be bisimilar. On a well-formed heap two values are equal exactly
if they are bisimilar: the pairs of objects that a comparison has met by its end are such a relation
(`bisimilar_of_compares`), and no comparison that starts inside such a relation finds a difference
(`compares_of_bisimulation`). Hence equality is an equivalence, and the order in which keys were
entered does not matter; `equal_is_bisimilarity` says all of it.
-/

set_option autoImplicit false

namespace TreeScript

namespace Content.Same

variable {x y z : Content}

/-- What is no object and no instance of a host type is the same as itself. -/
protected theorem refl (hobject : ∀ s, x ≠ .object s) (hcustom : ∀ ref, x ≠ .custom ref) :
    x.Same x := by
  cases x
  case object s => exact absurd rfl (hobject s)
  case custom ref => exact absurd rfl (hcustom ref)
  case regex => exact .regex rfl rfl
  case hostType => exact .hostType rfl
  all_goals constructor

protected theorem symm (h : x.Same y) : y.Same x := by
  cases h
  case regex hpattern hflags => exact .regex hpattern.symm hflags.symm
  case hostType hstamp => exact .hostType hstamp.symm
  all_goals constructor

protected theorem trans (h : x.Same y) (h' : y.Same z) : x.Same z := by
  cases h
  case regex hpattern hflags =>
    cases h' with
    | regex hpattern' hflags' => exact .regex (hpattern.trans hpattern') (hflags.trans hflags')
  case hostType hstamp =>
    cases h' with
    | hostType hstamp' => exact .hostType (hstamp.trans hstamp')
  all_goals
    cases h'
    constructor

/-- Only bisimilarity relates objects. -/
theorem not_object (h : x.Same y) : (∀ s, x ≠ .object s) ∧ ∀ s, y ≠ .object s := by
  cases h <;> exact ⟨nofun, nofun⟩

end Content.Same

namespace Machine

/-! ### Bisimulations -/

/-- Two values agree on the outside, and what they contain is related. -/
inductive Matches (m : Machine) (R : CellRef → CellRef → Prop) (a b : CellRef) : Prop where
  | same (hsame : (m.content a).Same (m.content b))
  | objects {s t : TableRef} (ha : m.content a = .object s) (hb : m.content b = .object t)
      (hsizes : (m.table s).size = (m.table t).size)
      (hvalues : ∀ entry ∈ (m.table s).entries, ∃ other ∈ (m.table t).entries,
        m.keyId other.key = m.keyId entry.key ∧ R entry.value other.value)

/-- A relation between values that leads from related values to related values. -/
def IsBisimulation (m : Machine) (R : CellRef → CellRef → Prop) : Prop :=
  ∀ a b, R a b → m.Matches R a b

/-- Two values are related by some bisimulation. -/
def Bisimilar (m : Machine) (a b : CellRef) : Prop :=
  ∃ R, m.IsBisimulation R ∧ R a b

variable {m n : Machine} {R R' : CellRef → CellRef → Prop} {a b c : CellRef}

/-- A value matches itself, if values are related to themselves. -/
theorem WellFormed.matches_self (h : m.WellFormed) (hR : ∀ a, R a a) (a : CellRef) :
    m.Matches R a a := by
  by_cases hobject : ∃ s, m.content a = .object s
  · obtain ⟨s, hs⟩ := hobject
    exact .objects hs hs rfl fun entry hentry ↦ ⟨entry, hentry, rfl, hR _⟩
  · exact .same (.refl (fun s hs ↦ hobject ⟨s, hs⟩) (h.plain a))

theorem WellFormed.matches_symm (h : m.WellFormed) (hmatches : m.Matches R a b) :
    m.Matches (flip R) b a := by
  cases hmatches with
  | same hsame => exact .same hsame.symm
  | @objects s t ha hb hsizes hvalues =>
    refine .objects hb ha hsizes.symm fun other hother ↦ ?_
    -- No key of `s` is missing in `t`, and the sizes agree: no key of `t` is missing in `s` then.
    have hkeys : ∀ entry ∈ (m.table s).entries, (m.table t).get? (m.keyId entry.key) ≠ none := by
      intro entry hentry
      obtain ⟨other, hother, hkey, -⟩ := hvalues entry hentry
      rw [← hkey, (h.inOrder t).get?_of_mem_entries hother]
      exact nofun
    have hsame := ((h.inOrder s).same_keys_iff (h.inOrder t)).mpr ⟨hsizes, hkeys⟩ (m.keyId other.key)
    rw [(h.inOrder t).get?_of_mem_entries hother, (h.inOrder s).get?_eq_none_iff] at hsame
    obtain ⟨entry, hentry, hkey⟩ :
        ∃ entry ∈ (m.table s).entries, m.keyId entry.key = m.keyId other.key := by
      simpa using hsame
    obtain ⟨found, hfound, hsame', hvalue⟩ := hvalues entry hentry
    have hother' : found = other :=
      List.inj_on_of_nodup_map (h.inOrder t).nodup_ids hfound hother (hsame'.trans hkey)
    exact ⟨entry, hentry, hkey, hother' ▸ hvalue⟩

theorem Matches.comp (h : m.Matches R a b) (h' : m.Matches R' b c) :
    m.Matches (Relation.Comp R R') a c := by
  cases h with
  | same hsame =>
    cases h' with
    | same hsame' => exact .same (hsame.trans hsame')
    | objects hb hc hsizes hvalues => exact absurd hb (hsame.not_object.2 _)
  | objects ha hb hsizes hvalues =>
    cases h' with
    | same hsame' => exact absurd hb (hsame'.not_object.1 _)
    | objects hb' hc hsizes' hvalues' =>
      cases hb.symm.trans hb'
      refine .objects ha hc (hsizes.trans hsizes') fun entry hentry ↦ ?_
      obtain ⟨middle, hmiddle, hkey, hvalue⟩ := hvalues entry hentry
      obtain ⟨other, hother, hkey', hvalue'⟩ := hvalues' middle hmiddle
      exact ⟨other, hother, hkey'.trans hkey, middle.value, hvalue, hvalue'⟩

theorem WellFormed.bisimilar_refl (h : m.WellFormed) (a : CellRef) : m.Bisimilar a a := by
  refine ⟨Eq, ?_, rfl⟩
  rintro a - rfl
  exact h.matches_self (fun _ ↦ rfl) a

theorem WellFormed.bisimilar_symm (h : m.WellFormed) (hab : m.Bisimilar a b) :
    m.Bisimilar b a := by
  obtain ⟨R, hR, hrelated⟩ := hab
  exact ⟨flip R, fun b a hba ↦ h.matches_symm (hR a b hba), hrelated⟩

theorem Bisimilar.trans (hab : m.Bisimilar a b) (hbc : m.Bisimilar b c) : m.Bisimilar a c := by
  obtain ⟨R, hR, hrelated⟩ := hab
  obtain ⟨R', hR', hrelated'⟩ := hbc
  refine ⟨Relation.Comp R R', ?_, b, hrelated, hrelated'⟩
  rintro a c ⟨b, hfirst, hsecond⟩
  exact (hR a b hfirst).comp (hR' b c hsecond)

/-! ### What a comparison has met -/

/-- Two values that count as equal once some pairs of objects are taken to be equal. -/
def TakenEqual (m : Machine) (met : Assumed) (a b : CellRef) : Prop :=
  (m.content a).Same (m.content b) ∨
    ∃ s t, m.tableOf? a = some s ∧ m.tableOf? b = some t ∧ (s = t ∨ met.contains (s, t))

/-- The values in a list of pairs are there, and count as equal. -/
def AllTaken (m : Machine) (met : Assumed) (pairs : List (CellRef × Option CellRef)) : Prop :=
  ∀ pair ∈ pairs, ∃ other, pair.2 = some other ∧ m.TakenEqual met pair.1 other

theorem AllTaken.cons {met : Assumed} {rest : List (CellRef × Option CellRef)}
    (hpair : m.TakenEqual met a b) (hrest : m.AllTaken met rest) :
    m.AllTaken met ((a, some b) :: rest) := by
  intro pair hmem
  rcases List.mem_cons.mp hmem with rfl | hmem
  · exact ⟨b, rfl, hpair⟩
  · exact hrest pair hmem

/-- Assumes: a comparison that finds no difference. All values it has compared count as equal by the
pairs of objects it has met, and so do the values in each pair it has opened. -/
theorem taken_of_compares {assumed : Assumed} {pairs : List (CellRef × Option CellRef)}
    {answer : Bool} (h : m.Compares assumed pairs answer) (hequal : answer = true) :
    ∃ met : Assumed, (∀ pair, assumed.contains pair → met.contains pair) ∧ m.AllTaken met pairs ∧
      ∀ s t, met.contains (s, t) → assumed.contains (s, t) ∨
        (m.table s).size = (m.table t).size ∧ m.AllTaken met (m.counterparts s t) := by
  -- The pairs are those met in the end: a pair that is open may rest on one that is met later.
  induction h with
  | @done assumed => exact ⟨assumed, fun _ h ↦ h, nofun, fun _ _ h ↦ .inl h⟩
  | missing => cases hequal
  | different => cases hequal
  | sizes => cases hequal
  | same hsame hrest ih =>
    obtain ⟨met, hgrows, htaken, hopened⟩ := ih hequal
    exact ⟨met, hgrows, htaken.cons (.inl hsame), hopened⟩
  | met ha hb hmet hrest ih =>
    obtain ⟨met, hgrows, htaken, hopened⟩ := ih hequal
    exact ⟨met, hgrows, htaken.cons (.inr ⟨_, _, ha, hb, hmet.imp_right (hgrows _)⟩), hopened⟩
  | @opened assumed a b rest answer s t ha hb hnew hsizes hvalues ih =>
    obtain ⟨met, hgrows, htaken, hopened⟩ := ih hequal
    have hpair : met.contains (s, t) := hgrows _ Std.HashSet.contains_insert_self
    have hinside : m.AllTaken met (m.counterparts s t) :=
      fun pair hmem ↦ htaken pair (List.mem_append_left _ hmem)
    refine ⟨met, fun pair h ↦ hgrows pair ?_,
      AllTaken.cons (.inr ⟨s, t, ha, hb, .inr hpair⟩)
        fun pair hmem ↦ htaken pair (List.mem_append_right _ hmem), fun s' t' hmet ↦ ?_⟩
    · rw [Std.HashSet.contains_insert, h, Bool.or_true]
    · rcases hopened s' t' hmet with hearlier | hmatch
      · rw [Std.HashSet.contains_insert, Bool.or_eq_true, beq_iff_eq] at hearlier
        rcases hearlier with hsame | hassumed
        · cases hsame
          exact .inr ⟨hsizes, hinside⟩
        · exact .inl hassumed
      · exact .inr hmatch

/-- Values that count as equal once each pair of objects that has been met is bisimilar by what it
contains are bisimilar. -/
theorem WellFormed.bisimilar_of_compares (h : m.WellFormed)
    (hcompares : m.Compares {} [(a, some b)] true) : m.Bisimilar a b := by
  obtain ⟨met, -, htaken, hopened⟩ := taken_of_compares hcompares rfl
  have hself : ∀ a, m.TakenEqual met a a := by
    intro a
    by_cases hobject : ∃ s, m.content a = .object s
    · obtain ⟨s, hs⟩ := hobject
      exact .inr ⟨s, s, tableOf?_eq_some_iff.mpr hs, tableOf?_eq_some_iff.mpr hs, .inl rfl⟩
    · exact .inl (.refl (fun s hs ↦ hobject ⟨s, hs⟩) (h.plain a))
  refine ⟨m.TakenEqual met, fun a b hab ↦ ?_, ?_⟩
  · rcases hab with hsame | ⟨s, t, ha, hb, rfl | hmet⟩
    · exact .same hsame
    · rw [tableOf?_eq_some_iff] at ha hb
      exact .objects ha hb rfl fun entry hentry ↦ ⟨entry, hentry, rfl, hself _⟩
    · rw [tableOf?_eq_some_iff] at ha hb
      obtain ⟨hsizes, hvalues⟩ := (hopened s t hmet).resolve_left (by simp)
      refine .objects ha hb hsizes fun entry hentry ↦ ?_
      obtain ⟨value, hvalue, hrelated⟩ :=
        hvalues (entry.value, m.lookUp t entry.key) (List.mem_map.mpr ⟨entry, hentry, rfl⟩)
      obtain ⟨other, hother, hkey, rfl⟩ := (h.inOrder t).mem_entries hvalue
      exact ⟨other, hother, hkey, hrelated⟩
  · obtain ⟨other, hother, hrelated⟩ := htaken _ (List.mem_singleton_self _)
    cases hother
    exact hrelated

/-- Assumes: a comparison of values that are related by a bisimulation. It finds no difference. -/
theorem WellFormed.compares_of_bisimulation (h : m.WellFormed) (hR : m.IsBisimulation R)
    {assumed : Assumed} {pairs : List (CellRef × Option CellRef)} {answer : Bool}
    (hcompares : m.Compares assumed pairs answer)
    (hpairs : ∀ pair ∈ pairs, ∃ other, pair.2 = some other ∧ R pair.1 other) : answer = true := by
  -- What is left to compare stays related; the pairs that are assumed do not matter for this.
  induction hcompares with
  | done => rfl
  | missing =>
    obtain ⟨other, hother, -⟩ := hpairs _ (List.mem_cons_self ..)
    cases hother
  | same hsame hrest ih => exact ih fun pair hmem ↦ hpairs pair (List.mem_cons_of_mem _ hmem)
  | met ha hb hmet hrest ih => exact ih fun pair hmem ↦ hpairs pair (List.mem_cons_of_mem _ hmem)
  | different hplain hdifferent =>
    obtain ⟨other, hother, hrelated⟩ := hpairs _ (List.mem_cons_self ..)
    cases hother
    cases hR _ _ hrelated with
    | same hsame => exact absurd hsame hdifferent
    | objects ha hb =>
      rw [tableOf?_eq_some_iff.mpr ha, tableOf?_eq_some_iff.mpr hb] at hplain
      simp at hplain
  | sizes ha hb hnew hsizes =>
    obtain ⟨other, hother, hrelated⟩ := hpairs _ (List.mem_cons_self ..)
    cases hother
    rw [tableOf?_eq_some_iff] at ha hb
    cases hR _ _ hrelated with
    | same hsame => exact absurd ha (hsame.not_object.1 _)
    | objects ha' hb' hsizes' =>
      cases ha.symm.trans ha'
      cases hb.symm.trans hb'
      exact absurd hsizes' hsizes
  | @opened assumed a b rest answer s t ha hb hnew hsizes hvalues ih =>
    obtain ⟨other, hother, hrelated⟩ := hpairs _ (List.mem_cons_self ..)
    cases hother
    rw [tableOf?_eq_some_iff] at ha hb
    refine ih fun pair hmem ↦ ?_
    rcases List.mem_append.mp hmem with hinside | hmem
    · obtain ⟨entry, hentry, rfl⟩ := List.mem_map.mp hinside
      cases hR _ _ hrelated with
      | same hsame => exact absurd ha (hsame.not_object.1 _)
      | objects ha' hb' hsizes' hvalues' =>
        cases ha.symm.trans ha'
        cases hb.symm.trans hb'
        obtain ⟨other, hother, hkey, hvalue⟩ := hvalues' entry hentry
        refine ⟨other.value, ?_, hvalue⟩
        change (m.table t).get? (m.keyId entry.key) = some other.value
        rw [← hkey]
        exact (h.inOrder t).get?_of_mem_entries hother
    · exact hpairs pair (List.mem_cons_of_mem _ hmem)

/-- Two values of a well-formed heap are equal exactly if they are bisimilar. -/
theorem WellFormed.equal_iff (h : m.WellFormed) : m.equal a b = true ↔ m.Bisimilar a b := by
  constructor
  · intro hequal
    have hcompares := compares_equal h a b
    rw [hequal] at hcompares
    exact h.bisimilar_of_compares hcompares
  · rintro ⟨R, hR, hrelated⟩
    refine h.compares_of_bisimulation hR (compares_equal h a b) fun pair hmem ↦ ?_
    rw [List.mem_singleton.mp hmem]
    exact ⟨b, rfl, hrelated⟩

/-! ### The order of keys -/

/-- The same cells, and the same objects up to the order of their entries. -/
structure Rearranged (m n : Machine) : Prop where
  cells : n.cells = m.cells
  entries : ∀ ref, (n.table ref).entries.Perm (m.table ref).entries

theorem Rearranged.symm (h : m.Rearranged n) : n.Rearranged m :=
  ⟨h.cells.symm, fun ref ↦ (h.entries ref).symm⟩

/-- Values match whatever the order of entries. -/
theorem Rearranged.matches (h : m.Rearranged n) (hm : m.WellFormed) (hn : n.WellFormed)
    (hmatches : m.Matches R a b) : n.Matches R a b := by
  have hcontent : ∀ cell, n.content cell = m.content cell := content_congr h.cells
  have hkeyId : ∀ cell, n.keyId cell = m.keyId cell := fun cell ↦ by
    unfold keyId
    rw [hcontent]
  have hsize : ∀ ref, (n.table ref).size = (m.table ref).size := by
    intro ref
    rw [← (hn.inOrder ref).length_entries, ← (hm.inOrder ref).length_entries,
      (h.entries ref).length_eq]
  cases hmatches with
  | same hsame =>
    refine .same ?_
    rwa [hcontent, hcontent]
  | objects ha hb hsizes hvalues =>
    refine .objects (by rw [hcontent, ha]) (by rw [hcontent, hb]) (by rw [hsize, hsize, hsizes])
      fun entry hentry ↦ ?_
    obtain ⟨other, hother, hkey, hvalue⟩ :=
      hvalues entry ((h.entries _).mem_iff.mp hentry)
    refine ⟨other, (h.entries _).mem_iff.mpr hother, ?_, hvalue⟩
    rw [hkeyId, hkeyId, hkey]

theorem Rearranged.bisimilar (h : m.Rearranged n) (hm : m.WellFormed) (hn : n.WellFormed)
    (hab : m.Bisimilar a b) : n.Bisimilar a b := by
  obtain ⟨R, hR, hrelated⟩ := hab
  exact ⟨R, fun a b hab ↦ h.matches hm hn (hR a b hab), hrelated⟩

theorem Rearranged.equal_eq (h : m.Rearranged n) (hm : m.WellFormed) (hn : n.WellFormed) :
    n.equal a b = m.equal a b := by
  rw [Bool.eq_iff_iff, hm.equal_iff, hn.equal_iff]
  exact ⟨h.symm.bisimilar hn hm, h.bisimilar hm hn⟩

/-- On a well-formed heap every comparison of two values comes to an end; they are equal exactly if
they are bisimilar; this is an equivalence; and it is the same on every heap that differs by the
order of entries only. -/
theorem equal_is_bisimilarity (h : m.WellFormed) :
    (∀ a b, m.Compares {} [(a, some b)] (m.equal a b)) ∧
      (∀ a b, m.equal a b = true ↔ m.Bisimilar a b) ∧
      (Equivalence fun a b ↦ m.equal a b = true) ∧
      ∀ n : Machine, n.WellFormed → m.Rearranged n → ∀ a b, n.equal a b = m.equal a b := by
  refine ⟨compares_equal h, fun a b ↦ h.equal_iff, ⟨fun a ↦ ?_, fun hab ↦ ?_, fun hab hbc ↦ ?_⟩,
    fun n hn hrearranged a b ↦ hrearranged.equal_eq h hn⟩
  · exact h.equal_iff.mpr (h.bisimilar_refl a)
  · exact h.equal_iff.mpr (h.bisimilar_symm (h.equal_iff.mp hab))
  · exact h.equal_iff.mpr ((h.equal_iff.mp hab).trans (h.equal_iff.mp hbc))

/-- Two objects of two entries each. The cells of the keys come first, then that of a tag, then
those of the objects. -/
def twoObjects (first second : Table) : Machine where
  cells := #[.string "self", .string "tag", .boolean true, .object ⟨0⟩, .object ⟨1⟩]
  tables := #[first, second]

/-- An object with a tag that leads to itself, where the tag was entered last. -/
def loopThenTag (self : CellRef) : Table :=
  (({} : Table).set (.string "self") ⟨0⟩ self).set (.string "tag") ⟨1⟩ ⟨2⟩

/-- An object with a tag that leads to itself, where the tag was entered first. -/
def tagThenLoop (self : CellRef) : Table :=
  (({} : Table).set (.string "tag") ⟨1⟩ ⟨2⟩).set (.string "self") ⟨0⟩ self

theorem twoObjects_wellFormed {first second : Table}
    (hfirst : first.InOrder (twoObjects first second).keyId)
    (hsecond : second.InOrder (twoObjects first second).keyId) :
    (twoObjects first second).WellFormed := by
  refine ⟨fun ref ↦ ?_, fun cell ref ↦ ?_⟩
  · obtain ⟨_ | _ | i⟩ := ref
    · exact hfirst
    · exact hsecond
    · exact Table.inOrder_empty _
  · obtain ⟨_ | _ | _ | _ | _ | i⟩ := cell <;> exact nofun

theorem loopThenTag_inOrder (first second : Table) (self : CellRef) :
    (loopThenTag self).InOrder (twoObjects first second).keyId :=
  ((Table.inOrder_empty (twoObjects first second).keyId).set ⟨0⟩ self).set ⟨1⟩ ⟨2⟩

theorem tagThenLoop_inOrder (first second : Table) (self : CellRef) :
    (tagThenLoop self).InOrder (twoObjects first second).keyId :=
  ((Table.inOrder_empty (twoObjects first second).keyId).set ⟨1⟩ ⟨2⟩).set ⟨0⟩ self

theorem keyIds_ne (first second : Table) :
    (twoObjects first second).keyId ⟨0⟩ ≠ (twoObjects first second).keyId ⟨1⟩ := by
  simp [twoObjects, keyId, content, Content.keyId]

theorem entries_loopThenTag (self : CellRef) :
    (loopThenTag self).entries = [⟨⟨0⟩, self⟩, ⟨⟨1⟩, ⟨2⟩⟩] := by
  have hentries := Table.entries_set_set (keyIds_ne {} {}) self ⟨2⟩
  exact hentries

theorem entries_tagThenLoop (self : CellRef) :
    (tagThenLoop self).entries = [⟨⟨1⟩, ⟨2⟩⟩, ⟨⟨0⟩, self⟩] := by
  have hentries := Table.entries_set_set (keyIds_ne {} {}).symm ⟨2⟩ self
  exact hentries

/-- Two objects that contain themselves are equal, however their keys were entered. -/
theorem equal_loops :
    (twoObjects (loopThenTag ⟨3⟩) (tagThenLoop ⟨4⟩)).WellFormed ∧
      (twoObjects (loopThenTag ⟨3⟩) (tagThenLoop ⟨4⟩)).equal ⟨3⟩ ⟨4⟩ = true ∧
      (twoObjects (tagThenLoop ⟨3⟩) (tagThenLoop ⟨4⟩)).equal ⟨3⟩ ⟨4⟩ = true := by
  have hmixed : (twoObjects (loopThenTag ⟨3⟩) (tagThenLoop ⟨4⟩)).WellFormed :=
    twoObjects_wellFormed (loopThenTag_inOrder _ _ _) (tagThenLoop_inOrder _ _ _)
  have halike : (twoObjects (tagThenLoop ⟨3⟩) (tagThenLoop ⟨4⟩)).WellFormed :=
    twoObjects_wellFormed (tagThenLoop_inOrder _ _ _) (tagThenLoop_inOrder _ _ _)
  have hrearranged : (twoObjects (loopThenTag ⟨3⟩) (tagThenLoop ⟨4⟩)).Rearranged
      (twoObjects (tagThenLoop ⟨3⟩) (tagThenLoop ⟨4⟩)) := by
    refine ⟨rfl, fun ref ↦ ?_⟩
    obtain ⟨_ | _ | i⟩ := ref
    · change (tagThenLoop ⟨3⟩).entries.Perm (loopThenTag ⟨3⟩).entries
      rw [entries_tagThenLoop, entries_loopThenTag]
      exact .swap _ _ _
    · exact .refl _
    · exact .refl _
  obtain ⟨-, hbisimilar, -, horder⟩ := equal_is_bisimilarity hmixed
  have hequal : (twoObjects (loopThenTag ⟨3⟩) (tagThenLoop ⟨4⟩)).equal ⟨3⟩ ⟨4⟩ = true := by
    refine (hbisimilar ⟨3⟩ ⟨4⟩).mpr
      ⟨fun a b ↦ (a, b) = (⟨3⟩, ⟨4⟩) ∨ (a, b) = (⟨2⟩, ⟨2⟩), ?_, .inl rfl⟩
    rintro a b (hab | hab) <;> cases hab
    · refine .objects (s := ⟨0⟩) (t := ⟨1⟩) rfl rfl ?_ fun entry hentry ↦ ?_
      · rw [← (hmixed.inOrder ⟨0⟩).length_entries, ← (hmixed.inOrder ⟨1⟩).length_entries]
        change (loopThenTag ⟨3⟩).entries.length = (tagThenLoop ⟨4⟩).entries.length
        rw [entries_loopThenTag, entries_tagThenLoop]
        rfl
      · change entry ∈ (loopThenTag ⟨3⟩).entries at hentry
        change ∃ other ∈ (tagThenLoop ⟨4⟩).entries, _
        rw [entries_loopThenTag] at hentry
        rw [entries_tagThenLoop]
        rcases List.mem_cons.mp hentry with rfl | hentry
        · exact ⟨_, List.mem_cons_of_mem _ (List.mem_singleton_self _), rfl, .inl rfl⟩
        · rw [List.mem_singleton.mp hentry]
          exact ⟨_, List.mem_cons_self .., rfl, .inr rfl⟩
    · exact .same (.boolean true)
  exact ⟨hmixed, hequal, (horder _ halike hrearranged ⟨3⟩ ⟨4⟩).trans hequal⟩

end Machine

/-! ### Related values

Two values are equal if they are related by a bisimulation, as long as the objects on its right side
are in order. Nothing is asked of the rest of the heap, and nothing of the bound on the comparison: a
comparison that starts inside the relation finds no difference, however far it goes. -/

namespace Machine

variable {m : Machine} {R : CellRef → CellRef → Prop} {a b : CellRef}

/-- Values that are the same compare as equal. -/
theorem equalIn_same (h : (m.content a).Same (m.content b)) (fuel : Nat) (assumed : Assumed) :
    m.equalIn (fuel + 1) assumed a b = (true, assumed) := by
  rw [equalIn]
  generalize m.content a = x at h
  generalize m.content b = y at h
  cases h
  case regex hpattern hflags => simp [hpattern, hflags]
  case hostType hstamp => simp [Content.kind, Content.keyId, hstamp]
  all_goals simp [Content.kind, Content.keyId]

/-- Every value compares as equal to itself. -/
theorem equalIn_self (m : Machine) (fuel : Nat) (assumed : Assumed) (a : CellRef) :
    m.equalIn fuel assumed a a = (true, assumed) := by
  cases fuel with
  | zero => rfl
  | succ fuel =>
    rw [equalIn]
    cases m.content a <;> simp

/-- Assumes: pairs of values each of which compares as equal, whatever has been met before. So does
a list of such pairs. -/
theorem foldl_compareNext_true {fuel : Nat} {pairs : List (CellRef × Option CellRef)}
    (h : ∀ pair ∈ pairs, ∃ other, pair.2 = some other ∧
      ∀ assumed, (m.equalIn fuel assumed pair.1 other).1 = true) (assumed : Assumed) :
    (pairs.foldl (m.compareNext fuel) (true, assumed)).1 = true := by
  induction pairs generalizing assumed with
  | nil => rfl
  | cons pair pairs ih =>
    obtain ⟨a, found⟩ := pair
    obtain ⟨other, hother, hequal⟩ := h _ (List.mem_cons_self ..)
    cases hother
    rw [List.foldl_cons]
    have hnext : m.compareNext fuel (true, assumed) (a, some other) =
        m.equalIn fuel assumed a other := rfl
    have hanswer := hequal assumed
    rw [hnext]
    generalize m.equalIn fuel assumed a other = answer at hanswer
    obtain ⟨same, later⟩ := answer
    cases hanswer
    exact ih (fun pair hmem ↦ h pair (List.mem_cons_of_mem _ hmem)) later

/-- Assumes: a bisimulation whose right sides are in order. Values it relates are equal. -/
theorem equal_of_bisimulation (hR : m.IsBisimulation R)
    (horder : ∀ a b t, R a b → m.content b = .object t → (m.table t).InOrder m.keyId)
    (hrelated : R a b) : m.equal a b = true := by
  have hall : ∀ fuel a b, R a b → ∀ assumed, (m.equalIn fuel assumed a b).1 = true := by
    intro fuel
    induction fuel with
    | zero => exact fun _ _ _ _ ↦ rfl
    | succ fuel ih =>
      intro a b hab assumed
      cases hR a b hab with
      | same hsame => rw [equalIn_same hsame]
      | @objects s t ha hb hsizes hvalues =>
        rw [equalIn_objects (tableOf?_eq_some_iff.mpr ha) (tableOf?_eq_some_iff.mpr hb)]
        by_cases hmet : s = t ∨ assumed.contains (s, t)
        · rw [if_pos hmet]
        · rw [if_neg hmet, if_neg (not_not_intro hsizes)]
          refine foldl_compareNext_true (fun pair hpair ↦ ?_) _
          obtain ⟨entry, hentry, rfl⟩ := List.mem_map.mp hpair
          obtain ⟨other, hother, hkey, hvalue⟩ := hvalues entry hentry
          refine ⟨other.value, ?_, ih _ _ hvalue⟩
          change (m.table t).get? (m.keyId entry.key) = some other.value
          rw [← hkey]
          exact (horder a b t hab hb).get?_of_mem_entries hother
  exact hall _ a b hrelated _

end Machine

end TreeScript
