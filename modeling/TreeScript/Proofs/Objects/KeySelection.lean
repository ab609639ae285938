import TreeScript.Proofs.Equality.Bisimilarity
import TreeScript.Proofs.InjectedSymbols
import TreeScript.Proofs.Iteration.Methods
import TreeScript.Proofs.Objects.Concatenation
import TreeScript.Proofs.Objects.Storage

/-!
# Removing keys and retaining them

The methods `removeKey` and `retainKey` go over an object twice. First a selector is asked about
each key: a value matches the keys it is equal to, and a function is called for every key
(`Machine.Selects`). Then the keys that match, or those that do not, are removed one by one, and
each time the entries behind move up. So a selector that fails does so before anything is removed
(`ObjectMethod.removeKeys_fails`), and else what is left is a filter of the entries
(`ObjectMethod.removeKeys_filters`). The two methods with one selector divide the keys of an object
among them (`Machine.FiltersTo.partition`), as long as the object is in order: a key that has been
overwritten behind the index is removed under what it was before.
-/

set_option autoImplicit false

namespace TreeScript

/-! ### Selectors -/

namespace ObjectMethod

/-- Whether a function accepts a key. -/
def asks (call : Call) (function key : CellRef) : Run Bool := do
  isTrue (← call.invoke "filter" function [key])

/-- Whether a selector matches a key. A function is asked, any other value is compared with it. -/
def matchesKey (call : Call) (selector key : CellRef) : Run Bool := do
  if (← content selector).isFunction then asks call selector key
  else equal key selector

theorem picks_eq (call : Call) (selector : CellRef) (picked : Bool) (entry : Entry) :
    picks call selector picked entry =
      (matchesKey call selector entry.key >>= fun found ↦ pure (found == picked)) := by
  unfold picks matchesKey asks
  rw [bind_assoc]
  congr 1
  funext content
  split
  · exact (bind_assoc ..).symm
  · rfl

end ObjectMethod

namespace Machine

variable {m n k : Machine} {I : Machine → Prop} {call : Call} {selector key : CellRef}
  {verdict : Content → Option Bool}

/-- A run comes to an answer, or fails if there is none to come to. It leaves alone what there is,
and an answer keeps an invariant. -/
def Judges (m : Machine) (I : Machine → Prop) (x : Run Bool) : Option Bool → Prop
  | some answer => ∃ n, x m = .ok answer n ∧ I n ∧ KeepsFrom 0 m n
  | none => ∃ failure n, x m = .error failure n ∧ KeepsFrom 0 m n

/-- A function without side effects. By what a key is it accepts the key, rejects it or fails, on
all machines on which an invariant holds that no call breaks. -/
structure AnswersBy (m : Machine) (I : Machine → Prop) (call : Call) (function : CellRef)
    (verdict : Content → Option Bool) : Prop where
  begins : I m
  answers : ∀ n key, I n → key.index < n.cells.size → (n.content key).IsPlainKey →
    n.Judges I (ObjectMethod.asks call function key) (verdict (n.content key))

/-- What a selector makes of keys: a value matches those it is equal to, and a function without side
effects matches those it accepts, and may fail for others. -/
inductive Selects (m : Machine) (call : Call) (selector : CellRef)
    (verdict : Content → Option Bool) : Prop
  | value (hvalue : (m.content selector).isFunction = false)
      (hverdict : ∀ key, (m.content key).IsPlainKey →
        verdict (m.content key) = some (m.equal key selector)) :
      Selects m call selector verdict
  | function (I : Machine → Prop) (hfunction : (m.content selector).isFunction = true)
      (hanswers : m.AnswersBy I call selector verdict) : Selects m call selector verdict

theorem Judges.mono {x : Run Bool} {expected : Option Bool} {J : Machine → Prop}
    (h : m.Judges I x expected) (hJ : ∀ n, I n → KeepsFrom 0 m n → J n) :
    m.Judges J x expected := by
  cases expected with
  | none => exact h
  | some answer =>
    obtain ⟨n, hx, hn, hkept⟩ := h
    exact ⟨n, hx, hJ n hn hkept, hkept⟩

/-- Whether a plain key is equal to a value depends on nothing but the two. -/
theorem equal_of_isPlainKey (hkey : (m.content key).IsPlainKey) :
    m.equal key selector = ((m.content key).kind == (m.content selector).kind &&
      (m.content key).keyId == (m.content selector).keyId) := by
  unfold equal
  rw [equalIn]
  generalize m.content key = x at hkey
  generalize m.content selector = y
  cases x <;> cases hkey <;> cases y <;> simp [Content.kind, Content.keyId, beq_eq_decide]

/-- Every value is a selector. -/
theorem exists_selects (call : Call) (hvalue : (m.content selector).isFunction = false) :
    ∃ verdict, m.Selects call selector verdict ∧ ∀ key, (m.content key).IsPlainKey →
      verdict (m.content key) = some (m.equal key selector) := by
  let same (key : Content) := key.kind == (m.content selector).kind &&
    key.keyId == (m.content selector).keyId
  have hverdict : ∀ key, (m.content key).IsPlainKey →
      some (same (m.content key)) = some (m.equal key selector) :=
    fun key hkey ↦ congrArg some (equal_of_isPlainKey hkey).symm
  exact ⟨fun key ↦ some (same key), .value hvalue hverdict, hverdict⟩

/-- A selector judges plain keys by what they are, as long as some invariant holds. -/
theorem Selects.judges (h : m.Selects call selector verdict) :
    ∃ I : Machine → Prop, I m ∧ (∀ n, I n → KeepsFrom 0 m n) ∧
      ∀ n key, I n → key.index < n.cells.size → (n.content key).IsPlainKey →
        n.Judges I (ObjectMethod.matchesKey call selector key) (verdict (n.content key)) := by
  cases h with
  | value hvalue hverdict =>
    refine ⟨(· = m), rfl, fun n hn ↦ hn ▸ (Grown.refl m).keepsFrom 0, ?_⟩
    rintro n key rfl - hkey
    rw [hverdict key hkey]
    refine ⟨n, ?_, rfl, (Grown.refl n).keepsFrom 0⟩
    have hread : TreeScript.content selector n = .ok (n.content selector) n := rfl
    unfold ObjectMethod.matchesKey
    rw [Run.bind_ok hread, hvalue]
    rfl
  | function I hfunction hanswers =>
    refine ⟨fun n ↦ I n ∧ KeepsFrom 0 m n, ⟨hanswers.begins, (Grown.refl m).keepsFrom 0⟩,
      fun n hn ↦ hn.2, fun n key ⟨hn, hkept⟩ hbound hkey ↦ ?_⟩
    have hsame : n.content selector = m.content selector := by
      refine hkept.cells.content selector (bound_of_content fun hempty ↦ ?_)
      rw [hempty] at hfunction
      cases hfunction
    have hread : TreeScript.content selector n = .ok (m.content selector) n := by
      rw [← hsame]
      rfl
    have hasked : ObjectMethod.matchesKey call selector key n =
        ObjectMethod.asks call selector key n := by
      unfold ObjectMethod.matchesKey
      rw [Run.bind_ok hread, if_pos hfunction]
    have hjudged := (hanswers.answers n key hn hbound hkey).mono
      (J := fun k ↦ I k ∧ KeepsFrom 0 m k) fun k hk hlater ↦ ⟨hk, hkept.trans hlater⟩
    unfold Judges at hjudged ⊢
    rwa [hasked]

end Machine

/-! ### Choosing entries -/

namespace ObjectMethod

open Machine

variable {m n : Machine} {I : Machine → Prop} {call : Call} {selector : CellRef} {ref : TableRef}
  {verdict : Content → Option Bool} {entries : List Entry} {picked : Bool}

/-- Assumes: a selector that comes to an answer for the key of an entry. The entry is noted if it is
to be. -/
theorem selectTurn_answered {entry : Entry} {found : Bool}
    (h : m.Judges I (matchesKey call selector entry.key) (some found)) (picked : Bool)
    (noted : Array Entry) :
    ∃ n, selectTurn (picks call selector picked) noted entry m =
      .ok (if found == picked then noted.push entry else noted) n ∧ I n ∧ KeepsFrom 0 m n := by
  obtain ⟨n, hfound, hn, hkept⟩ := h
  unfold selectTurn
  rw [picks_eq, bind_assoc]
  exact ⟨n, Run.bind_ok hfound, hn, hkept⟩

/-- Assumes: a selector that fails for the key of an entry. The turn fails. -/
theorem selectTurn_failed {entry : Entry}
    (h : m.Judges I (matchesKey call selector entry.key) none) (picked : Bool)
    (noted : Array Entry) :
    ∃ failure n, selectTurn (picks call selector picked) noted entry m = .error failure n ∧
      KeepsFrom 0 m n := by
  obtain ⟨failure, n, hfailed, hkept⟩ := h
  unfold selectTurn
  rw [picks_eq, bind_assoc]
  exact ⟨failure, n, Run.bind_error hfailed, hkept⟩

/-- Entries the keys of which are judged by what they are on some machine, on this machine and on
later ones. -/
def JudgesEntries (m : Machine) (I : Machine → Prop) (call : Call) (selector : CellRef)
    (verdict : Content → Option Bool) (entries : List Entry) : Prop :=
  ∀ entry ∈ entries, ∀ n, I n → n.Judges I (matchesKey call selector entry.key)
    (verdict (m.content entry.key))

/-- Assumes: an answer for every entry. Those that are to be are noted, in their order. -/
theorem foldlM_selectTurn_answered (h : JudgesEntries m I call selector verdict entries)
    (hall : ∀ entry ∈ entries, verdict (m.content entry.key) ≠ none) (picked : Bool) (hn : I n)
    (noted : Array Entry) :
    ∃ noted' k, entries.foldlM (selectTurn (picks call selector picked)) noted n = .ok noted' k ∧
      I k ∧ noted'.toList =
        noted.toList ++ entries.filter fun entry ↦ verdict (m.content entry.key) = some picked := by
  induction entries generalizing n noted with
  | nil => exact ⟨noted, n, rfl, hn, (List.append_nil _).symm⟩
  | cons entry entries ih =>
    obtain ⟨hfirst, hlater⟩ := List.forall_mem_cons.mp h
    obtain ⟨hanswer, hanswers⟩ := List.forall_mem_cons.mp hall
    obtain ⟨found, hfound⟩ := Option.ne_none_iff_exists'.mp hanswer
    have hjudged := hfirst n hn
    rw [hfound] at hjudged
    obtain ⟨k, hturn, hk, -⟩ := selectTurn_answered hjudged picked noted
    obtain ⟨noted', l, hloop, hl, hnoted⟩ :=
      ih hlater hanswers hk (if found == picked then noted.push entry else noted)
    refine ⟨noted', l, ?_, hl, ?_⟩
    · rw [List.foldlM_cons, Run.bind_ok hturn, hloop]
    · rw [hnoted, List.filter_cons, hfound]
      by_cases hsame : found = picked <;> simp [hsame]

/-- Assumes: an entry for which the selector fails. So does the choice. -/
theorem foldlM_selectTurn_failed (h : JudgesEntries m I call selector verdict entries)
    (hfails : ∃ entry ∈ entries, verdict (m.content entry.key) = none) (picked : Bool) (hn : I n)
    (noted : Array Entry) :
    ∃ failure k, entries.foldlM (selectTurn (picks call selector picked)) noted n =
      .error failure k ∧ KeepsFrom 0 n k := by
  induction entries generalizing n noted with
  | nil =>
    obtain ⟨_, hnone, -⟩ := hfails
    cases hnone
  | cons entry entries ih =>
    obtain ⟨hfirst, hlater⟩ := List.forall_mem_cons.mp h
    have hjudged := hfirst n hn
    cases hfound : verdict (m.content entry.key) with
    | none =>
      rw [hfound] at hjudged
      obtain ⟨failure, k, hturn, hkept⟩ := selectTurn_failed hjudged picked noted
      refine ⟨failure, k, ?_, hkept⟩
      rw [List.foldlM_cons, Run.bind_error hturn]
    | some found =>
      rw [hfound] at hjudged
      obtain ⟨k, hturn, hk, hkept⟩ := selectTurn_answered hjudged picked noted
      have hrest : ∃ entry ∈ entries, verdict (m.content entry.key) = none := by
        obtain ⟨failing, hmem, hnone⟩ := hfails
        rcases List.mem_cons.mp hmem with rfl | hmem
        · cases hfound.symm.trans hnone
        · exact ⟨failing, hmem, hnone⟩
      obtain ⟨failure, l, hloop, hkept'⟩ :=
        ih hlater hrest hk (if found == picked then noted.push entry else noted)
      refine ⟨failure, l, ?_, hkept.trans hkept'⟩
      rw [List.foldlM_cons, Run.bind_ok hturn, hloop]

/-! ### Removing entries -/

/-- The keys of some entries. -/
def idsOf (m : Machine) (entries : List Entry) : List KeyId :=
  entries.map fun entry ↦ m.keyId entry.key

/-- Once the keys of some entries are removed one by one, the other entries are left in their order,
and the keys that were removed lead to nothing. -/
theorem removeAll_apply (h : m.Orderly ref) (doomed : List Entry) :
    ∃ n, (forIn doomed PUnit.unit fun entry _ ↦ do
        let _ ← eraseEntry ref entry.key
        return .yield PUnit.unit : Run PUnit) m = .ok ⟨⟩ n ∧ m.AltersOnly ref n ∧ n.Orderly ref ∧
      (n.table ref).entries =
        ((m.table ref).entries.filter fun entry ↦ m.keyId entry.key ∉ idsOf m doomed) ∧
      ∀ id, (n.table ref).get? id =
        if id ∈ idsOf m doomed then none else (m.table ref).get? id := by
  induction doomed generalizing m with
  | nil =>
    exact ⟨m, rfl, ((Grown.refl m).keepsFrom 0).altersOnly ref, h, by simp [idsOf], by simp [idsOf]⟩
  | cons entry doomed ih =>
    have hstep : (m.after (.remove ref entry.key)).Orderly ref := h.after trivial
    obtain ⟨n, hran, halters, hn, hentries, hfound⟩ := ih hstep
    have hids : idsOf (m.after (.remove ref entry.key)) doomed = idsOf m doomed := rfl
    have hid : (m.after (.remove ref entry.key)).keyId = m.keyId := rfl
    have hmem (id : KeyId) : id ∈ idsOf m (entry :: doomed) ↔
        id = m.keyId entry.key ∨ id ∈ idsOf m doomed := List.mem_cons
    rw [hids] at hfound
    rw [hids, hid, h.entries_remove, List.filter_filter] at hentries
    refine ⟨n, ?_, (altersOnly_remove m ref entry.key).trans halters, hn, ?_, fun id ↦ ?_⟩
    · rw [List.forIn_cons, bind_assoc, Run.bind_ok (eraseEntry_apply ref entry.key m)]
      exact hran
    · rw [hentries]
      refine List.filter_congr fun other _ ↦ ?_
      rw [← Bool.decide_and, decide_eq_decide, hmem, not_or, and_comm]
    · rw [hfound, h.get?_remove]
      simp only [hmem]
      by_cases hlast : id = m.keyId entry.key <;> simp [hlast]

theorem eraseEntries_apply (self : CellRef) (h : m.Orderly ref) (doomed : Array Entry) :
    ∃ n, eraseEntries self ref doomed m = .ok self n ∧ m.AltersOnly ref n ∧ n.Orderly ref ∧
      (n.table ref).entries =
        ((m.table ref).entries.filter fun entry ↦ m.keyId entry.key ∉ idsOf m doomed.toList) ∧
      ∀ id, (n.table ref).get? id =
        if id ∈ idsOf m doomed.toList then none else (m.table ref).get? id := by
  obtain ⟨n, hran, hrest⟩ := removeAll_apply h doomed.toList
  exact ⟨n, Run.bind_ok hran, hrest⟩

end ObjectMethod

/-- Only a plain key is the same key as a plain one, and then the two are the same. -/
theorem Content.eq_of_keyId_eq {x y : Content} (hx : x.IsPlainKey) (h : y.keyId = x.keyId) :
    y = x := by
  cases x <;> cases hx <;> cases y <;> simp_all [Content.keyId]

namespace Machine

/-- Of an object the entries are left whose keys are to be kept, in their order. Each key that is
kept leads to what it led to, and no other one to anything; all else is as it was. -/
structure FiltersTo (m : Machine) (ref : TableRef) (keep : Content → Bool) (n : Machine) :
    Prop where
  alters : m.AltersOnly ref n
  orderly : n.Orderly ref
  entries : (n.table ref).entries =
    (m.table ref).entries.filter fun entry ↦ keep (m.content entry.key)
  found : ∀ key : Content, key.IsPlainKey →
    (n.table ref).get? key.keyId = if keep key then (m.table ref).get? key.keyId else none

/-- An object in order with plain keys: empty values, numbers, strings and truth values. -/
structure HasPlainKeys (m : Machine) (cell : CellRef) (ref : TableRef) : Prop where
  object : m.content cell = .object ref
  orderly : m.Orderly ref
  plain : ∀ entry ∈ (m.table ref).entries, (m.content entry.key).IsPlainKey

end Machine

namespace ObjectMethod

open Machine

variable {m n : Machine} {call : Call} {self selector : CellRef} {ref : TableRef}
  {verdict : Content → Option Bool} {picked : Bool}

/-- A selector judges all entries of an object, and leaves the object alone. -/
theorem exists_judgesEntries (hself : m.HasPlainKeys self ref)
    (hselects : m.Selects call selector verdict) :
    ∃ I : Machine → Prop, I m ∧ (∀ n, I n → KeepsFrom 0 m n) ∧
      JudgesEntries m I call selector verdict (m.table ref).entries := by
  obtain ⟨I, hm, hkeeps, hjudges⟩ := hselects.judges
  refine ⟨I, hm, hkeeps, fun entry hentry n hn ↦ ?_⟩
  have hbound := hself.orderly.keys entry hentry
  have hsame := (hkeeps n hn).cells.content entry.key hbound
  have hjudged := hjudges n entry.key hn (Nat.lt_of_lt_of_le hbound (hkeeps n hn).cells.size)
    (hsame ▸ hself.plain entry hentry)
  rwa [hsame] at hjudged

/-- Assumes: a selector that judges all entries of an object, and leaves the object alone. The walk
over the object meets the entries one by one. -/
theorem forEntries_selectTurn {I : Machine → Prop} (hself : m.HasPlainKeys self ref) (hm : I m)
    (hkeeps : ∀ n, I n → KeepsFrom 0 m n)
    (hjudges : JudgesEntries m I call selector verdict (m.table ref).entries) (picked : Bool) :
    forEntries ref #[] (selectTurn (picks call selector picked)) m =
      (m.table ref).entries.foldlM (selectTurn (picks call selector picked)) #[] m := by
  refine forEntries_eq (fun n hn ↦ (hkeeps n hn).table ref (Nat.zero_le _) hself.orderly.table)
    hself.orderly.inOrder.length_entries (fun entry hentry noted n noted' n' hn hturn ↦ ?_) hm #[]
  have hjudged := hjudges entry hentry n hn
  cases hfound : verdict (m.content entry.key) with
  | none =>
    rw [hfound] at hjudged
    obtain ⟨failure, k, hfailed, -⟩ := selectTurn_failed hjudged picked noted
    cases hfailed.symm.trans hturn
  | some found =>
    rw [hfound] at hjudged
    obtain ⟨k, hanswered, hk, -⟩ := selectTurn_answered hjudged picked noted
    cases hanswered.symm.trans hturn
    exact hk

/-- Assumes: a selector with an answer for every key of an object. The keys with one answer are
removed, and those with the other one are left. -/
theorem removeKeys_filters (hself : m.HasPlainKeys self ref)
    (hselects : m.Selects call selector verdict)
    (hall : ∀ entry ∈ (m.table ref).entries, verdict (m.content entry.key) ≠ none) (picked : Bool) :
    ∃ n, removeKeys call self selector picked m = .ok self n ∧
      m.FiltersTo ref (fun key ↦ verdict key = some !picked) n := by
  obtain ⟨I, hm, hkeeps, hjudges⟩ := exists_judgesEntries hself hselects
  obtain ⟨doomed, k, hchosen, hk, hdoomed⟩ :=
    foldlM_selectTurn_answered hjudges hall picked hm #[]
  have hkept := hkeeps k hk
  have htable : k.table ref = m.table ref := hkept.table ref (Nat.zero_le _) hself.orderly.table
  have horderly : k.Orderly ref := hself.orderly.kept hkept.cells hkept.size htable
  obtain ⟨n, herased, halters, hn, hentries, hfound⟩ := eraseEntries_apply self horderly doomed
  have hid {entry : Entry} (hentry : entry ∈ (m.table ref).entries) :
      k.keyId entry.key = (m.content entry.key).keyId :=
    hkept.cells.keyId (hself.orderly.keys entry hentry)
  -- Plain keys are told apart by what they are: no other entry has the key of one that is picked.
  have hmem (key : Content) (hkey : key.IsPlainKey) : key.keyId ∈ idsOf k doomed.toList ↔
      verdict key = some picked ∧ ∃ entry ∈ (m.table ref).entries, m.content entry.key = key := by
    rw [hdoomed, idsOf, List.mem_map]
    simp only [List.nil_append, List.mem_filter, decide_eq_true_eq]
    constructor
    · rintro ⟨entry, ⟨hentry, hpicked⟩, hsame⟩
      rw [hid hentry] at hsame
      have hsame := Content.eq_of_keyId_eq hkey hsame
      exact ⟨hsame ▸ hpicked, entry, hentry, hsame⟩
    · rintro ⟨hpicked, entry, hentry, rfl⟩
      exact ⟨entry, ⟨hentry, hpicked⟩, hid hentry⟩
  have hanswer {entry : Entry} (hentry : entry ∈ (m.table ref).entries) :
      ¬verdict (m.content entry.key) = some picked ↔
        verdict (m.content entry.key) = some !picked := by
    obtain ⟨found, hfound⟩ := Option.ne_none_iff_exists'.mp (hall entry hentry)
    rw [hfound, Option.some.injEq, Option.some.injEq, Bool.eq_not]
  refine ⟨n, ?_, (hkept.altersOnly ref).trans halters, hn, ?_, fun key hkey ↦ ?_⟩
  · rw [removeKeys_eq hself.object, Run.bind_ok
      ((forEntries_selectTurn hself hm hkeeps hjudges picked).trans hchosen)]
    exact herased
  · rw [hentries, htable]
    refine List.filter_congr fun entry hentry ↦ ?_
    rw [decide_eq_decide, hid hentry, hmem _ (hself.plain entry hentry), ← hanswer hentry,
      and_iff_left ⟨entry, hentry, rfl⟩]
  · rw [hfound, htable]
    by_cases hleft : verdict key = some !picked
    · rw [if_neg, decide_eq_true hleft, if_pos rfl]
      intro hgone
      rw [((hmem key hkey).mp hgone).1, Option.some.injEq] at hleft
      exact (Bool.eq_not_self picked).mp hleft
    · rw [decide_eq_false hleft, if_neg Bool.false_ne_true]
      split
      · rfl
      · rename_i hstays
        refine hself.orderly.inOrder.get?_eq_none_iff.mpr fun entry hentry hsame ↦ hstays ?_
        obtain rfl := Content.eq_of_keyId_eq hkey hsame
        exact (hmem _ hkey).mpr ⟨not_not.mp (mt (hanswer hentry).mp hleft), entry, hentry, rfl⟩

/-- Assumes: a selector that fails for a key of an object. So does the method, and leaves alone what
there is. -/
theorem removeKeys_fails (hself : m.HasPlainKeys self ref)
    (hselects : m.Selects call selector verdict)
    (hfails : ∃ entry ∈ (m.table ref).entries, verdict (m.content entry.key) = none)
    (picked : Bool) :
    ∃ failure n, removeKeys call self selector picked m = .error failure n ∧ KeepsFrom 0 m n := by
  obtain ⟨I, hm, hkeeps, hjudges⟩ := exists_judgesEntries hself hselects
  obtain ⟨failure, n, hfailed, hkept⟩ := foldlM_selectTurn_failed hjudges hfails picked hm #[]
  refine ⟨failure, n, ?_, hkept⟩
  rw [removeKeys_eq hself.object, Run.bind_error
    ((forEntries_selectTurn hself hm hkeeps hjudges picked).trans hfailed)]

end ObjectMethod

/-! ### The two parts of an object -/

namespace Machine

variable {m n k l : Machine} {ref table : TableRef} {self other : CellRef} {a b : CellRef}
  {keep : Content → Bool} {fuel : Nat}

/-- Assumes: a comparison of two objects that finds no difference. Every key of the one is in the
other. -/
theorem found_of_foldl_compareNext {pairs : List (CellRef × Option CellRef)} {assumed : Assumed}
    (h : (pairs.foldl (m.compareNext fuel) (true, assumed)).1 = true) :
    ∀ pair ∈ pairs, pair.2 ≠ none := by
  induction pairs generalizing assumed with
  | nil => exact fun _ hpair ↦ (List.not_mem_nil hpair).elim
  | cons pair pairs ih =>
    obtain ⟨value, found⟩ := pair
    rw [List.foldl_cons] at h
    cases found with
    | none =>
      have hnext : m.compareNext fuel (true, assumed) (value, none) = (false, assumed) := rfl
      rw [hnext, foldl_compareNext_false] at h
      cases h
    | some other =>
      have hnext : m.compareNext fuel (true, assumed) (value, some other) =
          m.equalIn fuel assumed value other := rfl
      rw [hnext] at h
      generalize m.equalIn fuel assumed value other = answer at h
      obtain ⟨same, later⟩ := answer
      cases same with
      | false =>
        rw [foldl_compareNext_false] at h
        cases h
      | true => exact List.forall_mem_cons.mpr ⟨nofun, ih h⟩

/-- Equal objects have the same keys. -/
theorem mem_keyIds_iff_of_equal (ha : m.content a = .object ref) (hb : m.content b = .object table)
    (hfirst : m.Orderly ref) (hsecond : m.Orderly table) (h : m.equal a b = true) (id : KeyId) :
    id ∈ m.keyIds ref ↔ id ∈ m.keyIds table := by
  unfold equal at h
  rw [equalIn_objects (tableOf?_eq_some_iff.mpr ha) (tableOf?_eq_some_iff.mpr hb)] at h
  by_cases hmet : ref = table
  · rw [hmet]
  · rw [if_neg (not_or.mpr ⟨hmet, by simp⟩)] at h
    by_cases hsizes : (m.table ref).size = (m.table table).size
    · rw [if_neg (not_not_intro hsizes)] at h
      have hfound := found_of_foldl_compareNext h
      have hsame := (hfirst.inOrder.same_keys_iff hsecond.inOrder).mpr
        ⟨hsizes, fun entry hentry ↦ hfound _ (List.mem_map_of_mem hentry)⟩
      rw [hfirst.mem_keyIds_iff, hsecond.mem_keyIds_iff, Ne, Ne, hsame]
    · rw [if_pos hsizes] at h
      cases h

namespace FiltersTo

theorem mem_keyIds_iff (h : m.FiltersTo ref keep n) (horderly : m.Orderly ref) {key : Content}
    (hkey : key.IsPlainKey) :
    key.keyId ∈ n.keyIds ref ↔ keep key = true ∧ key.keyId ∈ m.keyIds ref := by
  rw [h.orderly.mem_keyIds_iff, horderly.mem_keyIds_iff, h.found key hkey]
  cases keep key <;> simp

/-- No key comes in. -/
theorem keyIds_subset (h : m.FiltersTo ref keep n) (horderly : m.Orderly ref) :
    n.keyIds ref ⊆ m.keyIds ref := by
  intro id hid
  obtain ⟨key, hkey, rfl⟩ := List.mem_map.mp hid
  obtain ⟨entry, hentry, rfl⟩ := List.mem_map.mp hkey
  rw [h.entries] at hentry
  have hformer := (List.mem_filter.mp hentry).1
  rw [h.alters.cells.keyId (horderly.keys entry hformer)]
  exact List.mem_map_of_mem (List.mem_map_of_mem hformer)

end FiltersTo

/-- The keys of an object are what plain keys are. -/
theorem HasPlainKeys.exists_key (h : m.HasPlainKeys self ref) {id : KeyId}
    (hid : id ∈ m.keyIds ref) : ∃ key : Content, key.IsPlainKey ∧ key.keyId = id := by
  obtain ⟨key, hkey, rfl⟩ := List.mem_map.mp hid
  obtain ⟨entry, hentry, rfl⟩ := List.mem_map.mp hkey
  exact ⟨_, h.plain entry hentry, rfl⟩

/-- The keys of an object in order are the same while its table and their cells stay. -/
theorem Orderly.keyIds_kept (h : m.Orderly ref) (hcells : m.KeepsCells k)
    (htable : k.table ref = m.table ref) : k.keyIds ref = m.keyIds ref := by
  unfold keyIds
  rw [htable]
  refine List.map_congr_left fun key hkey ↦ ?_
  obtain ⟨entry, hentry, rfl⟩ := List.mem_map.mp hkey
  exact hcells.keyId (h.keys entry hentry)

theorem HasPlainKeys.kept (h : m.HasPlainKeys self ref) (hcells : m.KeepsCells k)
    (hsize : m.tables.size ≤ k.tables.size) (htable : k.table ref = m.table ref) :
    k.HasPlainKeys self ref := by
  refine ⟨?_, h.orderly.kept hcells hsize htable, fun entry hentry ↦ ?_⟩
  · rw [hcells.content self (bound_of_object h.object), h.object]
  · rw [htable] at hentry
    rw [hcells.content entry.key (h.orderly.keys entry hentry)]
    exact h.plain entry hentry

/-- The keys of an equal object are what those of the object are. -/
theorem HasPlainKeys.keys_of_equal (h : m.HasPlainKeys self ref)
    (hobject : m.content other = .object table) (horderly : m.Orderly table)
    (hequal : m.equal self other = true) :
    ∀ entry ∈ (m.table table).entries, ∃ former ∈ (m.table ref).entries,
      m.content entry.key = m.content former.key := by
  intro entry hentry
  have hid : m.keyId entry.key ∈ m.keyIds ref :=
    (mem_keyIds_iff_of_equal h.object hobject h.orderly horderly hequal _).mpr
      (List.mem_map_of_mem (List.mem_map_of_mem hentry))
  obtain ⟨key, hkey, hsame⟩ := List.mem_map.mp hid
  obtain ⟨former, hformer, rfl⟩ := List.mem_map.mp hkey
  exact ⟨former, hformer, Content.eq_of_keyId_eq (h.plain former hformer) hsame.symm⟩

/-- Assumes: two objects with the same keys. If one of them is left with the keys that pass a test,
and the other one with those that do not, each key is left in one of the two. -/
theorem FiltersTo.partition {drop : Content → Bool} (hself : m.HasPlainKeys self ref)
    (hother : k.Orderly table) (hkeys : ∀ id, id ∈ m.keyIds ref ↔ id ∈ k.keyIds table)
    (hleft : m.FiltersTo ref drop n) (hkept : k.FiltersTo table keep l)
    (hsplit : ∀ entry ∈ (m.table ref).entries,
      drop (m.content entry.key) = !keep (m.content entry.key)) :
    (n.keyIds ref ++ l.keyIds table).Perm (m.keyIds ref) := by
  have horderly := hself.orderly
  have hmem {key : Content} (hkey : key.IsPlainKey) (hpresent : key.keyId ∈ m.keyIds ref) :
      key.keyId ∈ n.keyIds ref ↔ key.keyId ∉ l.keyIds table := by
    obtain ⟨cell, hcell, hsame⟩ := List.mem_map.mp hpresent
    obtain ⟨entry, hentry, rfl⟩ := List.mem_map.mp hcell
    have hdrop := hsplit entry hentry
    rw [Content.eq_of_keyId_eq hkey hsame] at hdrop
    rw [hleft.mem_keyIds_iff horderly hkey, hkept.mem_keyIds_iff hother hkey, hdrop,
      and_iff_left hpresent, and_iff_left ((hkeys _).mp hpresent), Bool.not_eq_true',
      Bool.not_eq_true]
  have hlater {id : KeyId} (hid : id ∈ l.keyIds table) : id ∈ m.keyIds ref :=
    (hkeys id).mpr (hkept.keyIds_subset hother hid)
  refine (List.perm_ext_iff_of_nodup ?_ horderly.nodup_keyIds).mpr fun id ↦ ?_
  · refine List.nodup_append.mpr ⟨hleft.orderly.nodup_keyIds, hkept.orderly.nodup_keyIds, ?_⟩
    rintro id hid _ hid' rfl
    obtain ⟨key, hkey, rfl⟩ := hself.exists_key (hlater hid')
    exact (hmem hkey (hlater hid')).mp hid hid'
  · rw [List.mem_append]
    refine ⟨fun hid ↦ hid.elim (fun hid ↦ hleft.keyIds_subset horderly hid) hlater, fun hid ↦ ?_⟩
    obtain ⟨key, hkey, rfl⟩ := hself.exists_key hid
    by_cases hid' : key.keyId ∈ l.keyIds table
    · exact .inr hid'
    · exact .inl ((hmem hkey hid).mpr hid')

end Machine

/-! ### The keys of another object as a selector -/

/-- To ask an object whether it has a key leaves alone what there is. -/
theorem ObjectMethod.run_containsKey (call : Call) (key : CellRef) {m : Machine} {self : CellRef}
    {ref : TableRef} (hself : m.content self = .object ref) :
    run call .containsKey self [key] m =
      .ok ⟨m.cells.size⟩ (m.withCell (.boolean (m.lookUp ref key).isSome)) := by
  change (tableOrNew self >>= fun ref ↦ _) m = _
  rw [Run.bind_ok (tableOrNew_apply hself)]
  rfl

/-- The method `containsKey` of an object answers for every key whether the object has it. -/
theorem Machine.answersBy_containsKey {m : Machine} {function receiver : CellRef} {ref : TableRef}
    {stamp : Stamp} {fuel : Nat} {site : Site} {call : Call}
    (hcall : (interp (fuel + 1)).callFrom site m = .ok call m)
    (hfunction : m.content function = .method stamp (.object .containsKey) receiver)
    (hreceiver : m.content receiver = .object ref) (hexists : ref.index < m.tables.size) :
    m.AnswersBy (KeepsFrom 0 m) call function
      fun key ↦ some ((m.table ref).get? key.keyId).isSome := by
  refine ⟨(Grown.refl m).keepsFrom 0, fun n key hn hbound _ ↦ ?_⟩
  have hkeeps {cell : CellRef} (hcell : m.content cell ≠ .empty) :
      n.content cell = m.content cell := hn.cells.content cell (bound_of_content hcell)
  have hmethod := (hkeeps (by rw [hfunction]; exact nofun)).trans hfunction
  have hobject := (hkeeps (by rw [hreceiver]; exact nofun)).trans hreceiver
  obtain ⟨inner, k, -, hunwound, hinvoked⟩ :=
    (interp fuel).callValue_announced site "filter" .none [key] hmethod rfl
  have hrun := ObjectMethod.run_containsKey inner key ((hunwound.content receiver).trans hobject)
  have hfound : k.lookUp ref key = (m.table ref).get? (n.content key).keyId := by
    unfold lookUp
    rw [hunwound.table ref, hn.table ref (Nat.zero_le _) hexists]
    exact congrArg (fun content ↦ (m.table ref).get? content.keyId) (hunwound.content key)
  rw [hfound] at hrun
  let answered := k.withCell (.boolean ((m.table ref).get? (n.content key).keyId).isSome)
  have hkept : KeepsFrom 0 n answered :=
    hunwound.keepsFrom.trans ((k.grown_withCell _).keepsFrom 0)
  have hcalled : call.invoke "filter" function [key] n = .ok ⟨k.cells.size⟩ answered := by
    cases hcall
    exact hinvoked.trans (Run.traced_ok site .native hrun)
  have htrue : answered.isTrue ⟨k.cells.size⟩ =
      ((m.table ref).get? (n.content key).keyId).isSome := by
    unfold isTrue isTrueIn
    rw [content_new]
  refine ⟨answered, ?_, hn.trans hkept, hkept⟩
  unfold ObjectMethod.asks
  rw [Run.bind_ok hcalled, ← htrue]
  rfl

/-! ### Both methods -/

open ObjectMethod in
/-- Assumes: an object in order, the keys of which are empty values, numbers, strings or truth
values. Every value is a selector, which matches the keys it is equal to. Let a selector be a value
or a function without side effects. If it fails for no key, `removeKey` leaves the entries whose
keys do not match, and `retainKey`, then or later, those of an equal object whose keys do: in their
order, under the same keys, and so that each key of the object is in one of the two. If it fails for
some key, so do both methods, and all there was is as it was. -/
theorem removed_and_retained_keys_partition {m : Machine} {self : CellRef} {ref : TableRef}
    (call : Call) (hself : m.HasPlainKeys self ref) :
    (∀ selector, (m.content selector).isFunction = false → ∃ verdict,
      m.Selects call selector verdict ∧ ∀ key, (m.content key).IsPlainKey →
        verdict (m.content key) = some (m.equal key selector)) ∧
    ∀ (selector : CellRef) (verdict : Content → Option Bool), m.Selects call selector verdict →
      ((∀ entry ∈ (m.table ref).entries, verdict (m.content entry.key) ≠ none) →
        ∃ n, run call .removeKey self [selector] m = .ok self n ∧
          m.FiltersTo ref (fun key ↦ verdict key = some false) n ∧
          ∀ (other : CellRef) (table : TableRef) (k : Machine) (later : Call),
            m.content other = .object table → m.Orderly table → m.equal self other = true →
            m.KeepsCells k → m.tables.size ≤ k.tables.size → k.table table = m.table table →
            k.Selects later selector verdict →
              ∃ l, run later .retainKey other [selector] k = .ok other l ∧
                k.FiltersTo table (fun key ↦ verdict key = some true) l ∧
                (n.keyIds ref ++ l.keyIds table).Perm (m.keyIds ref)) ∧
      ((∃ entry ∈ (m.table ref).entries, verdict (m.content entry.key) = none) →
        ∀ method ∈ [ObjectMethod.removeKey, .retainKey],
          ∃ failure n, run call method self [selector] m = .error failure n ∧
            Machine.KeepsFrom 0 m n) := by
  refine ⟨fun selector hvalue ↦ m.exists_selects call hvalue,
    fun selector verdict hselects ↦ ⟨fun hall ↦ ?_, fun hfails method hmethod ↦ ?_⟩⟩
  · obtain ⟨n, hremoved, hleft⟩ := removeKeys_filters hself hselects hall true
    refine ⟨n, hremoved, hleft,
      fun other table k later hobject horderly hequal hcells hsize htable hlater ↦ ?_⟩
    have hkeys := hself.keys_of_equal hobject horderly hequal
    have hother : m.HasPlainKeys other table := by
      refine ⟨hobject, horderly, fun entry hentry ↦ ?_⟩
      obtain ⟨former, hformer, hsame⟩ := hkeys entry hentry
      exact hsame ▸ hself.plain former hformer
    have hanswers : ∀ entry ∈ (k.table table).entries, verdict (k.content entry.key) ≠ none := by
      intro entry hentry
      rw [htable] at hentry
      obtain ⟨former, hformer, hsame⟩ := hkeys entry hentry
      rw [hcells.content entry.key (horderly.keys entry hentry), hsame]
      exact hall former hformer
    obtain ⟨l, hretained, hkept⟩ :=
      removeKeys_filters (hother.kept hcells hsize htable) hlater hanswers false
    have hsame (id : KeyId) : id ∈ m.keyIds ref ↔ id ∈ k.keyIds table := by
      rw [horderly.keyIds_kept hcells htable]
      exact Machine.mem_keyIds_iff_of_equal hself.object hobject hself.orderly horderly hequal id
    refine ⟨l, hretained, hkept, Machine.FiltersTo.partition hself
      (horderly.kept hcells hsize htable) hsame hleft hkept fun entry hentry ↦ ?_⟩
    obtain ⟨found, hfound⟩ := Option.ne_none_iff_exists'.mp (hall entry hentry)
    rw [hfound]
    cases found <;> rfl
  · simp only [List.mem_cons, List.not_mem_nil, or_false] at hmethod
    rcases hmethod with rfl | rfl
    · exact removeKeys_fails hself hselects hfails true
    · exact removeKeys_fails hself hselects hfails false

/-- An object with the keys "a" and "b", one with the key "b", and the method of the latter that
tells whether it has a key. -/
def lettersAndChoice : Machine where
  cells := #[.string "a", .string "b", .boolean true, .object ⟨0⟩, .object ⟨1⟩,
    .method ⟨0⟩ (.object .containsKey) ⟨4⟩]
  tables := #[(({} : Table).set (.string "a") ⟨0⟩ ⟨2⟩).set (.string "b") ⟨1⟩ ⟨2⟩,
    ({} : Table).set (.string "b") ⟨1⟩ ⟨2⟩]

theorem lettersAndChoice_keys : lettersAndChoice.HasPlainKeys ⟨3⟩ ⟨0⟩ ∧
    (lettersAndChoice.table ⟨0⟩).entries = [⟨⟨0⟩, ⟨2⟩⟩, ⟨⟨1⟩, ⟨2⟩⟩] := by
  have hempty := Table.inOrder_empty lettersAndChoice.keyId
  have hdifferent : lettersAndChoice.keyId ⟨0⟩ ≠ lettersAndChoice.keyId ⟨1⟩ := by decide
  have hentries : (lettersAndChoice.table ⟨0⟩).entries = [⟨⟨0⟩, ⟨2⟩⟩, ⟨⟨1⟩, ⟨2⟩⟩] :=
    Table.entries_set_set hdifferent ⟨2⟩ ⟨2⟩
  have hkeys : ∀ entry ∈ (lettersAndChoice.table ⟨0⟩).entries,
      entry.key.index < lettersAndChoice.cells.size ∧
        (lettersAndChoice.content entry.key).IsPlainKey := by
    rw [hentries]
    simp only [List.forall_mem_cons]
    exact ⟨⟨by decide, trivial⟩, ⟨by decide, trivial⟩, nofun⟩
  refine ⟨⟨rfl, ⟨by decide, fun entry hentry ↦ (hkeys entry hentry).1, ?_⟩,
    fun entry hentry ↦ (hkeys entry hentry).2⟩, hentries⟩
  exact (hempty.set ⟨0⟩ ⟨2⟩).set ⟨1⟩ ⟨2⟩

theorem lettersAndChoice_found (key : Content) :
    ((lettersAndChoice.table ⟨1⟩).get? key.keyId).isSome = decide (key.keyId = .string "b") := by
  have hempty := Table.inOrder_empty lettersAndChoice.keyId
  by_cases hkey : key.keyId = .string "b"
  · rw [hkey, decide_eq_true rfl]
    exact congrArg Option.isSome (hempty.get?_set_self (.string "b") ⟨1⟩ ⟨2⟩)
  · rw [decide_eq_false hkey]
    exact congrArg Option.isSome
      ((hempty.get?_set ⟨1⟩ ⟨2⟩ hkey).trans (Table.get?_empty _))

/-- Of two keys the one that another object has is removed, or else retained. -/
theorem common_key_is_removed_or_retained : ∃ call n l,
    (interp 3).callFrom ⟨⟨0⟩, default⟩ lettersAndChoice = .ok call lettersAndChoice ∧
      ObjectMethod.run call .removeKey ⟨3⟩ [⟨5⟩] lettersAndChoice = .ok ⟨3⟩ n ∧
      (n.table ⟨0⟩).entries = [⟨⟨0⟩, ⟨2⟩⟩] ∧
      ObjectMethod.run call .retainKey ⟨3⟩ [⟨5⟩] lettersAndChoice = .ok ⟨3⟩ l ∧
      (l.table ⟨0⟩).entries = [⟨⟨1⟩, ⟨2⟩⟩] ∧
      (n.keyIds ⟨0⟩ ++ l.keyIds ⟨0⟩).Perm [.string "a", .string "b"] := by
  obtain ⟨hkeys, hentries⟩ := lettersAndChoice_keys
  obtain ⟨call, hcall⟩ : ∃ call,
    (interp 3).callFrom ⟨⟨0⟩, default⟩ lettersAndChoice = .ok call lettersAndChoice := ⟨_, rfl⟩
  have hfunction : lettersAndChoice.content ⟨5⟩ = .method ⟨0⟩ (.object .containsKey) ⟨4⟩ := rfl
  have hselects := Machine.Selects.function _ rfl
    (Machine.answersBy_containsKey hcall hfunction rfl (by decide))
  simp only [lettersAndChoice_found] at hselects
  obtain ⟨-, hparts⟩ := removed_and_retained_keys_partition call hkeys
  obtain ⟨hpart, -⟩ := hparts ⟨5⟩ _ hselects
  obtain ⟨n, hremoved, hleft, hretain⟩ := hpart fun _ _ ↦ nofun
  have hequal : lettersAndChoice.equal ⟨3⟩ ⟨3⟩ = true := by
    unfold Machine.equal
    rw [Machine.equalIn_self]
  obtain ⟨l, hretained, hkept, hperm⟩ :=
    hretain ⟨3⟩ ⟨0⟩ lettersAndChoice call rfl hkeys.orderly hequal (.refl _) (Nat.le_refl _) rfl
      hselects
  have hleft' := hleft.entries
  have hkept' := hkept.entries
  have hids : lettersAndChoice.keyIds ⟨0⟩ = [.string "a", .string "b"] := by
    unfold Machine.keyIds Table.keys
    rw [hentries]
    rfl
  rw [hentries] at hleft' hkept'
  rw [hids] at hperm
  exact ⟨call, n, l, hcall, hremoved, hleft', hretained, hkept', hperm⟩

end TreeScript
