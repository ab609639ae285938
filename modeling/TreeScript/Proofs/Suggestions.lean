import Mathlib.Algebra.Order.Field.Rat
import Mathlib.Data.Finset.Card
import Mathlib.Data.List.Induction
import Mathlib.Data.String.Basic
import Mathlib.Order.Compare
import TreeScript.Eval.Suggestion

/-!
# Suggestions are the best candidates

The similarity of a candidate to a name is the fraction that its likeness stands for. A step of the
search through the candidate takes one character of it and counts for one point at most, so the points
are at most the characters (`score_le`). Every character counts for a whole point only if all of them
are found one behind another from the beginning of the name on (`prefix_of_score_eq`). Divided by the
longer length this makes one only if there is nothing else in the name, so a similarity is a part of
one, and one for names that differ in case only (`similarity_eq_one_iff`).

Candidates are put in text order first and then arranged by similarity. The second arrangement keeps
the order of the first where it does not decide (`mergeSort_stable`), so that of two candidates
always the same one comes first (`Precedes`, `pairwise_ranking`). The suggestions are the beginning of
this arrangement (`suggestions_are_best_candidates`).
-/

set_option autoImplicit false

namespace TreeScript

/-! ### Lists -/

section Lists

variable {α : Type} {le : α → α → Bool} {R : α → α → Prop} {l : List α}

/-- Assumes: a test that orders all elements. Elements that it does not tell apart stand after sorting
as they stood before. -/
theorem mergeSort_stable (trans : ∀ a b c, le a b = true → le b c = true → le a c = true)
    (total : ∀ a b, (le a b || le b a) = true) (h : l.Pairwise R) :
    (l.mergeSort le).Pairwise fun a b ↦ le b a = false ∨ le a b = true ∧ R a b := by
  induction l with
  | nil => simp
  | cons a l ih =>
    -- What is sorted in front of the first element comes strictly before it.
    obtain ⟨front, back, hsorted, hrest, hfront⟩ := List.mergeSort_cons trans total a l
    obtain ⟨hfirst, hlater⟩ := List.pairwise_cons.mp h
    have hordered := List.pairwise_mergeSort trans total (a :: l)
    have hmem {b : α} (hb : b ∈ back) : b ∈ l := by
      have hsome : b ∈ l.mergeSort le := hrest ▸ List.mem_append_right front hb
      exact List.mem_mergeSort.mp hsome
    have hih := ih hlater
    rw [hrest, List.pairwise_append] at hih
    rw [hsorted, List.pairwise_append, List.pairwise_cons] at hordered ⊢
    obtain ⟨hihfront, hihback, hihacross⟩ := hih
    refine ⟨hihfront, ⟨fun b hb ↦ .inr ⟨hordered.2.1.1 b hb, hfirst b (hmem hb)⟩, hihback⟩,
      fun b hb c hc ↦ ?_⟩
    rcases List.mem_cons.mp hc with rfl | hc
    · exact .inl (by simpa using hfront b hb)
    · exact hihacross b hb c hc

theorem nodup_eraseDups [BEq α] [LawfulBEq α] (l : List α) : l.eraseDups.Nodup := by
  induction l using List.reverseRecOn with
  | nil => exact .nil
  | append_singleton l last ih =>
    rw [List.eraseDups_append]
    by_cases hmem : last ∈ l
    · simpa [List.removeAll, hmem] using ih
    · have hnew : [last].removeAll l = [last] := by simp [List.removeAll, hmem]
      rw [hnew, List.eraseDups_cons, List.filter_nil, List.eraseDups_nil]
      refine List.nodup_append.mpr ⟨ih, List.nodup_singleton last, fun a ha b hb hsame ↦ hmem ?_⟩
      rw [← List.mem_singleton.mp hb, ← hsame]
      exact List.mem_eraseDups.mp ha

end Lists

/-! ### Texts -/

namespace Text

variable {s t : String}

theorem toList_toLower (s : String) : (toLower s).toList = s.toList.map lowerChar :=
  String.toList_map

theorem toLower_eq_nil_iff : (toLower s).toList = [] ↔ s = "" := by
  rw [toList_toLower, List.map_eq_nil_iff, String.toList_eq_nil_iff]

theorem toLower_eq_iff :
    toLower s = toLower t ↔ s.toList.map lowerChar = t.toList.map lowerChar := by
  rw [← String.toList_inj, toList_toLower, toList_toLower]

theorem ne_empty_of_toLower_eq (hne : s ≠ "") (hsame : toLower s = toLower t) : t ≠ "" := by
  rintro rfl
  exact hne (toLower_eq_nil_iff.mp (hsame ▸ toLower_eq_nil_iff.mpr rfl))

theorem compareText_ne_gt_iff : (compareText s t != .gt) = true ↔ s ≤ t := by
  rw [bne_iff_ne, compareText, ne_eq, compare_gt_iff_gt, not_lt]

/-- Different names that are sorted are in text order. -/
theorem pairwise_sortNames {names : List String} (h : names.Nodup) :
    (sortNames names).Pairwise (· < ·) := by
  have htrans (a b c : String) (hab : (compareText a b != .gt) = true)
      (hbc : (compareText b c != .gt) = true) : (compareText a c != .gt) = true := by
    rw [compareText_ne_gt_iff] at hab hbc ⊢
    exact hab.trans hbc
  have htotal (a b : String) : (compareText a b != .gt || compareText b a != .gt) = true := by
    rw [Bool.or_eq_true, compareText_ne_gt_iff, compareText_ne_gt_iff]
    exact le_total a b
  have hordered := List.pairwise_mergeSort htrans htotal names
  have hdistinct : (sortNames names).Nodup := (List.mergeSort_perm _ _).nodup_iff.mpr h
  exact (hordered.and hdistinct).imp fun ⟨hle, hne⟩ ↦
    lt_of_le_of_ne (compareText_ne_gt_iff.mp hle) hne

end Text

namespace Suggestion

/-! ### Similarity -/

section Score

variable {adjacent : Bool} {candidate name : List Char}

/-- No character of a candidate counts for more than one point. -/
theorem score_le (adjacent : Bool) (candidate name : List Char) :
    score adjacent candidate name ≤ 2 * candidate.length := by
  induction candidate generalizing adjacent name with
  | nil => exact Nat.zero_le _
  | cons c candidate ih =>
    cases name with
    | nil => exact Nat.zero_le _
    | cons d name =>
      rw [List.length_cons]
      by_cases hsame : c = d
      · subst hsame
        have hrest := ih true name
        rw [score_cons_self]
        split <;> omega
      · have hrest := ih false (d :: name)
        rw [score_cons_of_ne hsame]
        omega

theorem score_self (chars : List Char) : score true chars chars = 2 * chars.length := by
  induction chars with
  | nil => rfl
  | cons c chars ih =>
    rw [score_cons_self, if_pos rfl, ih, List.length_cons]
    omega

/-- A candidate of which every character counts for one point is the beginning of the name. A
character that is passed over leaves too few for the points that are missing then. -/
theorem prefix_of_score_eq (h : score adjacent candidate name = 2 * candidate.length) :
    candidate <+: name := by
  induction candidate generalizing adjacent name with
  | nil => exact List.nil_prefix
  | cons c candidate ih =>
    rw [List.length_cons] at h
    cases name with
    | nil => cases h
    | cons d name =>
      by_cases hsame : c = d
      · subst hsame
        have hle := score_le true candidate name
        rw [score_cons_self] at h
        refine List.cons_prefix_cons.mpr ⟨rfl, @ih true name ?_⟩
        split at h <;> omega
      · have hle := score_le false candidate (d :: name)
        rw [score_cons_of_ne hsame] at h
        omega

/-- The points make up the longer length, which counts as one at least, if candidate and name are the
same and not empty, and only then. -/
theorem score_eq_iff :
    score true candidate name = 2 * max 1 (max candidate.length name.length) ↔
      candidate ≠ [] ∧ candidate = name := by
  constructor
  · intro h
    have hle := score_le true candidate name
    have hfull : score true candidate name = 2 * candidate.length := by omega
    have hlength : name.length ≤ candidate.length := by omega
    refine ⟨?_, (prefix_of_score_eq hfull).eq_of_length_le hlength⟩
    rintro rfl
    rw [List.length_nil] at hle
    omega
  · rintro ⟨hne, rfl⟩
    have hpos := List.length_pos_iff.mpr hne
    rw [score_self]
    omega

end Score

/-- The fraction of the points that could be had. A likeness counts half points. -/
def similarity (candidate name : String) : ℚ :=
  (likeness candidate name).numerator / (2 * (likeness candidate name).denominator)

variable {a b c d name : String} {candidates : List String} {limit : ℕ}

theorem all_points_pos (candidate name : String) :
    (0 : ℚ) < 2 * (likeness candidate name).denominator := by
  have hlength : 0 < (likeness candidate name).denominator :=
    Nat.lt_of_lt_of_le Nat.zero_lt_one (Nat.le_max_left ..)
  exact mul_pos two_pos (Nat.cast_pos.mpr hlength)

theorem le_likeness_iff :
    (likeness a name).le (likeness b name) = true ↔ similarity a name ≤ similarity b name := by
  rw [Likeness.le, decide_eq_true_iff, similarity, similarity,
    div_le_div_iff₀ (all_points_pos a name) (all_points_pos b name),
    mul_left_comm, mul_left_comm _ (2 : ℚ), mul_le_mul_iff_right₀ two_pos]
  norm_cast

theorem similarity_nonneg (candidate name : String) : 0 ≤ similarity candidate name :=
  div_nonneg (Nat.cast_nonneg _) (all_points_pos candidate name).le

theorem numerator_le (candidate name : String) :
    (likeness candidate name).numerator ≤ 2 * (likeness candidate name).denominator := by
  have hscore := score_le true (Text.toLower candidate).toList (Text.toLower name).toList
  have hlength : (Text.toLower candidate).toList.length ≤ (likeness candidate name).denominator :=
    le_max_of_le_right (le_max_left ..)
  exact hscore.trans (Nat.mul_le_mul_left 2 hlength)

theorem similarity_le_one (candidate name : String) : similarity candidate name ≤ 1 := by
  rw [similarity, div_le_one₀ (all_points_pos candidate name)]
  exact_mod_cast numerator_le candidate name

/-- All points are had by names that differ in case only, and by no others. -/
theorem similarity_eq_one_iff {candidate : String} :
    similarity candidate name = 1 ↔
      candidate ≠ "" ∧ name ≠ "" ∧ Text.toLower candidate = Text.toLower name := by
  calc similarity candidate name = 1
      ↔ (likeness candidate name).numerator = 2 * (likeness candidate name).denominator := by
        rw [similarity, div_eq_one_iff_eq (all_points_pos candidate name).ne']
        norm_cast
    _ ↔ (Text.toLower candidate).toList ≠ [] ∧
          (Text.toLower candidate).toList = (Text.toLower name).toList := score_eq_iff
    _ ↔ candidate ≠ "" ∧ Text.toLower candidate = Text.toLower name := by
        rw [ne_eq, Text.toLower_eq_nil_iff, String.toList_inj]
    _ ↔ candidate ≠ "" ∧ name ≠ "" ∧ Text.toLower candidate = Text.toLower name :=
        and_congr_right fun hne ↦
          ⟨fun hsame ↦ ⟨Text.ne_empty_of_toLower_eq hne hsame, hsame⟩, And.right⟩

/-! ### The arrangement of the candidates -/

/-- Of two candidates the likelier one comes first, and of two that are as likely the one that is
smaller in text order. -/
def Precedes (name a b : String) : Prop :=
  similarity b name < similarity a name ∨ similarity a name = similarity b name ∧ a < b

theorem precedes_iff : Precedes name a b ↔
    (likeness a name).le (likeness b name) = false ∨
      (likeness b name).le (likeness a name) = true ∧ a < b := by
  rw [← Bool.not_eq_true, le_likeness_iff, le_likeness_iff, not_le, Precedes]
  constructor
  · exact Or.imp_right fun ⟨hsame, htext⟩ ↦ ⟨hsame.ge, htext⟩
  · rintro (hlt | ⟨hle, htext⟩)
    · exact .inl hlt
    · exact hle.lt_or_eq.imp_right fun hsame ↦ ⟨hsame.symm, htext⟩

instance (name a b : String) : Decidable (Precedes name a b) := decidable_of_iff' _ precedes_iff

theorem Precedes.asymm (h : Precedes name a b) : ¬Precedes name b a := by
  rcases h with hlt | ⟨hsame, hlt⟩
  · rintro (hlt' | ⟨hsame', -⟩)
    · exact lt_asymm hlt hlt'
    · exact hlt.ne hsame'
  · rintro (hlt' | ⟨-, hlt'⟩)
    · exact hlt'.ne hsame
    · exact lt_asymm hlt hlt'

/-- The candidates, each once, in the order in which they are suggested. -/
def ranking (name : String) (candidates : List String) : List String :=
  (Text.sortNames (candidates.filter (· ≠ "")).eraseDups).mergeSort fun a b ↦
    (likeness b name).le (likeness a name)

theorem suggest_eq : suggest name candidates limit = (ranking name candidates).take limit := by
  have hmap := List.map_mergeSort (r := fun a b ↦ (likeness b name).le (likeness a name))
    (s := fun a b : String × Likeness ↦ b.2.le a.2) (f := fun c ↦ (c, likeness c name))
    (l := Text.sortNames (candidates.filter (· ≠ "")).eraseDups) fun _ _ _ _ ↦ rfl
  unfold suggest ranking
  dsimp only
  rw [← hmap, List.map_map]
  exact congrArg (List.take limit) (List.map_id _)

theorem mem_ranking_iff : c ∈ ranking name candidates ↔ c ∈ candidates ∧ c ≠ "" := by
  rw [ranking, List.mem_mergeSort, Text.sortNames, List.mem_mergeSort, List.mem_eraseDups,
    List.mem_filter, decide_eq_true_iff]

theorem pairwise_ranking : (ranking name candidates).Pairwise (Precedes name) := by
  have htrans (a b c : String) (hab : (likeness b name).le (likeness a name) = true)
      (hbc : (likeness c name).le (likeness b name) = true) :
      (likeness c name).le (likeness a name) = true := by
    rw [le_likeness_iff] at hab hbc ⊢
    exact hbc.trans hab
  have htotal (a b : String) :
      ((likeness b name).le (likeness a name) || (likeness a name).le (likeness b name)) = true := by
    rw [Bool.or_eq_true, le_likeness_iff, le_likeness_iff]
    exact le_total _ _
  have hknown := Text.pairwise_sortNames (nodup_eraseDups (candidates.filter (· ≠ "")))
  exact (mergeSort_stable htrans htotal hknown).imp precedes_iff.mpr

theorem nodup_ranking : (ranking name candidates).Nodup :=
  pairwise_ranking.imp fun h hsame ↦ (hsame ▸ h).asymm (hsame ▸ h)

theorem length_ranking : (ranking name candidates).length = (candidates.toFinset.erase "").card := by
  have hnodup : (ranking name candidates).Nodup := nodup_ranking
  rw [← List.toFinset_card_of_nodup hnodup]
  congr 1
  ext c
  rw [List.mem_toFinset, mem_ranking_iff, Finset.mem_erase, List.mem_toFinset, and_comm]

/-- There is only one arrangement of the candidates in which each comes before all that follow. -/
theorem ranking_eq {order : List String}
    (hperm : order.Perm (candidates.filter (· ≠ "")).eraseDups)
    (h : order.Pairwise (Precedes name)) : ranking name candidates = order := by
  have hsorted : (ranking name candidates).Perm (candidates.filter (· ≠ "")).eraseDups :=
    (List.mergeSort_perm ..).trans (List.mergeSort_perm ..)
  exact (hsorted.trans hperm.symm).eq_of_pairwise
    (fun a b _ _ hab hba ↦ absurd hba hab.asymm) pairwise_ranking h

/-! ### Suggestions -/

/-- Assumes: a candidate that is left out. All suggestions come before it. -/
theorem precedes_of_not_mem_suggest (hc : c ∈ ranking name candidates)
    (hout : c ∉ suggest name candidates limit) (hd : d ∈ suggest name candidates limit) :
    Precedes name d c := by
  rw [suggest_eq] at hout hd
  have hordered : (ranking name candidates).Pairwise (Precedes name) := pairwise_ranking
  rw [← List.take_append_drop limit (ranking name candidates)] at hc hordered
  exact (List.pairwise_append.mp hordered).2.2 d hd c ((List.mem_append.mp hc).resolve_left hout)

/-- Assumes: a candidate that comes before a suggestion. It is suggested too, and stands in front. -/
theorem pair_sublist_suggest (hc : c ∈ ranking name candidates)
    (hd : d ∈ suggest name candidates limit) (h : Precedes name c d) :
    [c, d].Sublist (suggest name candidates limit) := by
  have hmem : c ∈ suggest name candidates limit := by
    by_contra hout
    exact h.asymm (precedes_of_not_mem_suggest hc hout hd)
  have hordered : (suggest name candidates limit).Pairwise (Precedes name) :=
    suggest_eq ▸ pairwise_ranking.take
  obtain ⟨front, back, hcut⟩ := List.append_of_mem hd
  rw [hcut] at hmem hordered ⊢
  rcases List.mem_append.mp hmem with hfront | hback
  · exact (List.singleton_sublist.mpr hfront).append (List.singleton_sublist.mpr (by simp))
  · rcases List.mem_cons.mp hback with rfl | hback
    · exact absurd h h.asymm
    · have hbehind := (List.pairwise_cons.mp (List.pairwise_append.mp hordered).2.1).1 c hback
      exact absurd hbehind h.asymm

/-- The suggestions are as many different candidates as there are, up to the limit, none of them
empty. They stand in order, and come before all that are left out: the likelier first, and in text
order those that are as likely. A similarity is a part of one, and one for two names that are not
empty and differ in case only; so candidates that differ from the name in case only come first. -/
theorem suggestions_are_best_candidates (name : String) (candidates : List String) (limit : ℕ) :
    (suggest name candidates limit).Nodup ∧
    (∀ c ∈ suggest name candidates limit, c ∈ candidates ∧ c ≠ "") ∧
    (suggest name candidates limit).length = min limit (candidates.toFinset.erase "").card ∧
    (suggest name candidates limit).Pairwise (Precedes name) ∧
    (∀ c ∈ candidates, c ≠ "" → c ∉ suggest name candidates limit →
      ∀ d ∈ suggest name candidates limit, Precedes name d c) ∧
    (∀ c, 0 ≤ similarity c name ∧ similarity c name ≤ 1 ∧
      (similarity c name = 1 ↔ c ≠ "" ∧ name ≠ "" ∧ Text.toLower c = Text.toLower name)) ∧
    ∀ c ∈ candidates, c ≠ "" → Text.toLower c = Text.toLower name →
      ∀ d ∈ suggest name candidates limit, Text.toLower d ≠ Text.toLower name →
        [c, d].Sublist (suggest name candidates limit) := by
  have hbeginning : suggest name candidates limit = (ranking name candidates).take limit := suggest_eq
  refine ⟨?_, fun c hc ↦ ?_, ?_, ?_, fun c hc hne hout d hd ↦ ?_, fun c ↦ ?_,
    fun c hc hne hsame d hd hother ↦ ?_⟩
  · rw [hbeginning]
    exact nodup_ranking.sublist (List.take_sublist ..)
  · rw [hbeginning] at hc
    exact mem_ranking_iff.mp (List.mem_of_mem_take hc)
  · rw [hbeginning, List.length_take, length_ranking]
  · rw [hbeginning]
    exact pairwise_ranking.take
  · exact precedes_of_not_mem_suggest (mem_ranking_iff.mpr ⟨hc, hne⟩) hout hd
  · exact ⟨similarity_nonneg c name, similarity_le_one c name, similarity_eq_one_iff⟩
  · refine pair_sublist_suggest (mem_ranking_iff.mpr ⟨hc, hne⟩) hd (.inl ?_)
    have hone : similarity c name = 1 :=
      similarity_eq_one_iff.mpr ⟨hne, Text.ne_empty_of_toLower_eq hne hsame, hsame⟩
    have hless : similarity d name ≠ 1 := fun hd ↦ hother (similarity_eq_one_iff.mp hd).2.2
    rw [hone]
    exact lt_of_le_of_ne (similarity_le_one d name) hless

/-- Both spellings of a name are suggested before a longer name, in text order, and a shorter name is
left out. -/
theorem spellings_are_suggested_first :
    suggest "VALUE" ["zebra", "valu", "value", "values", "", "Value", "value"] 3 =
      ["Value", "value", "values"] ∧
    Precedes "VALUE" "values" "valu" ∧
    similarity "Value" "VALUE" = 1 ∧
    ["value", "values"].Sublist
      (suggest "VALUE" ["zebra", "valu", "value", "values", "", "Value", "value"] 3) := by
  have hkept : suggest "VALUE" ["zebra", "valu", "value", "values", "", "Value", "value"] 3 =
      ["Value", "value", "values"] := by
    have hranking : ranking "VALUE" ["zebra", "valu", "value", "values", "", "Value", "value"] =
        ["Value", "value", "values", "valu", "zebra"] :=
      ranking_eq (by decide) (by decide +kernel)
    rw [suggest_eq, hranking]
    rfl
  have hbest := suggestions_are_best_candidates "VALUE"
    ["zebra", "valu", "value", "values", "", "Value", "value"] 3
  rw [hkept] at hbest ⊢
  obtain ⟨-, -, -, -, homitted, hsimilarity, hspellings⟩ := hbest
  have hspelling : Text.toLower "Value" = Text.toLower "VALUE" :=
    Text.toLower_eq_iff.mpr (by decide)
  have hspelling' : Text.toLower "value" = Text.toLower "VALUE" :=
    Text.toLower_eq_iff.mpr (by decide)
  have hother : Text.toLower "values" ≠ Text.toLower "VALUE" :=
    mt Text.toLower_eq_iff.mp (by decide)
  exact ⟨rfl, homitted "valu" (by decide) (by decide) (by decide) "values" (by decide),
    (hsimilarity "Value").2.2.mpr ⟨by decide, by decide, hspelling⟩,
    hspellings "value" (by decide) (by decide) hspelling' "values" (by decide) hother⟩

end Suggestion

end TreeScript
