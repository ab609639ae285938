import Mathlib.Data.List.Nodup
import TreeScript.Operator.Basic

/-!
# The table of operators

What operators are in a table, and in which order, is determined by the additions that made it. No
two have the same symbol and fixity, and those that are there are the ones added last. Where they
stand depends on the last addition of an operator that was not there before: it arranges the whole
table, while an operator that takes the place of another one stands where that one stood
(`keys_add`). So the table is in the order of the precedences that its operators had when the last
new one came in (`Operator.settled`), and those that have kept theirs since are in order.
-/

set_option autoImplicit false

namespace TreeScript

namespace Operator

/-- What tells operators apart. -/
def key (op : Operator) : String × Fixity := (op.symbol, op.fixity)

/-- Operators that are all different are all in the table they are added to. -/
theorem foldl_add_perm {table ops : List Operator} (h : ((table ++ ops).map key).Nodup) :
    (ops.foldl OperatorTable.add table).Perm (table ++ ops) := by
  induction ops generalizing table with
  | nil => rw [List.append_nil, List.foldl_nil]
  | cons op ops ih =>
    have hnew : List.any table op.sameAs = false := by
      rw [List.any_eq_false]
      intro other hother hsame
      simp only [sameAs, Bool.and_eq_true, beq_iff_eq] at hsame
      rw [List.map_append, List.nodup_append] at h
      exact h.2.2 _ (List.mem_map_of_mem hother) _ (List.mem_map_of_mem (List.mem_cons_self ..))
        (Prod.ext hsame.1.symm hsame.2.symm)
    have hsorted : (OperatorTable.add table op).Perm (table ++ [op]) := by
      unfold OperatorTable.add
      rw [if_neg (by rw [hnew]; exact Bool.false_ne_true)]
      exact List.mergeSort_perm _ _
    have hall : (OperatorTable.add table op ++ ops).Perm (table ++ op :: ops) := by
      have happend := hsorted.append_right ops
      rwa [List.append_assoc] at happend
    rw [List.foldl_cons]
    exact (ih ((hall.map key).nodup_iff.mpr h)).trans hall

theorem nodup_keys : (standardOperators.map key).Nodup := by decide

theorem standard_perm : List.Perm standard standardOperators :=
  have hdistinct : (([] ++ standardOperators).map key).Nodup := nodup_keys
  foldl_add_perm hdistinct

/-- An operator of the language is found under its symbol and fixity. -/
theorem find?_standard {op : Operator} (h : op ∈ standardOperators) :
    standard.find? op.symbol op.fixity = some op := by
  have hkeys : (standard.map key).Nodup := (standard_perm.map key).nodup_iff.mpr nodup_keys
  have hmem : op ∈ (standard : List Operator) := standard_perm.mem_iff.mpr h
  cases hfound : standard.find? op.symbol op.fixity with
  | none =>
    have hdifferent := List.find?_eq_none.mp hfound op hmem
    simp at hdifferent
  | some other =>
    have hsame := List.find?_some hfound
    rw [Bool.and_eq_true, beq_iff_eq, beq_iff_eq] at hsame
    rw [List.inj_on_of_nodup_map hkeys (List.mem_of_find?_eq_some hfound) hmem
      (Prod.ext hsame.1 hsame.2)]

/-! ### The order of operators -/

/-- An operator may stand before another one: its precedence is higher, or it is the same and the
symbol is at least as long. -/
def Precedes (a b : Operator) : Prop :=
  b.precedence ≤ a.precedence ∧
    (a.precedence = b.precedence → b.symbol.utf8ByteSize ≤ a.symbol.utf8ByteSize)

variable {a b c op : Operator}

theorem precedes_iff : a.Precedes b ↔ (!b.before a) = true := by
  rw [Bool.not_eq_true']
  unfold Precedes before
  split <;> simp only [decide_eq_false_iff_not] <;> omega

theorem Precedes.trans (hab : a.Precedes b) (hbc : b.Precedes c) : a.Precedes c := by
  unfold Precedes at *
  omega

theorem precedes_total (a b : Operator) : a.Precedes b ∨ b.Precedes a := by
  unfold Precedes
  omega

theorem sameAs_iff : a.sameAs b = true ↔ a.key = b.key := by
  unfold sameAs key
  rw [Bool.and_eq_true, beq_iff_eq, beq_iff_eq, Prod.mk.injEq]

/-! ### What additions say -/

/-- The operator with a symbol and a fixity that was added last. Additions are listed with the
latest first. -/
def latest? (history : List Operator) (wanted : String × Fixity) : Option Operator :=
  history.find? fun op => op.key = wanted

/-- The additions up to the last one of an operator that was not there before. -/
def settling : List Operator → List Operator
  | [] => []
  | op :: past => if past.any op.sameAs then settling past else op :: past

/-- An operator as it was when the last new operator was added. -/
def settled (history : List Operator) (op : Operator) : Operator :=
  (latest? (settling history) op.key).getD op

variable {history past : List Operator} {wanted : String × Fixity}

theorem latest?_cons (op : Operator) (past : List Operator) (wanted : String × Fixity) :
    latest? (op :: past) wanted = if op.key = wanted then some op else latest? past wanted := by
  unfold latest?
  rw [List.find?_cons]
  by_cases hsame : op.key = wanted <;> simp [hsame]

theorem key_of_latest? (h : latest? history wanted = some op) : op.key = wanted := by
  unfold latest? at h
  simpa using List.find?_some h

theorem any_sameAs_iff : past.any op.sameAs = true ↔ (latest? past op.key).isSome := by
  unfold latest?
  rw [List.any_eq_true, List.find?_isSome]
  refine exists_congr fun other ↦ and_congr_right fun _ ↦ ?_
  rw [sameAs_iff, decide_eq_true_eq, eq_comm]

/-- An operator keeps its symbol and fixity, whatever precedence it is given. -/
theorem key_settled (history : List Operator) (op : Operator) :
    (settled history op).key = op.key := by
  unfold settled
  cases hfound : latest? (settling history) op.key with
  | none => rfl
  | some former => exact key_of_latest? hfound

/-- Operators of one symbol and fixity were the same one. -/
theorem settled_congr (history : List Operator) (hsame : a.key = b.key)
    (hfound : (latest? (settling history) a.key).isSome) :
    settled history a = settled history b := by
  obtain ⟨former, hformer⟩ := Option.isSome_iff_exists.mp hfound
  unfold settled
  rw [← hsame, hformer]
  rfl

end Operator

open Operator

namespace OperatorTable

variable {table : OperatorTable} {history past additions : List Operator} {op : Operator}

/-- A table shows what has been added: of each symbol and fixity the last operator, and these in the
order in which they belonged when the last new one was added. -/
structure Shows (table : OperatorTable) (history : List Operator) : Prop where
  distinct : (List.map key table).Nodup
  listed : ∀ op, op ∈ (table : List Operator) ↔ latest? history op.key = some op
  known : ∀ op, op ∈ (table : List Operator) → (latest? (settling history) op.key).isSome
  arranged : (List.map (settled history) table).Pairwise Precedes

/-- An operator is found under its symbol and fixity if it is in the table. -/
theorem Shows.find? (h : table.Shows history) (symbol : String) (fixity : Fixity) :
    table.find? symbol fixity = latest? history (symbol, fixity) := by
  have hkey (op : Operator) :
      (op.symbol == symbol && op.fixity == fixity) = decide (op.key = (symbol, fixity)) := by
    rw [Bool.eq_iff_iff, Bool.and_eq_true, beq_iff_eq, beq_iff_eq, decide_eq_true_eq]
    exact Prod.mk.injEq .. ▸ Iff.rfl
  unfold OperatorTable.find?
  simp only [hkey]
  cases hfound : List.find? (fun op ↦ decide (op.key = (symbol, fixity))) table with
  | none =>
    refine (Option.eq_none_iff_forall_ne_some.mpr fun op hop ↦ ?_).symm
    have hsame := key_of_latest? hop
    rw [← hsame] at hop
    exact List.find?_eq_none.mp hfound op ((h.listed op).mpr hop) (decide_eq_true hsame)
  | some op =>
    have hsame : op.key = (symbol, fixity) := by simpa using List.find?_some hfound
    rw [← hsame, (h.listed op).mp (List.mem_of_find?_eq_some hfound)]

theorem shows_nil : Shows [] [] := by
  refine ⟨List.nodup_nil, fun op ↦ ?_, fun op hop ↦ ?_, .nil⟩
  · exact iff_of_false List.not_mem_nil nofun
  · cases hop

/-- Whether an operator is in a table that shows what has been added. -/
theorem Shows.any_sameAs (h : table.Shows history) (op : Operator) :
    List.any table op.sameAs = history.any op.sameAs := by
  rw [Bool.eq_iff_iff, List.any_eq_true, any_sameAs_iff]
  simp only [sameAs_iff]
  constructor
  · rintro ⟨other, hother, hsame⟩
    rw [hsame, (h.listed other).mp hother]
    rfl
  · intro hfound
    obtain ⟨other, hother⟩ := Option.isSome_iff_exists.mp hfound
    have hsame := key_of_latest? hother
    exact ⟨other, (h.listed other).mpr (hsame ▸ hother), hsame.symm⟩

/-- An operator that was not there arranges the whole table. -/
theorem Shows.add_new (h : table.Shows past) (hnew : past.any op.sameAs = false) :
    (table.add op).Shows (op :: past) := by
  have hadded : table.add op = (table ++ [op]).mergeSort fun a b ↦ !b.before a := by
    unfold OperatorTable.add
    rw [h.any_sameAs, hnew, if_neg Bool.false_ne_true]
  have hperm : List.Perm (table.add op) (table ++ [op]) := hadded ▸ List.mergeSort_perm _ _
  have hsettling : settling (op :: past) = op :: past := by
    rw [settling, hnew, if_neg Bool.false_ne_true]
  have hdifferent : ∀ other, other ∈ (table : List Operator) → op.key ≠ other.key := by
    intro other hother hsame
    rw [Bool.eq_false_iff, Ne, any_sameAs_iff, hsame, (h.listed other).mp hother] at hnew
    exact hnew rfl
  have hlisted (other : Operator) :
      other ∈ (table.add op : List Operator) ↔ latest? (op :: past) other.key = some other := by
    rw [hperm.mem_iff, List.mem_append, List.mem_singleton, latest?_cons]
    by_cases hsame : op.key = other.key
    · rw [if_pos hsame, Option.some_inj, eq_comm (a := op)]
      exact or_iff_right fun hother ↦ hdifferent other hother hsame
    · rw [if_neg hsame, ← h.listed]
      exact or_iff_left fun hop ↦ hsame (congrArg Operator.key hop).symm
  refine ⟨?_, hlisted, fun other hother ↦ ?_, ?_⟩
  · refine ((hperm.map _).nodup_iff).mpr ?_
    rw [List.map_append, List.nodup_append]
    refine ⟨h.distinct, List.nodup_singleton _, fun former hformer last hlast ↦ ?_⟩
    obtain ⟨other, hother, rfl⟩ := List.mem_map.mp hformer
    rw [List.mem_singleton.mp hlast]
    exact (hdifferent other hother).symm
  · rw [hsettling, (hlisted other).mp hother]
    rfl
  · -- Every operator is what it was when this one was added.
    have hsame : List.map (settled (op :: past)) (table.add op) = table.add op := by
      refine (List.map_congr_left fun other hother ↦ ?_).trans (List.map_id _)
      unfold settled
      rw [hsettling, (hlisted other).mp hother]
      rfl
    rw [hsame, hadded]
    refine (List.pairwise_mergeSort (fun a b c hab hbc ↦ ?_) (fun a b ↦ ?_) _).imp precedes_iff.mpr
    · exact precedes_iff.mp ((precedes_iff.mpr hab).trans (precedes_iff.mpr hbc))
    · rw [Bool.or_eq_true, ← precedes_iff, ← precedes_iff]
      exact precedes_total a b

/-- An operator that takes the place of another one stands where that one stood, whatever its
precedence. -/
theorem keys_add (h : List.any table op.sameAs = true) :
    List.map key (table.add op) = List.map key table := by
  unfold OperatorTable.add
  rw [if_pos h, List.map_map]
  refine List.map_congr_left fun other _ ↦ ?_
  show key (if op.sameAs other then op else other) = key other
  split
  · next hsame => exact sameAs_iff.mp hsame
  · rfl

/-- What an addition of an operator that was there before changes about a table. -/
theorem Shows.add_known (h : table.Shows past) (hknown : past.any op.sameAs = true) :
    (table.add op).Shows (op :: past) := by
  let placed (other : Operator) : Operator := if op.sameAs other then op else other
  have hadded : table.add op = List.map placed table := by
    unfold OperatorTable.add
    rw [h.any_sameAs, if_pos hknown]
  have hsettling : settling (op :: past) = settling past := by
    rw [settling, if_pos hknown]
  have hkey (other : Operator) : (placed other).key = other.key := by
    by_cases hsame : op.sameAs other = true
    · exact (congrArg Operator.key (if_pos hsame)).trans (sameAs_iff.mp hsame)
    · exact congrArg Operator.key (if_neg hsame)
  have hmem (other : Operator) : other ∈ (table.add op : List Operator) ↔
      ∃ former, former ∈ (table : List Operator) ∧ placed former = other := by
    rw [hadded, List.mem_map]
  have hknown' (former : Operator) (hformer : former ∈ (table : List Operator)) :
      (latest? (settling (op :: past)) (placed former).key).isSome := by
    rw [hsettling, hkey]
    exact h.known former hformer
  refine ⟨?_, fun other ↦ ?_, fun other hother ↦ ?_, ?_⟩
  · rw [keys_add (h.any_sameAs op ▸ hknown)]
    exact h.distinct
  · rw [hmem, latest?_cons]
    constructor
    · rintro ⟨former, hformer, rfl⟩
      rw [hkey]
      by_cases hsame : op.sameAs former = true
      · rw [if_pos (sameAs_iff.mp hsame)]
        exact congrArg some (if_pos hsame).symm
      · rw [if_neg (mt sameAs_iff.mpr hsame), (h.listed former).mp hformer]
        exact congrArg some (if_neg hsame).symm
    · intro hother
      split at hother
      · cases hother
        obtain ⟨former, hformer⟩ := Option.isSome_iff_exists.mp (any_sameAs_iff.mp hknown)
        have hsame := key_of_latest? hformer
        refine ⟨former, (h.listed former).mpr (hsame ▸ hformer), if_pos (sameAs_iff.mpr hsame.symm)⟩
      · rename_i hdifferent
        exact ⟨other, (h.listed other).mpr hother, if_neg (mt sameAs_iff.mp hdifferent)⟩
  · obtain ⟨former, hformer, rfl⟩ := (hmem other).mp hother
    exact hknown' former hformer
  · have hsame :
        List.map (settled (op :: past)) (table.add op) = List.map (settled past) table := by
      rw [hadded, List.map_map]
      refine List.map_congr_left fun former hformer ↦ ?_
      refine (settled_congr _ (hkey former) (hknown' former hformer)).trans ?_
      unfold settled
      rw [hsettling]
    rw [hsame]
    exact h.arranged

/-- Whatever is added, a table shows it. -/
theorem Shows.foldl_add (h : table.Shows past) (additions : List Operator) :
    (additions.foldl OperatorTable.add table).Shows (additions.reverse ++ past) := by
  induction additions generalizing table past with
  | nil => exact h
  | cons op additions ih =>
    rw [List.foldl_cons, List.reverse_cons, List.append_assoc]
    refine ih ?_
    cases hknown : past.any op.sameAs with
    | false => exact h.add_new hknown
    | true => exact h.add_known hknown

theorem shows_standard : standard.Shows standardOperators.reverse := by
  have hshows := shows_nil.foldl_add standardOperators
  rwa [List.append_nil] at hshows

/-- A table is unambiguous, finds of each symbol and fixity what was added last, and has in order
all operators that still have the precedence they had when the last new operator was added. -/
structure AnswersFor (table : OperatorTable) (history : List Operator) : Prop where
  distinct : (List.map key table).Nodup
  finds : ∀ symbol fixity, table.find? symbol fixity = latest? history (symbol, fixity)
  ordered : List.Pairwise
    (fun a b ↦ (settled history a).precedence = a.precedence →
      (settled history b).precedence = b.precedence → a.Precedes b) table

theorem Shows.answersFor (h : table.Shows history) : table.AnswersFor history where
  distinct := h.distinct
  finds := h.find?
  ordered := by
    have hsymbol (op : Operator) : (settled history op).symbol = op.symbol :=
      congrArg Prod.fst (key_settled history op)
    refine (List.pairwise_map.mp h.arranged).imp fun {a b} hprecedes ha hb ↦ ?_
    unfold Precedes at hprecedes ⊢
    rwa [ha, hb, hsymbol, hsymbol] at hprecedes

/-- Whatever operators are added to an empty table, or to that of the language, no two have the same
symbol and fixity, and of each symbol and fixity the one added last is found. The list is by falling
precedence, and of one precedence by falling length of the symbols, but for the operators that have
been given another precedence since the last addition of one that was not there before: these stay
where they were. -/
theorem operators_stand_by_settled_precedence (additions : List Operator) :
    AnswersFor (additions.foldl OperatorTable.add []) additions.reverse ∧
      AnswersFor (additions.foldl OperatorTable.add standard)
        (additions.reverse ++ standardOperators.reverse) := by
  have hfirst := shows_nil.foldl_add additions
  rw [List.append_nil] at hfirst
  exact ⟨hfirst.answersFor, (shows_standard.foldl_add additions).answersFor⟩

end OperatorTable

end TreeScript
