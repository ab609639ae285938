import TreeScript.Proofs.InjectedSymbols
import TreeScript.Proofs.Numbers.Formatting
import TreeScript.Proofs.Objects.Storage
import TreeScript.Proofs.Ordering.SortMethods
import TreeScript.Proofs.Tandem.Basic

/-!
# Sorting by a function

A function to compare by is asked for a number, and what counts of the number is the signed word of
the lowest 64 bits of its whole part. If a function leaves alone what there is, answers for all values
of an array, and the signs of these words rank the values, then the array is sorted stably by them,
and the methods `max` and `min` give values that no other one is above or below
(`sort_follows_words_of_results`). Where `min` turns the sign around, the least word must not occur,
because it is its own opposite.

A number that is whole and fits into a word is that word, so results of this kind count by their own
sign (`ranksByWords_of_whole`), such as the differences of whole numbers that are not too large. A
fraction between -1 and 1 counts as zero, whatever its sign.
-/

set_option autoImplicit false

namespace TreeScript

open Sorting

/-- A function answers with a number for any two values, on all machines on which an invariant holds
that no call breaks and that keeps what there is. -/
structure Machine.ComparesBy (m : Machine) (I : Machine → Prop) (call : Call) (function : CellRef)
    (values : List CellRef) (result : CellRef → CellRef → Decimal) : Prop where
  begins : I m
  kept : ∀ k, I k → KeepsFrom 0 m k
  answers : ∀ a ∈ values, ∀ b ∈ values, ∀ k, I k → ∃ out n,
    call.invoke "compareTo" function [a, b] k = .ok out n ∧ I n ∧ n.number? out = some (result a b)

/-- The signs of the words of some results rank values. -/
structure RanksByWords (values : List CellRef) (result : CellRef → CellRef → Decimal) : Prop where
  opposite : ∀ a ∈ values, ∀ b ∈ values, (result b a).word.sign = -(result a b).word.sign
  trans : ∀ a ∈ values, ∀ b ∈ values, ∀ c ∈ values, (result a b).word ≤ 0 →
    (result b c).word ≤ 0 → (result a c).word ≤ 0

namespace Machine

variable {m n : Machine} {ref : TableRef}

/-- Whether an object is an array depends on its keys alone. -/
theorem isArray_congr (hids : n.keyIds ref = m.keyIds ref)
    (hsize : (n.table ref).size = (m.table ref).size) : n.isArray ref = m.isArray ref := by
  rw [Bool.eq_iff_iff, isArray_iff, isArray_iff, hsize]
  refine or_congr_right ⟨fun ⟨hnaturals, hzero, hword⟩ ↦ ?_, fun ⟨hnaturals, hzero, hword⟩ ↦ ?_⟩
  · rw [hids] at hnaturals hzero hword
    exact ⟨hnaturals, hzero, hsize ▸ hword⟩
  · rw [← hids] at hnaturals hzero hword
    exact ⟨hnaturals, hzero, hsize ▸ hword⟩

/-- An array stays one as long as cells and tables stay. -/
theorem KeepsFrom.isArray (h : KeepsFrom 0 m n) (href : ref.index < m.tables.size)
    (hkeys : ∀ key ∈ (m.table ref).keys, key.index < m.cells.size) :
    n.isArray ref = m.isArray ref := by
  have htable : n.table ref = m.table ref := h.table ref (Nat.zero_le _) href
  refine isArray_congr ?_ (by rw [htable])
  unfold keyIds
  rw [htable]
  exact List.map_congr_left fun key hkey ↦ h.cells.keyId (hkeys key hkey)

end Machine

/-! ### Words -/

section

variable {values : List CellRef} {result : CellRef → CellRef → Decimal}

/-- The first value goes before the second. -/
def wordBefore (result : CellRef → CellRef → Decimal) (a b : CellRef) : Bool :=
  decide ((result a b).word < 0)

theorem RanksByWords.pos_iff (h : RanksByWords values result) {a b : CellRef} (ha : a ∈ values)
    (hb : b ∈ values) : 0 < (result a b).word ↔ (result b a).word < 0 := by
  have hopposite := h.opposite a ha b hb
  rw [← Int.sign_eq_one_iff_pos, ← Int.sign_eq_neg_one_iff_neg, hopposite]
  omega

theorem RanksByWords.ranks (h : RanksByWords values result) :
    Ranks (· ∈ values) (wordBefore result) := by
  unfold wordBefore
  refine ⟨fun {a b} ha hb hab ↦ ?_, fun {a b c} ha hb hc hab hbc ↦ ?_⟩
  · have hba := (h.pos_iff hb ha).mpr (of_decide_eq_true hab)
    exact decide_eq_false (by omega)
  · rw [decide_eq_false_iff_not] at hab hbc ⊢
    rw [← h.pos_iff ha hb] at hab
    rw [← h.pos_iff hb hc] at hbc
    rw [← h.pos_iff ha hc]
    have hac := h.trans a ha b hb c hc
    omega

theorem bmod_word (d : Decimal) : d.word.bmod (twoTo 64) = d.word := Int.bmod_bmod ..

/-- The opposite of a word is positive if the word is negative and not the least one. -/
theorem bmod_neg_word_pos {d : Decimal} (hd : d.word ≠ -(twoTo 63 : Int)) :
    0 < (-d.word).bmod (twoTo 64) ↔ d.word < 0 := by
  have hdouble := twoTo_64
  have hpositive : 0 < twoTo 64 := Nat.two_pow_pos 64
  have hlow : -((twoTo 64 : Int) / 2) ≤ d.word := Int.le_bmod hpositive
  have hhigh : d.word < ((twoTo 64 : Int) + 1) / 2 := Int.bmod_lt hpositive
  rw [bmod_of_fits (by omega) (by omega)]
  omega

theorem ofInt_sub (i j : Int) : Decimal.ofInt i - Decimal.ofInt j = Decimal.ofInt (i - j) := by
  refine Decimal.toRat_injective ?_
  rw [Decimal.toRat_sub, Decimal.toRat_ofInt, Decimal.toRat_ofInt, Decimal.toRat_ofInt, Int.cast_sub]

/-- Assumes: results that are whole numbers and fit into a word. They rank the values by words if they
do so by their own signs. -/
theorem ranksByWords_of_whole (size : CellRef → CellRef → Int)
    (hresult : ∀ a ∈ values, ∀ b ∈ values, result a b = Decimal.ofInt (size a b))
    (hlow : ∀ a ∈ values, ∀ b ∈ values, -(twoTo 63 : Int) ≤ size a b)
    (hhigh : ∀ a ∈ values, ∀ b ∈ values, size a b < twoTo 63)
    (hopposite : ∀ a ∈ values, ∀ b ∈ values, (size b a).sign = -(size a b).sign)
    (htrans : ∀ a ∈ values, ∀ b ∈ values, ∀ c ∈ values, size a b ≤ 0 → size b c ≤ 0 → size a c ≤ 0) :
    RanksByWords values result := by
  have hword : ∀ a ∈ values, ∀ b ∈ values, (result a b).word = size a b := by
    intro a ha b hb
    rw [hresult a ha b hb, Decimal.word_ofInt_eq_bmod,
      bmod_of_fits (hlow a ha b hb) (hhigh a ha b hb)]
  refine ⟨fun a ha b hb ↦ ?_, fun a ha b hb c hc hab hbc ↦ ?_⟩
  · rw [hword a ha b hb, hword b hb a ha, hopposite a ha b hb]
  · rw [hword a ha b hb] at hab
    rw [hword b hb c hc] at hbc
    rw [hword a ha c hc]
    exact htrans a ha b hb c hc hab hbc

/-- Assumes: whole numbers that differ by less than the half of what a word counts. Their differences
rank them. -/
theorem ranksByWords_of_differences (whole : CellRef → Int)
    (hfits : ∀ a ∈ values, ∀ b ∈ values, whole a - whole b < twoTo 63) :
    RanksByWords values fun a b ↦ Decimal.ofInt (whole a) - Decimal.ofInt (whole b) := by
  refine ranksByWords_of_whole (fun a b ↦ whole a - whole b)
    (fun a _ b _ ↦ ofInt_sub (whole a) (whole b)) (fun a ha b hb ↦ ?_) hfits (fun a ha b hb ↦ ?_)
    fun a ha b hb c hc hab hbc ↦ ?_
  · have hback := hfits b hb a ha
    omega
  · rw [← Int.sign_neg, Int.neg_sub]
  · omega

end

/-! ### The function of an operator -/

section

variable {m : Machine} {function : CellRef} {stamp : Stamp}

/-- The function that the operator `-` stands for gives the difference of two numbers. -/
theorem Interp.callValue_minus {interp : Interp} (hfuel : 0 < interp.fuel) (site : Site)
    (name : String) (preparation : Preparation) {x y : CellRef} {a b : Decimal}
    (hfunction : m.content function = .native stamp (.operator "-" .infixOp))
    (hx : m.content x = .number a) (hy : m.content y = .number b) :
    ∃ out n, interp.callValue site name preparation function [x, y] m = .ok out n ∧
      Machine.KeepsFrom 0 m n ∧ n.content out = .number (a - b) := by
  obtain ⟨call, k, hcallFuel, hunwound, hcalled⟩ :=
    interp.callValue_announced site name preparation [x, y] hfunction rfl
  have hminus : .between "-" 110 [Operator.numeric2 .subtract] ∈ Operator.standardOperators := by
    simp [Operator.standardOperators]
  have hdifference : Operator.standard.evaluate call "-" .infixOp [x, y] k =
      .ok ⟨k.cells.size⟩ (k.withCell (.number (a - b))) :=
    Operator.evaluate_numbers hminus rfl rfl rfl (hcallFuel ▸ hfuel)
      ((hunwound.content x).trans hx) ((hunwound.content y).trans hy)
  exact ⟨⟨k.cells.size⟩, k.withCell (.number (a - b)),
    hcalled.trans (Run.traced_ok site .native hdifference),
    hunwound.keepsFrom.trans ((k.grown_withCell _).keepsFrom 0), k.content_new _⟩

/-- By the function that the operator `-` stands for, numbers compare by their differences. -/
theorem Machine.comparesBy_differences {values : List CellRef} {number : CellRef → Decimal}
    {fuel : Nat} {site : Site} {call : Call}
    (hcall : (interp (fuel + 3)).callFrom site m = .ok call m)
    (hfunction : m.content function = .native stamp (.operator "-" .infixOp))
    (hvalues : ∀ value ∈ values, m.content value = .number (number value)) :
    m.ComparesBy (KeepsFrom 0 m) call function values fun a b ↦ number a - number b := by
  refine ⟨(Grown.refl m).keepsFrom 0, fun k hk ↦ hk, fun a ha b hb k hk ↦ ?_⟩
  have hkept {cell : CellRef} (hcell : m.content cell ≠ .empty) : k.content cell = m.content cell :=
    hk.cells.content cell (bound_of_content hcell)
  have hnumber {value : CellRef} (hvalue : value ∈ values) :
      k.content value = .number (number value) :=
    (hkept (by rw [hvalues value hvalue]; exact nofun)).trans (hvalues value hvalue)
  have hfuel : 0 < (interp (fuel + 2)).fuel := Nat.succ_pos _
  obtain ⟨out, n, hrun, hn, hout⟩ := Interp.callValue_minus hfuel site "compareTo" .none
    ((hkept (by rw [hfunction]; exact nofun)).trans hfunction) (hnumber ha) (hnumber hb)
  cases hcall
  refine ⟨out, n, hrun, hk.trans hn, ?_⟩
  unfold Machine.number?
  rw [hout]

end

namespace ObjectMethod

variable {call : Call} {m : Machine} {self function : CellRef} {ref : TableRef}
  {I : Machine → Prop} {values : List CellRef} {result : CellRef → CellRef → Decimal}

/-- The order that a function gives. -/
def givenOrder (call : Call) (function a b : CellRef) : Run Int := do
  let result ← call.invoke "compareTo" function [a, b]
  return (((← get).number? result).map Decimal.word).getD 0

theorem comparator_given (call : Call) (rest : List CellRef)
    (hfunction : (m.content function).isFunction = true)
    (hparams : (m.content function).paramCount?.getD 2 = 2) :
    comparator call (function :: rest) m = .ok (givenOrder call function) m := by
  have hread : TreeScript.content function m = .ok (m.content function) m := rfl
  unfold comparator
  dsimp only
  rw [Run.bind_ok hread, hfunction, hparams]
  rfl

/-- The order that a function gives is that of the words of its results. -/
theorem givenOrder_achieves (hcompares : m.ComparesBy I call function values result)
    {a b : CellRef} (ha : a ∈ values) (hb : b ∈ values) :
    Achieves I (· = (result a b).word) (givenOrder call function a b) := by
  intro k hk
  obtain ⟨out, n, hcall, hn, hnumber⟩ := hcompares.answers a ha b hb k hk
  refine ⟨(result a b).word, n, ?_, hn, rfl⟩
  unfold givenOrder
  rw [Run.bind_ok hcall, Run.get_bind, hnumber]
  rfl

/-- Assumes: an array, and a function of two parameters (or one that is not written in the language)
that leaves alone what there is and answers for all its values with numbers, the words of which rank
them. The array is sorted into a new one, stably by the words, so that no value is above a later one.
If there are values, the greatest one found is one that no other is above, and the least one found,
unless the least word occurs, is one that no other is below. -/
theorem sort_follows_words_of_results (rest : List CellRef) (hself : m.content self = .object ref)
    (harray : m.isArray ref = true) (href : ref.index < m.tables.size)
    (hkeys : ∀ key ∈ (m.table ref).keys, key.index < m.cells.size)
    (hfunction : (m.content function).isFunction = true)
    (hparams : (m.content function).paramCount?.getD 2 = 2)
    (hcompares : m.ComparesBy I call function (m.table ref).values result)
    (hwords : RanksByWords (m.table ref).values result) :
    (∃ out n new sorted, run call .sort self (function :: rest) m = .ok out n ∧
      n.content out = .object new ∧ m.tables.size ≤ new.index ∧ Machine.KeepsFrom 0 m n ∧
      n.HasItems new sorted ∧
      StablySorted (· ∈ (m.table ref).values) (wordBefore result) (m.table ref).values sorted ∧
      sorted.Pairwise fun a b ↦ (result a b).word ≤ 0) ∧
    ((m.table ref).values ≠ [] →
      (∃ greatest n, run call .max self (function :: rest) m = .ok greatest n ∧
        Machine.KeepsFrom 0 m n ∧ greatest ∈ (m.table ref).values ∧
        ∀ value ∈ (m.table ref).values, (result value greatest).word ≤ 0) ∧
      ((∀ a ∈ (m.table ref).values, ∀ b ∈ (m.table ref).values,
          (result a b).word ≠ -(twoTo 63 : Int)) →
        ∃ least n, run call .min self (function :: rest) m = .ok least n ∧
          Machine.KeepsFrom 0 m n ∧ least ∈ (m.table ref).values ∧
          ∀ value ∈ (m.table ref).values, 0 ≤ (result value least).word)) := by
  have hcomparator := comparator_given call rest hfunction hparams
  have hranks := hwords.ranks
  have hread := valuesOf_of_object hself
  refine ⟨?_, fun hsome ↦ ⟨?_, fun hleast ↦ ?_⟩⟩
  · obtain ⟨entries, k, hk, hsorted, hrun⟩ := sortEntries_apply ref false false hcomparator
      hcompares.begins (fun _ _ ↦ rfl) hranks
      (fun a b ha hb ↦ (givenOrder_achieves hcompares ha hb).mono fun c hc ↦ by rw [hc]; rfl)
      fun entry hentry ↦ List.mem_map_of_mem hentry
    have hkept := hcompares.kept k hk
    obtain ⟨out, n, new, hrebuilt, hout, hbuilt, hitems⟩ := rebuild_apply (m := k) true entries nofun
    rw [hkept.isArray href hkeys, harray] at hrun
    have hstable : StablySorted (· ∈ (m.table ref).values) (wordBefore result) (m.table ref).values
        (entries.map Entry.value) := hsorted.map fun value ↦ ⟨⟨value, value⟩, rfl⟩
    have hsort : run call .sort self (function :: rest) m =
        sortEntries call ref (function :: rest) false m := Run.bind_ok (tableOrNew_apply hself)
    refine ⟨out, n, new, _, hsort.trans (hrun.trans hrebuilt), hout, hkept.size.trans hbuilt.fresh,
      hkept.trans (hbuilt.grown.keepsFrom 0), hitems, hstable, ?_⟩
    refine List.Pairwise.imp_of_mem (fun {a b} ha hb hab ↦ ?_) hstable.ordered
    have hmem {value : CellRef} := hstable.perm.mem_iff (a := value)
    rw [wordBefore, decide_eq_false_iff_not, ← hwords.pos_iff (hmem.mp ha) (hmem.mp hb)] at hab
    omega
  · obtain ⟨greatest, k, hmax, hk, hgreatest⟩ := extreme_apply (I := I) 1 hcomparator
      hcompares.begins hranks.flip
      (fun a b ha hb ↦ (givenOrder_achieves hcompares ha hb).mono fun c hc ↦ by
        rw [hc, Int.mul_one, bmod_word, wordBefore, decide_eq_decide]
        exact hwords.pos_iff ha hb)
      (fun value hvalue ↦ hvalue) hsome
    refine ⟨greatest, k, (Run.bind_ok hread).trans hmax, hcompares.kept k hk, hgreatest.mem,
      fun value hvalue ↦ ?_⟩
    have hnot := hgreatest.not_better hranks.flip (fun value hvalue ↦ hvalue) hvalue
    rw [wordBefore, decide_eq_false_iff_not, ← hwords.pos_iff hvalue hgreatest.mem] at hnot
    omega
  · obtain ⟨least, k, hmin, hk, hbest⟩ := extreme_apply (I := I) (-1) hcomparator
      hcompares.begins hranks
      (fun a b ha hb ↦ (givenOrder_achieves hcompares ha hb).mono fun c hc ↦ by
        rw [hc, Int.mul_neg_one, wordBefore, decide_eq_decide]
        exact bmod_neg_word_pos (hleast a ha b hb))
      (fun value hvalue ↦ hvalue) hsome
    refine ⟨least, k, (Run.bind_ok hread).trans hmin, hcompares.kept k hk, hbest.mem,
      fun value hvalue ↦ ?_⟩
    have hnot := hbest.not_better hranks (fun value hvalue ↦ hvalue) hvalue
    rw [wordBefore, decide_eq_false_iff_not] at hnot
    omega

/-- Two numbers, the greater one first, and the function that the operator `-` stands for. -/
def numbersAndMinus : Machine where
  cells := #[.number (Decimal.ofInt 2), .number (Decimal.ofInt 1),
    .native ⟨0⟩ (.operator "-" .infixOp)]

/-- An array with a greater number before a smaller one is sorted by their difference. -/
theorem smaller_minuend_comes_first : ∃ self m call out n new,
    newArray [⟨0⟩, ⟨1⟩] numbersAndMinus = .ok self m ∧
      (interp 3).callFrom ⟨⟨0⟩, default⟩ m = .ok call m ∧
      run call .sort self [⟨2⟩] m = .ok out n ∧ n.content out = .object new ∧
      n.HasItems new [⟨1⟩, ⟨0⟩] := by
  obtain ⟨self, m, hmade, hgrown, ref, hself, hitems⟩ :=
    Machine.newArray_items [⟨0⟩, ⟨1⟩] numbersAndMinus
  have hcells : ∀ i < 3, m.content ⟨i⟩ = numbersAndMinus.content ⟨i⟩ := fun i hi ↦
    hgrown.cells.content ⟨i⟩ hi
  have hnumbers : ∀ value ∈ (m.table ref).values,
      m.content value = .number (Decimal.ofInt (2 - value.index)) := by
    rw [hitems.values]
    simp only [List.forall_mem_cons]
    exact ⟨hcells 0 (by decide), hcells 1 (by decide), nofun⟩
  have hminus : m.content ⟨2⟩ = .native ⟨0⟩ (.operator "-" .infixOp) := hcells 2 (by decide)
  obtain ⟨call, hcall⟩ : ∃ call, (interp 3).callFrom ⟨⟨0⟩, default⟩ m = .ok call m := ⟨_, rfl⟩
  have hcompares := Machine.comparesBy_differences hcall hminus hnumbers
  have hwords : RanksByWords (m.table ref).values fun a b ↦
      Decimal.ofInt (2 - a.index) - Decimal.ofInt (2 - b.index) := by
    refine ranksByWords_of_differences (fun value ↦ 2 - value.index) ?_
    rw [hitems.values]
    decide
  obtain ⟨⟨out, n, new, sorted, hrun, hout, -, -, hnew, hsorted, hordered⟩, -⟩ :=
    sort_follows_words_of_results [] hself (hitems.isArray (by decide))
      hitems.orderly.table (fun key hkey ↦ by
        obtain ⟨entry, hentry, rfl⟩ := List.mem_map.mp hkey
        exact hitems.orderly.keys entry hentry)
      (by rw [hminus]; rfl) (by rw [hminus]; rfl) hcompares hwords
  refine ⟨self, m, call, out, n, new, hmade, hcall, hrun, hout, ?_⟩
  rw [hitems.values] at hsorted
  rwa [hsorted.pair (by decide)] at hnew

end ObjectMethod

end TreeScript
