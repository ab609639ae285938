import TreeScript.Method.Text
import TreeScript.Proofs.Export.Exporting
import TreeScript.Proofs.Iteration.Loops

/-!
# Indexing and iterating texts

A program can take a text apart in three ways: by counting its characters, by an iterator, and by the
place of a character. An iterator is walked through by asking it for the next element as long as it has
one (`WalksThrough`), and such a walk hands out all elements that the iterator is left with, in their
order (`walksThrough_remaining`). The iterator of a text is left with its characters
(`makeIterator_text`). A place counts as the word of its lowest bits (`charAt_apply`), so the three
ways agree for all places that are words (`text_places_by_lowest_bits`).
-/

set_option autoImplicit false

namespace TreeScript

/-! ### Walks -/

/-- A walk with an iterator, from a machine to another: as long as the iterator answers that it has a
next element, it is asked for it. -/
inductive WalksThrough (call : Call) (iterator : CellRef) : List CellRef → Machine → Machine → Prop
  | done {m n : Machine} {answer : CellRef}
      (hasNext : Method.run call (.iterator .hasNext) iterator [] m = .ok answer n)
      (no : n.content answer = .boolean false) : WalksThrough call iterator [] m n
  | element {m n k last : Machine} {answer item : CellRef} {items : List CellRef}
      (hasNext : Method.run call (.iterator .hasNext) iterator [] m = .ok answer n)
      (yes : n.content answer = .boolean true)
      (next : Method.run call (.iterator .next) iterator [] n = .ok item k)
      (later : WalksThrough call iterator items k last) :
      WalksThrough call iterator (item :: items) m last

section

variable {m : Machine} {iterator : CellRef} {ref : IteratorRef} {items : List CellRef}

/-- An iterator has a next element if there are any left, and it is left with them. -/
theorem hasNext_apply (call : Call) (args : List CellRef)
    (hiterator : m.content iterator = .iterator ref) : ∃ answer n,
      Method.run call (.iterator .hasNext) iterator args m = .ok answer n ∧
      n.content answer = .boolean (!(m.remaining ref).isEmpty) ∧
      n.remaining ref = m.remaining ref ∧ m.KeepsCells n := by
  have hread : content iterator m = .ok (.iterator ref) m := congrArg (EStateM.Result.ok · m) hiterator
  have hanswer : (m.iterator ref).hasNext.1 = !(m.remaining ref).isEmpty := Iterator.hasNext_fst _
  have hleft : (m.iterator ref).hasNext.2.remaining = m.remaining ref := Iterator.remaining_hasNext _
  generalize hit : (m.iterator ref).hasNext.2 = it at hleft
  have hasked : m.KeepsCells (m.withIterator ref it) := Machine.keepsCells_of_eq rfl
  refine ⟨⟨m.cells.size⟩, (m.withIterator ref it).withCell (.boolean (!(m.remaining ref).isEmpty)),
    ?_, Machine.content_new _ _, ?_, hasked.trans (Machine.grown_withCell _ _).cells⟩
  · change IteratorMethod.run .hasNext iterator m = _
    unfold IteratorMethod.run
    rw [Run.bind_ok hread, ← hanswer, ← hit]
    rfl
  · exact (Machine.remaining_withIterator_self hleft.trans).trans hleft

/-- The next element of an iterator is the first one that is left, and it is left with the others.
There is none if nothing is left. -/
theorem next_apply (call : Call) (args : List CellRef)
    (hiterator : m.content iterator = .iterator ref) : ∃ n,
      n.remaining ref = (m.remaining ref).tail ∧ m.KeepsCells n ∧
      Method.run call (.iterator .next) iterator args m =
        match (m.remaining ref).head? with
        | some item => .ok item n
        | none => .error (.plain "iterator has no more elements") n := by
  have hread : content iterator m = .ok (.iterator ref) m := congrArg (EStateM.Result.ok · m) hiterator
  obtain ⟨it, hrest, hnext⟩ := Machine.next?_eq ref m
  refine ⟨m.withIterator ref it, Machine.remaining_drawn hrest, Machine.keepsCells_of_eq rfl, ?_⟩
  change IteratorMethod.run .next iterator m = _
  unfold IteratorMethod.run
  rw [Run.bind_ok hread]
  dsimp only
  rw [Run.bind_ok hnext]
  cases (m.remaining ref).head? <;> rfl

/-- A walk with an iterator meets the elements that are left in it. -/
theorem walksThrough_remaining (call : Call) (hiterator : m.content iterator = .iterator ref)
    (hremaining : m.remaining ref = items) :
    ∃ last, WalksThrough call iterator items m last ∧ m.KeepsCells last := by
  obtain ⟨answer, n, hasked, hanswer, hleft, hkept⟩ := hasNext_apply call [] hiterator
  rw [hremaining] at hanswer hleft
  induction items generalizing m answer n with
  | nil => exact ⟨n, .done hasked hanswer, hkept⟩
  | cons item items ih =>
    have hcell : iterator.index < m.cells.size :=
      Machine.bound_of_content (by rw [hiterator]; exact nofun)
    have hstill := (hkept.content iterator hcell).trans hiterator
    obtain ⟨k, hrest, hdrawn, hnext⟩ := next_apply call [] hstill
    rw [hleft] at hrest hnext
    have hkept' := hkept.trans hdrawn
    have hstill' := (hkept'.content iterator hcell).trans hiterator
    obtain ⟨answer', n', hasked', hanswer', hleft', hlater⟩ := hasNext_apply call [] hstill'
    rw [hrest, List.tail_cons] at hanswer' hleft'
    obtain ⟨last, hwalks, hlast⟩ := ih hstill' hrest answer' n' hasked' hanswer' hleft' hlater
    exact ⟨last, .element hasked hanswer hnext hwalks, hkept'.trans hlast⟩

end

/-! ### Texts -/

/-- The characters of a text, each as a text of its own. -/
def characters (s : String) : List String := s.toList.map Char.toString

theorem length_characters (s : String) : (characters s).length = s.length := List.length_map _

theorem join_characters (s : String) : String.join (characters s) = s := by
  refine String.toList_injective ?_
  rw [String.toList_join, characters, List.flatMap_map]
  simp

/-- What a program finds at a place of some texts: the text there, or nothing outside of them. -/
structure FoundAt (texts : List String) (place : ℤ) (content : Content) : Prop where
  within : ∀ (i : ℕ) (hi : i < texts.length), place = i → content = .string texts[i]
  outside : place < 0 ∨ texts.length ≤ place → content = .empty

section

variable {m : Machine} {self cell : CellRef} {s : String}

/-- The iterator of a text is left with its characters. -/
theorem makeIterator_text (call : Call) (hself : m.content self = .string s) :
    ∃ iterator ref n, Method.run call (.common .iterator) self [] m = .ok iterator n ∧
      n.content iterator = .iterator ref ∧
      (∀ item ∈ n.remaining ref, item.index < n.cells.size) ∧
      (n.remaining ref).map n.content = (characters s).map .string := by
  obtain ⟨items, n, hitems, hgrown, hbound, hcontents⟩ :=
    Machine.mapM_contents (fun c : Char ↦ .string c.toString) s.toList m
  have hread : content self m = .ok (.string s) m := congrArg (EStateM.Result.ok · m) hself
  let listed : Machine := { n with iterators := n.iterators.push { rest := items } }
  have hremaining : (listed.withCell (.iterator ⟨n.iterators.size⟩)).remaining
      ⟨n.iterators.size⟩ = items := by
    change ((n.iterators.push { rest := items })[n.iterators.size]?.getD default).remaining = items
    rw [Array.getElem?_push_size]
    rfl
  have hkept := (listed.grown_withCell (.iterator ⟨n.iterators.size⟩)).cells
  have hiterated : iterate self m =
      .ok (some ⟨n.cells.size⟩) (listed.withCell (.iterator ⟨n.iterators.size⟩)) := by
    unfold iterate
    rw [Run.bind_ok hread]
    exact Run.bind_ok hitems
  refine ⟨⟨n.cells.size⟩, ⟨n.iterators.size⟩, listed.withCell (.iterator ⟨n.iterators.size⟩), ?_,
    listed.content_new _, ?_, ?_⟩
  · change makeIterator self m = _
    unfold makeIterator
    rw [Run.bind_ok hiterated]
    rfl
  · rw [hremaining]
    exact fun item hitem ↦ (hbound item hitem).trans_le hkept.size
  · rw [hremaining, characters, List.map_map]
    refine (List.map_congr_left fun item hitem ↦ ?_).trans hcontents
    exact hkept.content item (hbound item hitem)

/-- The size of a text is the number of its characters. -/
theorem size_apply (call : Call) (hself : m.content self = .string s) :
    Method.run call (.text .size) self [] m =
      .ok ⟨m.cells.size⟩ (m.withCell (.number (.ofInt s.length))) := by
  have hsize : sizeOf self m = .ok s.length m := by
    unfold sizeOf
    rw [Run.get_bind, hself]
    rfl
  change (sizeOf self >>= fun size ↦ newNumber (.ofInt size)) m = _
  rw [Run.bind_ok hsize]
  rfl

/-- The whole part of a place counts as the word of its lowest bits, and a text has the character at
this place. -/
theorem charAt_apply (call : Call) {place : Decimal} (hself : m.content self = .string s)
    (hplace : m.number? cell = some place) :
    ∃ content, Method.run call (.text .charAt) self [cell] m =
      .ok ⟨m.cells.size⟩ (m.withCell content) ∧ FoundAt (characters s) place.word content := by
  have hshown : display self m = .ok s m :=
    congrArg (EStateM.Result.ok · m) (Machine.display_string hself)
  change ∃ content, (display self >>= fun s ↦ TextMethod.charAtIndex s cell) m = _ ∧ _
  rw [Run.bind_ok hshown]
  unfold TextMethod.charAtIndex
  rw [Run.get_bind, hplace]
  dsimp only
  by_cases hnegative : place.word < 0
  · rw [if_pos hnegative]
    refine ⟨.empty, rfl, fun i _ hi ↦ ?_, fun _ ↦ rfl⟩
    omega
  · rw [if_neg hnegative]
    cases hfound : s.toList[place.word.toNat]? with
    | none =>
      refine ⟨.empty, rfl, fun i hi hword ↦ ?_, fun _ ↦ rfl⟩
      rw [List.getElem?_eq_none_iff, hword] at hfound
      exact absurd hi (not_lt.mpr ((List.length_map _).trans_le hfound))
    | some c =>
      obtain ⟨hplace', hc⟩ := List.getElem?_eq_some_iff.mp hfound
      refine ⟨.string c.toString, rfl, fun i hi hword ↦ ?_, fun houtside ↦ ?_⟩
      · simp only [hword, Int.toNat_natCast] at hc
        rw [← hc]
        exact congrArg Content.string (List.getElem_map _).symm
      · rw [length_characters] at houtside
        change place.word.toNat < s.length at hplace'
        omega

/-- Assumes: a text. Its iterator hands out its characters one after the other, its size is their
number, and put together they are the text. The character at a whole number of any magnitude is the one
that the iterator hands out at the place which the lowest 64 bits of the number make as a signed word,
counted from zero, and null if the text has no such place. So for numbers that are words it is the
character at the number itself, and null for numbers that are no places of the text. -/
theorem text_places_by_lowest_bits (call : Call) (hself : m.content self = .string s) :
    (∃ iterator n items last,
      Method.run call (.common .iterator) self [] m = .ok iterator n ∧
      WalksThrough call iterator items n last ∧
      items.map last.content = (characters s).map .string) ∧
    String.join (characters s) = s ∧
    (∃ out n, Method.run call (.text .size) self [] m = .ok out n ∧
      n.content out = .number (.ofInt (characters s).length)) ∧
    ∀ (cell : CellRef) (i : ℤ), m.number? cell = some (.ofInt i) →
      ∃ out n, Method.run call (.text .charAt) self [cell] m = .ok out n ∧
        FoundAt (characters s) (i.bmod (twoTo 64)) (n.content out) ∧
        (-(twoTo 63 : ℤ) ≤ i → i < twoTo 63 → FoundAt (characters s) i (n.content out)) := by
  refine ⟨?_, join_characters s, ?_, fun cell i hi ↦ ?_⟩
  · obtain ⟨iterator, ref, n, hmade, hiterator, hbound, hcontents⟩ := makeIterator_text call hself
    obtain ⟨last, hwalks, hkept⟩ := walksThrough_remaining call hiterator rfl
    refine ⟨iterator, n, n.remaining ref, last, hmade, hwalks, ?_⟩
    rw [← hcontents]
    exact List.map_congr_left fun item hitem ↦ hkept.content item (hbound item hitem)
  · refine ⟨_, _, size_apply call hself, ?_⟩
    rw [m.content_new, length_characters]
  · obtain ⟨content, hfound, hcontent⟩ := charAt_apply call hself hi
    rw [Decimal.word_ofInt_eq_bmod] at hcontent
    refine ⟨_, _, hfound, ?_, fun hlow hhigh ↦ ?_⟩
    · rwa [m.content_new]
    · rw [m.content_new]
      rwa [bmod_of_fits hlow hhigh] at hcontent

end

/-- The text ab, and the number after all words. -/
def numberAfterWords : Machine where
  cells := #[.string "ab", .number (.ofInt 18446744073709551616)]

/-- The number after all words counts as zero, so that the first character is found there. -/
theorem number_after_words_is_a_place :
    ∃ out n, Method.run (.detached 20 1) (.text .charAt) ⟨0⟩ [⟨1⟩] numberAfterWords = .ok out n ∧
      n.content out = .string "a" := by
  have hself : numberAfterWords.content ⟨0⟩ = .string "ab" := rfl
  have hplace : numberAfterWords.number? ⟨1⟩ = some (.ofInt 18446744073709551616) := rfl
  have hword : Int.bmod 18446744073709551616 (twoTo 64) = 0 := by decide
  obtain ⟨-, -, -, hcharAt⟩ := text_places_by_lowest_bits (.detached 20 1) hself
  obtain ⟨out, n, hrun, hfound, -⟩ := hcharAt ⟨1⟩ 18446744073709551616 hplace
  rw [hword] at hfound
  exact ⟨out, n, hrun, hfound.within 0 (by decide) rfl⟩

end TreeScript
