import Mathlib.Data.List.TakeWhile
import TreeScript.Pattern.Parser

/-!
# Reading a pattern in parentheses

A pattern that stands in parentheses, with a `$` behind them, is followed by two more characters than
when it stands alone. Here each reader of the parser is shown to take no notice of them: what it reads
of a text it reads of the text with `)$` behind it, and leaves the same, with `)$` behind it.

What a reader leaves begins outside a quotation if the text does (`Leaves`). For a quotation that is not
ended takes in all that follows, the closing parenthesis too. Whether a pattern ends in one can be seen
without reading it as an expression (`leavesQuote`).
-/

set_option autoImplicit false

namespace TreeScript.Pattern.Parser

/-- What stands behind a pattern in parentheses. -/
def closing : List Char := [')', '$']

/-- Whether the end of a text is quoted. Outside a quotation, a backslash belongs to the character
behind it. -/
def leavesQuote : Bool → List Char → Bool
  | quoted, [] => quoted
  | true, '\\' :: 'E' :: rest => leavesQuote false rest
  | true, _ :: rest => leavesQuote true rest
  | false, '\\' :: 'Q' :: rest => leavesQuote true rest
  | false, '\\' :: _ :: rest => leavesQuote false rest
  | false, _ :: rest => leavesQuote false rest

/-- A part of a text has been read, in which all quotations were ended. -/
structure Leaves (cs rest : List Char) : Prop where
  shorter : rest.length < cs.length
  quote : leavesQuote false cs = leavesQuote false rest

section

variable {c : Char} {cs mid rest whole : List Char} {flags : Flags}

/-- Outside a quotation, one character is passed over, or two if the first is a backslash. -/
theorem leavesQuote_unquoted (c : Char) (rest : List Char) :
    (c ≠ '\\' → leavesQuote false (c :: rest) = leavesQuote false rest) ∧
      (c ≠ 'Q' → leavesQuote false ('\\' :: c :: rest) = leavesQuote false rest) :=
  ⟨fun h ↦ leavesQuote.eq_6 _ _ (fun _ h' _ ↦ h h') fun _ _ h' _ ↦ h h',
    fun h ↦ leavesQuote.eq_5 _ _ h⟩

namespace Leaves

theorem plain (h : c ≠ '\\') (rest : List Char) : Leaves (c :: rest) rest where
  shorter := Nat.lt_succ_self _
  quote := (leavesQuote_unquoted c rest).1 h

theorem escaped (h : c ≠ 'Q') (rest : List Char) : Leaves ('\\' :: c :: rest) rest where
  shorter := Nat.lt_succ_of_lt (Nat.lt_succ_self _)
  quote := (leavesQuote_unquoted c rest).2 h

theorem trans (h : Leaves cs mid) (h' : Leaves mid rest) : Leaves cs rest where
  shorter := Nat.lt_trans h'.shorter h.shorter
  quote := h.quote.trans h'.quote

/-- One more character is read. -/
theorem skip (h : Leaves cs (c :: rest)) (hc : c ≠ '\\') : Leaves cs rest :=
  h.trans (.plain hc rest)

/-- More characters are read, none of which is a backslash. -/
theorem skips {read : List Char} (h : Leaves cs (read ++ rest)) (hread : '\\' ∉ read) :
    Leaves cs rest := by
  induction read with
  | nil => exact h
  | cons c read ih =>
    rw [List.mem_cons, not_or] at hread
    exact ih (h.skip (Ne.symm hread.1)) hread.2

end Leaves

theorem of_bind_ok {α β : Type} {x : Except SyntaxError α} {f : α → Except SyntaxError β} {b : β}
    (h : x >>= f = .ok b) : ∃ a, x = .ok a ∧ f a = .ok b := by
  cases x with
  | error e => cases h
  | ok a => exact ⟨a, rfl, h⟩

theorem bind_of_ok {α β : Type} {x : Except SyntaxError α} {a : α} (h : x = .ok a)
    (f : α → Except SyntaxError β) : x >>= f = f a := by
  rw [h]
  rfl

/-- A text that begins with another character than the closing does begins with it without the closing
behind it, too. -/
theorem cons_of_closing (h : cs ++ closing = c :: rest) (hc : c ≠ ')') :
    ∃ cs', cs = c :: cs' ∧ rest = cs' ++ closing := by
  cases cs with
  | nil => exact (hc (List.cons.inj h).1.symm).elim
  | cons d cs =>
    obtain ⟨rfl, rfl⟩ := List.cons.inj h
    exact ⟨cs, rfl, rfl⟩

theorem head?_closing (cs : List Char) (hc : c ≠ ')') :
    ((cs ++ closing).head? == some c) = (cs.head? == some c) := by
  cases cs with
  | nil => exact beq_eq_false_iff_ne.mpr fun h ↦ hc (Option.some.inj h).symm
  | cons d cs => rfl

theorem forall_ne (h : c ∉ cs) : ∀ d ∈ cs, decide (d ≠ c) = true :=
  fun _ hd ↦ decide_eq_true fun hdc ↦ h (hdc ▸ hd)

/-- A text is what stands in front of a character in it, the character and the rest. -/
theorem split_at (h : (cs.takeWhile (· ≠ c)).length ≠ cs.length) :
    ∃ before rest, cs = before ++ c :: rest ∧ c ∉ before := by
  refine List.eq_append_cons_of_mem (Decidable.byContradiction fun hmem ↦ h ?_)
  rw [List.takeWhile_eq_self_iff.mpr (forall_ne hmem)]

theorem takeWhile_split (h : c ∉ mid) (rest : List Char) :
    (mid ++ c :: rest).takeWhile (· ≠ c) = mid := by
  rw [List.takeWhile_append_of_pos (forall_ne h), List.takeWhile_cons_of_neg (by simp),
    List.append_nil]

theorem drop_split (mid rest : List Char) : (mid ++ c :: rest).drop (mid.length + 1) = rest := by
  rw [← List.drop_drop, List.drop_left, List.drop_one, List.tail_cons]

/-! ### Single characters -/

theorem hexValue_ne {digit : Nat} (h : hexValue c = some digit) : c ≠ '\\' := by
  rintro rfl
  cases h

theorem isOctal_ne (h : isOctal c = true) : c ≠ '\\' ∧ c ≠ 'Q' := by
  constructor
  all_goals
    rintro rfl
    cases h

theorem octalTail_closing (value count : Nat) (hcs : Leaves whole cs) :
    octalTail value count (cs ++ closing) =
        ((octalTail value count cs).1, (octalTail value count cs).2 ++ closing) ∧
      Leaves whole (octalTail value count cs).2 := by
  fun_induction octalTail value count cs with
  | case1 value count c cs hc ih =>
    rw [List.cons_append, octalTail, if_pos hc]
    exact ih (hcs.skip (isOctal_ne hc).1)
  | case2 value count c cs hc =>
    rw [List.cons_append, octalTail, if_neg hc]
    exact ⟨rfl, hcs⟩
  | case3 count value cs hends =>
    refine ⟨?_, hcs⟩
    cases count with
    | zero => rw [octalTail]
              exact nofun
    | succ count =>
      cases cs with
      | nil => rfl
      | cons c cs => exact (hends count c cs rfl rfl).elim

theorem bracedHex_closing {value count : Nat} {result : Nat × List Char}
    (h : bracedHex value count cs = .ok result) (hcs : Leaves whole cs) :
    bracedHex value count (cs ++ closing) = .ok (result.1, result.2 ++ closing) ∧
      Leaves whole result.2 := by
  fun_induction bracedHex value count cs with
  | case1 => cases h
  | case2 => cases h
  | case3 value count cs hcount =>
    cases h
    refine ⟨?_, hcs.skip (by decide)⟩
    rw [List.cons_append, bracedHex, if_neg hcount]
  | case4 => cases h
  | case5 => cases h
  | case6 value count c cs hc digit hdigit hsmall ih =>
    obtain ⟨hread, hleaves⟩ := ih h (hcs.skip (hexValue_ne hdigit))
    refine ⟨?_, hleaves⟩
    rw [List.cons_append, bracedHex, hdigit]
    · exact (if_neg hsmall).trans hread
    · exact hc

theorem escape_closing {result : Nat × List Char} (h : escape ('\\' :: cs) = .ok result) :
    escape ('\\' :: cs ++ closing) = .ok (result.1, result.2 ++ closing) ∧
      Leaves ('\\' :: cs) result.2 := by
  cases cs with
  | nil => cases h
  | cons c rest =>
    simp only [escape, List.drop_succ_cons, List.drop_zero, List.cons_append] at h ⊢
    split at h
    iterate 6
      · cases h
        refine ⟨rfl, .escaped ?_ _⟩
        decide
    · have hx : Leaves ('\\' :: 'x' :: rest) rest := .escaped (by decide) rest
      split at h
      · cases h
      · split at h
        · rename_i inner _ found hread
          cases h
          obtain ⟨hread', hleaves⟩ := bracedHex_closing hread (hx.skip (by decide))
          refine ⟨?_, hleaves⟩
          simp only [List.cons_append, hread']
        · cases h
      · rename_i a rest hbrace
        split at h
        · rename_i high b rest hhigh
          split at h
          · rename_i low hlow
            cases h
            refine ⟨?_, (hx.skip (hexValue_ne hhigh)).skip (hexValue_ne hlow)⟩
            simp only [List.cons_append, hhigh, hlow]
          · cases h
        · cases h
    · cases h
      have hzero : Leaves ('\\' :: '0' :: rest) rest := .escaped (by decide) rest
      obtain ⟨htail, hleaves⟩ := octalTail_closing 0 2 hzero
      rw [htail]
      exact ⟨rfl, hleaves⟩
    · split at h
      · rename_i hoctal
        split at h
        · rename_i hnext
          cases h
          obtain ⟨htail, hleaves⟩ := octalTail_closing (c.toNat - '0'.toNat) 2
            (.escaped (isOctal_ne hoctal).2 rest)
          rw [if_pos hoctal, htail]
          refine ⟨if_pos ?_, hleaves⟩
          cases rest with
          | nil => cases hnext
          | cons d rest => exact hnext
        · cases h
      · rename_i hoctal
        split at h
        · rename_i hmark
          cases h
          rw [if_neg hoctal]
          refine ⟨if_pos hmark, .escaped ?_ rest⟩
          rintro rfl
          exact absurd hmark (by decide)
        · cases h

/-! ### Classes -/

/-- The first two characters of a text, or the closing behind it, decide whether a class begins. -/
theorem paren_of_backslash {x : Char} (h : ∀ c rest, cs = '\\' :: c :: rest → False)
    (hx : cs ++ closing = '\\' :: x :: rest) : x = ')' := by
  match cs with
  | [] => cases hx
  | [c] =>
    cases hx
    rfl
  | c :: d :: cs =>
    cases hx
    exact (h _ _ rfl).elim

theorem shorthand?_closing (flags : Flags) (cs : List Char) :
    shorthand? flags (cs ++ closing) =
        (shorthand? flags cs).map (fun (set, rest) ↦ (set, rest ++ closing)) ∧
      ∀ result, shorthand? flags cs = some result → Leaves cs result.2 := by
  fun_cases shorthand? flags cs with
  | case7 c rest hd hs hw hD hS hW =>
    refine ⟨?_, nofun⟩
    simp only [List.cons_append, shorthand?, Option.map_none]
  | case8 cs hne =>
    refine ⟨?_, nofun⟩
    unfold shorthand?
    split
    · rename_i hx
      rw [paren_of_backslash hne hx]
      rfl
    · rfl
  | _ =>
    refine ⟨rfl, fun result h ↦ ?_⟩
    cases h
    refine .escaped ?_ _
    decide

theorem toList_of_ofList_eq {name : List Char} {s : String} (h : String.ofList name = s) :
    name = s.toList := by
  rw [← h, String.toList_ofList]

section

variable {name : List Char} {set : CharSet}

theorem lookup_ne {tables : List (String × List Text.Span)} {table : List Text.Span}
    (h : tables.lookup (String.ofList name) = some table)
    (htables : ∀ entry ∈ tables, '\\' ∉ entry.1.toList) : '\\' ∉ name := by
  obtain ⟨before, behind, rfl, -⟩ := List.lookup_eq_some_iff.mp h
  have hname := htables _ (List.mem_append_right _ (List.mem_cons_self ..))
  rw [String.toList_ofList] at hname
  exact hname

theorem category_ne {table : List Text.Span}
    (h : Text.Category.spans? (String.ofList name) = some table) : '\\' ∉ name := by
  unfold Text.Category.spans? at h
  split at h
  · rename_i hminor
    exact lookup_ne hminor (by decide)
  · split at h
    · rename_i major hmajor
      rw [String.toList_ofList] at hmajor
      rw [hmajor, List.mem_singleton]
      rintro rfl
      have hnone : Text.Category.minor.filter
          (fun entry ↦ entry.1.toList.head? == some '\\') = [] :=
        List.filter_eq_nil_iff.mpr (by decide)
      rw [hnone] at h
      cases h
    · cases h

/-- No property has a backslash in its name. -/
theorem property?_ne (h : CharSet.property? (String.ofList name) = some set) : '\\' ∉ name := by
  unfold CharSet.property? at h
  split at h
  · rename_i hany
    rw [toList_of_ofList_eq hany]
    decide
  · obtain ⟨table, htable, -⟩ := Option.map_eq_some_iff.mp h
    cases hcategory : Text.Category.spans? (String.ofList name) with
    | none =>
      rw [hcategory] at htable
      exact lookup_ne htable (by decide)
    | some table => exact category_ne hcategory

theorem named?_ne (h : CharSet.named? (String.ofList name) = some set) : '\\' ∉ name := by
  unfold CharSet.named? at h
  split at h
  iterate 14
    · rename_i hs
      rw [toList_of_ofList_eq hs]
      decide
  · cases h

/-- The caret in front of a name is not a backslash. -/
theorem not_mem_of_caret (h : '\\' ∉ if name.head? == some '^' then name.drop 1 else name) :
    '\\' ∉ name := by
  split at h
  · rename_i hcaret
    cases name with
    | nil => exact List.not_mem_nil
    | cons c name =>
      rw [Option.some.inj (beq_iff_eq.mp hcaret), List.mem_cons, not_or]
      exact ⟨by decide, h⟩
  · exact h

end

/-- The class of a property of which the name has been read. -/
def propertyNamed (flags : Flags) (p : Char) (cs name rest : List Char) :
    Except SyntaxError (Option (CharSet × List Char)) :=
  let caret := name.head? == some '^'
  let name := if caret then name.drop 1 else name
  match CharSet.property? (String.ofList name) with
  | none => .error (.charRange (upTo cs rest))
  | some set =>
    let set := if flags.ignoreCase then .folded set else set
    .ok (some (if (p == 'P') == caret then set else .complement set, rest))

section

variable {p : Char}

theorem property_eq (hp : p = 'p' ∨ p = 'P') (rest : List Char) :
    property flags ('\\' :: p :: rest) =
      match rest with
      | '\x7b' :: inner =>
        if (inner.takeWhile (· ≠ '\x7d')).length = inner.length then
          .error (.charRange (String.ofList ('\\' :: p :: rest)))
        else propertyNamed flags p ('\\' :: p :: rest) (inner.takeWhile (· ≠ '\x7d'))
          (inner.drop ((inner.takeWhile (· ≠ '\x7d')).length + 1))
      | _ => propertyNamed flags p ('\\' :: p :: rest) (rest.take 1) (rest.drop 1) := by
  rw [property, if_neg (by rcases hp with rfl | rfl <;> decide)]
  rfl

theorem property_ne_none (hp : p = 'p' ∨ p = 'P') :
    property flags ('\\' :: p :: rest) ≠ .ok none := by
  have hnamed (cs name rest : List Char) : propertyNamed flags p cs name rest ≠ .ok none := by
    unfold propertyNamed
    dsimp only
    split <;> exact nofun
  rw [property_eq hp]
  split
  · split
    · exact nofun
    · exact hnamed _ _ _
  · exact hnamed _ _ _

/-- A property is found by its name alone. -/
theorem propertyNamed_congr {name : List Char} {result : CharSet × List Char}
    (h : propertyNamed flags p cs name rest = .ok (some result)) :
    result.2 = rest ∧ '\\' ∉ name ∧ name ≠ [] ∧
      ∀ cs rest, propertyNamed flags p cs name rest = .ok (some (result.1, rest)) := by
  unfold propertyNamed at h ⊢
  dsimp only at h ⊢
  split at h
  · cases h
  · rename_i set hset
    cases h
    refine ⟨rfl, not_mem_of_caret (property?_ne hset), ?_, fun _ _ ↦ rfl⟩
    rintro rfl
    cases hset

end

/-- The class of a property is read up to the end of its name. -/
theorem property_letter_closing {p : Char} (hp : p = 'p' ∨ p = 'P') {result : CharSet × List Char}
    (h : property flags ('\\' :: p :: rest) = .ok (some result)) :
    property flags ('\\' :: p :: rest ++ closing) = .ok (some (result.1, result.2 ++ closing)) ∧
      Leaves ('\\' :: p :: rest) result.2 := by
  have hleaves : Leaves ('\\' :: p :: rest) rest := by
    refine .escaped ?_ rest
    rcases hp with rfl | rfl <;> decide
  rw [property_eq hp] at h
  rw [List.cons_append, List.cons_append, property_eq hp]
  split at h
  · rename_i inner
    split at h
    · cases h
    · rename_i hlength
      obtain ⟨name, rest, rfl, hname⟩ := split_at hlength
      rw [takeWhile_split hname, drop_split] at h
      obtain ⟨hrest, hletters, -, hall⟩ := propertyNamed_congr h
      rw [hrest, List.cons_append, List.append_assoc, List.cons_append]
      refine ⟨(if_neg ?_).trans ?_, ((hleaves.skip (by decide)).skips hletters).skip (by decide)⟩
      · rw [takeWhile_split hname, List.length_append, List.length_cons]
        omega
      · rw [takeWhile_split hname, drop_split, hall]
  · rename_i hbrace
    cases rest with
    | nil => exact absurd rfl (propertyNamed_congr h).2.2.1
    | cons c rest =>
      obtain ⟨hrest, hletter, -, hall⟩ := propertyNamed_congr h
      refine ⟨?_, hrest ▸ hleaves.skip fun hc ↦ hletter (hc ▸ List.mem_singleton_self _)⟩
      split
      · rename_i inner hinner
        cases hinner
        exact (hbrace _ rfl).elim
      · exact hrest ▸ hall _ _

theorem property_closing {found : Option (CharSet × List Char)} (h : property flags cs = .ok found) :
    property flags (cs ++ closing) = .ok (found.map fun (set, rest) ↦ (set, rest ++ closing)) ∧
      ∀ result, found = some result → Leaves cs result.2 := by
  by_cases hcs : ∃ p rest, (p = 'p' ∨ p = 'P') ∧ cs = '\\' :: p :: rest
  · obtain ⟨p, rest, hp, rfl⟩ := hcs
    cases found with
    | none => exact absurd h (property_ne_none hp)
    | some result =>
      obtain ⟨hread, hleaves⟩ := property_letter_closing hp h
      refine ⟨hread, ?_⟩
      rintro _ ⟨⟩
      exact hleaves
  · revert h
    fun_cases property flags cs with
    | case1 c rest hc =>
      intro h
      cases h
      exact ⟨if_pos hc, nofun⟩
    | case5 cs hne =>
      intro h
      cases h
      refine ⟨?_, nofun⟩
      unfold property
      split
      · rename_i hx
        rw [paren_of_backslash hne hx]
        rfl
      · rfl
    | _ => exact absurd ⟨_, _, by grind, rfl⟩ hcs

/-- The name of a class is what stands in front of its ending. -/
theorem ending_closing (cs : List Char) :
    namedClass.ending (cs ++ closing) =
        (namedClass.ending cs).map (fun (name, rest) ↦ (name, rest ++ closing)) ∧
      ∀ name rest, namedClass.ending cs = some (name, rest) → cs = name ++ ':' :: ']' :: rest := by
  fun_induction namedClass.ending cs with
  | case1 rest =>
    refine ⟨rfl, ?_⟩
    rintro _ _ ⟨⟩
    rfl
  | case2 c cs hne ih =>
    obtain ⟨hread, hname⟩ := ih
    constructor
    · rw [List.cons_append, namedClass.ending, hread, Option.map_map, Option.map_map]
      · rfl
      · rintro rest rfl hrest
        cases cs with
        | nil => cases hrest
        | cons d cs =>
          cases hrest
          exact hne _ rfl rfl
    · intro name rest h
      obtain ⟨⟨name, rest⟩, hending, hcons⟩ := Option.map_eq_some_iff.mp h
      cases hcons
      rw [hname name rest hending, List.cons_append]
  | case3 => exact ⟨rfl, nofun⟩

theorem namedClass_closing {found : Option (CharSet × List Char)}
    (h : namedClass flags cs = .ok found) :
    namedClass flags (cs ++ closing) = .ok (found.map fun (set, rest) ↦ (set, rest ++ closing)) ∧
      ∀ result, found = some result → Leaves cs result.2 := by
  revert h
  fun_cases namedClass flags cs with
  | case1 inner hending =>
    intro h
    cases h
    refine ⟨?_, nofun⟩
    rw [List.cons_append, List.cons_append, namedClass, (ending_closing inner).1, hending]
    rfl
  | case2 => exact nofun
  | case3 inner name rest hending caret plain set hset =>
    intro h
    cases h
    have hleaves : Leaves ('[' :: ':' :: inner) inner :=
      (Leaves.plain (by decide) _).skip (by decide)
    have hname : '\\' ∉ name := not_mem_of_caret (named?_ne hset)
    obtain ⟨hread, hcut⟩ := ending_closing inner
    rw [List.cons_append, List.cons_append, namedClass, hread, hending]
    cases hcut name rest hending
    refine ⟨?_, ?_⟩
    · dsimp only [Option.map_some]
      rw [hset]
    · rintro _ ⟨⟩
      exact ((hleaves.skips hname).skip (by decide)).skip (by decide)
  | case4 cs hne =>
    intro h
    cases h
    refine ⟨?_, nofun⟩
    unfold namedClass
    split
    · rename_i hx
      match cs with
      | [] => cases hx
      | [c] => cases hx
      | c :: d :: cs =>
        cases hx
        exact (hne _ rfl).elim
    · rfl

theorem classChar_closing {result : Nat × List Char} (h : classChar whole cs = .ok result)
    (whole' : List Char) :
    classChar whole' (cs ++ closing) = .ok (result.1, result.2 ++ closing) ∧ Leaves cs result.2 := by
  revert h
  fun_cases classChar whole cs with
  | case1 => exact nofun
  | case2 rest => exact escape_closing
  | case3 c rest hc =>
    intro h
    cases h
    refine ⟨?_, .plain hc _⟩
    rw [List.cons_append, classChar]
    exact hc

/-- A hyphen at the very end is left to be read by itself. -/
theorem classRange_closing {result : CharSet × List Char}
    (h : classRange flags whole cs = .ok result) (whole' : List Char) :
    (result.2 ≠ ['-'] →
      classRange flags whole' (cs ++ closing) = .ok (result.1, result.2 ++ closing)) ∧
      Leaves cs result.2 := by
  unfold classRange at h ⊢
  obtain ⟨⟨lo, rest⟩, hlo, h⟩ := of_bind_ok h
  obtain ⟨hlo', hleaves⟩ := classChar_closing hlo whole'
  rw [hlo']
  dsimp only at h
  split at h
  · rename_i next rest
    split at h
    · rename_i hnext
      cases h
      exact ⟨fun _ ↦ if_pos hnext, hleaves⟩
    · rename_i hnext
      obtain ⟨⟨hi, rest⟩, hhi, h⟩ := of_bind_ok h
      obtain ⟨hhi', hleaves'⟩ := classChar_closing hhi whole'
      split at h
      · cases h
      · rename_i hle
        cases h
        refine ⟨fun _ ↦ (if_neg hnext).trans ?_, (hleaves.skip (by decide)).trans hleaves'⟩
        exact (bind_of_ok hhi' _).trans (if_neg hle)
  · rename_i hrest
    cases h
    refine ⟨fun hhyphen ↦ ?_, hleaves⟩
    refine (bind_of_ok rfl _).trans ?_
    dsimp only
    split
    · rename_i next more hmore
      match rest with
      | [] => cases hmore
      | [d] =>
        cases hmore
        exact (hhyphen rfl).elim
      | d :: e :: rest =>
        cases hmore
        exact (hrest _ _ rfl).elim
    · rfl

end

/-- A member of a bracketed class: a class, a character or a range of characters. -/
def classItem (flags : Flags) (whole cs : List Char) :
    Except SyntaxError (CharSet × List Char) := do
  match ← namedClass flags cs with
  | some item => return item
  | none =>
    match ← property flags cs with
    | some item => return item
    | none =>
      match shorthand? flags cs with
      | some item => return item
      | none => classRange flags whole cs

section

variable {cs rest whole : List Char} {flags : Flags} {result : CharSet × List Char}

theorem classItems_succ {isFirst : Bool} (hgoes : isFirst = false → cs.head? ≠ some ']')
    (fuel : Nat) (set : CharSet) :
    classItems flags whole (fuel + 1) isFirst set cs =
      classItem flags whole cs >>= fun item ↦
        classItems flags whole fuel false (.union set item.1) item.2 := by
  unfold classItem
  rw [classItems]
  · cases namedClass flags cs with
    | error e => rfl
    | ok found =>
      cases found with
      | some item => rfl
      | none =>
        cases property flags cs with
        | error e => rfl
        | ok found =>
          cases found with
          | some item => rfl
          | none => cases shorthand? flags cs <;> rfl
  · rintro rest rfl hfirst
    exact hgoes hfirst rfl

theorem classItem_closing (h : classItem flags whole cs = .ok result) (whole' : List Char) :
    (result.2 ≠ ['-'] →
      classItem flags whole' (cs ++ closing) = .ok (result.1, result.2 ++ closing)) ∧
      Leaves cs result.2 := by
  unfold classItem at h ⊢
  obtain ⟨named, hnamed, h⟩ := of_bind_ok h
  obtain ⟨hnamed', hleavesNamed⟩ := namedClass_closing hnamed
  rw [bind_of_ok hnamed']
  cases named with
  | some item =>
    cases h
    exact ⟨fun _ ↦ rfl, hleavesNamed _ rfl⟩
  | none =>
    obtain ⟨property, hproperty, h⟩ := of_bind_ok h
    obtain ⟨hproperty', hleavesProperty⟩ := property_closing hproperty
    dsimp only [Option.map_none]
    rw [bind_of_ok hproperty']
    cases property with
    | some item =>
      cases h
      exact ⟨fun _ ↦ rfl, hleavesProperty _ rfl⟩
    | none =>
      obtain ⟨hshort', hleavesShort⟩ := shorthand?_closing flags cs
      dsimp only [Option.map_none] at h ⊢
      rw [hshort']
      cases hshort : shorthand? flags cs with
      | some item =>
        rw [hshort] at h
        cases h
        exact ⟨fun _ ↦ rfl, hleavesShort _ hshort⟩
      | none =>
        rw [hshort] at h
        exact classRange_closing h whole'

/-- A bracketed class does not end with a hyphen that nothing follows. -/
theorem classItems_hyphen (fuel : Nat) (set : CharSet) :
    classItems flags whole (fuel + 2) false set ['-'] ≠ .ok result :=
  nofun

theorem classItems_closing {fuel fuel' : Nat} {isFirst : Bool} {set : CharSet}
    (h : classItems flags whole fuel isFirst set cs = .ok result) (hfuel : cs.length < fuel)
    (whole' : List Char) (hfuel' : (cs ++ closing).length < fuel') :
    classItems flags whole' fuel' isFirst set (cs ++ closing) =
      .ok (result.1, result.2 ++ closing) ∧ Leaves cs result.2 := by
  induction fuel generalizing isFirst set cs fuel' with
  | zero => exact absurd hfuel (Nat.not_lt_zero _)
  | succ fuel ih =>
    obtain ⟨fuel', rfl⟩ :=
      Nat.exists_eq_add_one_of_ne_zero (Nat.ne_of_gt (Nat.zero_lt_of_lt hfuel'))
    by_cases hends : isFirst = false ∧ cs.head? = some ']'
    · obtain ⟨rfl, hhead⟩ := hends
      obtain ⟨rest, rfl⟩ := List.head?_eq_some_iff.mp hhead
      cases h
      exact ⟨rfl, .plain (by decide) _⟩
    · rw [not_and] at hends
      rw [classItems_succ hends] at h
      obtain ⟨⟨members, rest⟩, hitem, h⟩ := of_bind_ok h
      obtain ⟨hitem', hleaves⟩ := classItem_closing hitem whole'
      have hshorter : rest.length < cs.length := hleaves.shorter
      have hhyphen : rest ≠ ['-'] := by
        rintro rfl
        obtain ⟨fuel, rfl⟩ : ∃ n, fuel = n + 2 :=
          Nat.exists_eq_add_of_le' (Nat.le_trans hshorter (Nat.le_of_lt_succ hfuel))
        exact classItems_hyphen _ _ h
      rw [List.length_append] at hfuel'
      have hfuel'' : (rest ++ closing).length < fuel' := by
        rw [List.length_append]
        omega
      obtain ⟨hrest, hleaves'⟩ := ih h (Nat.lt_of_lt_of_le hshorter (Nat.le_of_lt_succ hfuel))
        hfuel''
      have hgoes : isFirst = false → (cs ++ closing).head? ≠ some ']' := by
        intro hfirst
        cases cs with
        | nil => exact nofun
        | cons c cs => exact hends hfirst
      rw [classItems_succ hgoes, bind_of_ok (hitem' hhyphen)]
      exact ⟨hrest, hleaves.trans hleaves'⟩

theorem bracketed_closing (h : bracketed flags ('[' :: cs) = .ok result) :
    bracketed flags ('[' :: cs ++ closing) = .ok (result.1, result.2 ++ closing) ∧
      Leaves ('[' :: cs) result.2 := by
  unfold bracketed at h ⊢
  simp only [List.drop_succ_cons, List.drop_zero, List.cons_append,
    head?_closing cs (show '^' ≠ ')' by decide)] at h ⊢
  have hbracket : Leaves ('[' :: cs) cs := .plain (by decide) cs
  split at h
  · rename_i hcaret
    obtain ⟨inner, rfl⟩ := List.head?_eq_some_iff.mp (beq_iff_eq.mp hcaret)
    obtain ⟨⟨set, rest⟩, hitems, h⟩ := of_bind_ok h
    cases h
    obtain ⟨hitems', hleaves⟩ := classItems_closing hitems (Nat.lt_succ_self _)
      ('[' :: ('^' :: inner ++ closing)) (Nat.lt_succ_self _)
    refine ⟨?_, (hbracket.skip (by decide)).trans hleaves⟩
    simp only [if_pos hcaret]
    exact bind_of_ok hitems' _
  · rename_i hcaret
    obtain ⟨⟨set, rest⟩, hitems, h⟩ := of_bind_ok h
    cases h
    obtain ⟨hitems', hleaves⟩ := classItems_closing hitems (Nat.lt_succ_self _)
      ('[' :: (cs ++ closing)) (Nat.lt_succ_self _)
    refine ⟨?_, hbracket.trans hleaves⟩
    simp only [if_neg hcaret]
    exact bind_of_ok hitems' _

end

/-! ### Repetitions -/

section

variable {c : Char} {cs rest whole : List Char} {flags : Flags}

theorem takeWhile_isDigit_closing (cs : List Char) :
    (cs ++ closing).takeWhile Char.isDigit = cs.takeWhile Char.isDigit := by
  induction cs with
  | nil => rfl
  | cons c cs ih => rw [List.cons_append, List.takeWhile_cons, List.takeWhile_cons, ih]

theorem count?_closing (cs : List Char) :
    count? (cs ++ closing) = (count? cs).map fun (n, rest) ↦ (n, rest ++ closing) := by
  unfold count?
  dsimp only
  rw [takeWhile_isDigit_closing,
    List.drop_append_of_le_length (List.takeWhile_prefix Char.isDigit).length_le]
  split <;> rfl

theorem Leaves.count? {n : Nat} (h : Leaves whole cs) (hcount : count? cs = some (n, rest)) :
    Leaves whole rest := by
  have hrest : rest = cs.drop (cs.takeWhile Char.isDigit).length := by
    unfold Parser.count? at hcount
    dsimp only at hcount
    split at hcount
    · cases hcount
    · cases hcount
    · exact (congrArg Prod.snd (Option.some.inj hcount)).symm
  have hparts : cs = cs.takeWhile Char.isDigit ++ rest := by
    rw [hrest]
    exact (List.prefix_iff_eq_append.mp (List.takeWhile_prefix Char.isDigit)).symm
  rw [hparts] at h
  exact h.skips fun hmem ↦ absurd (List.mem_takeWhile_imp hmem) (by decide)

theorem bounds?_closing (cs : List Char) :
    bounds? (cs ++ closing) = (bounds? cs).map fun (n, rest) ↦ (n, rest ++ closing) := by
  unfold bounds?
  rw [count?_closing]
  cases count? cs with
  | none => rfl
  | some found =>
    obtain ⟨least, rest⟩ := found
    simp only [Option.map_some, Option.bind_eq_bind, Option.bind_some]
    split
    · rename_i hbrace
      obtain ⟨rest, rfl, rfl⟩ := cons_of_closing hbrace (by decide)
      rfl
    · rename_i hbrace
      obtain ⟨rest, rfl, hrest⟩ := cons_of_closing hbrace (by decide)
      obtain ⟨rest, rfl, rfl⟩ := cons_of_closing hrest.symm (by decide)
      rfl
    · rename_i hbrace hcomma
      obtain ⟨rest, rfl, rfl⟩ := cons_of_closing hcomma (by decide)
      rw [count?_closing]
      have hbrace' (more : List Char) (h : rest = '\x7d' :: more) : False :=
        hbrace (more ++ closing) (by rw [h, List.cons_append])
      split
      · rename_i h
        cases h
      · rename_i h
        cases h
        exact (hbrace' _ rfl).elim
      · rename_i h
        cases h
        cases count? rest with
        | none => rfl
        | some found =>
          obtain ⟨most, rest⟩ := found
          simp only [Option.map_some, Option.bind_some]
          grind [cons_of_closing]
      · rename_i h
        exact (h _ rfl).elim
    · rename_i hbrace _ hcomma
      grind

theorem Leaves.bounds? {bounds : Nat × Option Nat} (h : Leaves whole cs)
    (hbounds : bounds? cs = some (bounds, rest)) : Leaves whole rest := by
  unfold Parser.bounds? at hbounds
  obtain ⟨⟨least, mid⟩, hleast, hbounds⟩ := Option.bind_eq_some_iff.mp hbounds
  have hmid := h.count? hleast
  dsimp only at hbounds
  split at hbounds
  · cases hbounds
    exact hmid.skip (by decide)
  · cases hbounds
    exact (hmid.skip (by decide)).skip (by decide)
  · obtain ⟨⟨most, last⟩, hmost, hbounds⟩ := Option.bind_eq_some_iff.mp hbounds
    have hlast := (hmid.skip (by decide)).count? hmost
    dsimp only at hbounds
    split at hbounds
    · cases hbounds
      exact hlast.skip (by decide)
    · cases hbounds
  · cases hbounds

theorem groupOptions_closing {negative sawFlag opens : Bool} {flags' : Flags}
    (h : groupOptions flags negative sawFlag cs = .ok (flags', opens, rest))
    (hcs : Leaves whole cs) :
    groupOptions flags negative sawFlag (cs ++ closing) = .ok (flags', opens, rest ++ closing) ∧
      Leaves whole rest := by
  fun_induction groupOptions flags negative sawFlag cs with
  | case2 flags negative sawFlag cs ih => exact ih h (hcs.skip (by decide))
  | case3 flags negative sawFlag cs ih => exact ih h (hcs.skip (by decide))
  | case4 flags negative sawFlag cs ih => exact ih h (hcs.skip (by decide))
  | case5 flags negative sawFlag cs ih => exact ih h (hcs.skip (by decide))
  | case7 flags negative sawFlag cs hnegative ih =>
    obtain ⟨hread, hleaves⟩ := ih h (hcs.skip (by decide))
    exact ⟨(if_neg hnegative).trans hread, hleaves⟩
  | case9 flags negative sawFlag cs hends =>
    cases h
    exact ⟨if_neg hends, hcs.skip (by decide)⟩
  | case11 flags negative sawFlag cs hends =>
    cases h
    exact ⟨if_neg hends, hcs.skip (by decide)⟩
  | _ => cases h

/-- The characters of a quotation that is ended, or all that follow. -/
theorem quotedRun_closing (cs : List Char) :
    (quotedRun (cs ++ closing) = ((quotedRun cs).1, (quotedRun cs).2 ++ closing) ∧
        (quotedRun cs).2.length < cs.length ∧
        leavesQuote true cs = leavesQuote false (quotedRun cs).2) ∨
      (quotedRun (cs ++ closing) = ((quotedRun cs).1 ++ closing, []) ∧ (quotedRun cs).2 = [] ∧
        leavesQuote true cs = true) := by
  fun_induction quotedRun cs with
  | case1 rest =>
    exact .inl ⟨rfl, Nat.lt_succ_of_lt (Nat.lt_succ_self _), rfl⟩
  | case2 c cs hends run rest hrun ih =>
    have hends' : ∀ rest, c = '\\' → cs ++ closing = 'E' :: rest → False := by
      rintro rest hc hrest
      cases cs with
      | nil => cases hrest
      | cons d cs =>
        cases hrest
        exact hends _ hc rfl
    rw [hrun] at ih
    rw [List.cons_append, quotedRun.eq_2 _ _ hends', leavesQuote.eq_3 _ _ hends]
    rcases ih with ⟨hread, hshorter, hquote⟩ | ⟨hread, hrest, hquote⟩
    · rw [hread]
      exact .inl ⟨rfl, Nat.lt_succ_of_lt hshorter, hquote⟩
    · rw [hread]
      exact .inr ⟨rfl, hrest, hquote⟩
  | case3 => exact .inr ⟨rfl, rfl, rfl⟩

end

end TreeScript.Pattern.Parser
