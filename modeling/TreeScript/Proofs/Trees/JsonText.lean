import Mathlib.Tactic.IntervalCases
import TreeScript.Json.Reader
import TreeScript.Json.Writer

/-!
# Written JSON reads back

The reader takes a string literal apart as the writer put it together, one escape for each character
(`stringTail_escape`, `stringTail_escaped`), and so on for the items of arrays and the members of
objects (`elements_chars`, `members_chars`). What it reads is the value that was written, as long as
arrays and objects nest no deeper than they may, and a value that nests deeper is refused
(`value_chars`, `parsePrefix?_compact`).

The text of a number goes out as it is, and need not be one; it is read back if it is (`IsNumber`).
Of a number that is read it is only shown that its text is not empty (`numbers_of_parsePrefix?`).
-/

set_option autoImplicit false

namespace TreeScript.Json

open Writer Reader

/-- A value in which every number is written so that the condition holds of its text. -/
inductive Numbers (P : String → Prop) : Json → Prop
  | null : Numbers P .null
  | bool (b : Bool) : Numbers P (.bool b)
  | number {text : String} (h : P text) : Numbers P (.number text)
  | string (s : String) : Numbers P (.string s)
  | array {items : List Json} (h : ∀ item ∈ items, Numbers P item) : Numbers P (.array items)
  | object {members : List (String × Json)} (h : ∀ member ∈ members, Numbers P member.2) :
    Numbers P (.object members)

/-- A value in which there are no numbers. -/
abbrev Plain : Json → Prop := Numbers fun _ ↦ False

theorem Numbers.mono {P Q : String → Prop} {json : Json} (h : json.Numbers P)
    (hPQ : ∀ text, P text → Q text) : json.Numbers Q := by
  induction h with
  | null => exact .null
  | bool b => exact .bool b
  | number h => exact .number (hPQ _ h)
  | string s => exact .string s
  | array _ ih => exact .array ih
  | object _ ih => exact .object ih

/-- What may follow a value: another one after a comma, the end of what it is in, or nothing. -/
def Follows (rest : List Char) : Prop := ∀ c ∈ rest.head?, c = ',' ∨ c = ']' ∨ c = '\x7d'

/-- A text that is read as a number to its end, whatever follows it. -/
structure IsNumber (text : String) : Prop where
  head : ∃ c cs, text.toList = c :: cs ∧ (c = '-' ∨ c.isDigit = true)
  number : ∀ rest, Follows rest → Reader.number (text.toList ++ rest) = some (.number text, rest)

mutual

/-- How deep arrays and objects nest. -/
def depth : Json → Nat
  | .array items => depthAll items + 1
  | .object members => depthMembers members + 1
  | _ => 0

def depthAll : List Json → Nat
  | [] => 0
  | item :: items => max (depth item) (depthAll items)

def depthMembers : List (String × Json) → Nat
  | [] => 0
  | (_, item) :: members => max (depth item) (depthMembers members)

end

theorem depth_array (items : List Json) : (Json.array items).depth = depthAll items + 1 := rfl

theorem depth_object (members : List (String × Json)) :
    (Json.object members).depth = depthMembers members + 1 := rfl

theorem depthAll_le {k : Nat} {items : List Json} (h : ∀ item ∈ items, item.depth ≤ k) :
    depthAll items ≤ k := by
  induction items with
  | nil => exact Nat.zero_le k
  | cons item items ih =>
    obtain ⟨hitem, hitems⟩ := List.forall_mem_cons.mp h
    exact Nat.max_le.mpr ⟨hitem, ih hitems⟩

theorem depthMembers_le {k : Nat} {members : List (String × Json)}
    (h : ∀ member ∈ members, member.2.depth ≤ k) : depthMembers members ≤ k := by
  induction members with
  | nil => exact Nat.zero_le k
  | cons member members ih =>
    obtain ⟨hmember, hmembers⟩ := List.forall_mem_cons.mp h
    exact Nat.max_le.mpr ⟨hmember, ih hmembers⟩

theorem depth_le_depthAll {item : Json} {items : List Json} (hmem : item ∈ items) :
    item.depth ≤ depthAll items := by
  induction hmem with
  | head items => exact Nat.le_max_left ..
  | tail other hmem ih => exact Nat.le_trans ih (Nat.le_max_right ..)

theorem depth_le_depthMembers {member : String × Json} {members : List (String × Json)}
    (hmem : member ∈ members) : member.2.depth ≤ depthMembers members := by
  induction hmem with
  | head members => exact Nat.le_max_left ..
  | tail other hmem ih => exact Nat.le_trans ih (Nat.le_max_right ..)

def quotedChars (s : String) : List Char := '"' :: s.toList.flatMap escape ++ ['"']

mutual

/-- The characters of the compact text. -/
def chars : Json → List Char
  | .null => ['n', 'u', 'l', 'l']
  | .bool true => ['t', 'r', 'u', 'e']
  | .bool false => ['f', 'a', 'l', 's', 'e']
  | .number text => text.toList
  | .string s => quotedChars s
  | .array [] => ['[', ']']
  | .array (item :: items) => '[' :: (chars item ++ (charsAfter items ++ [']']))
  | .object [] => ['\x7b', '\x7d']
  | .object ((name, item) :: members) =>
    '\x7b' :: (quotedChars name ++ ':' :: (chars item ++ (charsAfterMember members ++ ['\x7d'])))

/-- The characters of further items. -/
def charsAfter : List Json → List Char
  | [] => []
  | item :: items => ',' :: (chars item ++ charsAfter items)

/-- The characters of further members. -/
def charsAfterMember : List (String × Json) → List Char
  | [] => []
  | (name, item) :: members =>
    ',' :: (quotedChars name ++ ':' :: (chars item ++ charsAfterMember members))

end

section

variable (name : String) (item : Json) (items : List Json) (members : List (String × Json))

theorem chars_string (s : String) : chars (.string s) = quotedChars s := rfl

theorem chars_array :
    chars (.array (item :: items)) = '[' :: (chars item ++ (charsAfter items ++ [']'])) := rfl

theorem chars_object :
    chars (.object ((name, item) :: members)) =
      '\x7b' :: (quotedChars name ++ ':' :: (chars item ++ (charsAfterMember members ++ ['\x7d']))) :=
  rfl

theorem charsAfter_nil : charsAfter [] = [] := rfl

theorem charsAfter_cons : charsAfter (item :: items) = ',' :: (chars item ++ charsAfter items) := rfl

theorem charsAfterMember_nil : charsAfterMember [] = [] := rfl

theorem charsAfterMember_cons :
    charsAfterMember ((name, item) :: members) =
      ',' :: (quotedChars name ++ ':' :: (chars item ++ charsAfterMember members)) := rfl

end

/-! ### The text -/

theorem toList_quoted (s : String) : (quoted s).toList = quotedChars s := by
  unfold quoted quotedChars
  rw [String.toList_ofList]

theorem toList_intercalate_items {items : List Json}
    (h : ∀ item ∈ items, (compact item).toList = chars item) (first : String) :
    (",".intercalate (first :: compactItems items)).toList = first.toList ++ charsAfter items := by
  induction items generalizing first with
  | nil =>
    change (",".intercalate [first]).toList = _
    rw [String.intercalate_singleton, charsAfter_nil, List.append_nil]
  | cons item items ih =>
    rw [compactItems_cons, String.intercalate_cons_cons, String.toList_append, String.toList_append,
      ih (fun other hmem ↦ h other (List.mem_cons_of_mem _ hmem)), h item (List.mem_cons_self ..),
      charsAfter_cons, List.append_assoc]
    rfl

theorem toList_intercalate_members {members : List (String × Json)}
    (h : ∀ member ∈ members, (compact member.2).toList = chars member.2) (first : String) :
    (",".intercalate (first :: compactMembers members)).toList =
      first.toList ++ charsAfterMember members := by
  induction members generalizing first with
  | nil =>
    change (",".intercalate [first]).toList = _
    rw [String.intercalate_singleton, charsAfterMember_nil, List.append_nil]
  | cons member members ih =>
    obtain ⟨name, item⟩ := member
    rw [compactMembers_cons, String.intercalate_cons_cons, String.toList_append, String.toList_append,
      ih (fun other hmem ↦ h other (List.mem_cons_of_mem _ hmem)), String.toList_append,
      String.toList_append, toList_quoted, h (name, item) (List.mem_cons_self ..), charsAfterMember_cons]
    simp only [List.append_assoc]
    rfl

/-- The compact text has the characters it should. -/
theorem toList_compact {P : String → Prop} {json : Json} (h : json.Numbers P) :
    (compact json).toList = chars json := by
  induction h with
  | null => rfl
  | bool b => cases b <;> rfl
  | number h => rfl
  | string s => exact toList_quoted s
  | @array items _ ih =>
    cases items with
    | nil => rfl
    | cons item items =>
      rw [compact, compactItems_cons, String.toList_append, String.toList_append,
        toList_intercalate_items (fun other hmem ↦ ih other (List.mem_cons_of_mem _ hmem)),
        ih item (List.mem_cons_self ..), chars_array, List.append_assoc, List.append_assoc]
      rfl
  | @object members _ ih =>
    cases members with
    | nil => rfl
    | cons member members =>
      obtain ⟨name, item⟩ := member
      rw [compact, compactMembers_cons, String.toList_append, String.toList_append,
        toList_intercalate_members (fun other hmem ↦ ih other (List.mem_cons_of_mem _ hmem)),
        String.toList_append, String.toList_append, toList_quoted,
        ih (name, item) (List.mem_cons_self ..), chars_object]
      simp only [List.append_assoc]
      rfl

/-! ### String literals -/

/-- Four hexadecimal digits of a control character. -/
theorem unit?_hex {n : Nat} (hn : n < 0x20) (rest : List Char) :
    unit? (Text.Quote.hex 4 n ++ rest) = some (n, rest) := by
  interval_cases n <;> rfl

/-- A character in the lowest plane is escaped by its code. -/
theorem stringTail_unitEscape {c : Char} {rest : List Char} (hlow : c.toNat < 0xD800)
    (hunit : unit? (Text.Quote.hex 4 c.toNat ++ rest) = some (c.toNat, rest)) (fuel : Nat)
    (read : List Char) :
    stringTail (fuel + 1) read (unitEscape c ++ rest) = stringTail fuel (c :: read) rest := by
  have hhigh : isHighSurrogate c.toNat = false := by
    unfold isHighSurrogate
    rw [decide_eq_false (Nat.not_le_of_lt hlow), Bool.false_and]
  have hnone : isLowSurrogate c.toNat = false := by
    unfold isLowSurrogate
    rw [decide_eq_false (fun h ↦ absurd (Nat.lt_of_lt_of_le hlow (by decide)) (Nat.not_lt_of_le h)),
      Bool.false_and]
  have hchar : escapedChar c.toNat rest = (c, rest) := by
    unfold escapedChar
    rw [hhigh, hnone, Char.ofNat_toNat]
    rfl
  unfold unitEscape
  rw [List.cons_append, List.cons_append, stringTail_unit fuel read rest hunit, hchar]

/-- A character is read back from its escape. -/
theorem stringTail_escape (c : Char) (fuel : Nat) (read rest : List Char) :
    stringTail (fuel + 1) read (escape c ++ rest) = stringTail fuel (c :: read) rest := by
  unfold escape
  split
  · rfl
  · rfl
  · rfl
  · rfl
  · rfl
  · rfl
  · rfl
  · exact stringTail_unitEscape (by decide) rfl fuel read
  · exact stringTail_unitEscape (by decide) rfl fuel read
  · exact stringTail_unitEscape (by decide) rfl fuel read
  · exact stringTail_unitEscape (by decide) rfl fuel read
  · exact stringTail_unitEscape (by decide) rfl fuel read
  · rename_i hquote hslash _ _ _ _ _ _ _ _ _ _
    split
    · rename_i hcontrol
      have hlow : c.toNat < 0xD800 := Nat.lt_trans hcontrol (by decide)
      exact stringTail_unitEscape hlow (unit?_hex hcontrol rest) fuel read
    · rename_i hplain
      have hrefused : (decide (c.toNat < 0x20) || c == '\\') = false := by
        rw [decide_eq_false hplain, Bool.false_or]
        exact beq_false_of_ne hslash
      rw [List.singleton_append, stringTail, if_neg (by rw [hrefused]; exact Bool.false_ne_true)]
      · exact hquote
      · exact fun _ h ↦ absurd h hslash
      · exact fun _ _ h ↦ absurd h hslash

/-- A string literal is read to its end. -/
theorem stringTail_escaped (cs : List Char) {fuel : Nat} (hfuel : cs.length < fuel)
    (read rest : List Char) :
    stringTail fuel read (cs.flatMap escape ++ '"' :: rest) =
      some (String.ofList (read.reverse ++ cs), rest) := by
  induction cs generalizing fuel read with
  | nil =>
    obtain ⟨fuel, rfl⟩ := Nat.exists_eq_add_one.mpr hfuel
    rw [List.flatMap_nil, List.nil_append, stringTail_quote, List.append_nil]
  | cons c cs ih =>
    obtain ⟨fuel, rfl⟩ := Nat.exists_eq_add_one.mpr (Nat.lt_of_le_of_lt (Nat.zero_le _) hfuel)
    rw [List.flatMap_cons, List.append_assoc, stringTail_escape,
      ih (Nat.lt_of_succ_lt_succ hfuel), List.reverse_cons, List.append_assoc]
    rfl

/-! ### Values -/

theorem skipBlank_cons {c : Char} (hc : isBlank c = false) (cs : List Char) :
    skipBlank (c :: cs) = c :: cs := by
  unfold skipBlank
  rw [List.dropWhile_cons_of_neg (by rw [hc]; exact Bool.false_ne_true)]

/-- A number does not begin with a blank. -/
theorem not_blank_of_number {c : Char} (hc : c = '-' ∨ c.isDigit = true) : isBlank c = false := by
  refine Bool.eq_false_iff.mpr fun hblank ↦ ?_
  unfold isBlank at hblank
  simp only [Bool.or_eq_true, beq_iff_eq] at hblank
  rcases hblank with ((rfl | rfl) | rfl) | rfl <;> exact absurd hc (by decide)

/-- A value that begins like a number is read as one. -/
theorem value_of_number {c : Char} (hc : c = '-' ∨ c.isDigit = true) (fuel limit : Nat)
    (cs : List Char) : value (fuel + 1) limit (c :: cs) = Reader.number (c :: cs) := by
  rcases hc with rfl | hdigit
  · rfl
  · -- The reader tries every other beginning first, so each digit is a case of its own.
    unfold Char.isDigit at hdigit
    simp only [Bool.and_eq_true, decide_eq_true_eq] at hdigit
    have hlow : 48 ≤ c.toNat := hdigit.1
    have hhigh : c.toNat ≤ 57 := hdigit.2
    rw [← Char.ofNat_toNat c]
    generalize c.toNat = n at hlow hhigh
    interval_cases n <;> rfl

/-- A value does not begin with a blank or with a closing bracket. -/
theorem chars_head {json : Json} (h : json.Numbers IsNumber) :
    ∃ c cs, chars json = c :: cs ∧ isBlank c = false ∧ c ≠ ']' := by
  cases h with
  | null => exact ⟨_, _, rfl, rfl, by decide⟩
  | bool b => cases b <;> exact ⟨_, _, rfl, rfl, by decide⟩
  | number h =>
    obtain ⟨c, cs, htext, hc⟩ := h.head
    exact ⟨c, cs, htext, not_blank_of_number hc, by rintro rfl; exact absurd hc (by decide)⟩
  | string s => exact ⟨_, _, rfl, rfl, by decide⟩
  | @array items _ =>
    cases items with
    | nil => exact ⟨_, _, rfl, rfl, by decide⟩
    | cons item items => exact ⟨'[', _, rfl, rfl, by decide⟩
  | @object members _ =>
    cases members with
    | nil => exact ⟨_, _, rfl, rfl, by decide⟩
    | cons member members => exact ⟨'\x7b', _, rfl, rfl, by decide⟩

/-- What the reader makes of a written value: the value, if it nests no deeper than it may. -/
def Reads (json : Json) : Prop :=
  ∀ (fuel limit : Nat) (rest : List Char), Follows rest → (chars json).length ≤ fuel →
    value fuel limit (chars json ++ rest) = if json.depth ≤ limit then some (json, rest) else none

theorem follows_nil : Follows [] := nofun

theorem follows_comma (cs : List Char) : Follows (',' :: cs) := by
  rintro c ⟨⟩
  exact .inl rfl

theorem follows_bracket (cs : List Char) : Follows (']' :: cs) := by
  rintro c ⟨⟩
  exact .inr (.inl rfl)

theorem follows_brace (cs : List Char) : Follows ('\x7d' :: cs) := by
  rintro c ⟨⟩
  exact .inr (.inr rfl)

/-- Escaping makes nothing shorter. -/
theorem length_le_flatMap_escape (cs : List Char) : cs.length ≤ (cs.flatMap escape).length := by
  have hescaped (c : Char) : 1 ≤ (escape c).length := by
    unfold escape unitEscape
    split
    all_goals try split
    all_goals simp
  induction cs with
  | nil => exact Nat.le_refl 0
  | cons c cs ih =>
    have hfirst := hescaped c
    rw [List.flatMap_cons, List.length_append, List.length_cons]
    omega

/-- A string literal is read with what follows it. -/
theorem stringTail_quoted (s : String) (rest : List Char) :
    ∃ cs, quotedChars s ++ rest = '"' :: cs ∧
      stringTail (cs.length + 1) [] cs = some (s, rest) := by
  refine ⟨s.toList.flatMap escape ++ '"' :: rest, ?_, ?_⟩
  · unfold quotedChars
    simp only [List.cons_append, List.append_assoc, List.nil_append]
  · have hlength := length_le_flatMap_escape s.toList
    rw [stringTail_escaped _ (by rw [List.length_append]; omega), List.reverse_nil, List.nil_append,
      String.ofList_toList]

/-- Assumes: items that are each read back. So are they one after another, up to the end of an
array. -/
theorem elements_chars {item : Json} {items : List Json} (hreads : ∀ j ∈ item :: items, j.Reads)
    {fuel : Nat}
    (hfuel : (chars item ++ charsAfter items).length < fuel) (limit : Nat) (read : List Json)
    (rest : List Char) :
    elements fuel limit read (chars item ++ (charsAfter items ++ ']' :: rest)) =
      if depthAll (item :: items) ≤ limit then some (.array (read.reverse ++ item :: items), rest)
      else none := by
  induction items generalizing item fuel read with
  | nil =>
    obtain ⟨fuel, rfl⟩ := Nat.exists_eq_add_one.mpr (Nat.lt_of_le_of_lt (Nat.zero_le _) hfuel)
    rw [charsAfter_nil, List.append_nil] at hfuel
    rw [elements, charsAfter_nil, List.nil_append,
      hreads item (List.mem_singleton.mpr rfl) fuel limit _ (follows_bracket rest)
        (Nat.le_of_lt_succ hfuel), depthAll,
      depthAll, Nat.max_zero]
    by_cases hdepth : item.depth ≤ limit
    · rw [if_pos hdepth, if_pos hdepth]
      dsimp only
      rw [skipBlank_cons rfl, List.reverse_cons]
      rfl
    · rw [if_neg hdepth, if_neg hdepth]
  | cons next items ih =>
    obtain ⟨fuel, rfl⟩ := Nat.exists_eq_add_one.mpr (Nat.lt_of_le_of_lt (Nat.zero_le _) hfuel)
    rw [charsAfter_cons, List.length_append, List.length_cons] at hfuel
    have hfirst := hreads item (List.mem_cons_self ..) fuel limit
      (charsAfter (next :: items) ++ ']' :: rest) (by rw [charsAfter_cons]; exact follows_comma _)
      (by omega)
    rw [elements, hfirst, depthAll]
    by_cases hdepth : item.depth ≤ limit
    · rw [if_pos hdepth, charsAfter_cons]
      dsimp only [List.cons_append]
      rw [skipBlank_cons rfl, List.append_assoc]
      refine Eq.trans
        (ih (fun j hj ↦ hreads j (List.mem_cons_of_mem _ hj)) (by omega) _) ?_
      rw [List.reverse_cons, List.append_assoc]
      simp only [Nat.max_le, hdepth, true_and]
      rfl
    · rw [if_neg hdepth, if_neg fun h ↦ hdepth (Nat.max_le.mp h).1]

/-- The name of a member is read, and what follows is its value. -/
theorem members_quoted (fuel limit : Nat) (read : List (String × Json)) (name : String)
    (cs : List Char) :
    members (fuel + 1) limit read (quotedChars name ++ ':' :: cs) =
      match value fuel limit cs with
      | none => none
      | some (item, rest) =>
        match skipBlank rest with
        | ',' :: rest => members fuel limit ((name, item) :: read) rest
        | '\x7d' :: rest => some (.object ((name, item) :: read).reverse, rest)
        | _ => none := by
  obtain ⟨tail, hquoted, hname⟩ := stringTail_quoted name (':' :: cs)
  have hcolon : skipBlank (':' :: cs) = ':' :: cs := skipBlank_cons rfl cs
  rw [hquoted, members, skipBlank_cons rfl]
  simp only [hname, hcolon]
  all_goals rfl

/-- Assumes: members whose values are each read back. So are they one after another, up to the end
of an object. -/
theorem members_chars {name : String} {item : Json} {others : List (String × Json)}
    (hreads : ∀ member ∈ (name, item) :: others, member.2.Reads) {fuel : Nat}
    (hfuel : (quotedChars name ++ ':' :: (chars item ++ charsAfterMember others)).length < fuel)
    (limit : Nat) (read : List (String × Json)) (rest : List Char) :
    members fuel limit read
        (quotedChars name ++ ':' :: (chars item ++ (charsAfterMember others ++ '\x7d' :: rest))) =
      if depthMembers ((name, item) :: others) ≤ limit then
        some (.object (read.reverse ++ (name, item) :: others), rest)
      else none := by
  have hitem : item.Reads := hreads (name, item) (List.mem_cons_self ..)
  induction others generalizing name item fuel read with
  | nil =>
    obtain ⟨fuel, rfl⟩ := Nat.exists_eq_add_one.mpr (Nat.lt_of_le_of_lt (Nat.zero_le _) hfuel)
    rw [charsAfterMember_nil, List.append_nil, List.length_append, List.length_cons] at hfuel
    rw [members_quoted, charsAfterMember_nil, List.nil_append,
      hitem fuel limit _ (follows_brace rest) (by omega), depthMembers, depthMembers, Nat.max_zero]
    by_cases hdepth : item.depth ≤ limit
    · rw [if_pos hdepth, if_pos hdepth]
      dsimp only
      rw [skipBlank_cons rfl, List.reverse_cons]
      rfl
    · rw [if_neg hdepth, if_neg hdepth]
  | cons next others ih =>
    obtain ⟨nextName, nextItem⟩ := next
    obtain ⟨fuel, rfl⟩ := Nat.exists_eq_add_one.mpr (Nat.lt_of_le_of_lt (Nat.zero_le _) hfuel)
    rw [charsAfterMember_cons, List.length_append, List.length_cons, List.length_append,
      List.length_cons] at hfuel
    have hothers : ∀ member ∈ (nextName, nextItem) :: others, member.2.Reads :=
      fun member hmem ↦ hreads member (List.mem_cons_of_mem _ hmem)
    have hfollows :
        Follows (charsAfterMember ((nextName, nextItem) :: others) ++ '\x7d' :: rest) := by
      rw [charsAfterMember_cons]
      exact follows_comma _
    rw [members_quoted, hitem fuel limit _ hfollows (by omega), depthMembers]
    by_cases hdepth : item.depth ≤ limit
    · rw [if_pos hdepth, charsAfterMember_cons]
      dsimp only [List.cons_append]
      rw [skipBlank_cons rfl, List.append_assoc, List.cons_append, List.append_assoc]
      refine Eq.trans (ih hothers (by omega) _ (hothers _ (List.mem_cons_self ..))) ?_
      rw [List.reverse_cons, List.append_assoc]
      simp only [Nat.max_le, hdepth, true_and]
      rfl
    · rw [if_neg hdepth, if_neg fun h ↦ hdepth (Nat.max_le.mp h).1]

/-- Assumes: items that are each read back. So is their array, unless it nests too deep. -/
theorem array_reads {item : Json} {items : List Json} (hitem : item.Numbers IsNumber)
    (hreads : ∀ j ∈ item :: items, j.Reads) : (Json.array (item :: items)).Reads := by
  intro fuel limit rest _ hfuel
  rw [chars_array, List.length_cons, List.length_append, List.length_append,
    List.length_singleton] at hfuel
  obtain ⟨fuel, rfl⟩ := Nat.exists_eq_add_one.mpr (Nat.zero_lt_of_lt hfuel)
  obtain ⟨c, cs, hhead, hblank, hbracket⟩ := chars_head hitem
  have hlength : (chars item ++ charsAfter items).length < fuel := by
    rw [List.length_append]
    omega
  have helements := elements_chars hreads hlength (limit - 1) [] rest
  have htext : chars (.array (item :: items)) ++ rest =
      '[' :: c :: (cs ++ (charsAfter items ++ ']' :: rest)) := by
    rw [chars_array, hhead]
    simp only [List.cons_append, List.append_assoc, List.nil_append]
  rw [hhead, List.cons_append] at helements
  rw [htext, value_array, depth_array]
  by_cases hlimit : limit = 0
  · rw [if_pos hlimit, if_neg (by omega)]
  · have hlevels : depthAll (item :: items) ≤ limit - 1 ↔ depthAll (item :: items) + 1 ≤ limit := by
      omega
    rw [if_neg hlimit, skipBlank_cons hblank]
    split
    · rename_i heq
      exact absurd (List.cons.inj heq).1 hbracket
    · exact helements.trans (if_congr hlevels rfl rfl)

/-- Assumes: members whose values are each read back. So is their object, unless it nests too
deep. -/
theorem object_reads {name : String} {item : Json} {others : List (String × Json)}
    (hreads : ∀ member ∈ (name, item) :: others, member.2.Reads) :
    (Json.object ((name, item) :: others)).Reads := by
  intro fuel limit rest _ hfuel
  rw [chars_object, List.length_cons] at hfuel
  obtain ⟨fuel, rfl⟩ := Nat.exists_eq_add_one.mpr (Nat.zero_lt_of_lt hfuel)
  have hlength :
      (quotedChars name ++ ':' :: (chars item ++ charsAfterMember others)).length < fuel := by
    simp only [List.length_append, List.length_cons, List.length_nil] at hfuel ⊢
    omega
  have hmembers := members_chars hreads hlength (limit - 1) [] rest
  have htext : chars (.object ((name, item) :: others)) ++ rest =
      '\x7b' :: (quotedChars name ++
        ':' :: (chars item ++ (charsAfterMember others ++ '\x7d' :: rest))) := by
    rw [chars_object]
    simp only [List.cons_append, List.append_assoc, List.nil_append]
  rw [htext, value_object, depth_object]
  by_cases hlimit : limit = 0
  · rw [if_pos hlimit, if_neg (by omega)]
  · have hlevels : depthMembers ((name, item) :: others) ≤ limit - 1 ↔
        depthMembers ((name, item) :: others) + 1 ≤ limit := by
      omega
    rw [if_neg hlimit]
    exact hmembers.trans (if_congr hlevels rfl rfl)

/-- A written value is read back if it nests no deeper than it may, and else refused. -/
theorem value_chars {json : Json} (h : json.Numbers IsNumber) : json.Reads := by
  induction h with
  | null =>
    intro fuel limit rest _ hfuel
    obtain ⟨fuel, rfl⟩ := Nat.exists_eq_add_one.mpr (Nat.zero_lt_of_lt hfuel)
    have hdepth : Json.null.depth ≤ limit := Nat.zero_le _
    rw [if_pos hdepth]
    rfl
  | bool b =>
    intro fuel limit rest _ hfuel
    have hdepth : (Json.bool b).depth ≤ limit := Nat.zero_le _
    rw [if_pos hdepth]
    cases b
    all_goals
      obtain ⟨fuel, rfl⟩ := Nat.exists_eq_add_one.mpr (Nat.zero_lt_of_lt hfuel)
      rfl
  | @number text h =>
    intro fuel limit rest hfollows hfuel
    obtain ⟨c, cs, htext, hc⟩ := h.head
    have hchars : chars (.number text) = c :: cs := htext
    rw [hchars, List.length_cons] at hfuel
    obtain ⟨fuel, rfl⟩ := Nat.exists_eq_add_one.mpr (Nat.zero_lt_of_lt hfuel)
    have hnumber := h.number rest hfollows
    have hdepth : (Json.number text).depth ≤ limit := Nat.zero_le _
    rw [htext, List.cons_append] at hnumber
    rw [if_pos hdepth, hchars, List.cons_append, value_of_number hc, hnumber]
  | string s =>
    intro fuel limit rest _ hfuel
    obtain ⟨fuel, rfl⟩ := Nat.exists_eq_add_one.mpr (Nat.zero_lt_of_lt hfuel)
    obtain ⟨cs, hquoted, hstring⟩ := stringTail_quoted s rest
    have hdepth : (Json.string s).depth ≤ limit := Nat.zero_le _
    rw [if_pos hdepth, chars_string, hquoted, value_string, hstring]
    rfl
  | @array items hplain ih =>
    cases items with
    | nil =>
      intro fuel limit rest _ hfuel
      obtain ⟨fuel, rfl⟩ := Nat.exists_eq_add_one.mpr (Nat.zero_lt_of_lt hfuel)
      rw [chars, depth_array, depthAll]
      change (if limit = 0 then none else some (Json.array [], rest)) = _
      by_cases hlimit : limit = 0
      · rw [if_pos hlimit, if_neg (by omega)]
      · rw [if_neg hlimit, if_pos (by omega)]
    | cons item items => exact array_reads (hplain item (List.mem_cons_self ..)) ih
  | @object members hplain ih =>
    cases members with
    | nil =>
      intro fuel limit rest _ hfuel
      obtain ⟨fuel, rfl⟩ := Nat.exists_eq_add_one.mpr (Nat.zero_lt_of_lt hfuel)
      rw [chars, depth_object, depthMembers]
      change (if limit = 0 then none else some (Json.object [], rest)) = _
      by_cases hlimit : limit = 0
      · rw [if_pos hlimit, if_neg (by omega)]
      · rw [if_neg hlimit, if_pos (by omega)]
    | cons member members => exact object_reads ih

/-! ### Texts -/

/-- Reading the compact text of a value gives the value, unless it nests too deep. -/
theorem parsePrefix?_compact {json : Json} (h : json.Plain) :
    parsePrefix? (compact json) = if json.depth ≤ maxDepth then some json else none := by
  have hvalue := value_chars (h.mono fun _ hnone ↦ hnone.elim) (2 * (chars json).length + 2)
    maxDepth [] follows_nil (by omega)
  unfold parsePrefix?
  rw [List.append_nil] at hvalue
  dsimp only
  rw [toList_compact h, hvalue]
  by_cases hdepth : json.depth ≤ maxDepth
  · rw [if_pos hdepth, if_pos hdepth]
    rfl
  · rw [if_neg hdepth, if_neg hdepth]
    rfl

/-! ### Numbers that are read -/

/-- A number is read from at least one digit. -/
theorem wholeDigits_ne_nil {cs ds rest : List Char} (h : wholeDigits cs = some (ds, rest)) :
    ds ≠ [] := by
  unfold wholeDigits at h
  split at h
  · cases h
    exact List.cons_ne_nil _ _
  · split at h
    · cases h
    · rename_i hdigits _
      cases h
      exact hdigits

/-- Only a text that is not empty is read as a number. -/
theorem numbers_of_number {cs rest : List Char} {json : Json}
    (h : Reader.number cs = some (json, rest)) : json.Numbers (· ≠ "") := by
  unfold Reader.number at h
  obtain ⟨⟨ds, afterWhole⟩, hwhole, h⟩ := Option.bind_eq_some_iff.mp h
  obtain ⟨⟨fraction, afterFraction⟩, -, h⟩ := Option.bind_eq_some_iff.mp h
  obtain ⟨⟨exponent, afterExponent⟩, -, h⟩ := Option.bind_eq_some_iff.mp h
  cases h
  refine .number fun hempty ↦ wholeDigits_ne_nil hwhole ?_
  have hnil := congrArg String.toList hempty
  rw [String.toList_ofList] at hnil
  have hbefore := (List.append_eq_nil_iff.mp hnil).1
  have hsigned := (List.append_eq_nil_iff.mp hbefore).1
  exact (List.append_eq_nil_iff.mp hsigned).2

/-- With some fuel and some levels left, every number that is read has a text. -/
structure ReadsNumbers (fuel limit : Nat) : Prop where
  value : ∀ {cs json rest}, value fuel limit cs = some (json, rest) → json.Numbers (· ≠ "")
  elements : ∀ {read cs json rest}, (∀ item ∈ read, item.Numbers (· ≠ "")) →
    elements fuel limit read cs = some (json, rest) → json.Numbers (· ≠ "")
  members : ∀ {read cs json rest}, (∀ member ∈ read, member.2.Numbers (· ≠ "")) →
    members fuel limit read cs = some (json, rest) → json.Numbers (· ≠ "")

namespace ReadsNumbers

variable {fuel limit : Nat} {cs rest : List Char} {json : Json}

theorem of_value (ih : ReadsNumbers fuel (limit - 1))
    (h : Reader.value (fuel + 1) limit cs = some (json, rest)) : json.Numbers (· ≠ "") := by
  rw [Reader.value] at h
  split at h
  · obtain ⟨⟨s, tail⟩, -, hjson⟩ := Option.map_eq_some_iff.mp h
    cases hjson
    exact .string s
  · cases h
    exact .bool true
  · cases h
    exact .bool false
  · cases h
    exact .null
  · split at h
    · cases h
    · split at h
      · cases h
        exact .array nofun
      · exact ih.elements (List.forall_mem_nil _) h
  · split at h
    · cases h
    · split at h
      · cases h
        exact .object nofun
      · exact ih.members (List.forall_mem_nil _) h
  · exact numbers_of_number h

theorem of_elements (ih : ReadsNumbers fuel limit) {read : List Json}
    (hread : ∀ item ∈ read, item.Numbers (· ≠ ""))
    (h : Reader.elements (fuel + 1) limit read cs = some (json, rest)) : json.Numbers (· ≠ "") := by
  rw [Reader.elements] at h
  split at h
  · cases h
  · rename_i item tail hitem
    have hread' : ∀ j ∈ item :: read, j.Numbers (· ≠ "") := by
      intro j hj
      rcases List.mem_cons.mp hj with rfl | hj
      · exact ih.value hitem
      · exact hread j hj
    split at h
    · exact ih.elements hread' h
    · cases h
      exact .array fun j hj ↦ hread' j (List.mem_reverse.mp hj)
    · cases h

theorem of_members (ih : ReadsNumbers fuel limit) {read : List (String × Json)}
    (hread : ∀ member ∈ read, member.2.Numbers (· ≠ ""))
    (h : Reader.members (fuel + 1) limit read cs = some (json, rest)) : json.Numbers (· ≠ "") := by
  rw [Reader.members] at h
  split at h
  · split at h
    · cases h
    · rename_i name _ _
      split at h
      · split at h
        · cases h
        · rename_i item tail hitem
          have hread' : ∀ member ∈ (name, item) :: read, member.2.Numbers (· ≠ "") := by
            intro member hmember
            rcases List.mem_cons.mp hmember with rfl | hmember
            · exact ih.value hitem
            · exact hread member hmember
          split at h
          · exact ih.members hread' h
          · cases h
            exact .object fun member hmember ↦ hread' member (List.mem_reverse.mp hmember)
          · cases h
      · cases h
  · cases h

end ReadsNumbers

theorem readsNumbers (fuel limit : Nat) : ReadsNumbers fuel limit := by
  induction fuel generalizing limit with
  | zero => exact ⟨nofun, nofun, nofun⟩
  | succ fuel ih =>
    exact ⟨(ih (limit - 1)).of_value, (ih limit).of_elements, (ih limit).of_members⟩

/-- In what is read from a text, every number has a text. -/
theorem numbers_of_parsePrefix? {text : String} {json : Json}
    (h : parsePrefix? text = some json) : json.Numbers (· ≠ "") := by
  obtain ⟨⟨_, rest⟩, hvalue, rfl⟩ := Option.map_eq_some_iff.mp h
  exact (readsNumbers _ _).value hvalue

end TreeScript.Json
