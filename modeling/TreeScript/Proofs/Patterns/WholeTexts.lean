import TreeScript.Method.Text
import TreeScript.Proofs.Export.Exporting
import TreeScript.Proofs.Patterns.Reading
import TreeScript.Proofs.Patterns.Search

/-!
# Matching whole texts

To match a whole text, a pattern is put in parentheses between a `^` and a `$`. The text that comes of
it is read like the pattern by itself, only that what stood outermost is now in a group
(`ParseState.grouped`, `Reads.closing`), and so as the expression of the pattern between two anchors
(`Regex.parse_whole`). With what programs accept and the search finds, this says of which texts a
regular expression is a full match (`full_match_is_between_anchors`).

That is not always the same as a match from the beginning to the end. The flag for several lines makes
the anchors those of lines, so that it is enough for a match to begin and to end where a line does
(`full_match_of_a_line`). And a pattern that ends within a quotation takes the closing parenthesis in, so
that it cannot be read any more.
-/

set_option autoImplicit false

namespace TreeScript.Pattern

namespace ParseState

/-- The state of a reader that has read an anchor and an opening parenthesis before: what stands
outermost is in a group. -/
def grouped (start : Anchor) (restore : Flags) (state : ParseState) : ParseState :=
  { state with
    outer := ⟨none, {}, [], [.anchor start]⟩
    opened := state.opened ++ [⟨none, restore, state.outer.alternatives, state.outer.items⟩] }

variable {start : Anchor} {restore : Flags} {state : ParseState}

/-- A change of the items or the alternatives of the innermost group. -/
theorem modifyTop_grouped {change : Group → Group}
    (h : ∀ group restore, change { group with capture := none, restore } =
      { change group with capture := none, restore }) :
    (state.grouped start restore).modifyTop change =
      (state.modifyTop change).grouped start restore := by
  obtain ⟨flags, outer, opened, captures, names⟩ := state
  cases opened with
  | nil =>
    change ParseState.mk _ _ [change { outer with capture := none, restore }] _ _ = _
    rw [h]
    rfl
  | cons group groups => rfl

theorem top_items_grouped : (state.grouped start restore).top.items = state.top.items := by
  obtain ⟨flags, outer, opened, captures, names⟩ := state
  cases opened <;> rfl

theorem push_grouped (e : Expr) :
    (state.grouped start restore).push e = (state.push e).grouped start restore :=
  modifyTop_grouped fun _ _ ↦ rfl

theorem bar_grouped : (state.grouped start restore).bar = state.bar.grouped start restore :=
  modifyTop_grouped fun _ _ ↦ rfl

theorem literal_grouped (code : Nat) :
    (state.grouped start restore).literal code = (state.literal code).grouped start restore :=
  push_grouped _

theorem foldl_literal_grouped (run : List Char) :
    run.foldl (fun state c ↦ state.literal c.toNat) (state.grouped start restore) =
      (run.foldl (fun state c ↦ state.literal c.toNat) state).grouped start restore := by
  induction run generalizing state with
  | nil => rfl
  | cons c run ih => rw [List.foldl_cons, List.foldl_cons, literal_grouped, ih]

end ParseState

namespace Parser

variable {start : Anchor} {restore : Flags} {state state' : ParseState}
  {cs mid rest whole : List Char}

theorem repetition_closing {build : Expr → Bool → Expr} {counted : Bool} {before after : List Char}
    {last : Option (List Char)}
    (h : repetition state build counted before after last = .ok (state', rest))
    (hafter : Leaves whole after) (before' : List Char) :
    repetition (state.grouped start restore) build counted before' (after ++ closing)
          (last.map (· ++ closing)) =
        .ok (state'.grouped start restore, rest ++ closing) ∧ Leaves whole rest := by
  unfold repetition at h ⊢
  rw [head?_closing after (by decide), ParseState.top_items_grouped]
  dsimp only at h ⊢
  cases last with
  | some last => cases h
  | none =>
    dsimp only [Option.map_none] at h ⊢
    cases hitems : state.top.items with
    | nil =>
      rw [hitems] at h
      cases h
    | cons item items =>
      rw [hitems] at h
      dsimp only at h ⊢
      change (if _ then _ else _) = _ at h
      split at h
      · cases h
      · rename_i hcount
        cases h
        refine ⟨(if_neg hcount).trans ?_, ?_⟩
        · rw [ParseState.modifyTop_grouped fun _ _ ↦ rfl]
          split
          · rename_i hlazy
            obtain ⟨rest, rfl⟩ := List.head?_eq_some_iff.mp (beq_iff_eq.mp hlazy)
            rfl
          · rfl
        · split
          · rename_i hlazy
            obtain ⟨rest, rfl⟩ := List.head?_eq_some_iff.mp (beq_iff_eq.mp hlazy)
            exact hafter.skip (by decide)
          · exact hafter

/-- A step that reads a repetition. -/
theorem repeated_closing {build : Expr → Bool → Expr} {counted again : Bool} {after : List Char}
    {last : Option (List Char)}
    (h : (repetition state build counted cs after last >>= fun result ↦
      Except.ok (result.1, result.2, true)) = .ok (state', rest, again))
    (hafter : Leaves cs after) :
    (repetition (state.grouped start restore) build counted (cs ++ closing) (after ++ closing)
        (last.map (· ++ closing)) >>= fun result ↦ Except.ok (result.1, result.2, true)) =
        .ok (state'.grouped start restore, rest ++ closing, again) ∧ Leaves cs rest := by
  obtain ⟨item, hitem, h⟩ := of_bind_ok h
  cases h
  obtain ⟨hitem', hleaves⟩ := repetition_closing hitem hafter (cs ++ closing)
  exact ⟨bind_of_ok hitem' _, hleaves⟩

/-- A named group of which the name follows. -/
def namedGroup (state : ParseState) (whole inner : List Char) :
    Except SyntaxError (ParseState × List Char) :=
  let name := inner.takeWhile (· ≠ '>')
  if name.length = inner.length then .error (.namedCapture (String.ofList whole))
  else if name.isEmpty || !name.all isNameChar then
    .error (.namedCapture (upTo whole (inner.drop (name.length + 1))))
  else .ok (state.openCapture (String.ofList name), inner.drop (name.length + 1))

/-- A group that begins with options. -/
def optionGroup (state : ParseState) (whole cs : List Char) :
    Except SyntaxError (ParseState × List Char) :=
  match groupOptions state.flags false false cs with
  | .error rest => .error (.groupOption (upTo whole rest))
  | .ok (flags, true, rest) =>
    .ok ({ state with flags, opened := ⟨none, state.flags, [], []⟩ :: state.opened }, rest)
  | .ok (flags, false, rest) => .ok ({ state with flags }, rest)

/-- A group has a name or begins with options. -/
theorem specialGroup_eq (state : ParseState) (cs : List Char) :
    specialGroup state ('(' :: '?' :: cs) =
      match cs with
      | 'P' :: '<' :: c :: inner => namedGroup state ('(' :: '?' :: cs) (c :: inner)
      | '<' :: c :: inner => namedGroup state ('(' :: '?' :: cs) (c :: inner)
      | _ => optionGroup state ('(' :: '?' :: cs) cs := by
  split
  · rfl
  · rfl
  · rename_i hlong hshort
    unfold specialGroup
    dsimp only
    split
    · rename_i hname
      split at hname
      · rename_i h
        exact (hlong _ _ h).elim
      · rename_i h
        exact (hshort _ _ h).elim
      · cases hname
    · rfl

theorem namedGroup_closing {inner whole' : List Char}
    (h : namedGroup state whole inner = .ok (state', rest)) (hcs : Leaves cs inner) :
    namedGroup (state.grouped start restore) whole' (inner ++ closing) =
        .ok (state'.grouped start restore, rest ++ closing) ∧ Leaves cs rest := by
  unfold namedGroup at h ⊢
  dsimp only at h ⊢
  split at h
  · cases h
  · rename_i hlength
    obtain ⟨name, behind, rfl, hname⟩ := split_at hlength
    rw [List.append_assoc, List.cons_append]
    simp only [takeWhile_split hname, drop_split] at h ⊢
    split at h
    · cases h
    · rename_i hletters
      cases h
      refine ⟨(if_neg ?_).trans (if_neg hletters), (hcs.skips ?_).skip (by decide)⟩
      · rw [List.length_append, List.length_cons]
        omega
      · intro hmem
        rw [Bool.or_eq_true, not_or, Bool.not_eq_true', Bool.not_eq_false,
          List.all_eq_true] at hletters
        exact absurd (hletters.2 _ hmem) (by decide)

theorem optionGroup_closing {whole' : List Char}
    (h : optionGroup state whole mid = .ok (state', rest)) (hcs : Leaves cs mid) :
    optionGroup (state.grouped start restore) whole' (mid ++ closing) =
        .ok (state'.grouped start restore, rest ++ closing) ∧ Leaves cs rest := by
  have hflags : (state.grouped start restore).flags = state.flags := rfl
  unfold optionGroup at h ⊢
  rw [hflags]
  cases hoptions : groupOptions state.flags false false mid with
  | error rest =>
    rw [hoptions] at h
    cases h
  | ok result =>
    obtain ⟨flags, opens, behind⟩ := result
    obtain ⟨hread, hleaves⟩ := groupOptions_closing hoptions hcs
    rw [hoptions] at h
    rw [hread]
    cases opens with
    | true =>
      cases h
      exact ⟨rfl, hleaves⟩
    | false =>
      cases h
      exact ⟨rfl, hleaves⟩

theorem specialGroup_closing
    (h : specialGroup state ('(' :: '?' :: cs) = .ok (state', rest)) :
    specialGroup (state.grouped start restore) ('(' :: '?' :: cs ++ closing) =
        .ok (state'.grouped start restore, rest ++ closing) ∧ Leaves ('(' :: '?' :: cs) rest := by
  rw [specialGroup_eq] at h
  rw [List.cons_append, List.cons_append, specialGroup_eq]
  have hleaves : Leaves ('(' :: '?' :: cs) cs := (Leaves.plain (by decide) _).skip (by decide)
  split at h
  · exact namedGroup_closing h ((hleaves.skip (by decide)).skip (by decide))
  · exact namedGroup_closing h (hleaves.skip (by decide))
  · rename_i hlong hshort
    split
    · rename_i hname
      obtain ⟨cs, rfl, hrest⟩ := cons_of_closing hname (by decide)
      cases h
    · rename_i hname
      obtain ⟨cs, rfl, hrest⟩ := cons_of_closing hname (by decide)
      cases h
    · exact optionGroup_closing h hleaves

theorem closeGroup_closing {whole' : List Char} (h : closeGroup whole state = .ok state') :
    closeGroup whole' (state.grouped start restore) = .ok (state'.grouped start restore) := by
  obtain ⟨flags, outer, opened, captures, names⟩ := state
  cases opened with
  | nil => cases h
  | cons group groups =>
    cases h
    rw [← ParseState.push_grouped]
    rfl

/-- A class or a character that is escaped. -/
def escapedItem (state : ParseState) (cs : List Char) :
    Except SyntaxError (ParseState × List Char) := do
  match ← property state.flags cs with
  | some (set, rest) => return (state.push (.char set), rest)
  | none =>
    match shorthand? state.flags cs with
    | some (set, rest) => return (state.push (.char set), rest)
    | none =>
      let (code, rest) ← escape cs
      return (state.literal code, rest)

theorem escapedItem_closing (h : escapedItem state ('\\' :: cs) = .ok (state', rest)) :
    escapedItem (state.grouped start restore) ('\\' :: cs ++ closing) =
        .ok (state'.grouped start restore, rest ++ closing) ∧ Leaves ('\\' :: cs) rest := by
  unfold escapedItem at h ⊢
  have hflags : (state.grouped start restore).flags = state.flags := rfl
  rw [hflags]
  obtain ⟨property, hproperty, h⟩ := of_bind_ok h
  obtain ⟨hproperty', hleavesProperty⟩ := property_closing hproperty
  rw [bind_of_ok hproperty']
  cases property with
  | some item =>
    cases h
    exact ⟨congrArg Except.ok (Prod.ext (ParseState.push_grouped _) rfl), hleavesProperty _ rfl⟩
  | none =>
    obtain ⟨hshort', hleavesShort⟩ := shorthand?_closing state.flags ('\\' :: cs)
    dsimp only [Option.map_none] at h ⊢
    rw [hshort']
    cases hshort : shorthand? state.flags ('\\' :: cs) with
    | some item =>
      rw [hshort] at h
      cases h
      exact ⟨congrArg Except.ok (Prod.ext (ParseState.push_grouped _) rfl), hleavesShort _ hshort⟩
    | none =>
      rw [hshort] at h
      obtain ⟨item, hescape, h⟩ := of_bind_ok h
      cases h
      obtain ⟨hescape', hleaves⟩ := escape_closing hescape
      dsimp only [Option.map_none]
      rw [bind_of_ok hescape']
      exact ⟨congrArg Except.ok (Prod.ext (ParseState.literal_grouped _) rfl), hleaves⟩

theorem backslash_quote (state : ParseState) (cs : List Char) :
    backslash state ('\\' :: 'Q' :: cs) =
      .ok ((quotedRun cs).1.foldl (fun state c ↦ state.literal c.toNat) state, (quotedRun cs).2) :=
  rfl

/-- A quotation that is not ended takes the closing in. -/
theorem backslash_closing (h : backslash state ('\\' :: cs) = .ok (state', rest)) :
    (backslash (state.grouped start restore) ('\\' :: cs ++ closing) =
          .ok (state'.grouped start restore, rest ++ closing) ∧ Leaves ('\\' :: cs) rest) ∨
      rest = [] ∧ leavesQuote false ('\\' :: cs) = true ∧
        ∃ quoted : ParseState, backslash (state.grouped start restore) ('\\' :: cs ++ closing) =
          .ok (quoted.grouped start restore, []) := by
  cases cs with
  | nil => cases h
  | cons c cs =>
    rw [List.cons_append, List.cons_append]
    by_cases hquote : c = 'Q'
    · subst hquote
      rw [backslash_quote] at h ⊢
      cases h
      rcases quotedRun_closing cs with ⟨hread, hshorter, hquote⟩ | ⟨hread, hrest, hquote⟩
      · rw [hread, ParseState.foldl_literal_grouped]
        exact .inl ⟨rfl, Nat.lt_succ_of_lt (Nat.lt_succ_of_lt hshorter), hquote⟩
      · rw [hread, ParseState.foldl_literal_grouped]
        exact .inr ⟨hrest, hquote, _, rfl⟩
    · refine .inl ?_
      unfold backslash at h ⊢
      split at h
      iterate 4
        · rename_i more hmore
          cases hmore
          cases h
          refine ⟨?_, .escaped (by decide) _⟩
          exact congrArg Except.ok (Prod.ext (ParseState.push_grouped _) rfl)
      · rename_i hmore
        cases hmore
        exact (hquote rfl).elim
      · rename_i hA hb hB hz hQ
        split
        · rename_i h
          cases h
          exact (hA _ rfl).elim
        · rename_i h
          cases h
          exact (hb _ rfl).elim
        · rename_i h
          cases h
          exact (hB _ rfl).elim
        · rename_i h
          cases h
          exact (hz _ rfl).elim
        · rename_i h
          cases h
          exact (hQ _ rfl).elim
        · exact escapedItem_closing h

/-- A step reads the same with the closing behind the text as without it, only in a group, unless it reads
a quotation that is not ended and takes the closing in. -/
theorem step_closing {again : Bool} {last : Option (List Char)} (start : Anchor) (restore : Flags)
    (h : step whole state last cs = .ok (state', rest, again)) (hcs : cs ≠ []) (whole' : List Char) :
    (step whole' (state.grouped start restore) (last.map (· ++ closing)) (cs ++ closing) =
          .ok (state'.grouped start restore, rest ++ closing, again) ∧ Leaves cs rest) ∨
      rest = [] ∧ leavesQuote false cs = true ∧
        ∃ quoted : ParseState,
          step whole' (state.grouped start restore) (last.map (· ++ closing)) (cs ++ closing) =
            .ok (quoted.grouped start restore, [], again) := by
  revert h
  fun_cases step whole state last cs with
  | case1 => exact absurd rfl hcs
  | case2 _ cs hmark =>
    intro h
    obtain ⟨item, hgroup, h⟩ := of_bind_ok h
    cases h
    obtain ⟨inner, rfl⟩ := List.head?_eq_some_iff.mp (beq_iff_eq.mp hmark)
    obtain ⟨hgroup', hleaves⟩ := specialGroup_closing hgroup
    exact .inl ⟨bind_of_ok hgroup' _, hleaves⟩
  | case3 _ cs hmark =>
    intro h
    cases h
    have hmark' : ¬((cs ++ closing).head? == some '?') = true := by
      rw [head?_closing cs (by decide)]
      exact hmark
    exact .inl ⟨if_neg hmark', .plain (by decide) _⟩
  | case4 _ cs =>
    intro h
    cases h
    refine .inl ⟨?_, .plain (by decide) _⟩
    exact congrArg (fun state ↦ Except.ok (state, _, _)) ParseState.bar_grouped
  | case5 _ cs =>
    intro h
    obtain ⟨closed, hclose, h⟩ := of_bind_ok h
    cases h
    exact .inl ⟨bind_of_ok (closeGroup_closing hclose) _, .plain (by decide) _⟩
  | case9 _ cs =>
    intro h
    obtain ⟨item, hitem, h⟩ := of_bind_ok h
    cases h
    obtain ⟨hitem', hleaves⟩ := bracketed_closing hitem
    refine .inl ⟨(bind_of_ok hitem' _).trans ?_, hleaves⟩
    exact congrArg (fun state ↦ Except.ok (state, _, _)) (ParseState.push_grouped _)
  | case10 _ cs =>
    have hleaves : Leaves ('*' :: cs) cs := .plain (by decide) cs
    exact fun h ↦ .inl (repeated_closing h hleaves)
  | case11 _ cs =>
    have hleaves : Leaves ('+' :: cs) cs := .plain (by decide) cs
    exact fun h ↦ .inl (repeated_closing h hleaves)
  | case12 _ cs =>
    have hleaves : Leaves ('?' :: cs) cs := .plain (by decide) cs
    exact fun h ↦ .inl (repeated_closing h hleaves)
  | case13 _ cs hbounds =>
    intro h
    cases h
    have hbounds' : bounds? (cs ++ closing) = none := by
      rw [bounds?_closing, hbounds]
      rfl
    refine .inl ⟨?_, .plain (by decide) _⟩
    rw [List.cons_append, step, hbounds']
    exact congrArg (fun state ↦ Except.ok (state, _, _)) (ParseState.literal_grouped _)
  | case14 => exact nofun
  | case15 _ cs least most after hbounds hlimit =>
    intro h
    have hbounds' : bounds? (cs ++ closing) = some ((least, most), after ++ closing) := by
      rw [bounds?_closing, hbounds]
      rfl
    have hbrace : Leaves ('\x7b' :: cs) cs := .plain (by decide) cs
    obtain ⟨hstep, hleaves⟩ := repeated_closing h (hbrace.bounds? hbounds)
    refine .inl ⟨?_, hleaves⟩
    rw [List.cons_append, step, hbounds']
    exact (if_neg hlimit).trans hstep
  | case16 _ cs =>
    intro h
    obtain ⟨item, hitem, h⟩ := of_bind_ok h
    cases h
    rcases backslash_closing hitem with ⟨hitem', hleaves⟩ | ⟨hrest, hquote, quoted, hitem'⟩
    · exact .inl ⟨bind_of_ok hitem' _, hleaves⟩
    · exact .inr ⟨hrest, hquote, quoted, bind_of_ok hitem' _⟩
  | case17 _ c cs _ _ _ _ _ _ _ _ _ _ _ hbackslash =>
    intro h
    cases h
    refine .inl ⟨?_, .plain hbackslash _⟩
    rw [List.cons_append, step]
    · exact congrArg (fun state ↦ Except.ok (state, _, _)) (ParseState.literal_grouped _)
    all_goals assumption
  | _ =>
    intro h
    cases h
    refine .inl ⟨?_, .plain (by decide) _⟩
    exact congrArg (fun state ↦ Except.ok (state, _, _)) (ParseState.push_grouped _)

/-! ### Whole patterns -/

/-- A text is read to its end, one construct after the other. -/
inductive Reads (whole : List Char) :
    ParseState → Option (List Char) → List Char → ParseState → Prop
  | done {state : ParseState} {last : Option (List Char)} : Reads whole state last [] state
  | step {state state' final : ParseState} {last : Option (List Char)} {cs rest : List Char}
      {again : Bool} (hcs : cs ≠ []) (hstep : step whole state last cs = .ok (state', rest, again))
      (hrest : Reads whole state' (if again then some cs else none) rest final) :
      Reads whole state last cs final

section

variable {final : ParseState} {last : Option (List Char)} {again : Bool}

theorem step_shorter (h : step whole state last cs = .ok (state', rest, again)) (hcs : cs ≠ []) :
    rest.length < cs.length := by
  rcases step_closing .beginText {} h hcs whole with ⟨-, hleaves⟩ | ⟨rfl, -, -⟩
  · exact hleaves.shorter
  · exact List.length_pos_iff.mpr hcs

/-- What is read first is read by one step. -/
theorem Reads.step_iff (hstep : Parser.step whole state last cs = .ok (state', rest, again))
    (hcs : cs ≠ []) :
    Reads whole state last cs final ↔
      Reads whole state' (if again then some cs else none) rest final := by
  refine ⟨fun h ↦ ?_, .step hcs hstep⟩
  cases h with
  | done => exact absurd rfl hcs
  | step _ hstep' hrest =>
    cases hstep.symm.trans hstep'
    exact hrest

/-- Each step leaves less to read, so a fuel of more than the length of the text is no limit. -/
theorem run_eq_ok_iff {fuel : Nat} (hfuel : cs.length < fuel) :
    run whole fuel state last cs = .ok final ↔ Reads whole state last cs final := by
  induction fuel generalizing state last cs with
  | zero => exact absurd hfuel (Nat.not_lt_zero _)
  | succ fuel ih =>
    by_cases hcs : cs = []
    · subst hcs
      constructor
      · intro h
        cases h
        exact .done
      · intro h
        cases h with
        | done => rfl
        | step hcs => exact absurd rfl hcs
    · have hrun : run whole (fuel + 1) state last cs = (step whole state last cs >>= fun result ↦
          run whole fuel result.1 (if result.2.2 then some cs else none) result.2.1) := by
        rw [run]
        exact hcs
      rw [hrun]
      constructor
      · intro h
        obtain ⟨⟨state', rest, again⟩, hstep, h⟩ := of_bind_ok h
        have hshorter := step_shorter hstep hcs
        exact .step hcs hstep ((ih (Nat.lt_of_lt_of_le hshorter (Nat.le_of_lt_succ hfuel))).mp h)
      · intro h
        cases h with
        | done => exact absurd rfl hcs
        | step _ hstep hrest =>
          have hshorter := step_shorter hstep hcs
          rw [bind_of_ok hstep]
          exact (ih (Nat.lt_of_lt_of_le hshorter (Nat.le_of_lt_succ hfuel))).mpr hrest

theorem map_last (again : Bool) (cs : List Char) :
    (if again then some cs else none).map (· ++ closing) =
      if again then some (cs ++ closing) else none := by
  cases again <;> rfl

/-- A pattern whose quotations are ended is read in parentheses as it is alone, and then the closing
is. -/
theorem Reads.closing {final : ParseState} {whole' : List Char}
    (h : Reads whole state last cs state') (hquote : leavesQuote false cs = false)
    (hclosing : ∀ last, Reads whole' (state'.grouped start restore) last closing final) :
    Reads whole' (state.grouped start restore) (last.map (· ++ Parser.closing))
      (cs ++ Parser.closing) final := by
  induction h with
  | done => exact hclosing _
  | step hcs hstep _ ih =>
    rcases step_closing start restore hstep hcs whole' with ⟨hstep', hleaves⟩ | ⟨-, hquote', -⟩
    · refine .step (List.append_ne_nil_of_left_ne_nil hcs _) hstep' ?_
      rw [← map_last]
      exact ih (hleaves.quote.symm.trans hquote) hclosing
    · cases hquote.symm.trans hquote'

/-- A pattern with a quotation that is not ended takes in the parenthesis that it stands in. -/
theorem Reads.quoted {whole' : List Char} (h : Reads whole state last cs state')
    (hquote : leavesQuote false cs = true) :
    ∃ quoted : ParseState, Reads whole' (state.grouped start restore)
      (last.map (· ++ Parser.closing)) (cs ++ Parser.closing) (quoted.grouped start restore) := by
  induction h with
  | done => cases hquote
  | step hcs hstep _ ih =>
    have hcs' := List.append_ne_nil_of_left_ne_nil hcs Parser.closing
    rcases step_closing start restore hstep hcs whole' with
      ⟨hstep', hleaves⟩ | ⟨-, -, quoted, hstep'⟩
    · obtain ⟨quoted, hquoted⟩ := ih (hleaves.quote.symm.trans hquote)
      rw [map_last] at hquoted
      exact ⟨quoted, .step hcs' hstep' hquoted⟩
    · exact ⟨quoted, .step hcs' hstep' .done⟩

end

theorem parse_eq_ok_iff {text : String} {parsed : Parsed} :
    parse text = .ok parsed ↔ ∃ state : ParseState, Reads text.toList {} none text.toList state ∧
      state.opened = [] ∧ parsed = ⟨state.outer.close, state.names⟩ := by
  unfold parse
  constructor
  · intro h
    obtain ⟨state, hrun, h⟩ := of_bind_ok h
    refine ⟨state, (run_eq_ok_iff (Nat.lt_succ_self _)).mp hrun, ?_⟩
    split at h
    · rename_i hopened
      cases h
      exact ⟨hopened, rfl⟩
    · cases h
  · rintro ⟨state, hreads, hopened, rfl⟩
    rw [bind_of_ok ((run_eq_ok_iff (Nat.lt_succ_self _)).mpr hreads)]
    rw [hopened]
    rfl

theorem parse_eq_missingParen {text : String} {state : ParseState}
    (h : Reads text.toList {} none text.toList state) (hopened : state.opened ≠ []) :
    parse text = .error (.missingParen text) := by
  unfold parse
  rw [bind_of_ok ((run_eq_ok_iff (Nat.lt_succ_self _)).mpr h)]
  cases hgroups : state.opened with
  | nil => exact absurd hgroups hopened
  | cons group groups => rfl

/-! ### Anchors and flags -/

/-- The anchor at the beginning of a pattern. -/
def beginning (flags : Flags) : Anchor := if flags.multiline then .beginLine else .beginText

/-- The anchor at the end of a pattern. -/
def ending (flags : Flags) : Anchor := if flags.multiline then .endLine else .endText

/-- An anchor and an opening parenthesis have been read. -/
theorem reads_opening_iff {final : ParseState} (flags : Flags) (cs : List Char) :
    Reads whole { flags } none ('^' :: '(' :: '?' :: ':' :: cs) final ↔
      Reads whole (ParseState.grouped (beginning flags) flags { flags }) none cs final := by
  have hanchor : step whole { flags } none ('^' :: '(' :: '?' :: ':' :: cs) =
      .ok (ParseState.push { flags } (.anchor (beginning flags)), '(' :: '?' :: ':' :: cs, false) :=
    rfl
  have hgroup : step whole (ParseState.push { flags } (.anchor (beginning flags))) none
      ('(' :: '?' :: ':' :: cs) =
        .ok (ParseState.grouped (beginning flags) flags { flags }, cs, false) :=
    rfl
  exact (Reads.step_iff hanchor nofun).trans (Reads.step_iff hgroup nofun)

/-- The parenthesis is closed and the anchor behind it is read. -/
theorem reads_closing (hopened : state.opened = []) (last : Option (List Char)) :
    Reads whole (state.grouped start restore) last closing
      { flags := restore
        outer := ⟨none, {}, [], [.anchor (ending restore), state.outer.close, .anchor start]⟩
        opened := []
        captures := state.captures
        names := state.names } := by
  obtain ⟨flags, outer, opened, captures, names⟩ := state
  cases hopened
  exact .step nofun rfl (.step nofun rfl .done)

end Parser

end TreeScript.Pattern

namespace TreeScript

open Pattern Pattern.Parser

namespace Regex

/-- The options that flags stand for. -/
def options (flags : List Char) : Flags where
  ignoreCase := flags.contains 'i'
  multiline := flags.contains 'm'
  dotAll := flags.contains 's'

/-- The flags that there are. -/
def Known (c : Char) : Prop := c = 'i' ∨ c = 'm' ∨ c = 's'

section

variable {known whole cs : List Char} {final : ParseState}

theorem groupOptions_known (hknown : ∀ c ∈ known, Known c) (set : Flags) (sawFlag : Bool)
    (rest : List Char) :
    groupOptions set false sawFlag (known ++ ')' :: rest) =
      .ok ({ ignoreCase := set.ignoreCase || known.contains 'i'
             multiline := set.multiline || known.contains 'm'
             dotAll := set.dotAll || known.contains 's'
             swapGreed := set.swapGreed }, false, rest) := by
  induction known generalizing set sawFlag with
  | nil =>
    simp only [List.nil_append, groupOptions, List.contains_nil, Bool.or_false]
    rfl
  | cons c known ih =>
    obtain ⟨hc, hrest⟩ := List.forall_mem_cons.mp hknown
    rcases hc with rfl | rfl | rfl
    all_goals
      rw [List.cons_append, groupOptions, ih hrest]
      simp

/-- Flags in front of a pattern are read as a change of options. -/
theorem step_flags (hknown : ∀ c ∈ known, Known c) (hne : known ≠ []) (cs : List Char) :
    step whole {} none ('(' :: '?' :: (known ++ ')' :: cs)) =
      .ok ({ flags := options known }, cs, false) := by
  obtain ⟨c, known, rfl⟩ := List.exists_cons_of_ne_nil hne
  have hgroup : specialGroup {} ('(' :: '?' :: (c :: known ++ ')' :: cs)) =
      optionGroup {} ('(' :: '?' :: (c :: known ++ ')' :: cs)) (c :: known ++ ')' :: cs) := by
    rcases hknown c (List.mem_cons_self ..) with rfl | rfl | rfl <;> rfl
  have hoptions :
      optionGroup {} ('(' :: '?' :: (c :: known ++ ')' :: cs)) (c :: known ++ ')' :: cs) =
        .ok ({ flags := options (c :: known) }, cs) := by
    unfold optionGroup
    rw [groupOptions_known hknown]
    rfl
  exact bind_of_ok (hgroup.trans hoptions) _

theorem toList_flagGroup {flags : String} (hknown : ∀ c ∈ flags.toList, Known c) :
    (flagGroup flags).toList =
      if flags.toList.isEmpty then [] else '(' :: '?' :: (flags.toList ++ [')']) := by
  have hall : flags.toList.filter (fun c ↦ c == 'i' || c == 'm' || c == 's') = flags.toList := by
    refine List.filter_eq_self.mpr fun c hc ↦ ?_
    rcases hknown c hc with rfl | rfl | rfl <;> rfl
  unfold flagGroup
  rw [hall]
  dsimp only
  split
  · rfl
  · have hflags : (String.ofList flags.toList).toList = flags.toList := String.toList_ofList
    rw [String.toList_append, String.toList_append, hflags]
    rfl

theorem reads_flags_iff {flags : String} (hknown : ∀ c ∈ flags.toList, Known c) (cs : List Char) :
    Reads whole {} none ((flagGroup flags).toList ++ cs) final ↔
      Reads whole { flags := options flags.toList } none cs final := by
  rw [toList_flagGroup hknown]
  split
  · rename_i hnone
    rw [List.isEmpty_iff.mp hnone]
    exact Iff.rfl
  · rename_i hsome
    rw [List.cons_append, List.cons_append, List.append_assoc]
    exact Reads.step_iff (step_flags hknown (fun h ↦ hsome (List.isEmpty_iff.mpr h)) cs) nofun

/-- A pattern as it is put between anchors. -/
theorem reads_whole_iff {flags pattern : String} (hknown : ∀ c ∈ flags.toList, Known c) :
    Reads whole {} none (flagGroup flags ++ "^(?:" ++ pattern ++ ")$").toList final ↔
      Reads whole (ParseState.grouped (beginning (options flags.toList)) (options flags.toList)
        { flags := options flags.toList }) none (pattern.toList ++ closing) final := by
  have htext : (flagGroup flags ++ "^(?:" ++ pattern ++ ")$").toList = (flagGroup flags).toList ++
      '^' :: '(' :: '?' :: ':' :: (pattern.toList ++ closing) := by
    rw [String.toList_append, String.toList_append, String.toList_append, List.append_assoc,
      List.append_assoc]
    rfl
  rw [htext, reads_flags_iff hknown, reads_opening_iff]

end

section

variable {flags pattern : String} {parsed : Parsed}

/-- A pattern between anchors is read as itself between anchors, unless a quotation takes them in. -/
theorem parse_whole (hknown : ∀ c ∈ flags.toList, Known c)
    (hparsed : parse (flagGroup flags ++ pattern) = .ok parsed)
    (hquote : leavesQuote false pattern.toList = false) :
    parse (flagGroup flags ++ "^(?:" ++ pattern ++ ")$") =
      .ok ⟨.concat (.concat (.anchor (beginning (options flags.toList))) parsed.expr)
        (.anchor (ending (options flags.toList))), parsed.names⟩ := by
  obtain ⟨state, hreads, hopened, rfl⟩ := parse_eq_ok_iff.mp hparsed
  rw [String.toList_append, reads_flags_iff hknown] at hreads
  exact parse_eq_ok_iff.mpr ⟨_, (reads_whole_iff hknown).mpr
    (hreads.closing hquote (reads_closing hopened)), rfl, rfl⟩

/-- A quotation that is not ended takes in the parenthesis behind the pattern, which is then missing. -/
theorem parse_whole_of_quoted (hknown : ∀ c ∈ flags.toList, Known c)
    (hparsed : parse (flagGroup flags ++ pattern) = .ok parsed)
    (hquote : leavesQuote false pattern.toList = true) :
    parse (flagGroup flags ++ "^(?:" ++ pattern ++ ")$") =
      .error (.missingParen (flagGroup flags ++ "^(?:" ++ pattern ++ ")$")) := by
  obtain ⟨state, hreads, -, -⟩ := parse_eq_ok_iff.mp hparsed
  rw [String.toList_append, reads_flags_iff hknown] at hreads
  obtain ⟨quoted, hquoted⟩ := hreads.quoted hquote
  exact parse_eq_missingParen ((reads_whole_iff hknown).mpr hquoted)
    (List.append_ne_nil_of_right_ne_nil _ nofun)

end

end Regex

/-! ### Full matches -/

/-- A regular expression matches a text from one place to another. -/
def Regex.Matches (r : Regex) (text : String) (i j : Nat) : Prop :=
  ∃ parsed, parse (Regex.flagGroup r.flags ++ r.pattern) = .ok parsed ∧
    parsed.expr.Matches text.toList.toArray i j

/-- A line of a text begins at a place. -/
def LineBegins (text : String) (i : Nat) : Prop := i = 0 ∨ text.toList[i - 1]? = some '\n'

/-- A line of a text ends at a place. -/
def LineEnds (text : String) (j : Nat) : Prop := j = text.length ∨ text.toList[j]? = some '\n'

section

variable {pattern flags : String} {r : Regex} {text : String} {m n : Machine}

/-- What can be compiled has flags that there are, and can be read. -/
theorem Regex.of_compile (h : Regex.compile pattern flags m = .ok r n) :
    r.pattern = pattern ∧ r.flags = flags ∧ (∀ c ∈ flags.toList, Regex.Known c) ∧
      ∃ parsed, parse (Regex.flagGroup flags ++ pattern) = .ok parsed := by
  unfold Regex.compile at h
  cases hfind : flags.toList.find? fun c ↦ !(c == 'i' || c == 'm' || c == 's') with
  | some c =>
    rw [hfind] at h
    cases h
  | none =>
    rw [hfind] at h
    obtain ⟨program, k, hprogram, h⟩ := Run.bind_eq_ok_iff.mp h
    cases h
    refine ⟨rfl, rfl, fun c hc ↦ ?_, ?_⟩
    · have hc := List.find?_eq_none.mp hfind c hc
      unfold Regex.Known
      grind
    · unfold Regex.compilePattern Program.compile at hprogram
      cases hparsed : parse (Regex.flagGroup flags ++ pattern) with
      | error e =>
        rw [hparsed] at hprogram
        cases hprogram
      | ok parsed => exact ⟨parsed, rfl⟩

theorem Regex.compilePattern_eq_ok {parsed : Parsed} (h : parse pattern = .ok parsed)
    (m : Machine) :
    Regex.compilePattern pattern m =
      .ok ⟨Program.ofExpr parsed.expr, parsed.names, pattern⟩ m := by
  unfold Regex.compilePattern
  rw [Program.compile_eq_ok h]
  rfl

/-- Where the anchors in front of and behind an expression hold, it matches. -/
theorem matches_between_iff {text : Array Char} {e : Expr} {first last : Anchor} {i j : Nat} :
    (Expr.concat (.concat (.anchor first) e) (.anchor last)).Matches text i j ↔
      Program.holds first (Program.charBefore text i) (Program.charAt text i) = true ∧
        e.Matches text i j ∧
        Program.holds last (Program.charBefore text j) (Program.charAt text j) = true := by
  constructor
  · rintro ⟨k, ⟨l, ⟨rfl, hfirst⟩, he⟩, rfl, hlast⟩
    exact ⟨hfirst, he, hlast⟩
  · rintro ⟨hfirst, he, hlast⟩
    exact ⟨j, ⟨i, ⟨rfl, hfirst⟩, he⟩, rfl, hlast⟩

/-- The anchor at the beginning of a pattern holds at the beginning of the text, and with the option for
several lines behind the end of a line. -/
theorem holds_beginning_iff {set : Flags} {i : Nat} (hi : i ≤ text.length) (after : Option Char) :
    Program.holds (beginning set) (Program.charBefore text.toList.toArray i) after = true ↔
      i = 0 ∨ set.multiline = true ∧ text.toList[i - 1]? = some '\n' := by
  unfold Program.charBefore
  by_cases hzero : i = 0
  · rw [if_pos hzero]
    refine iff_of_true ?_ (.inl hzero)
    unfold beginning
    split <;> rfl
  · have hlength : i - 1 < text.toList.length := Nat.lt_of_lt_of_le (Nat.sub_one_lt hzero) hi
    rw [if_neg hzero, List.getElem?_toArray, List.getElem?_eq_getElem hlength, or_iff_right hzero]
    unfold beginning
    split
    · rename_i hlines
      exact (beq_iff_eq.trans (and_iff_right hlines).symm)
    · rename_i hlines
      exact iff_of_false nofun fun h ↦ hlines h.1

/-- The anchor at the end of a pattern holds at the end of the text, and with the option for several
lines in front of the end of a line. -/
theorem holds_ending_iff {set : Flags} {j : Nat} (hj : j ≤ text.length) (before : Option Char) :
    Program.holds (ending set) before (Program.charAt text.toList.toArray j) = true ↔
      j = text.length ∨ set.multiline = true ∧ text.toList[j]? = some '\n' := by
  unfold Program.charAt
  rw [List.getElem?_toArray]
  by_cases hend : j = text.length
  · rw [List.getElem?_eq_none (Nat.le_of_eq hend.symm)]
    refine iff_of_true ?_ (.inl hend)
    unfold ending
    split <;> rfl
  · have hlength : j < text.toList.length := Nat.lt_of_le_of_ne hj hend
    rw [List.getElem?_eq_getElem hlength, or_iff_right hend]
    unfold ending
    split
    · rename_i hlines
      exact (beq_iff_eq.trans (and_iff_right hlines).symm)
    · rename_i hlines
      exact iff_of_false nofun fun h ↦ hlines h.1

/-- A pattern put between anchors is compiled to a program that finds the matches which begin and end
where the anchors hold. -/
theorem compileWhole_apply {parsed : Parsed} (hknown : ∀ c ∈ flags.toList, Regex.Known c)
    (hparsed : parse (Regex.flagGroup flags ++ pattern) = .ok parsed)
    (hquote : leavesQuote false pattern.toList = false) (m : Machine) (text : String) :
    ∃ program, Regex.compileWhole pattern flags m = .ok program m ∧
      (program.isMatch text = true ↔ ∃ i j,
        (i = 0 ∨ (Regex.options flags.toList).multiline = true ∧ text.toList[i - 1]? = some '\n') ∧
        parsed.expr.Matches text.toList.toArray i j ∧
        (j = text.length ∨
          (Regex.options flags.toList).multiline = true ∧ text.toList[j]? = some '\n')) := by
  refine ⟨_, Regex.compilePattern_eq_ok (Regex.parse_whole hknown hparsed hquote) m,
    (Program.isMatch_iff_accepted _ _).trans ?_⟩
  simp only [Program.accepted_ofExpr_iff, matches_between_iff]
  constructor
  · rintro ⟨i, hi, j, hfirst, hmatch, hlast⟩
    have hj : j ≤ text.length := hmatch.within hi
    exact ⟨i, j, (holds_beginning_iff hi _).mp hfirst, hmatch, (holds_ending_iff hj _).mp hlast⟩
  · rintro ⟨i, j, hfirst, hmatch, hlast⟩
    have hi : i ≤ text.length := by
      rcases hfirst with rfl | ⟨-, hline⟩
      · exact Nat.zero_le _
      · exact Nat.le_of_pred_lt (List.getElem?_eq_some_iff.mp hline).1
    have hj : j ≤ text.length := hmatch.within hi
    exact ⟨i, hi, j, (holds_beginning_iff hi _).mpr hfirst, hmatch,
      (holds_ending_iff hj _).mpr hlast⟩

/-- A pattern that ends within a quotation cannot be compiled between anchors. -/
theorem compileWhole_of_quoted {parsed : Parsed} (hknown : ∀ c ∈ flags.toList, Regex.Known c)
    (hparsed : parse (Regex.flagGroup flags ++ pattern) = .ok parsed)
    (hquote : leavesQuote false pattern.toList = true) (m : Machine) :
    Regex.compileWhole pattern flags m = Run.fail
      (SyntaxError.missingParen (Regex.flagGroup flags ++ "^(?:" ++ pattern ++ ")$")).message m := by
  unfold Regex.compileWhole Regex.compilePattern Program.compile
  rw [Regex.parse_whole_of_quoted hknown hparsed hquote]
  rfl

variable {regex cell : CellRef}

theorem wholeOfValue_apply (hregex : m.content regex = .regex r) :
    Regex.wholeOfValue regex m = Regex.compileWhole r.pattern r.flags m := by
  have hread : content regex m = .ok (.regex r) m := congrArg (EStateM.Result.ok · m) hregex
  unfold Regex.wholeOfValue
  rw [Run.bind_ok hread]

/-- The full match of a text with a regular expression compiles the pattern between anchors and searches
the text for it. -/
theorem text_fullMatch_apply (call : Call) (hregex : m.content regex = .regex r)
    (htext : m.content cell = .string text) :
    Method.run call (.text .fullMatch) cell [regex] m =
      (Regex.compileWhole r.pattern r.flags >>= fun program ↦
        newBoolean (program.isMatch text)) m := by
  have hshown : display cell m = .ok text m :=
    congrArg (EStateM.Result.ok · m) (Machine.display_string htext)
  have hread : content regex m = .ok (.regex r) m := congrArg (EStateM.Result.ok · m) hregex
  change (display cell >>= fun s ↦ Regex.wholeOfValue regex >>= fun program ↦
    newBoolean (program.isMatch s)) m = _
  rw [Run.bind_ok hshown, Run.bind_congr_left (wholeOfValue_apply hregex)]

/-- The full match of a regular expression with a text does the same. -/
theorem regex_fullMatch_apply (call : Call) (hregex : m.content regex = .regex r)
    (htext : m.content cell = .string text) :
    Method.run call (.regex .fullMatch) regex [cell] m =
      (Regex.compileWhole r.pattern r.flags >>= fun program ↦
        newBoolean (program.isMatch text)) m := by
  have hshown : display cell m = .ok text m :=
    congrArg (EStateM.Result.ok · m) (Machine.display_string htext)
  change (display cell >>= fun s ↦ Regex.wholeOfValue regex >>= fun program ↦
    newBoolean (program.isMatch s)) m = _
  rw [Run.bind_ok hshown, Run.bind_congr_left (wholeOfValue_apply hregex)]

/-- Assumes: a regular expression that was compiled from a pattern with flags, and a text. The text is
asked whether it matches the regular expression as a whole, or the regular expression whether it matches
the text; the answer is the same.

If all quotations in the pattern are ended, the answer is a truth value. Without the flag for several
lines it is true just if the regular expression matches the text from its beginning to its end, and with
the flag, if it matches from where a line begins to where a line ends, be it the same line or not. If a
quotation in the pattern is not ended, it takes in the parenthesis that the pattern is put in, and
both fail for want of one. -/
theorem full_match_is_between_anchors (call : Call) {m₀ : Machine}
    (hcompiled : Regex.compile pattern flags m₀ = .ok r n) (hregex : m.content regex = .regex r)
    (htext : m.content cell = .string text) :
    (leavesQuote false pattern.toList = false → ∃ answer : Bool,
      Method.run call (.text .fullMatch) cell [regex] m =
        .ok ⟨m.cells.size⟩ (m.withCell (.boolean answer)) ∧
      Method.run call (.regex .fullMatch) regex [cell] m =
        .ok ⟨m.cells.size⟩ (m.withCell (.boolean answer)) ∧
      ('m' ∉ flags.toList → (answer = true ↔ r.Matches text 0 text.length)) ∧
      ('m' ∈ flags.toList → (answer = true ↔
        ∃ i j, LineBegins text i ∧ r.Matches text i j ∧ LineEnds text j))) ∧
    (leavesQuote false pattern.toList = true →
      Method.run call (.text .fullMatch) cell [regex] m = Run.fail (SyntaxError.missingParen
        (Regex.flagGroup flags ++ "^(?:" ++ pattern ++ ")$")).message m ∧
      Method.run call (.regex .fullMatch) regex [cell] m = Run.fail (SyntaxError.missingParen
        (Regex.flagGroup flags ++ "^(?:" ++ pattern ++ ")$")).message m) := by
  obtain ⟨rfl, rfl, hknown, parsed, hparsed⟩ := Regex.of_compile hcompiled
  have hmatches (i j : Nat) :
      r.Matches text i j ↔ parsed.expr.Matches text.toList.toArray i j := by
    constructor
    · rintro ⟨other, hother, hmatch⟩
      cases hparsed.symm.trans hother
      exact hmatch
    · exact fun hmatch ↦ ⟨parsed, hparsed, hmatch⟩
  rw [text_fullMatch_apply call hregex htext, regex_fullMatch_apply call hregex htext]
  constructor
  · intro hquote
    obtain ⟨program, hprogram, hmatch⟩ := compileWhole_apply hknown hparsed hquote m text
    have hanswer : (Regex.compileWhole r.pattern r.flags >>= fun program ↦
        newBoolean (program.isMatch text)) m =
          .ok ⟨m.cells.size⟩ (m.withCell (.boolean (program.isMatch text))) := Run.bind_ok hprogram
    refine ⟨program.isMatch text, hanswer, hanswer, fun hlines ↦ ?_, fun hlines ↦ ?_⟩
    · have hsingle : (Regex.options r.flags.toList).multiline ≠ true :=
        fun h ↦ hlines (List.contains_iff_mem.mp h)
      rw [hmatch, hmatches]
      constructor
      · rintro ⟨i, j, hi, hmatch, hj⟩
        cases hi.resolve_right fun h ↦ hsingle h.1
        cases hj.resolve_right fun h ↦ hsingle h.1
        exact hmatch
      · exact fun hmatch ↦ ⟨0, text.length, .inl rfl, hmatch, .inl rfl⟩
    · have hmulti : (Regex.options r.flags.toList).multiline = true :=
        List.contains_iff_mem.mpr hlines
      rw [hmatch]
      refine exists_congr fun i ↦ exists_congr fun j ↦ ?_
      rw [hmatches, and_iff_right hmulti, and_iff_right hmulti]
      exact Iff.rfl
  · intro hquote
    have hfails : (Regex.compileWhole r.pattern r.flags >>= fun program ↦
        newBoolean (program.isMatch text)) m = Run.fail (SyntaxError.missingParen
          (Regex.flagGroup r.flags ++ "^(?:" ++ r.pattern ++ ")$")).message m :=
      Run.bind_error (compileWhole_of_quoted hknown hparsed hquote m)
    exact ⟨hfails, hfails⟩

end

/-- A regular expression for a letter, with the flag for several lines. -/
def letterOfLine : Regex := ⟨"b", "m", ⟨Program.ofExpr (.char (.single 98)), [], "(?m)b"⟩⟩

/-- A text of two lines, and a regular expression for a letter. -/
def linesAndLetter : Machine where
  cells := #[.string "a\nb", .regex letterOfLine]

/-- The letter is the second line, and so the text is a full match. -/
theorem full_match_of_a_line :
    Method.run (.detached 20 1) (.text .fullMatch) ⟨0⟩ [⟨1⟩] linesAndLetter =
        .ok ⟨2⟩ (linesAndLetter.withCell (.boolean true)) ∧
      Method.run (.detached 20 1) (.regex .fullMatch) ⟨1⟩ [⟨0⟩] linesAndLetter =
        .ok ⟨2⟩ (linesAndLetter.withCell (.boolean true)) := by
  have hcompiled : Regex.compile "b" "m" linesAndLetter = .ok letterOfLine linesAndLetter := rfl
  have hregex : linesAndLetter.content ⟨1⟩ = .regex letterOfLine := rfl
  have htext : linesAndLetter.content ⟨0⟩ = .string "a\nb" := rfl
  have hmatch : letterOfLine.Matches "a\nb" 2 3 :=
    ⟨⟨.char (.single 98), []⟩, rfl, rfl, 'b', rfl, rfl⟩
  obtain ⟨hfound, -⟩ := full_match_is_between_anchors (.detached 20 1) hcompiled hregex htext
  obtain ⟨answer, htextAnswer, hregexAnswer, -, hlines⟩ := hfound (by decide)
  have hanswer : answer = true :=
    (hlines (by decide)).mpr ⟨2, 3, .inr (by decide), hmatch, .inl (by decide)⟩
  rw [← hanswer]
  exact ⟨htextAnswer, hregexAnswer⟩

end TreeScript
