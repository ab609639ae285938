import TreeScript.Project.Decode

/-!
# Mappings that are read into records

While a document is read, what does not fit is noted, and the reading goes on. At the end all that has
been noted is a failure (`Decode.alone`). No part of a reading takes a note back (`Decode.Keeps`), so a
document that is read at all is read without a note in any of its parts (`Decode.Reads.of_bind`).

A mapping is read into a record entry by entry, and then the mappings that are merged into it are read
in the same way. If nothing is noted, every key that any of them has is null or the name of a field that
is taken (`Decode.takes_mappingInto`), and what the mapping has under the name of a field is read into
that field (`Decode.reads_field_of_valueAt`). So if unknown names are noted there are none
(`Decode.hasField_of_reads`).

A mapping is read with fuel for the mappings that are merged into it, which are less deep than it is.
With its depth as fuel the fuel is never used up (`Decode.mappingInto_fuel`).
-/

set_option autoImplicit false

namespace TreeScript.Project

open Yaml (Value)

namespace Decode

variable {α β σ : Type}

/-! ### Notes -/

/-- A part is read, and everything in it fits. -/
def Reads (act : Decode α) (a : α) : Prop := act [] = .ok a []

/-- Nothing that was noted before a part is read is gone after it. -/
def Keeps (act : Decode α) : Prop := ∀ s a, act s = .ok a [] → s = []

theorem alone_eq_ok_iff {act : Decode α} {a : α} : alone act = .ok a ↔ Reads act a := by
  have hrun : act.run [] = act [] := rfl
  unfold alone Reads
  rw [hrun]
  cases act [] with
  | ok b s => cases s <;> simp
  | error => simp

theorem bind_ok {x : Decode α} {f : α → Decode β} {s s' : List Mismatch} {a : α}
    (h : x s = .ok a s') : (x >>= f) s = f a s' := by
  simp only [bind, EStateM.bind, h]

theorem bind_error {x : Decode α} {f : α → Decode β} {s s' : List Mismatch} {e : DocumentError}
    (h : x s = .error e s') : (x >>= f) s = .error e s' := by
  simp only [bind, EStateM.bind, h]

theorem bind_eq_ok_iff {x : Decode α} {f : α → Decode β} {s s' : List Mismatch} {b : β} :
    (x >>= f) s = .ok b s' ↔ ∃ a k, x s = .ok a k ∧ f a k = .ok b s' := by
  cases hx : x s with
  | ok a k =>
    rw [bind_ok hx]
    constructor
    · exact fun h ↦ ⟨a, k, rfl, h⟩
    · rintro ⟨_, _, h, hf⟩
      cases h
      exact hf
  | error e k =>
    rw [bind_error hx]
    simp

namespace Keeps

theorem pure (a : α) : Keeps (Pure.pure a) := fun s _ h ↦ by cases h; rfl

theorem throw (e : DocumentError) : Keeps (MonadExcept.throw e : Decode α) := fun _ _ h ↦ nomatch h

theorem bind {x : Decode α} {f : α → Decode β} (hx : Keeps x) (hf : ∀ a, Keeps (f a)) :
    Keeps (x >>= f) := by
  intro s b h
  obtain ⟨a, k, hfirst, hrest⟩ := bind_eq_ok_iff.mp h
  obtain rfl := hf a k b hrest
  exact hx s a hfirst

theorem append (list : List Mismatch) : Keeps (modify (· ++ list) : Decode Unit) := by
  intro s a h
  have hnone : s ++ list = [] := by
    injection h
  exact (List.append_eq_nil_iff.mp hnone).1

theorem note (mismatch : Mismatch) : Keeps (note mismatch) := append _

theorem map {x : Decode α} (hx : Keeps x) (f : α → β) : Keeps (f <$> x) := by
  rw [map_eq_pure_bind]
  exact hx.bind fun a ↦ pure (f a)

theorem mapM {f : β → Decode α} (hf : ∀ b, Keeps (f b)) (bs : List β) : Keeps (bs.mapM f) := by
  induction bs with
  | nil => exact pure []
  | cons b bs ih =>
    rw [List.mapM_cons]
    exact (hf b).bind fun _ ↦ ih.bind fun _ ↦ pure _

theorem foldlM {f : σ → β → Decode σ} (hf : ∀ a b, Keeps (f a b)) (bs : List β) (init : σ) :
    Keeps (bs.foldlM f init) := by
  induction bs generalizing init with
  | nil => exact pure init
  | cons b bs ih =>
    rw [List.foldlM_cons]
    exact (hf init b).bind ih

theorem filterMapM {f : β → Decode (Option α)} (hf : ∀ b, Keeps (f b)) (bs : List β) :
    Keeps (bs.filterMapM f) := by
  induction bs with
  | nil => exact pure []
  | cons b bs ih =>
    rw [List.filterMapM_cons]
    refine (hf b).bind fun found ↦ ?_
    cases found with
    | none => exact ih
    | some a => exact ih.bind fun _ ↦ pure _

theorem within (other : α) (part : Except DocumentError α) : Keeps (within other part) := by
  cases part with
  | ok a => exact pure a
  | error e =>
    cases e with
    | mismatches list => exact (append list).bind fun _ ↦ pure other
    | _ => exact throw _

end Keeps

/-- A part that is read without a note is so in all of its steps. -/
theorem Reads.of_bind {x : Decode α} {f : α → Decode β} {b : β} (h : Reads (x >>= f) b)
    (hf : ∀ a, Keeps (f a)) : ∃ a, Reads x a ∧ Reads (f a) b := by
  obtain ⟨a, k, hfirst, hrest⟩ := bind_eq_ok_iff.mp h
  obtain rfl := hf a k b hrest
  exact ⟨a, hfirst, hrest⟩

/-! ### Scalars and lists -/

namespace Keeps

theorem scalar (expected : String) (v : Value) : Keeps (scalar expected v) := by
  cases v with
  | scalar tag isPlain text =>
    unfold Decode.scalar
    dsimp only
    split
    · exact pure _
    · exact pure _
    · exact throw _
  | _ => exact (note _).bind fun _ ↦ pure _

theorem text (v : Value) : Keeps (text v) := (scalar _ v).bind fun _ ↦ pure _

/-- A value that is noted if it means nothing of the right kind. -/
theorem noted {mismatch : Mismatch} (a : α) {p : Prop} [Decidable p] :
    Keeps (if p then Decode.note mismatch >>= fun _ ↦ Pure.pure a else Pure.pure a) := by
  split
  · exact (note _).bind fun _ ↦ pure _
  · exact pure _

theorem int (v : Value) : Keeps (int v) := by
  refine (scalar _ v).bind fun found ↦ ?_
  cases found with
  | none => exact pure none
  | some found => exact noted _

theorem bool (v : Value) : Keeps (bool v) := by
  refine (scalar _ v).bind fun found ↦ ?_
  cases found with
  | none => exact pure none
  | some found => exact noted _

theorem texts (v : Value) : Keeps (texts v) := by
  cases v with
  | sequence tag items => exact (filterMapM text items).bind fun _ ↦ pure _
  | _ =>
    refine (scalar _ _).bind fun found ↦ ?_
    cases found with
    | none => exact pure none
    | some found => exact (note _).bind fun _ ↦ pure none

theorem patterns (v : Value) : Keeps (patterns v) := by
  unfold Decode.patterns
  split
  · exact (scalar _ v).bind fun _ ↦ pure _
  · cases v with
    | scalar tag isPlain text => exact pure _
    | sequence tag items => exact (within _ _).bind fun _ ↦ pure _
    | mapping tag entries => exact throw _

theorem dependencies (v : Value) : Keeps (dependencies v) := by
  unfold Decode.dependencies
  split
  · exact (scalar _ v).bind fun _ ↦ pure _
  · cases v with
    | mapping tag entries => exact (within _ _).bind fun _ ↦ pure _
    | _ => exact throw _

end Keeps

/-! ### Records -/

/-- The fields of a record are read without taking notes back. -/
def KeepFields (fields : Fields σ) : Prop :=
  ∀ name v read, fields name v = some read → ∀ record, Keeps (read record)

theorem Keeps.field {read : Decode (Option α)} (hread : Keeps read) {change : α → σ → σ}
    {act : σ → Decode σ} (hact : Decode.field read change = some act) (record : σ) :
    Keeps (act record) := by
  cases hact
  exact hread.bind fun found ↦ by split <;> exact .pure _

section

variable {fields : Fields σ} {strict merged : Bool} {entries : List (Value × Value)}
  {taken taken' : List String} {init result : σ} {fuel : Nat}

theorem Keeps.entriesInto (hfields : KeepFields fields) (strict merged : Bool)
    (entries : List (Value × Value)) (taken : List String) (init : σ) :
    Keeps (entriesInto fields strict merged entries taken init) := by
  induction entries generalizing taken init with
  | nil => exact .pure _
  | cons entry entries ih =>
    obtain ⟨key, value⟩ := entry
    unfold Decode.entriesInto
    split
    · exact ih _ _
    · refine (Keeps.text key).bind fun name ↦ ?_
      cases name with
      | none => exact ih _ _
      | some name =>
        dsimp only
        split
        · exact ih _ _
        · cases hread : fields name value with
          | some read => exact (hfields name value read hread init).bind fun _ ↦ ih _ _
          | none =>
            dsimp only
            split
            · exact (Keeps.note _).bind fun _ ↦ ih _ _
            · exact ih _ _

theorem Keeps.mergedMappings (v : Value) : Keeps (mergedMappings v) := by
  cases v with
  | mapping tag entries => exact .pure _
  | sequence tag items =>
    refine .mapM (fun item ↦ ?_) items
    cases item with
    | mapping tag entries => exact .pure _
    | _ => exact .throw _
  | scalar tag isPlain text => exact .throw _

theorem Keeps.mappingInto (hfields : KeepFields fields) (strict : Bool) (fuel : Nat) (merged : Bool)
    (entries : List (Value × Value)) (taken : List String) (init : σ) :
    Keeps (mappingInto fields strict fuel merged entries taken init) := by
  induction fuel generalizing merged entries taken init with
  | zero => exact .pure _
  | succ fuel ih =>
    unfold Decode.mappingInto
    dsimp only
    split
    · exact (Keeps.append _).bind fun _ ↦ .pure _
    · refine (Keeps.entriesInto hfields strict merged entries taken init).bind fun read ↦ ?_
      split
      · exact .pure _
      · refine (Keeps.mergedMappings _).bind fun mappings ↦ ?_
        exact .foldlM (fun _ entries ↦ ih true entries _ _) mappings _

theorem Keeps.record (hfields : KeepFields fields) (strict : Bool) (v : Value) (init : σ) :
    Keeps (record fields strict v init) := by
  cases v with
  | mapping tag entries =>
    exact (Keeps.mappingInto hfields strict _ _ entries _ init).bind fun _ ↦ .pure _
  | _ =>
    refine (Keeps.scalar _ _).bind fun found ↦ ?_
    cases found with
    | none => exact .pure init
    | some found => exact (Keeps.note _).bind fun _ ↦ .pure init

end

/-! ### Keys -/

/-- The name that a key of a mapping has for a record, if it has one. -/
def keyName? : Value → Option String
  | .scalar tag isPlain text =>
    match Yaml.meaning? tag isPlain text with
    | none | some .null => none
    | some _ => some text
  | _ => none

theorem isNull_of_meaning? {tag : Option String} {isPlain : Bool} {content : String}
    (h : Yaml.meaning? tag isPlain content = some .null) :
    (Value.scalar tag isPlain content).isNull = true := by
  unfold Yaml.meaning? at h
  split at h
  · injection h with h
    rw [Value.isNull, Value.kind, h]
    rfl
  · cases h
  · split at h
    · split at h <;> try split at h
      all_goals cases h
    · split at h
      · rename_i hsame
        injection h with h
        rw [Value.isNull, Value.kind, hsame, h]
        rfl
      · cases h

/-- A scalar as a key: what is read of it is its name. It has the name that it is written like, or no
name if it is null or not what its tag asks for. -/
inductive ScalarKey (key : Value) (content : String) : Prop
  | named (hname : keyName? key = some content) (htext : text key = pure (some content))
  | null (hname : keyName? key = none) (htext : text key = pure none) (hnull : key.isNull = true)
  | refused (hname : keyName? key = none) {e : DocumentError} (htext : text key = throw e)

theorem scalarKey (tag : Option String) (isPlain : Bool) (content : String) :
    ScalarKey (.scalar tag isPlain content) content := by
  cases hmeaning : Yaml.meaning? tag isPlain content with
  | none =>
    refine .refused (e := .tagNotMet (tag.getD "") content) ?_ ?_
    · rw [keyName?, hmeaning]
    · rw [text, scalar, hmeaning]
      rfl
  | some meaning =>
    by_cases hnull : meaning = .null
    · subst hnull
      refine .null ?_ ?_ (isNull_of_meaning? hmeaning)
      · rw [keyName?, hmeaning]
      · rw [text, scalar, hmeaning]
        rfl
    · refine .named ?_ ?_
      · rw [keyName?, hmeaning]
        cases meaning <;> first | rfl | exact absurd rfl hnull
      · rw [text, scalar, hmeaning]
        cases meaning <;> first | rfl | exact absurd rfl hnull

theorem text_eq_of_keyName? {key : Value} {name : String} (h : keyName? key = some name) :
    text key = pure (some name) := by
  cases key with
  | scalar tag isPlain content =>
    obtain ⟨hname, htext⟩ | ⟨hname, -, -⟩ | ⟨hname, -⟩ := scalarKey tag isPlain content
    · rw [h] at hname
      cases hname
      exact htext
    all_goals rw [h] at hname; cases hname
  | sequence | mapping => cases h

/-- A key with a name is a scalar that is written like the name. -/
theorem eq_scalar_of_keyName? {key : Value} {name : String} (h : keyName? key = some name) :
    ∃ tag isPlain, key = .scalar tag isPlain name := by
  cases key with
  | scalar tag isPlain content =>
    obtain ⟨hname, -⟩ | ⟨hname, -, -⟩ | ⟨hname, -⟩ := scalarKey tag isPlain content
    · rw [h] at hname
      cases hname
      exact ⟨tag, isPlain, rfl⟩
    all_goals rw [h] at hname; cases hname
  | sequence | mapping => cases h

/-- What is read of a key is its name. -/
theorem eq_keyName?_of_text {key : Value} {found : Option String} {s s' : List Mismatch}
    (h : text key s = .ok found s') : found = keyName? key := by
  cases key with
  | scalar tag isPlain content =>
    obtain ⟨hname, htext⟩ | ⟨hname, htext, -⟩ | ⟨hname, htext⟩ := scalarKey tag isPlain content
    all_goals rw [htext] at h; cases h
    all_goals exact hname.symm
  | sequence | mapping =>
    cases h
    rfl

/-- A key without a name that is read without a note is null. -/
theorem isNull_of_reads_text {key : Value} (h : Reads (text key) none) : key.isNull = true := by
  cases key with
  | scalar tag isPlain content =>
    obtain ⟨-, htext⟩ | ⟨-, -, hnull⟩ | ⟨-, htext⟩ := scalarKey tag isPlain content
    · rw [htext] at h
      cases h
    · exact hnull
    · rw [htext] at h
      cases h
  | sequence | mapping => cases h

/-- Keys with the same name are the same key. -/
theorem sameKey_of_keyName? {key other : Value} {name : String} (hkey : keyName? key = some name)
    (hother : keyName? other = some name) : key.sameKey other = true := by
  obtain ⟨_, _, rfl⟩ := eq_scalar_of_keyName? hkey
  obtain ⟨_, _, rfl⟩ := eq_scalar_of_keyName? hother
  exact beq_self_eq_true name

/-- The mappings that the value of a merge key stands for. -/
def mergedFrom : Value → List (List (Value × Value))
  | .mapping _ entries => [entries]
  | .sequence _ items => items.filterMap fun
    | .mapping _ entries => some entries
    | _ => none
  | _ => []

theorem mergedMappings_eq_ok {v : Value} {mappings : List (List (Value × Value))}
    {s s' : List Mismatch} (h : mergedMappings v s = .ok mappings s') :
    mappings = mergedFrom v ∧ s' = s := by
  unfold mergedMappings at h
  split at h
  · cases h
    exact ⟨rfl, rfl⟩
  · rename_i items
    change mappings = items.filterMap _ ∧ s' = s
    induction items generalizing mappings s with
    | nil =>
      cases h
      exact ⟨rfl, rfl⟩
    | cons item items ih =>
      rw [List.mapM_cons, bind_eq_ok_iff] at h
      obtain ⟨entries, k, hitem, hrest⟩ := h
      obtain ⟨others, k', hothers, hdone⟩ := bind_eq_ok_iff.mp hrest
      cases hdone
      obtain ⟨rfl, rfl⟩ := ih hothers
      cases item with
      | mapping =>
        cases hitem
        exact ⟨rfl, rfl⟩
      | scalar => cases hitem
      | sequence => cases hitem
  · cases h

/-- A mapping has a key of its own, other than a merge key. -/
def IsKey (entries : List (Value × Value)) (key : Value) : Prop :=
  key.isMerge = false ∧ ∃ value, (key, value) ∈ entries

/-- A mapping has a key, be it one of its own or one of the mappings that are merged into it. -/
inductive HasKey : List (Value × Value) → Value → Prop
  | own {entries : List (Value × Value)} {key : Value} (hkey : IsKey entries key) :
    HasKey entries key
  | merged {entries inner : List (Value × Value)} {mergeKey v key : Value}
    (hfind : entries.find? (fun (key, _) ↦ key.isMerge) = some (mergeKey, v))
    (hinner : inner ∈ mergedFrom v) (h : HasKey inner key) : HasKey entries key

/-- Some of the keys have a name. -/
def Named (Keys : Value → Prop) (name : String) : Prop := ∃ key, Keys key ∧ keyName? key = some name

/-- What a mapping has under a name: its own value if it has one, and otherwise that of the first of
the mappings that are merged into it and have one. -/
inductive ValueAt : List (Value × Value) → String → Value → Prop
  | own {entries : List (Value × Value)} {key value : Value} {name : String}
    (hmem : (key, value) ∈ entries) (hmerge : key.isMerge = false)
    (hname : keyName? key = some name) : ValueAt entries name value
  | merged {entries inner : List (Value × Value)} {before after : List (List (Value × Value))}
    {mergeKey v value : Value} {name : String} (hnone : ¬Named (IsKey entries) name)
    (hfind : entries.find? (fun (key, _) ↦ key.isMerge) = some (mergeKey, v))
    (hcut : mergedFrom v = before ++ inner :: after)
    (hbefore : ∀ earlier ∈ before, ¬Named (HasKey earlier) name) (h : ValueAt inner name value) :
    ValueAt entries name value

/-! ### Fuel -/

theorem depthEntries_mem {entries : List (Value × Value)} {key v : Value} (h : (key, v) ∈ entries) :
    v.depth ≤ Value.depthEntries entries := by
  induction entries with
  | nil => cases h
  | cons entry entries ih =>
    obtain ⟨other, w⟩ := entry
    rw [Value.depthEntries_cons]
    rcases List.mem_cons.mp h with hsame | hlater
    · cases hsame
      omega
    · have hbound := ih hlater
      omega

theorem depthAll_mem {items : List Value} {v : Value} (h : v ∈ items) :
    v.depth ≤ Value.depthAll items := by
  induction items with
  | nil => cases h
  | cons item items ih =>
    rw [Value.depthAll_cons]
    rcases List.mem_cons.mp h with rfl | hlater
    · omega
    · have hbound := ih hlater
      omega

/-- A mapping that is merged into another one is less deep. -/
theorem depthEntries_merged {entries inner : List (Value × Value)} {key v : Value}
    (hfind : entries.find? (fun (key, _) ↦ key.isMerge) = some (key, v))
    (hinner : inner ∈ mergedFrom v) :
    Value.depthEntries inner < Value.depthEntries entries := by
  have hbound := depthEntries_mem (List.mem_of_find?_eq_some hfind)
  cases v with
  | scalar => cases hinner
  | mapping tag own =>
    obtain rfl := List.mem_singleton.mp hinner
    rw [Value.depth_mapping] at hbound
    omega
  | sequence tag items =>
    obtain ⟨item, hitem, hentries⟩ := List.mem_filterMap.mp hinner
    cases item with
    | scalar => cases hentries
    | sequence => cases hentries
    | mapping =>
      cases hentries
      have hdepth := depthAll_mem hitem
      rw [Value.depth_sequence] at hbound
      rw [Value.depth_mapping] at hdepth
      omega

/-! ### What is read -/

section

variable {fields : Fields σ} {strict merged : Bool} {entries : List (Value × Value)}
  {taken taken' : List String} {init result : σ} {fuel : Nat} {name : String}

/-- A record has a field of a name. -/
def HasField (fields : Fields σ) (name : String) : Prop := ∃ v, (fields name v).isSome

theorem isKey_cons {key value other : Value} : IsKey ((key, value) :: entries) other ↔
    (key.isMerge = false ∧ other = key) ∨ IsKey entries other := by
  constructor
  · rintro ⟨hmerge, v, hmem⟩
    rcases List.mem_cons.mp hmem with hsame | hlater
    · cases hsame
      exact .inl ⟨hmerge, rfl⟩
    · exact .inr ⟨hmerge, v, hlater⟩
  · rintro (⟨hmerge, rfl⟩ | ⟨hmerge, v, hlater⟩)
    · exact ⟨hmerge, value, List.mem_cons_self⟩
    · exact ⟨hmerge, v, List.mem_cons_of_mem _ hlater⟩

theorem hasKey_iff {key : Value} : HasKey entries key ↔ IsKey entries key ∨ ∃ mergeKey v inner,
    entries.find? (fun (key, _) ↦ key.isMerge) = some (mergeKey, v) ∧ inner ∈ mergedFrom v ∧
      HasKey inner key := by
  constructor
  · rintro (hkey | ⟨hfind, hinner, h⟩)
    · exact .inl hkey
    · exact .inr ⟨_, _, _, hfind, hinner, h⟩
  · rintro (hkey | ⟨mergeKey, v, inner, hfind, hinner, h⟩)
    · exact .own hkey
    · exact .merged hfind hinner h

/-- What an entry of a mapping does to the names that are taken and to the record, if it is read without
a note. -/
inductive EntryRead (fields : Fields σ) (strict merged : Bool) (key value : Value)
    (taken : List String) (init : σ) : List String → σ → Prop
  | merge (hmerge : key.isMerge = true) : EntryRead fields strict merged key value taken init taken init
  | null (hname : keyName? key = none) (hnull : key.isNull = true) :
    EntryRead fields strict merged key value taken init taken init
  | taken {name : String} (hname : keyName? key = some name) (htaken : name ∈ taken) :
    EntryRead fields strict merged key value taken init taken init
  | field {name : String} {read : σ → Decode σ} {next : σ} (hmerge : key.isMerge = false)
    (hname : keyName? key = some name) (hfield : fields name value = some read)
    (hread : Reads (read init) next) :
    EntryRead fields strict merged key value taken init (name :: taken) next
  | unknown {name : String} (hmerge : key.isMerge = false) (hname : keyName? key = some name)
    (hfield : fields name value = none) (hstrict : strict = false) :
    EntryRead fields strict merged key value taken init (name :: taken) init

theorem entryRead_of_reads (hfields : KeepFields fields) {key value : Value}
    (h : Reads (entriesInto fields strict merged ((key, value) :: entries) taken init)
      (taken', result)) : ∃ taken₁ next,
        EntryRead fields strict merged key value taken init taken₁ next ∧
        Reads (entriesInto fields strict merged entries taken₁ next) (taken', result) := by
  have hkeeps := Keeps.entriesInto hfields strict merged entries
  unfold entriesInto at h
  by_cases hmerge : key.isMerge = true
  · rw [if_pos hmerge] at h
    exact ⟨taken, init, .merge hmerge, h⟩
  rw [if_neg hmerge] at h
  rw [Bool.not_eq_true] at hmerge
  cases hname : keyName? key with
  | none =>
    obtain ⟨found, s, hfound, hrest⟩ := bind_eq_ok_iff.mp h
    obtain rfl := (eq_keyName?_of_text hfound).trans hname
    obtain rfl := hkeeps _ _ s _ hrest
    exact ⟨taken, init, .null hname (isNull_of_reads_text hfound), hrest⟩
  | some name =>
    rw [text_eq_of_keyName? hname, pure_bind] at h
    dsimp only at h
    by_cases htaken : (merged && taken.contains name) = true
    · rw [if_pos htaken] at h
      rw [Bool.and_eq_true, List.contains_iff_mem] at htaken
      exact ⟨taken, init, .taken hname htaken.2, h⟩
    rw [if_neg htaken] at h
    cases hfield : fields name value with
    | some read =>
      rw [hfield] at h
      obtain ⟨next, hread, hrest⟩ := h.of_bind fun _ ↦ hkeeps _ _
      exact ⟨name :: taken, next, .field hmerge hname hfield hread, hrest⟩
    | none =>
      rw [hfield] at h
      cases strict with
      | false => exact ⟨name :: taken, init, .unknown hmerge hname hfield rfl, h⟩
      | true =>
        obtain ⟨_, hnoted, -⟩ := h.of_bind fun _ ↦ hkeeps _ _
        cases hnoted

/-- What the keys of a part have to do with the names that are taken after it: all of them are null or
among these names, and no other name has come in. If unknown names are noted, those that have come in
are names of fields. -/
structure Takes (fields : Fields σ) (strict : Bool) (taken taken' : List String)
    (Keys : Value → Prop) : Prop where
  kept : taken ⊆ taken'
  names : ∀ key, Keys key → key.isNull = true ∨ ∃ name ∈ taken', keyName? key = some name
  source : ∀ name ∈ taken', name ∈ taken ∨ Named Keys name
  known : strict = true → ∀ name ∈ taken', name ∈ taken ∨ HasField fields name

namespace Takes

/-- A part whose keys are all null or taken already. -/
theorem nothing {Keys : Value → Prop} (fields : Fields σ) (strict : Bool)
    (hkeys : ∀ key, Keys key → key.isNull = true ∨ ∃ name ∈ taken, keyName? key = some name) :
    Takes fields strict taken taken Keys :=
  ⟨fun _ ↦ id, hkeys, fun _ ↦ .inl, fun _ _ ↦ .inl⟩

/-- A part with a single key, of which the name is taken. -/
theorem single {Keys : Value → Prop} {key : Value} (hkey : Keys key)
    (hkeys : ∀ other, Keys other → other = key) (hname : keyName? key = some name)
    (hknown : strict = true → HasField fields name) :
    Takes fields strict taken (name :: taken) Keys where
  kept := List.subset_cons_self ..
  names other hother := by
    obtain rfl := hkeys other hother
    exact .inr ⟨name, List.mem_cons_self, hname⟩
  source other hother := (List.mem_cons.mp hother).elim
    (fun hsame ↦ .inr ⟨key, hkey, hsame ▸ hname⟩) .inl
  known hstrict other hother := (List.mem_cons.mp hother).elim
    (fun hsame ↦ .inr (hsame ▸ hknown hstrict)) .inl

theorem trans {taken'' : List String} {First Second : Value → Prop}
    (hfirst : Takes fields strict taken taken' First)
    (hsecond : Takes fields strict taken' taken'' Second) :
    Takes fields strict taken taken'' fun key ↦ First key ∨ Second key where
  kept _ hmem := hsecond.kept (hfirst.kept hmem)
  names key hkey := hkey.elim
    (fun hkey ↦ (hfirst.names key hkey).imp_right fun ⟨name, hmem, hname⟩ ↦
      ⟨name, hsecond.kept hmem, hname⟩)
    (hsecond.names key)
  source name hname := by
    rcases hsecond.source name hname with hformer | ⟨key, hkey, hsame⟩
    · rcases hfirst.source name hformer with hmem | ⟨key, hkey, hsame⟩
      · exact .inl hmem
      · exact .inr ⟨key, .inl hkey, hsame⟩
    · exact .inr ⟨key, .inr hkey, hsame⟩
  known hstrict name hname := (hsecond.known hstrict name hname).elim (hfirst.known hstrict name) .inr

theorem congr {Keys Other : Value → Prop} (h : Takes fields strict taken taken' Keys)
    (hsame : ∀ key, Keys key ↔ Other key) : Takes fields strict taken taken' Other := by
  obtain rfl : Keys = Other := funext fun key ↦ propext (hsame key)
  exact h

end Takes

theorem EntryRead.takes {key value : Value}
    (h : EntryRead fields strict merged key value taken init taken' result) :
    Takes fields strict taken taken' fun other ↦ key.isMerge = false ∧ other = key := by
  cases h with
  | merge hmerge =>
    refine .nothing fields strict fun other ⟨hother, _⟩ ↦ ?_
    rw [hmerge] at hother
    cases hother
  | null _ hnull => exact .nothing fields strict fun other ⟨_, hsame⟩ ↦ .inl (hsame ▸ hnull)
  | taken hname htaken =>
    exact .nothing fields strict fun other ⟨_, hsame⟩ ↦ .inr ⟨_, htaken, hsame ▸ hname⟩
  | field hmerge hname hfield _ =>
    exact .single ⟨hmerge, rfl⟩ (fun _ hother ↦ hother.2) hname
      fun _ ↦ ⟨value, Option.isSome_of_eq_some hfield⟩
  | unknown hmerge hname _ hstrict =>
    refine .single ⟨hmerge, rfl⟩ (fun _ hother ↦ hother.2) hname fun htrue ↦ ?_
    rw [hstrict] at htrue
    cases htrue

theorem takes_entriesInto (hfields : KeepFields fields)
    (h : Reads (entriesInto fields strict merged entries taken init) (taken', result)) :
    Takes fields strict taken taken' (IsKey entries) := by
  induction entries generalizing taken init with
  | nil =>
    cases h
    exact .nothing fields strict fun _ ⟨_, _, hmem⟩ ↦ nomatch hmem
  | cons entry entries ih =>
    obtain ⟨key, value⟩ := entry
    obtain ⟨taken₁, next, hentry, hrest⟩ := entryRead_of_reads hfields h
    exact (hentry.takes.trans (ih hrest)).congr fun _ ↦ isKey_cons.symm

/-- Reads mappings one after the other, which are merged into a record. -/
def mergedInto (fields : Fields σ) (strict : Bool) (fuel : Nat)
    (mappings : List (List (Value × Value))) (read : List String × σ) : Decode (List String × σ) :=
  mappings.foldlM
    (fun (taken, record) entries ↦ mappingInto fields strict fuel true entries taken record) read

theorem Keeps.mergedInto (hfields : KeepFields fields) (strict : Bool) (fuel : Nat)
    (mappings : List (List (Value × Value))) (read : List String × σ) :
    Keeps (mergedInto fields strict fuel mappings read) :=
  .foldlM (fun _ entries ↦ .mappingInto hfields strict fuel true entries _ _) mappings _

/-- A mapping that is read without a note has no repeated keys. Its entries are read, and then the
mappings that are merged into it. -/
theorem reads_mappingInto (hfields : KeepFields fields)
    (h : Reads (mappingInto fields strict (fuel + 1) merged entries taken init) (taken', result)) :
    repeatedKeys entries = [] ∧ ∃ taken₁ next,
      Reads (entriesInto fields strict merged entries taken init) (taken₁, next) ∧
      ((entries.find? (fun (key, _) ↦ key.isMerge) = none ∧ (taken₁, next) = (taken', result)) ∨
        ∃ key v, entries.find? (fun (key, _) ↦ key.isMerge) = some (key, v) ∧
          Reads (mergedInto fields strict fuel (mergedFrom v) (taken₁, next)) (taken', result)) := by
  unfold mappingInto at h
  dsimp only at h
  by_cases hrepeated : (!(repeatedKeys entries).isEmpty) = true
  · rw [if_pos hrepeated] at h
    obtain ⟨_, hnoted, -⟩ := h.of_bind fun _ ↦ .pure _
    rw [Bool.not_eq_true', List.isEmpty_eq_false_iff] at hrepeated
    have hnone : [] ++ repeatedKeys entries = [] := by injection hnoted
    exact absurd hnone hrepeated
  rw [if_neg hrepeated] at h
  rw [Bool.not_eq_true', Bool.not_eq_false, List.isEmpty_iff] at hrepeated
  refine ⟨hrepeated, ?_⟩
  obtain ⟨⟨taken₁, next⟩, s, hread, hrest⟩ := bind_eq_ok_iff.mp h
  dsimp only at hrest
  cases hfind : entries.find? (fun (key, _) ↦ key.isMerge) with
  | none =>
    rw [hfind] at hrest
    cases hrest
    exact ⟨taken', result, hread, .inl ⟨rfl, rfl⟩⟩
  | some entry =>
    obtain ⟨key, v⟩ := entry
    rw [hfind] at hrest
    obtain ⟨mappings, s', hmerged, hgo⟩ := bind_eq_ok_iff.mp hrest
    obtain ⟨rfl, rfl⟩ := mergedMappings_eq_ok hmerged
    obtain rfl := Keeps.mergedInto hfields strict fuel (mergedFrom v) (taken₁, next) s' _ hgo
    exact ⟨taken₁, next, hread, .inr ⟨key, v, rfl, hgo⟩⟩

/-- Mappings that take the names of their keys do so one after the other. -/
theorem takes_mergedInto (hfields : KeepFields fields) {mappings : List (List (Value × Value))}
    {read : List String × σ}
    (hmappings : ∀ inner ∈ mappings, ∀ (former latter : List String × σ),
      Reads (mappingInto fields strict fuel true inner former.1 former.2) latter →
        Takes fields strict former.1 latter.1 (HasKey inner))
    (h : Reads (mergedInto fields strict fuel mappings read) (taken', result)) :
    Takes fields strict read.1 taken' fun key ↦ ∃ inner ∈ mappings, HasKey inner key := by
  induction mappings generalizing read with
  | nil =>
    cases h
    exact .nothing fields strict fun _ ⟨_, hmem, _⟩ ↦ nomatch hmem
  | cons inner mappings ih =>
    obtain ⟨hfirst, hothers⟩ := List.forall_mem_cons.mp hmappings
    unfold mergedInto at h
    rw [List.foldlM_cons] at h
    obtain ⟨next, hread, hrest⟩ :=
      h.of_bind fun _ ↦ Keeps.mergedInto hfields strict fuel mappings _
    exact ((hfirst read next hread).trans (ih hothers hrest)).congr fun key ↦ by simp

/-- Assumes: enough fuel. Every key of a mapping that is read is null, or its name is
taken. -/
theorem takes_mappingInto (hfields : KeepFields fields) (hfuel : Value.depthEntries entries < fuel)
    (h : Reads (mappingInto fields strict fuel merged entries taken init) (taken', result)) :
    Takes fields strict taken taken' (HasKey entries) := by
  induction fuel generalizing merged entries taken taken' init result with
  | zero => omega
  | succ fuel ih =>
    obtain ⟨-, taken₁, next, hread, hmerged⟩ := reads_mappingInto hfields h
    have howned := takes_entriesInto hfields hread
    rcases hmerged with ⟨hnone, hsame⟩ | ⟨key, v, hfind, hmerged⟩
    · cases hsame
      refine howned.congr fun _ ↦ ?_
      rw [hasKey_iff, hnone]
      simp
    · have hinner := takes_mergedInto hfields (fun inner hmem former latter hlatter ↦ by
        have hless := depthEntries_merged hfind hmem
        exact ih (by omega) hlatter) hmerged
      refine (howned.trans hinner).congr fun _ ↦ ?_
      rw [hasKey_iff, hfind]
      refine or_congr_right ⟨fun ⟨inner, hmem, hkey⟩ ↦ ⟨key, v, inner, rfl, hmem, hkey⟩, ?_⟩
      rintro ⟨_, _, inner, hsame, hmem, hkey⟩
      cases hsame
      exact ⟨inner, hmem, hkey⟩

theorem repeatedKeys_cons_eq_nil {key value : Value}
    (h : repeatedKeys ((key, value) :: entries) = []) :
    (∀ other v, (other, v) ∈ entries → key.sameKey other = false) ∧ repeatedKeys entries = [] := by
  unfold repeatedKeys at h
  rw [List.append_eq_nil_iff, List.map_eq_nil_iff, List.filter_eq_nil_iff] at h
  exact ⟨fun other v hmem ↦ Bool.not_eq_true _ ▸ h.1 (other, v) hmem, h.2⟩

/-- An entry under the name of a field that is not taken is read into the field. -/
theorem EntryRead.reads_field {key value : Value} {read : σ → Decode σ}
    (h : EntryRead fields strict merged key value taken init taken' result)
    (hmerge : key.isMerge = false) (hname : keyName? key = some name) (hfree : name ∉ taken)
    (hfield : fields name value = some read) : Reads (read init) result := by
  cases h with
  | merge hmerge' => rw [hmerge] at hmerge'; cases hmerge'
  | null hnone => rw [hname] at hnone; cases hnone
  | taken hname' htaken =>
    rw [hname] at hname'
    cases hname'
    exact absurd htaken hfree
  | field _ hname' hfield' hread =>
    rw [hname] at hname'
    cases hname'
    rw [hfield] at hfield'
    cases hfield'
    exact hread
  | unknown _ hname' hfield' =>
    rw [hname] at hname'
    cases hname'
    rw [hfield] at hfield'
    cases hfield'

/-- Assumes: a mapping without repeated keys, and the key of a field that is not taken. If the mapping
is read, the value is read into the field. -/
theorem reads_field_of_mem (hfields : KeepFields fields) (hrepeated : repeatedKeys entries = [])
    (h : Reads (entriesInto fields strict merged entries taken init) (taken', result))
    {key value : Value} {read : σ → Decode σ} (hmem : (key, value) ∈ entries)
    (hmerge : key.isMerge = false) (hname : keyName? key = some name) (hfree : name ∉ taken)
    (hfield : fields name value = some read) : ∃ former latter, Reads (read former) latter := by
  induction entries generalizing taken init with
  | nil => cases hmem
  | cons entry entries ih =>
    obtain ⟨other, v⟩ := entry
    obtain ⟨hdistinct, hrepeated⟩ := repeatedKeys_cons_eq_nil hrepeated
    obtain ⟨taken₁, next, hentry, hrest⟩ := entryRead_of_reads hfields h
    rcases List.mem_cons.mp hmem with hsame | hlater
    · cases hsame
      exact ⟨init, next, hentry.reads_field hmerge hname hfree hfield⟩
    · have hstill : name ∉ taken₁ := by
        intro hmember
        rcases hentry.takes.source name hmember with htaken | ⟨_, ⟨-, rfl⟩, hformer⟩
        · exact hfree htaken
        · have hsame := sameKey_of_keyName? hformer hname
          rw [hdistinct key value hlater] at hsame
          cases hsame
      exact ih hrepeated hrest hlater hstill

/-- Assumes: enough fuel, and a value under a name that is not taken. If the mapping is read, the value
is read into the field of that name. -/
theorem reads_field_of_valueAt (hfields : KeepFields fields) {value : Value} {read : σ → Decode σ}
    (hvalue : ValueAt entries name value) (hfuel : Value.depthEntries entries < fuel)
    (h : Reads (mappingInto fields strict fuel merged entries taken init) (taken', result))
    (hfree : name ∉ taken) (hfield : fields name value = some read) :
    ∃ former latter, Reads (read former) latter := by
  induction hvalue generalizing fuel merged taken taken' init result with
  | own hmem hmerge hname =>
    obtain ⟨fuel, rfl⟩ : ∃ less, fuel = less + 1 := ⟨fuel - 1, by omega⟩
    obtain ⟨hrepeated, taken₁, next, hread, -⟩ := reads_mappingInto hfields h
    exact reads_field_of_mem hfields hrepeated hread hmem hmerge hname hfree hfield
  | @merged entries inner before after _ v value name hnone hfind hcut hbefore _ ih =>
    obtain ⟨fuel, rfl⟩ : ∃ less, fuel = less + 1 := ⟨fuel - 1, by omega⟩
    obtain ⟨-, taken₁, next, hread, hmerged⟩ := reads_mappingInto hfields h
    have hless (other : List (Value × Value)) (hother : other ∈ mergedFrom v) :
        Value.depthEntries other < fuel := by
      have hdepth := depthEntries_merged hfind hother
      omega
    rcases hmerged with ⟨hfind', -⟩ | ⟨key', v', hfind', hmerged⟩
    · rw [hfind] at hfind'
      cases hfind'
    rw [hfind] at hfind'
    cases hfind'
    rw [hcut] at hmerged hless
    unfold mergedInto at hmerged
    rw [List.foldlM_append] at hmerged
    obtain ⟨⟨taken₂, next₂⟩, hformer, hrest⟩ :=
      hmerged.of_bind fun _ ↦ Keeps.mergedInto hfields strict fuel (inner :: after) _
    rw [List.foldlM_cons] at hrest
    obtain ⟨⟨taken₃, next₃⟩, hinner, -⟩ :=
      hrest.of_bind fun _ ↦ Keeps.mergedInto hfields strict fuel after _
    have hfree₁ : name ∉ taken₁ := fun hmem ↦
      ((takes_entriesInto hfields hread).source name hmem).elim hfree hnone
    have htakes := takes_mergedInto hfields (fun other hother former latter hlatter ↦
      takes_mappingInto hfields (hless other (List.mem_append_left _ hother)) hlatter) hformer
    have hfree₂ : name ∉ taken₂ := fun hmem ↦ (htakes.source name hmem).elim hfree₁
      fun ⟨key, ⟨earlier, hearlier, hkey⟩, hname⟩ ↦ hbefore earlier hearlier ⟨key, hkey, hname⟩
    exact ih (hless inner (List.mem_append_right _ List.mem_cons_self)) hinner hfree₂ hfield

end

/-! ### Records -/

section

variable {fields : Fields σ} {strict merged : Bool} {entries : List (Value × Value)}
  {taken : List String} {init result : σ} {fuel more : Nat} {tag : Option String}

theorem foldlM_congr {β : Type} {f g : σ → β → Decode σ} {bs : List β}
    (h : ∀ b ∈ bs, ∀ a, f a b = g a b) (init : σ) : bs.foldlM f init = bs.foldlM g init := by
  induction bs generalizing init with
  | nil => rfl
  | cons b bs ih =>
    obtain ⟨hfirst, hothers⟩ := List.forall_mem_cons.mp h
    rw [List.foldlM_cons, List.foldlM_cons, hfirst]
    exact congrArg _ (funext fun a ↦ ih hothers a)

/-- With enough fuel it does not matter how much there is. -/
theorem mappingInto_fuel (hfuel : Value.depthEntries entries < fuel)
    (hmore : Value.depthEntries entries < more) :
    mappingInto fields strict fuel merged entries taken init =
      mappingInto fields strict more merged entries taken init := by
  induction fuel generalizing more merged entries taken init with
  | zero => omega
  | succ fuel ih =>
    obtain ⟨more, rfl⟩ : ∃ less, more = less + 1 := ⟨more - 1, by omega⟩
    unfold mappingInto
    dsimp only
    split
    · rfl
    refine congrArg _ (funext fun read ↦ ?_)
    split
    · rfl
    · rename_i key v hfind
      funext s
      cases hmerged : mergedMappings v s with
      | error e s' => rw [bind_error hmerged, bind_error hmerged]
      | ok mappings s' =>
        obtain ⟨rfl, -⟩ := mergedMappings_eq_ok hmerged
        rw [bind_ok hmerged, bind_ok hmerged]
        refine congrFun (foldlM_congr (fun inner hinner former ↦ ?_) read) s'
        have hless := depthEntries_merged hfind hinner
        exact ih (by omega) (by omega)

/-- A mapping is read into a record with any fuel that is enough. -/
theorem record_mapping (hfuel : Value.depthEntries entries < fuel) :
    record fields strict (.mapping tag entries) init =
      (·.2) <$> mappingInto fields strict fuel false entries [] init := by
  rw [map_eq_pure_bind, record, Value.depth_mapping, mappingInto_fuel (Nat.lt_succ_self _) hfuel]

/-- Assumes: a mapping that is read into a record, without a note. -/
theorem reads_record (h : Reads (record fields strict (.mapping tag entries) init) result) :
    ∃ taken, Reads (mappingInto fields strict (Value.depthEntries entries + 1) false entries [] init)
      (taken, result) := by
  rw [record_mapping (Nat.lt_succ_self _), map_eq_pure_bind] at h
  obtain ⟨⟨taken, record⟩, hread, hsame⟩ := h.of_bind fun _ ↦ .pure _
  cases hsame
  exact ⟨taken, hread⟩

/-- Assumes: a mapping that is read with unknown names noted. Its keys are null or names of fields. -/
theorem hasField_of_reads (hfields : KeepFields fields)
    (h : Reads (record fields true (.mapping tag entries) init) result) {key : Value}
    (hkey : HasKey entries key) :
    key.isNull = true ∨ ∃ name, HasField fields name ∧ keyName? key = some name := by
  obtain ⟨taken, hread⟩ := reads_record h
  have htakes := takes_mappingInto hfields (Nat.lt_succ_self _) hread
  refine (htakes.names key hkey).imp_right fun ⟨name, hmem, hname⟩ ↦ ⟨name, ?_, hname⟩
  exact (htakes.known rfl name hmem).resolve_left List.not_mem_nil

end

end Decode

end TreeScript.Project
