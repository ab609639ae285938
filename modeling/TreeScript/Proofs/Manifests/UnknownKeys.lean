import TreeScript.Proofs.Manifests.Loading
import TreeScript.Proofs.Manifests.Mappings

/-!
# Unknown keys of manifests

A manifest says all that it says under a fixed set of keys (`manifestKeys`, `settingsKeys` and
`locationKeys`). The manifest and its options are read with unknown names noted, so a manifest with
any other key at its top or among its options is not read. The locations of dependencies are read with
unknown names passed over: a manifest is read as if the unknown keys of its dependencies were not there
(`unknown_keys_are_refused_except_in_dependencies`). Null keys have no name and are passed over
everywhere.

To pass unknown names over is to read a mapping without repeated keys as it is read without the entries
under such names (`Decode.alone_record_filter`). The names that are taken on the way differ in the
unknown ones only (`Decode.SameFields`), so the two readings meet the same fields and end alike
(`Decode.EndsAlike`). What is read of the dependencies is then the same, and an entry may be put in the
place of another one that is read into the same field alike (`Decode.record_replace`).
-/

set_option autoImplicit false

namespace TreeScript.Project

open Yaml (Value)

namespace Decode

/-! ### Keys that are passed over -/

section

variable {σ : Type} {fields : Fields σ} {strict merged : Bool} {entries : List (Value × Value)}
  {taken taken' : List String} {init : σ} {fuel : Nat} {tag : Option String}

/-- Two lists of names have the same fields of a record in them. -/
def SameFields (fields : Fields σ) (taken taken' : List String) : Prop :=
  ∀ name, HasField fields name → (name ∈ taken ↔ name ∈ taken')

/-- Two readings of a record end with the same failure, or with the same notes and the same record
and with the same fields taken. -/
inductive EndsAlike (fields : Fields σ) :
    EStateM.Result DocumentError (List Mismatch) (List String × σ) →
    EStateM.Result DocumentError (List Mismatch) (List String × σ) → Prop
  | error (e : DocumentError) (s : List Mismatch) : EndsAlike fields (.error e s) (.error e s)
  | ok {taken taken' : List String} (hsame : SameFields fields taken taken') (record : σ)
    (s : List Mismatch) : EndsAlike fields (.ok (taken, record) s) (.ok (taken', record) s)

theorem SameFields.cons (h : SameFields fields taken taken') (name : String) :
    SameFields fields (name :: taken) (name :: taken') := fun other hother ↦ by
  rw [List.mem_cons, List.mem_cons, h other hother]

/-- A name that is no field may be taken or not. -/
theorem SameFields.stray {name : String} (h : SameFields fields taken taken')
    (hname : ¬HasField fields name) : SameFields fields (name :: taken) taken' := fun other hother ↦ by
  rw [List.mem_cons, h other hother]
  exact or_iff_right fun hsame ↦ hname (hsame ▸ hother)

theorem SameFields.symm (h : SameFields fields taken taken') : SameFields fields taken' taken :=
  fun name hname ↦ (h name hname).symm

namespace EndsAlike

theorem bind {x y : Decode (List String × σ)} {f g : List String × σ → Decode (List String × σ)}
    {s s' : List Mismatch} (h : EndsAlike fields (x s) (y s'))
    (hfg : ∀ taken taken' record s, SameFields fields taken taken' →
      EndsAlike fields (f (taken, record) s) (g (taken', record) s)) :
    EndsAlike fields ((x >>= f) s) ((y >>= g) s') := by
  generalize hx : x s = xs at h
  generalize hy : y s' = ys at h
  cases h with
  | error e k =>
    rw [bind_error hx, bind_error hy]
    exact .error e k
  | ok hsame record k =>
    rw [bind_ok hx, bind_ok hy]
    exact hfg _ _ record k hsame

end EndsAlike

/-- A key with a name that no field has. -/
def IsStray (fields : Fields σ) (key : Value) : Prop :=
  key.isMerge = false ∧ ∃ name, keyName? key = some name ∧ ¬HasField fields name

/-- An entry under a stray key is passed over. -/
theorem entriesInto_stray {key : Value} (hstray : IsStray fields key) (merged : Bool) (value : Value)
    (entries : List (Value × Value)) (taken : List String) (init : σ) :
    ∃ taken', SameFields fields taken taken' ∧
      entriesInto fields false merged ((key, value) :: entries) taken init =
        entriesInto fields false merged entries taken' init := by
  obtain ⟨hmerge, name, hname, hnone⟩ := hstray
  have hfield : fields name value = none := by
    cases hfield : fields name value with
    | none => rfl
    | some read => exact absurd ⟨value, Option.isSome_of_eq_some hfield⟩ hnone
  have hsame : SameFields fields taken taken := fun _ _ ↦ Iff.rfl
  rw [entriesInto, if_neg (by rw [hmerge]; exact Bool.false_ne_true), text_eq_of_keyName? hname,
    pure_bind]
  dsimp only
  split
  · exact ⟨taken, hsame, rfl⟩
  · rw [hfield]
    exact ⟨name :: taken, (hsame.stray hnone).symm, rfl⟩

/-- A reading that passes unknown names over ends alike if entries under stray keys are left out. -/
theorem endsAlike_entriesInto {keeps : Value × Value → Bool}
    (hkeeps : ∀ key value, (key, value) ∈ entries → keeps (key, value) = false →
      IsStray fields key) (hsame : SameFields fields taken taken') (init : σ) (s : List Mismatch) :
    EndsAlike fields (entriesInto fields false merged entries taken init s)
      (entriesInto fields false merged (entries.filter keeps) taken' init s) := by
  induction entries generalizing taken taken' init s with
  | nil => exact .ok hsame init s
  | cons entry entries ih =>
    obtain ⟨key, value⟩ := entry
    replace ih {taken taken'} := @ih taken taken' fun key value hmem ↦
      hkeeps key value (List.mem_cons_of_mem _ hmem)
    by_cases hstray : IsStray fields key
    · obtain ⟨taken₁, hfirst, hpassed⟩ := entriesInto_stray hstray merged value entries taken init
      rw [hpassed]
      have hsame₁ : SameFields fields taken₁ taken' := fun name hname ↦
        (hfirst name hname).symm.trans (hsame name hname)
      cases hkept : keeps (key, value) with
      | false =>
        rw [List.filter_cons_of_neg (by rw [hkept]; exact Bool.false_ne_true)]
        exact ih hsame₁ init s
      | true =>
        obtain ⟨taken₂, hsecond, hpassed'⟩ :=
          entriesInto_stray hstray merged value (entries.filter keeps) taken' init
        rw [List.filter_cons_of_pos hkept, hpassed']
        exact ih (fun name hname ↦ (hsame₁ name hname).trans (hsecond name hname)) init s
    have hkept : keeps (key, value) = true := by
      rw [← Bool.not_eq_false]
      exact fun hdropped ↦ hstray (hkeeps key value List.mem_cons_self hdropped)
    rw [List.filter_cons_of_pos hkept, entriesInto, entriesInto]
    by_cases hmerge : key.isMerge = true
    · rw [if_pos hmerge, if_pos hmerge]
      exact ih hsame init s
    rw [if_neg hmerge, if_neg hmerge]
    cases htext : text key s with
    | error e s' =>
      rw [bind_error htext, bind_error htext]
      exact .error e s'
    | ok found s' =>
      rw [bind_ok htext, bind_ok htext]
      cases found with
      | none => exact ih hsame init s'
      | some name =>
        have hname : HasField fields name := Classical.byContradiction fun hnone ↦
          hstray ⟨Bool.not_eq_true _ ▸ hmerge, name, (eq_keyName?_of_text htext).symm, hnone⟩
        have hcontains : taken.contains name = taken'.contains name := by
          rw [Bool.eq_iff_iff, List.contains_iff_mem, List.contains_iff_mem, hsame name hname]
        dsimp only
        rw [hcontains]
        split
        · exact ih hsame init s'
        cases fields name value with
        | none => exact ih (hsame.cons name) init s'
        | some read =>
          dsimp only
          cases hread : read init s' with
          | error e k =>
            rw [bind_error hread, bind_error hread]
            exact .error e k
          | ok next k =>
            rw [bind_ok hread, bind_ok hread]
            exact ih (hsame.cons name) next k

/-- No merge key is left out with stray keys. -/
theorem find?_merge_filter {keeps : Value × Value → Bool}
    (hkeeps : ∀ key value, (key, value) ∈ entries → keeps (key, value) = false →
      IsStray fields key) :
    (entries.filter keeps).find? (fun (key, _) ↦ key.isMerge) =
      entries.find? (fun (key, _) ↦ key.isMerge) := by
  induction entries with
  | nil => rfl
  | cons entry entries ih =>
    obtain ⟨key, value⟩ := entry
    replace ih := ih fun key value hmem ↦ hkeeps key value (List.mem_cons_of_mem _ hmem)
    cases hkept : keeps (key, value) with
    | false =>
      have hmerge := (hkeeps key value List.mem_cons_self hkept).1
      rw [List.filter_cons_of_neg (by rw [hkept]; exact Bool.false_ne_true), ih,
        List.find?_cons_of_neg (by dsimp only; rw [hmerge]; exact Bool.false_ne_true)]
    | true => rw [List.filter_cons_of_pos hkept, List.find?_cons, List.find?_cons, ih]

/-- Mappings are merged alike if each of them is read alike. -/
theorem endsAlike_mergedInto
    (h : ∀ (inner : List (Value × Value)) (taken taken' : List String) (record : σ)
      (s : List Mismatch), SameFields fields taken taken' →
        EndsAlike fields (mappingInto fields strict fuel true inner taken record s)
          (mappingInto fields strict fuel true inner taken' record s))
    (mappings : List (List (Value × Value))) (hsame : SameFields fields taken taken') (record : σ)
    (s : List Mismatch) :
    EndsAlike fields (mergedInto fields strict fuel mappings (taken, record) s)
      (mergedInto fields strict fuel mappings (taken', record) s) := by
  induction mappings generalizing taken taken' record s with
  | nil => exact .ok hsame record s
  | cons inner mappings ih =>
    unfold mergedInto
    rw [List.foldlM_cons, List.foldlM_cons]
    exact (h inner taken taken' record s hsame).bind fun taken taken' record s hsame ↦ ih hsame record s

/-- Assumes: no change of which keys are repeated. A mapping is read alike if entries under stray keys
are left out. -/
theorem endsAlike_mappingInto {keeps : Value × Value → Bool}
    (hkeeps : ∀ key value, (key, value) ∈ entries → keeps (key, value) = false →
      IsStray fields key) (hrepeated : repeatedKeys (entries.filter keeps) = repeatedKeys entries)
    (hsame : SameFields fields taken taken') (init : σ) (s : List Mismatch) :
    EndsAlike fields (mappingInto fields false fuel merged entries taken init s)
      (mappingInto fields false fuel merged (entries.filter keeps) taken' init s) := by
  induction fuel generalizing merged entries keeps taken taken' init s with
  | zero => exact .ok hsame init s
  | succ fuel ih =>
    rw [mappingInto, mappingInto, hrepeated]
    dsimp only
    split
    · exact .ok hsame init _
    refine (endsAlike_entriesInto hkeeps hsame init s).bind fun taken taken' record s hsame ↦ ?_
    have hfind := find?_merge_filter hkeeps
    dsimp only at hfind ⊢
    rw [hfind]
    cases entries.find? (fun entry ↦ entry.1.isMerge) with
    | none => exact .ok hsame record s
    | some entry =>
      obtain ⟨key, v⟩ := entry
      dsimp only
      cases hmerged : mergedMappings v s with
      | error e s' =>
        rw [bind_error hmerged, bind_error hmerged]
        exact .error e s'
      | ok mappings s' =>
        rw [bind_ok hmerged, bind_ok hmerged]
        -- Nothing is left out of the mappings that are merged.
        refine endsAlike_mergedInto (fun inner taken taken' record s hsame ↦ ?_) mappings hsame record
          s'
        have hall : inner.filter (fun _ ↦ true) = inner := List.filter_eq_self.mpr fun _ _ ↦ rfl
        conv => arg 3; rw [← hall]
        exact ih (fun _ _ _ hdropped ↦ Bool.noConfusion hdropped) (congrArg repeatedKeys hall) hsame
          record s

/-! ### Values put in the place of others -/

theorem repeatedKeys_replace (before after : List (Value × Value)) (key v v' : Value) :
    repeatedKeys (before ++ (key, v) :: after) = repeatedKeys (before ++ (key, v') :: after) := by
  induction before with
  | nil => rfl
  | cons entry before ih =>
    obtain ⟨other, w⟩ := entry
    rw [List.cons_append, List.cons_append, repeatedKeys, repeatedKeys, ih, List.filter_append,
      List.filter_append, List.filter_cons, List.filter_cons]
    dsimp only
    split <;> simp only [List.map_append, List.map_cons]

/-- A value may be put in the place of another one that is read into the field alike. -/
theorem entriesInto_replace {key v v' : Value} {name : String} (hname : keyName? key = some name)
    (hfield : fields name v = fields name v') (before after : List (Value × Value))
    (taken : List String) (init : σ) :
    entriesInto fields strict merged (before ++ (key, v) :: after) taken init =
      entriesInto fields strict merged (before ++ (key, v') :: after) taken init := by
  induction before generalizing taken init with
  | nil =>
    rw [List.nil_append, List.nil_append, entriesInto, entriesInto, text_eq_of_keyName? hname,
      pure_bind, pure_bind]
    dsimp only
    rw [hfield]
  | cons entry before ih =>
    obtain ⟨other, w⟩ := entry
    rw [List.cons_append, List.cons_append, entriesInto, entriesInto]
    simp only [ih]

theorem find?_merge_replace {key : Value} (hmerge : key.isMerge = false) (v v' : Value)
    (before after : List (Value × Value)) :
    (before ++ (key, v) :: after).find? (fun (key, _) ↦ key.isMerge) =
      (before ++ (key, v') :: after).find? (fun (key, _) ↦ key.isMerge) := by
  rw [List.find?_append, List.find?_append,
    List.find?_cons_of_neg (by dsimp only; rw [hmerge]; exact Bool.false_ne_true),
    List.find?_cons_of_neg (by dsimp only; rw [hmerge]; exact Bool.false_ne_true)]

theorem mappingInto_replace {key v v' : Value} {name : String} (hmerge : key.isMerge = false)
    (hname : keyName? key = some name) (hfield : fields name v = fields name v')
    (before after : List (Value × Value)) (taken : List String) (init : σ) :
    mappingInto fields strict fuel merged (before ++ (key, v) :: after) taken init =
      mappingInto fields strict fuel merged (before ++ (key, v') :: after) taken init := by
  cases fuel with
  | zero => rfl
  | succ fuel =>
    rw [mappingInto, mappingInto, repeatedKeys_replace before after key v v',
      entriesInto_replace hname hfield, find?_merge_replace hmerge v v']

theorem repeatedKeys_filter (keeps : Value × Value → Bool) (h : repeatedKeys entries = []) :
    repeatedKeys (entries.filter keeps) = [] := by
  induction entries with
  | nil => rfl
  | cons entry entries ih =>
    obtain ⟨key, value⟩ := entry
    obtain ⟨hdistinct, hrepeated⟩ := repeatedKeys_cons_eq_nil h
    rw [List.filter_cons]
    split
    · have hnone : (entries.filter keeps).filter (fun (other, _) ↦ key.sameKey other) = [] := by
        refine List.filter_eq_nil_iff.mpr fun ⟨other, v⟩ hmem ↦ ?_
        rw [Bool.not_eq_true]
        exact hdistinct other v (List.mem_filter.mp hmem).1
      rw [repeatedKeys, hnone, ih hrepeated]
      rfl
    · exact ih hrepeated

theorem EndsAlike.alone {x y : Decode (List String × σ)} (h : EndsAlike fields (x []) (y [])) :
    Decode.alone ((·.2) <$> x) = Decode.alone ((·.2) <$> y) := by
  generalize hx : x [] = xs at h
  generalize hy : y [] = ys at h
  have hrun (act : Decode σ) : act.run [] = act [] := rfl
  unfold Decode.alone
  rw [hrun, hrun, map_eq_pure_bind, map_eq_pure_bind]
  cases h with
  | error e s => rw [bind_error hx, bind_error hy]
  | ok _ record s =>
    rw [bind_ok hx, bind_ok hy]

/-- Assumes: a mapping without repeated keys. A reading that passes unknown names over reads it as it
does without entries under stray keys. -/
theorem alone_record_filter {keeps : Value × Value → Bool}
    (hkeeps : ∀ key value, (key, value) ∈ entries → keeps (key, value) = false →
      IsStray fields key) (hrepeated : repeatedKeys entries = []) (init : σ) :
    alone (record fields false (.mapping tag (entries.filter keeps)) init) =
      alone (record fields false (.mapping tag entries) init) := by
  rw [record_mapping (Nat.lt_succ_of_le (Nat.le_max_left _ (Value.depthEntries entries))),
    record_mapping (Nat.lt_succ_of_le (Nat.le_max_right _ _))]
  refine (EndsAlike.alone (endsAlike_mappingInto hkeeps ?_ (fun _ _ ↦ Iff.rfl) init [])).symm
  rw [repeatedKeys_filter keeps hrepeated, hrepeated]

theorem record_replace {key v v' : Value} {name : String} (hmerge : key.isMerge = false)
    (hname : keyName? key = some name) (hfield : fields name v = fields name v')
    (before after : List (Value × Value)) (init : σ) :
    record fields strict (.mapping tag (before ++ (key, v) :: after)) init =
      record fields strict (.mapping tag (before ++ (key, v') :: after)) init := by
  rw [record_mapping (Nat.lt_succ_of_le (Nat.le_max_left _
      (Value.depthEntries (before ++ (key, v') :: after)))),
    record_mapping (Nat.lt_succ_of_le (Nat.le_max_right _ _)), mappingInto_replace hmerge hname hfield]

end

end Decode

/-! ### Fields -/

def manifestKeys : List String := ["name", "entry", "sources", "dependencies", "options"]

def settingsKeys : List String :=
  ["division_scale", "suggestions", "forbidden_imports", "auto_imports", "trace", "trace_values",
    "log_resolve", "log_assignments", "log_calls"]

def locationKeys : List String := ["path", "git", "rev", "sources"]

/-- A key is one of some names. -/
def Known (names : List String) (key : Value) : Prop := ∃ name ∈ names, Decode.keyName? key = some name

instance (names : List String) (key : Value) : Decidable (Known names key) :=
  inferInstanceAs (Decidable (∃ name ∈ names, Decode.keyName? key = some name))

namespace Decode

variable {σ : Type} {fields : Fields σ} {names : List String} {name : String}

/-- The fields of a record have their names among some names, and are read without taking notes
back. -/
def FieldsAmong (names : List String) (fields : Fields σ) : Prop :=
  ∀ name v read, fields name v = some read → name ∈ names ∧ ∀ record, Keeps (read record)

theorem FieldsAmong.keep (h : FieldsAmong names fields) : KeepFields fields :=
  fun name v read hread ↦ (h name v read hread).2

theorem FieldsAmong.mem (h : FieldsAmong names fields) (hfield : HasField fields name) :
    name ∈ names := by
  obtain ⟨v, hsome⟩ := hfield
  obtain ⟨read, hread⟩ := Option.isSome_iff_exists.mp hsome
  exact (h name v read hread).1

theorem locationFields_among : FieldsAmong locationKeys locationFields := by
  intro name v read h
  unfold locationFields at h
  split at h
  · exact ⟨by decide, (Keeps.text v).field h⟩
  · exact ⟨by decide, (Keeps.text v).field h⟩
  · exact ⟨by decide, (Keeps.text v).field h⟩
  · exact ⟨by decide, (Keeps.patterns v).field h⟩
  · cases h

theorem settingsFields_among : FieldsAmong settingsKeys settingsFields := by
  intro name v read h
  unfold settingsFields at h
  split at h
  · exact ⟨by decide, (Keeps.int v).field h⟩
  · exact ⟨by decide, (Keeps.int v).field h⟩
  · exact ⟨by decide, (Keeps.texts v).field h⟩
  · exact ⟨by decide, (Keeps.texts v).field h⟩
  · exact ⟨by decide, (Keeps.int v).field h⟩
  · exact ⟨by decide, (Keeps.texts v).field h⟩
  · exact ⟨by decide, (Keeps.bool v).field h⟩
  · exact ⟨by decide, (Keeps.bool v).field h⟩
  · exact ⟨by decide, (Keeps.bool v).field h⟩
  · cases h

theorem manifestFields_among : FieldsAmong manifestKeys manifestFields := by
  intro name v read h
  unfold manifestFields at h
  split at h
  · exact ⟨by decide, (Keeps.text v).field h⟩
  · exact ⟨by decide, (Keeps.text v).field h⟩
  · exact ⟨by decide, (Keeps.patterns v).field h⟩
  · exact ⟨by decide, (Keeps.dependencies v).field h⟩
  · cases h
    refine ⟨by decide, fun record ↦ ?_⟩
    exact (Keeps.record settingsFields_among.keep true v record.settings).bind fun _ ↦ .pure _
  · cases h

/-! ### Locations -/

/-- A mapping without the entries under keys that have a name other than some names. -/
def withoutUnknown (names : List String) : Value → Value
  | .mapping tag entries => .mapping tag (entries.filter fun (key, _) ↦
      key.isMerge || (keyName? key).all names.contains)
  | v => v

/-- A mapping has none of its own keys twice. -/
def DistinctKeys : Value → Prop
  | .mapping _ entries => repeatedKeys entries = []
  | _ => True

theorem isStray_location {key : Value}
    (h : (key.isMerge || (keyName? key).all locationKeys.contains) = false) :
    IsStray locationFields key := by
  rw [Bool.or_eq_false_iff] at h
  obtain ⟨hmerge, hname⟩ := h
  cases hkey : keyName? key with
  | none =>
    rw [hkey] at hname
    cases hname
  | some name =>
    rw [hkey, Option.all_some, ← Bool.not_eq_true, List.contains_iff_mem] at hname
    exact ⟨hmerge, name, hkey, fun hfield ↦ hname (locationFields_among.mem hfield)⟩

/-- Assumes: no key twice. A location is read as if its unknown keys were not there. -/
theorem location_withoutUnknown {v : Value} (h : DistinctKeys v) :
    location (withoutUnknown locationKeys v) = location v := by
  cases v with
  | scalar | sequence => rfl
  | mapping tag entries =>
    exact alone_record_filter (fun _ _ _ hdropped ↦ isStray_location hdropped) h {}

/-- Dependencies whose locations have no unknown keys. -/
def knownLocations (entries : List (Value × Value)) : List (Value × Value) :=
  entries.map fun (key, v) ↦ (key, withoutUnknown locationKeys v)

theorem dependenciesFrom_knownLocations {entries : List (Value × Value)}
    (h : ∀ entry ∈ entries, DistinctKeys entry.2) (found : List (String × Location)) :
    dependenciesFrom (knownLocations entries) found = dependenciesFrom entries found := by
  induction entries generalizing found with
  | nil => rfl
  | cons entry entries ih =>
    obtain ⟨key, v⟩ := entry
    obtain ⟨hfirst, hothers⟩ := List.forall_mem_cons.mp h
    unfold knownLocations at ih ⊢
    rw [List.map_cons, dependenciesFrom, dependenciesFrom, location_withoutUnknown hfirst]
    simp only [ih hothers]

theorem manifestFields_knownLocations {tag : Option String} {entries : List (Value × Value)}
    (h : ∀ entry ∈ entries, DistinctKeys entry.2) :
    manifestFields "dependencies" (.mapping tag (knownLocations entries)) =
      manifestFields "dependencies" (.mapping tag entries) := by
  have hread : dependencies (.mapping tag (knownLocations entries)) =
      dependencies (.mapping tag entries) := by
    unfold dependencies
    simp only [dependenciesFrom_knownLocations h]
    rfl
  exact congrArg (fun read : Decode (Option (List (String × Location))) ↦
    field read fun list (m : Manifest) ↦ { m with dependencies := list }) hread

end Decode

/-! ### Manifests -/

open Decode

variable {place : String} {tag : Option String} {entries : List (Value × Value)} {manifest : Manifest}

/-- The keys of a manifest that is read are known. -/
theorem Manifest.known_of_ofValue
    (h : Manifest.ofValue place (.mapping tag entries) = .ok manifest) {key : Value}
    (hkey : HasKey entries key) : key.isNull = true ∨ Known manifestKeys key := by
  have hread := alone_eq_ok_iff.mp h
  exact (hasField_of_reads manifestFields_among.keep hread hkey).imp_right
    fun ⟨name, hfield, hname⟩ ↦ ⟨name, manifestFields_among.mem hfield, hname⟩

/-- The keys among the options of a manifest that is read are known. -/
theorem Manifest.known_of_options
    (h : Manifest.ofValue place (.mapping tag entries) = .ok manifest) {optionsTag : Option String}
    {options : List (Value × Value)}
    (hoptions : ValueAt entries "options" (.mapping optionsTag options)) {key : Value}
    (hkey : HasKey options key) : key.isNull = true ∨ Known settingsKeys key := by
  obtain ⟨taken, hread⟩ := reads_record (alone_eq_ok_iff.mp h)
  obtain ⟨former, latter, hfield⟩ := reads_field_of_valueAt manifestFields_among.keep hoptions
    (Nat.lt_succ_self _) hread List.not_mem_nil rfl
  obtain ⟨settings, hsettings, -⟩ := hfield.of_bind fun _ ↦ .pure _
  exact (hasField_of_reads settingsFields_among.keep hsettings hkey).imp_right
    fun ⟨name, hfield, hname⟩ ↦ ⟨name, settingsFields_among.mem hfield, hname⟩

/-- Assumes: dependencies without repeated keys. A manifest is read as if their unknown keys were not
there. -/
theorem Manifest.ofValue_knownLocations {key : Value} {dependenciesTag : Option String}
    {dependencies : List (Value × Value)} (hmerge : key.isMerge = false)
    (hname : keyName? key = some "dependencies")
    (hdistinct : ∀ entry ∈ dependencies, DistinctKeys entry.2) (before after : List (Value × Value)) :
    Manifest.ofValue place (.mapping tag
        (before ++ (key, .mapping dependenciesTag (knownLocations dependencies)) :: after)) =
      Manifest.ofValue place
        (.mapping tag (before ++ (key, .mapping dependenciesTag dependencies) :: after)) := by
  unfold ofValue
  rw [record_replace hmerge hname (manifestFields_knownLocations hdistinct)]

/-! ### Files -/

/-- The file under a path has a document in it. -/
def Files.Holds (files : Files Id) (path : String) (document : Value) : Prop :=
  ∃ text, files.read (Path.absolute files.directory path) = .ok text ∧
    Value.parse text = .ok (some document)

/-- The file under a path cannot be read as a manifest, whatever has been noted before. -/
def Unreadable (files : Files Id) (path : String) : Prop :=
  ∃ cause, ∀ notes, (loadManifest files path).run.run notes =
    (.error (.manifest (.notRead (Path.absolute files.directory path) cause)), notes)

variable {files : Files Id} {path : String}

theorem loadManifest_run {text : String} (hpath : path ≠ "")
    (hread : files.read (Path.absolute files.directory path) = .ok text) (notes : Array String) :
    (loadManifest files path).run.run notes =
      ((Manifest.parse (Path.absolute files.directory path) text).mapError .manifest, notes) := by
  unfold loadManifest
  rw [if_neg hpath]
  dsimp only
  rw [Load.ask_bind, hread]
  dsimp only
  cases Manifest.parse (Path.absolute files.directory path) text <;> rfl

/-- Of a text with a document in it, what the document says is parsed. -/
theorem Manifest.parse_of_document {text : String} {document : Value}
    (h : Value.parse text = .ok (some document)) (path : String) :
    Manifest.parse path text =
      match Manifest.ofValue path document with
      | .error e => .error (.notRead path e)
      | .ok manifest =>
        if manifest.issues.isEmpty then .ok manifest else .error (.invalid manifest.issues) := by
  unfold Manifest.parse
  generalize Value.parse text = parsed at h ⊢
  subst h
  rfl

/-- A document that is no manifest makes a file unreadable. -/
theorem unreadable_of_error {document : Value} (hpath : path ≠ "") (h : files.Holds path document)
    (hnone : ∀ manifest,
      Manifest.ofValue (Path.absolute files.directory path) document ≠ .ok manifest) :
    Unreadable files path := by
  obtain ⟨text, hread, hparse⟩ := h
  cases hvalue : Manifest.ofValue (Path.absolute files.directory path) document with
  | ok manifest => exact absurd hvalue (hnone manifest)
  | error cause =>
    refine ⟨cause, fun notes ↦ ?_⟩
    rw [loadManifest_run hpath hread, Manifest.parse_of_document hparse, hvalue]
    rfl

/-- Assumes: documents of which the same manifest is read. The files are loaded alike. -/
theorem loadManifest_congr {other : Files Id} {document document' : Value} (hpath : path ≠ "")
    (h : files.Holds path document) (hother : other.Holds path document')
    (hdirectory : other.directory = files.directory)
    (hsame : Manifest.ofValue (Path.absolute files.directory path) document' =
      Manifest.ofValue (Path.absolute files.directory path) document) (notes : Array String) :
    (loadManifest other path).run.run notes = (loadManifest files path).run.run notes := by
  obtain ⟨text, hread, hparse⟩ := h
  obtain ⟨text', hread', hparse'⟩ := hother
  rw [loadManifest_run hpath hread, loadManifest_run hpath hread', hdirectory,
    Manifest.parse_of_document hparse, Manifest.parse_of_document hparse', hsame]

/-- Loading a manifest fails if there is a key outside the known ones at its top or among its options,
and the file counts as unreadable then. A key outside the known ones in the location of a dependency is
no failure: unless a location has a key twice, the file is loaded like one without these entries. -/
theorem unknown_keys_are_refused_except_in_dependencies (hpath : path ≠ "")
    (hholds : files.Holds path (.mapping tag entries)) :
    (∀ key, HasKey entries key → key.isNull = false → ¬Known manifestKeys key →
      Unreadable files path) ∧
    (∀ optionsTag options key, ValueAt entries "options" (.mapping optionsTag options) →
      HasKey options key → key.isNull = false → ¬Known settingsKeys key → Unreadable files path) ∧
    ∀ before key dependenciesTag dependencies after,
      entries = before ++ (key, .mapping dependenciesTag dependencies) :: after →
      key.isMerge = false → keyName? key = some "dependencies" →
      (∀ entry ∈ dependencies, DistinctKeys entry.2) →
      ∀ other : Files Id, other.directory = files.directory →
        other.Holds path (.mapping tag
          (before ++ (key, .mapping dependenciesTag (knownLocations dependencies)) :: after)) →
        ∀ notes, (loadManifest other path).run.run notes = (loadManifest files path).run.run notes := by
  refine ⟨fun key hkey hnull hunknown ↦ ?_,
    fun optionsTag options key hoptions hkey hnull hunknown ↦ ?_,
    fun before key dependenciesTag dependencies after hcut hmerge hname hdistinct other hdirectory
      hother notes ↦ ?_⟩
  · refine unreadable_of_error hpath hholds fun manifest hread ↦ hunknown ?_
    exact (Manifest.known_of_ofValue hread hkey).resolve_left (Bool.not_eq_true _ ▸ hnull)
  · refine unreadable_of_error hpath hholds fun manifest hread ↦ hunknown ?_
    exact (Manifest.known_of_options hread hoptions hkey).resolve_left (Bool.not_eq_true _ ▸ hnull)
  · subst hcut
    exact loadManifest_congr hpath hholds hother hdirectory
      (Manifest.ofValue_knownLocations hmerge hname hdistinct before after) notes

/-- A plain scalar without a tag. -/
@[match_pattern] def plain (text : String) : Value := .scalar none true text

/-- A directory with nothing but a manifest in it. -/
def manifestFiles (text : String) : Files Id :=
  (FileTree.directory [(manifestName, .file text)]).files "/"

theorem holds_manifestFiles {text : String} {document : Value}
    (h : Value.parse text = .ok (some document)) :
    (manifestFiles text).Holds manifestName document := by
  have hdirectory : (manifestFiles text).directory = "/" := rfl
  have hplace : Path.absolute "/" manifestName = "/menter.yml" := by decide
  have hpieces : Path.pieces "/menter.yml" = ["", "menter.yml"] := by decide
  have hfind : (FileTree.directory [(manifestName, .file text)]).find "/" "/menter.yml" =
      .ok (.file text) := by
    rw [FileTree.find, if_neg (by decide), if_pos (by decide), hpieces]
    rfl
  refine ⟨text, ?_, h⟩
  rw [hdirectory, hplace]
  unfold manifestFiles FileTree.files
  dsimp only
  rw [hfind]

/-- A misspelt name and a misspelt option are refused. A misspelt revision is not: the dependency is
taken at no particular revision. -/
theorem misspelt_revision_is_passed_over :
    Unreadable (manifestFiles "name: t\nentry: m\nentri: n\n") manifestName ∧
    Unreadable (manifestFiles "name: t\nentry: m\noptions:\n  scale: 1\n") manifestName ∧
    ∀ notes,
      (loadManifest (manifestFiles "name: t\nentry: m\ndependencies:\n  lib:\n    git: l\n")
        manifestName).run.run notes =
      (loadManifest (manifestFiles
        "name: t\nentry: m\ndependencies:\n  lib:\n    git: l\n    revision: v1\n")
        manifestName).run.run notes := by
  have hpath : manifestName ≠ "" := by decide
  refine ⟨?_, ?_, ?_⟩
  · have hparse : Value.parse "name: t\nentry: m\nentri: n\n" =
        .ok (some (.mapping none [(plain "name", plain "t"), (plain "entry", plain "m"),
          (plain "entri", plain "n")])) := by decide +kernel
    exact (unknown_keys_are_refused_except_in_dependencies hpath (holds_manifestFiles hparse)).1
      (plain "entri") (.own ⟨rfl, _, .tail _ (.tail _ (.head _))⟩) (by decide)
      (by decide)
  · have hparse : Value.parse "name: t\nentry: m\noptions:\n  scale: 1\n" =
        .ok (some (.mapping none [(plain "name", plain "t"), (plain "entry", plain "m"),
          (plain "options", .mapping none [(plain "scale", plain "1")])])) := by decide +kernel
    exact (unknown_keys_are_refused_except_in_dependencies hpath (holds_manifestFiles hparse)).2.1
      none _ (plain "scale") (.own (.tail _ (.tail _ (.head _))) rfl (by decide))
      (.own ⟨rfl, _, .head _⟩) (by decide) (by decide)
  · have hparse : Value.parse "name: t\nentry: m\ndependencies:\n  lib:\n    git: l\n" =
        .ok (some (.mapping none [(plain "name", plain "t"), (plain "entry", plain "m"),
          (plain "dependencies", .mapping none [(plain "lib",
            .mapping none [(plain "git", plain "l")])])])) := by decide +kernel
    have hparse' : Value.parse
          "name: t\nentry: m\ndependencies:\n  lib:\n    git: l\n    revision: v1\n" =
        .ok (some (.mapping none [(plain "name", plain "t"), (plain "entry", plain "m"),
          (plain "dependencies", .mapping none [(plain "lib",
            .mapping none [(plain "git", plain "l"), (plain "revision", plain "v1")])])])) := by
      decide +kernel
    exact (unknown_keys_are_refused_except_in_dependencies hpath (holds_manifestFiles hparse')).2.2
      [(plain "name", plain "t"), (plain "entry", plain "m")] (plain "dependencies") none
      [(plain "lib", .mapping none [(plain "git", plain "l"), (plain "revision", plain "v1")])] []
      rfl rfl (by decide)
      (List.forall_mem_singleton.mpr (show repeatedKeys _ = [] by decide))
      (manifestFiles "name: t\nentry: m\ndependencies:\n  lib:\n    git: l\n") rfl
      (holds_manifestFiles hparse)

end TreeScript.Project
