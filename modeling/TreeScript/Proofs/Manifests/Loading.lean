import Mathlib.Data.List.Forall2
import Mathlib.Data.List.Nodup
import TreeScript.Project.Loader

/-!
# Loading loses no source

A project is loaded from directories: one for each dependency, and its own. What is loaded from a
directory is a source for each file that is reached from it without entering hidden directories and
has a name that fits (`Search.covers_of_loadDirectory`), by induction on how deep directories may be
nested. The sources of the dependencies come first, then those of the project, and no two of them may
share a name (`addSources_eq_ok`). The entry is looked for among the sources of the project by its name
and put last; if there is none of that name, it is read from the path that the manifest gives
(`assembled_of_loadProject`).

So a program that is loaded has every file it should have exactly once, under the name that the file
has for its dependency or in the project (`loading_loses_no_source`). Of project files that share the
source name of the entry nothing is said if there are two of them.
-/

set_option autoImplicit false

namespace TreeScript.Project

/-! ### What loading gives -/

namespace Load

variable {α β : Type}

/-- There are notes after which loading gives a value. -/
def Gives (act : Load Id α) (a : α) : Prop := ∃ notes notes', act.run.run notes = (.ok a, notes')

theorem run_bind {x : Load Id α} {f : α → Load Id β} {notes : Array String} :
    (x >>= f).run.run notes = match x.run.run notes with
      | (.ok a, between) => (f a).run.run between
      | (.error e, between) => (.error e, between) := by
  change (x.run >>= ExceptT.bindCont f).run notes = _
  rw [StateT.run_bind]
  generalize x.run.run notes = first
  obtain ⟨found, between⟩ := first
  cases found <;> rfl

theorem Gives.of_bind {x : Load Id α} {f : α → Load Id β} {b : β} (h : Gives (x >>= f) b) :
    ∃ a, Gives x a ∧ Gives (f a) b := by
  obtain ⟨notes, notes', hrun⟩ := h
  rw [run_bind] at hrun
  split at hrun
  · rename_i a between hfirst
    exact ⟨a, ⟨notes, between, hfirst⟩, between, notes', hrun⟩
  · cases hrun

theorem Gives.of_pure {a b : α} (h : Gives (pure a) b) : b = a := by
  obtain ⟨notes, notes', hrun⟩ := h
  cases hrun
  rfl

theorem Gives.of_ask {act : Id α} {a : α} (h : Gives (ask act) a) : act = a := by
  obtain ⟨notes, notes', hrun⟩ := h
  cases hrun
  rfl

theorem Gives.of_except {part : Except LoadError α} {a : α} (h : Gives (liftM part) a) :
    part = .ok a := by
  obtain ⟨notes, notes', hrun⟩ := h
  cases part <;> cases hrun
  rfl

theorem ask_bind (act : Id α) (f : α → Load Id β) : (ask act >>= f) = f act := rfl

theorem not_gives_throw {e : LoadError} {a : α} : ¬Gives (throw e) a := by
  rintro ⟨notes, notes', hrun⟩
  cases hrun

theorem Gives.of_inContext {context : LoadError → LoadError} {act : Load Id α} {a : α}
    (h : Gives (inContext context act) a) : Gives act a := by
  obtain ⟨notes, notes', hrun⟩ := h
  refine ⟨notes, notes', ?_⟩
  have hcaught : (inContext context act).run.run notes = match act.run.run notes with
      | (.ok a, between) => (.ok a, between)
      | (.error e, between) => (.error (context e), between) := by
    rw [inContext, ExceptT.run_tryCatch, StateT.run_bind]
    generalize act.run.run notes = first
    obtain ⟨found, between⟩ := first
    cases found <;> rfl
  rw [hcaught] at hrun
  split at hrun
  · rename_i hfirst
    rw [hfirst, hrun]
  · cases hrun

theorem Gives.of_mapM {f : α → Load Id β} {xs : List α} {ys : List β} (h : Gives (xs.mapM f) ys) :
    List.Forall₂ (fun x y ↦ Gives (f x) y) xs ys := by
  induction xs generalizing ys with
  | nil =>
    obtain rfl := h.of_pure
    exact .nil
  | cons x xs ih =>
    rw [List.mapM_cons] at h
    obtain ⟨y, hfirst, hrest⟩ := h.of_bind
    obtain ⟨others, hothers, hdone⟩ := hrest.of_bind
    obtain rfl := hdone.of_pure
    exact .cons hfirst (ih hothers)

end Load

open Load

/-! ### Files and their sources -/

/-- Statements are what a tree file says. -/
def DecodedFrom (files : Files Id) (place : String) (statements : List Node) : Prop :=
  ∃ text node, files.read place = .ok text ∧ Node.parse text = .ok node ∧ node.statements = statements

/-- Directories that loading goes into. -/
def Visible (name : String) : Prop := isHidden name = false

/-- A file lies below a directory, at a place, and with a name as seen from where the directory is seen
as `inner`. All directories on the way to it are entered. -/
inductive Below (files : Files Id) (enters : String → Prop) :
    (path inner place inside : String) → Prop
  | file {path inner name : String} {entries : List (String × FileKind)}
    (hlist : files.list path = .ok entries) (hmem : (name, .file) ∈ entries) :
    Below files enters path inner (Path.join path name) (innerName inner name)
  | directory {path inner place inside name : String} {entries : List (String × FileKind)}
    (hlist : files.list path = .ok entries) (hmem : (name, .directory) ∈ entries)
    (henters : enters name)
    (h : Below files enters (Path.join path name) (innerName inner name) place inside) :
    Below files enters path inner place inside

/-- A file that can be reached from a root: a file below it, or the root itself. -/
inductive Reached (files : Files Id) (enters : String → Prop) (root : String) :
    (place inside : String) → Prop
  | root (hkind : files.kind root = .ok .file) : Reached files enters root root "."
  | below {place inside : String} (hkind : files.kind root = .ok .directory)
    (h : Below files enters root "" place inside) : Reached files enters root place inside

namespace Search

variable {files : Files Id} {search : Search}

/-- A file is one that a search is for. -/
structure Finds (files : Files Id) (enters : String → Prop) (search : Search) (place inside : String) :
    Prop where
  reached : Reached files enters search.root place inside
  fits : Glob.fitsAny search.patterns inside = true

/-- A source is the one that a search makes of a file. -/
structure Makes (files : Files Id) (search : Search) (place inside : String) (source : Source) :
    Prop where
  name : source.name = ownedName search.owner (sourceName inside)
  path : source.path = inside
  origin : source.origin = search.root
  decoded : DecodedFrom files place source.statements

/-- Sources are those of some files, of which the names have to fit. -/
structure Covers (files : Files Id) (search : Search) (Found : String → String → Prop)
    (sources : List Source) : Prop where
  complete : ∀ place inside, Found place inside → Glob.fitsAny search.patterns inside = true →
    ∃ source ∈ sources, search.Makes files place inside source
  sound : ∀ source ∈ sources, ∃ place inside, Found place inside ∧
    Glob.fitsAny search.patterns inside = true ∧ search.Makes files place inside source

namespace Covers

variable {Found Other : String → String → Prop} {sources : List Source}

theorem nothing : search.Covers files (fun _ _ ↦ False) [] :=
  ⟨fun _ _ h ↦ h.elim, fun _ h ↦ nomatch h⟩

theorem congr (h : search.Covers files Found sources)
    (hsame : ∀ place inside, Found place inside ↔ Other place inside) :
    search.Covers files Other sources := by
  obtain rfl : Found = Other := funext₂ fun place inside ↦ propext (hsame place inside)
  exact h

theorem append {others : List Source} (h : search.Covers files Found sources)
    (hothers : search.Covers files Other others) :
    search.Covers files (fun place inside ↦ Found place inside ∨ Other place inside)
      (sources ++ others) where
  complete place inside hfound hfits := by
    rcases hfound with hfound | hfound
    · obtain ⟨source, hmem, hmakes⟩ := h.complete place inside hfound hfits
      exact ⟨source, List.mem_append_left _ hmem, hmakes⟩
    · obtain ⟨source, hmem, hmakes⟩ := hothers.complete place inside hfound hfits
      exact ⟨source, List.mem_append_right _ hmem, hmakes⟩
  sound source hsource := by
    rcases List.mem_append.mp hsource with hmem | hmem
    · obtain ⟨place, inside, hfound, hrest⟩ := h.sound source hmem
      exact ⟨place, inside, .inl hfound, hrest⟩
    · obtain ⟨place, inside, hfound, hrest⟩ := hothers.sound source hmem
      exact ⟨place, inside, .inr hfound, hrest⟩

theorem flatten {α : Type} {FoundBy : α → String → String → Prop} {xs : List α}
    {blocks : List (List Source)}
    (h : List.Forall₂ (fun x block ↦ search.Covers files (FoundBy x) block) xs blocks) :
    search.Covers files (fun place inside ↦ ∃ x ∈ xs, FoundBy x place inside) blocks.flatten := by
  induction h with
  | nil => exact nothing.congr fun place inside ↦ by simp
  | cons hfirst _ ih => exact (hfirst.append ih).congr fun place inside ↦ by simp

end Covers

/-! ### Directories -/

theorem decodedFrom_of_readTree {path : String} {statements : List Node}
    (h : Gives (readTree files path) statements) : DecodedFrom files path statements := by
  obtain ⟨text, hread, hdecode⟩ := h.of_bind
  have hfile : files.read path = .ok text := by
    obtain ⟨found, hasked, hgo⟩ := hread.of_inContext.of_bind
    obtain rfl := hasked.of_ask
    cases hfound : files.read path with
    | ok text' =>
      rw [hfound] at hgo
      obtain rfl := hgo.of_pure
      rfl
    | error e =>
      rw [hfound] at hgo
      cases e <;> exact absurd hgo not_gives_throw
  cases hparse : Node.parse text with
  | ok node =>
    rw [hparse] at hdecode
    obtain rfl := hdecode.of_pure
    exact ⟨text, node, hfile, hparse, rfl⟩
  | error e =>
    rw [hparse] at hdecode
    exact absurd hdecode not_gives_throw

/-- A single file is loaded if its name fits. -/
theorem covers_of_loadFitting {path inner : String} {sources : List Source}
    (h : Gives (loadFitting files search path inner) sources) :
    search.Covers files (fun place inside ↦ place = path ∧ inside = inner) sources := by
  unfold loadFitting at h
  by_cases hfits : Glob.fitsAny search.patterns inner = true
  · rw [if_pos hfits] at h
    obtain ⟨statements, hread, hdone⟩ := h.of_bind
    obtain rfl := hdone.of_pure
    have hmakes : search.Makes files path inner
        { name := ownedName search.owner (sourceName inner), path := inner, statements
          origin := search.root } := ⟨rfl, rfl, rfl, decodedFrom_of_readTree hread⟩
    constructor
    · rintro _ _ ⟨rfl, rfl⟩ -
      exact ⟨_, List.mem_singleton_self _, hmakes⟩
    · intro source hmem
      obtain rfl := List.mem_singleton.mp hmem
      exact ⟨path, inner, ⟨rfl, rfl⟩, hfits, hmakes⟩
  · rw [if_neg hfits] at h
    obtain rfl := h.of_pure
    constructor
    · rintro _ _ ⟨rfl, rfl⟩ hfits'
      exact absurd hfits' hfits
    · exact fun _ hmem ↦ nomatch hmem

/-- What is loaded for an entry of a directory. -/
def visit (files : Files Id) (search : Search) (fuel : Nat) (path inner : String) :
    String × FileKind → Load Id (List Source)
  | (name, .file) => loadFitting files search (Path.join path name) (innerName inner name)
  | (name, .directory) =>
    if isHidden name then pure []
    else loadBelow files search fuel (Path.join path name) (innerName inner name)

theorem loadBelow_eq {fuel : Nat} {path inner : String} {entries : List (String × FileKind)}
    (hlist : files.list path = .ok entries) :
    loadBelow files search (fuel + 1) path inner =
      List.flatten <$> (byName entries).mapM (visit files search fuel path inner) := by
  rw [map_eq_pure_bind, loadBelow]
  refine (congrArg (ask · >>= _) hlist).trans ?_
  refine congrArg (fun act : _ → Load Id (List Source) ↦
    (byName entries).mapM act >>= fun blocks ↦ pure blocks.flatten) ?_
  funext ⟨name, kind⟩
  cases kind <;> rfl

/-- A file that an entry of a directory leads to. -/
def Under (files : Files Id) (enters : String → Prop) (path inner : String) :
    String × FileKind → String → String → Prop
  | (name, .file), place, inside => place = Path.join path name ∧ inside = innerName inner name
  | (name, .directory), place, inside =>
    enters name ∧ Below files enters (Path.join path name) (innerName inner name) place inside

theorem below_iff {enters : String → Prop} {path inner place inside : String}
    {entries : List (String × FileKind)} (hlist : files.list path = .ok entries) :
    Below files enters path inner place inside ↔
      ∃ entry ∈ byName entries, Under files enters path inner entry place inside := by
  constructor
  · intro h
    cases h with
    | file hlist' hmem =>
      rw [hlist] at hlist'
      cases hlist'
      exact ⟨_, List.mem_mergeSort.mpr hmem, rfl, rfl⟩
    | directory hlist' hmem henters hbelow =>
      rw [hlist] at hlist'
      cases hlist'
      exact ⟨_, List.mem_mergeSort.mpr hmem, henters, hbelow⟩
  · rintro ⟨⟨name, kind⟩, hmem, hunder⟩
    have hmem := List.mem_mergeSort.mp hmem
    cases kind with
    | file =>
      obtain ⟨rfl, rfl⟩ := hunder
      exact .file hlist hmem
    | directory => exact .directory hlist hmem hunder.1 hunder.2

/-- All files below a directory are loaded, hidden directories apart. -/
theorem covers_of_loadBelow {fuel : Nat} {path inner : String} {sources : List Source}
    (h : Gives (loadBelow files search fuel path inner) sources) :
    search.Covers files (Below files Visible path inner) sources := by
  induction fuel generalizing path inner sources with
  | zero => exact absurd h not_gives_throw
  | succ fuel ih =>
    cases hlist : files.list path with
    | error e =>
      rw [loadBelow, ask_bind, hlist] at h
      exact absurd h not_gives_throw
    | ok entries =>
      rw [loadBelow_eq hlist, map_eq_pure_bind] at h
      obtain ⟨blocks, hblocks, hdone⟩ := h.of_bind
      obtain rfl := hdone.of_pure
      refine (Covers.flatten (hblocks.of_mapM.imp fun entry block hblock ↦ ?_)).congr
        fun place inside ↦ (below_iff hlist).symm
      obtain ⟨name, kind⟩ := entry
      cases kind with
      | file => exact covers_of_loadFitting hblock
      | directory =>
        rw [visit] at hblock
        cases hhidden : isHidden name with
        | true =>
          rw [if_pos hhidden] at hblock
          obtain rfl := hblock.of_pure
          exact Covers.nothing.congr fun place inside ↦ by simp [Under, Visible, hhidden]
        | false =>
          rw [if_neg (Bool.not_eq_true _ ▸ hhidden)] at hblock
          exact (ih hblock).congr fun place inside ↦ by simp [Under, Visible, hhidden]

/-- What is loaded from a root are the files that are reached from it. -/
theorem covers_of_loadDirectory {root owner : String} {patterns : List String} {sources : List Source}
    (h : Gives (loadDirectory files root patterns owner) sources) :
    Covers files { root, patterns := patternsOr patterns, owner } (Reached files Visible root)
      sources := by
  obtain ⟨kind, hasked, hgo⟩ := h.of_bind
  obtain rfl := hasked.of_ask
  dsimp only at hgo
  cases hkind : files.kind root with
  | error e =>
    rw [hkind] at hgo
    obtain ⟨found, hfound, -⟩ := hgo.of_bind
    exact absurd hfound not_gives_throw
  | ok kind =>
    rw [hkind] at hgo
    cases kind with
    | file =>
      obtain ⟨found, hfound, hrest⟩ := hgo.of_bind
      obtain ⟨_, -, hdone⟩ := hrest.of_bind
      obtain rfl := hdone.of_pure
      refine (covers_of_loadFitting hfound).congr fun place inside ↦ ?_
      constructor
      · rintro ⟨rfl, rfl⟩
        exact .root hkind
      · rintro (_ | ⟨hkind', _⟩)
        · exact ⟨rfl, rfl⟩
        · rw [hkind] at hkind'
          cases hkind'
    | directory =>
      obtain ⟨found, hfound, hrest⟩ := hgo.of_bind
      obtain ⟨_, -, hdone⟩ := hrest.of_bind
      obtain rfl := hdone.of_pure
      refine (covers_of_loadBelow hfound).congr fun place inside ↦ ⟨.below hkind, ?_⟩
      rintro (hkind' | ⟨_, hbelow⟩)
      · rw [hkind] at hkind'
        cases hkind'
      · exact hbelow

/-- Assumes: a directory that is listed in the order of names. -/
theorem loadDirectory_eq {root owner : String} {patterns : List String}
    (entries : List (String × FileKind)) (hkind : files.kind root = .ok .directory)
    (hlist : files.list root = .ok entries) (hsorted : byName entries = entries) :
    loadDirectory files root patterns owner = (do
      let sources ← List.flatten <$> entries.mapM
        (visit files { root, patterns := patternsOr patterns, owner } (maxPathLength - 1) root "")
      note s!"loader: {sources.length} source(s) from {root}"
      return sources) := by
  have hbelow : loadBelow files { root, patterns := patternsOr patterns, owner } maxPathLength root "" =
      _ := loadBelow_eq hlist
  rw [hsorted] at hbelow
  unfold loadDirectory
  dsimp only
  rw [ask_bind, hkind]
  exact congrArg (· >>= _) hbelow

end Search

/-! ### Projects -/

/-- The search for the sources of a dependency. -/
def Manifest.dependencySearch (manifest : Manifest) (dependency : String × Location) : Search where
  root := Path.resolve (Path.parent manifest.path) dependency.2.path
  patterns := patternsOr dependency.2.sources
  owner := dependency.1

/-- The search for the sources of a project itself. -/
def Manifest.ownSearch (manifest : Manifest) : Search where
  root := Path.parent manifest.path
  patterns := patternsOr manifest.sources
  owner := ""

section

variable {files : Files Id} {manifest : Manifest}

theorem loadDependency_eq {root name : String} {location : Location} (hgit : location.git = "") :
    loadDependency files root name location = inContext (.dependency name)
      (loadDirectory files (Path.resolve root location.path) location.sources name) := by
  unfold loadDependency
  rw [if_neg (not_not.mpr hgit)]

/-- What is loaded for a dependency that is no repository are the files of its search. -/
theorem covers_of_loadDependency {dependency : String × Location} {sources : List Source}
    (hgit : dependency.2.git = "")
    (h : Gives (loadDependency files (Path.parent manifest.path) dependency.1 dependency.2) sources) :
    (manifest.dependencySearch dependency).Covers files
      (Reached files Visible (manifest.dependencySearch dependency).root) sources := by
  rw [loadDependency_eq hgit] at h
  exact Search.covers_of_loadDirectory h.of_inContext

/-- Added sources come after the others, and their names are new. -/
theorem addSources_eq_ok {sources added result : List Source}
    (h : addSources sources added = .ok result) :
    result = sources ++ added ∧
      ((sources.map (·.name)).Nodup → (result.map (·.name)).Nodup) := by
  induction added generalizing sources with
  | nil =>
    cases h
    exact ⟨(List.append_nil _).symm, id⟩
  | cons source added ih =>
    unfold addSources at h
    split at h
    · cases h
    · rename_i hfree
      obtain ⟨rfl, hnodup⟩ := ih h
      refine ⟨by rw [List.append_assoc, List.singleton_append], fun hformer ↦ hnodup ?_⟩
      have hnew : source.name ∉ sources.map (·.name) := fun hmem ↦ by
        obtain ⟨first, hfirst, hsame⟩ := List.mem_map.mp hmem
        exact List.find?_eq_none.mp hfree first hfirst (decide_eq_true hsame)
      rw [List.map_append, List.map_singleton, ← List.concat_eq_append]
      exact hformer.concat hnew

/-- Assumes: names that differ. A source is the only one of its name. -/
theorem filter_name_eq {sources : List Source} (hnodup : (sources.map (·.name)).Nodup)
    {source : Source} (hmem : source ∈ sources) :
    sources.filter (·.name = source.name) = [source] := by
  induction sources with
  | nil => cases hmem
  | cons first others ih =>
    rw [List.map_cons, List.nodup_cons] at hnodup
    obtain ⟨hnew, hnodup⟩ := hnodup
    rcases List.mem_cons.mp hmem with rfl | hlater
    · have hnone : others.filter (·.name = source.name) = [] := by
        refine List.filter_eq_nil_iff.mpr fun other hother hsame ↦ hnew ?_
        exact List.mem_map.mpr ⟨other, hother, of_decide_eq_true hsame⟩
      rw [List.filter_cons_of_pos (by simp), hnone]
    · have hother : first.name ≠ source.name := fun hsame ↦
        hnew (hsame ▸ List.mem_map_of_mem hlater)
      rw [List.filter_cons_of_neg (by simpa using hother), ih hnodup hlater]

/-- The dependencies are loaded one after the other, and no two of all their sources have the same
name. -/
theorem blocks_of_foldlM {dependencies : List (String × Location)} {sources result : List Source}
    (hgit : ∀ dependency ∈ dependencies, dependency.2.git = "")
    (h : Gives (dependencies.foldlM (fun sources (name, location) ↦ do
      addSources sources (← loadDependency files (Path.parent manifest.path) name location)) sources)
      result) :
    ∃ blocks : List (List Source), result = sources ++ blocks.flatten ∧
      List.Forall₂ (fun dependency block ↦ (manifest.dependencySearch dependency).Covers files
        (Reached files Visible (manifest.dependencySearch dependency).root) block)
        dependencies blocks ∧
      ((sources.map (·.name)).Nodup → (result.map (·.name)).Nodup) := by
  induction dependencies generalizing sources with
  | nil =>
    obtain rfl := h.of_pure
    exact ⟨[], (List.append_nil _).symm, .nil, id⟩
  | cons dependency dependencies ih =>
    obtain ⟨hfirst, hothers⟩ := List.forall_mem_cons.mp hgit
    rw [List.foldlM_cons] at h
    obtain ⟨added, hadded, hrest⟩ := h.of_bind
    obtain ⟨block, hblock, hadds⟩ := hadded.of_bind
    obtain ⟨rfl, hfirstNodup⟩ := addSources_eq_ok hadds.of_except
    obtain ⟨blocks, rfl, hblocks, hnodup⟩ := ih hothers hrest
    refine ⟨block :: blocks, ?_, .cons (covers_of_loadDependency hfirst hblock) hblocks,
      hnodup ∘ hfirstNodup⟩
    rw [List.flatten_cons, List.append_assoc]

/-! ### Programs -/

/-- A path is the name of its source, with or without the ending of tree files. -/
theorem eq_sourceName_or (path : String) :
    path = sourceName path ∨ path = sourceName path ++ treeExtension := by
  unfold sourceName Text.dropSuffix
  split
  · rename_i hends
    obtain ⟨front, hfront⟩ : treeExtension.toList <:+ path.toList := by
      rw [← List.reverse_prefix]
      exact List.isPrefixOf_iff_prefix.mp hends
    have hlength : path.length - treeExtension.length = front.length := by
      rw [← String.length_toList, ← String.length_toList, ← hfront, List.length_append,
        Nat.add_sub_cancel]
    refine .inr (String.toList_injective ?_)
    rw [String.toList_append, String.toList_ofList, hlength, ← hfront, List.take_left]
  · exact .inl rfl

/-- Files with the same source name have the same name up to the ending of tree files. -/
theorem eq_of_sourceName_eq {first second : String} (h : sourceName first = sourceName second) :
    first = second ∨ first = second ++ treeExtension ∨ second = first ++ treeExtension := by
  rcases eq_sourceName_or first with hfirst | hfirst <;>
    rcases eq_sourceName_or second with hsecond | hsecond <;> rw [h] at hfirst
  · exact .inl (hfirst.trans hsecond.symm)
  · rw [← hfirst] at hsecond
    exact .inr (.inr hsecond)
  · rw [← hsecond] at hfirst
    exact .inr (.inl hfirst)
  · exact .inl (hfirst.trans hsecond.symm)

/-- A program has exactly one source of the name that a search gives to a file, and this is the source
made of the file. -/
def Program.HasOnce (files : Files Id) (program : Program) (search : Search) (place inside : String) :
    Prop :=
  ∃ source, search.Makes files place inside source ∧
    program.sources.filter (·.name = source.name) = [source]

/-- Where the entry of a project comes from: it is made of a file that is found for the project and has
the name that the manifest gives, up to the ending of tree files, or if there is none, of the file under
the path that the manifest gives. -/
inductive Manifest.EntryFrom (files : Files Id) (manifest : Manifest) (entry : Source) : Prop
  | found {place inside : String} (hfinds : manifest.ownSearch.Finds files Visible place inside)
    (hinside : inside = manifest.entry ∨ inside = manifest.entry ++ treeExtension ∨
      manifest.entry = inside ++ treeExtension)
    (hmakes : manifest.ownSearch.Makes files place inside entry)
  | named (hnone : ∀ place inside, manifest.ownSearch.Finds files Visible place inside →
      sourceName inside ≠ sourceName manifest.entry)
    (hpath : entry.path = manifest.entry)
    (hdecoded : DecodedFrom files (Path.resolve (Path.parent manifest.path) manifest.entry)
      entry.statements)

/-- A program has all sources of a project. -/
structure Program.Gathers (files : Files Id) (manifest : Manifest) (program : Program) : Prop where
  distinct : (program.sources.map (·.name)).Nodup
  dependencies : ∀ dependency ∈ manifest.dependencies, ∀ place inside,
    (manifest.dependencySearch dependency).Finds files Visible place inside →
      program.HasOnce files (manifest.dependencySearch dependency) place inside
  own : ∀ place inside, manifest.ownSearch.Finds files Visible place inside →
    (sourceName inside = sourceName manifest.entry → ∀ place' inside',
      manifest.ownSearch.Finds files Visible place' inside' → sourceName inside' = sourceName inside →
        place' = place ∧ inside' = inside) →
      program.HasOnce files manifest.ownSearch place inside
  order : ∃ (blocks : List (List Source)) (others : List Source),
    program.sources = blocks.flatten ++ others ++ [program.entry] ∧
      List.Forall₂ (fun dependency block ↦ ∀ source ∈ block, ∃ place inside,
        (manifest.dependencySearch dependency).Finds files Visible place inside ∧
          (manifest.dependencySearch dependency).Makes files place inside source)
        manifest.dependencies blocks ∧
      ∀ source ∈ others, ∃ place inside, manifest.ownSearch.Finds files Visible place inside ∧
        manifest.ownSearch.Makes files place inside source
  entryName : program.entry.name = sourceName manifest.entry
  entry : manifest.EntryFrom files program.entry

/-- How a program is put together: from what is loaded for the dependencies, what is loaded for the
project itself, and its entry. -/
structure Program.Assembled (files : Files Id) (manifest : Manifest) (program : Program)
    (blocks : List (List Source)) (own : List Source) : Prop where
  dependencies : List.Forall₂ (fun dependency block ↦
    (manifest.dependencySearch dependency).Covers files
      (Reached files Visible (manifest.dependencySearch dependency).root) block)
    manifest.dependencies blocks
  covers : manifest.ownSearch.Covers files (Reached files Visible manifest.ownSearch.root) own
  sources : program.sources =
    blocks.flatten ++ own.filter (·.name ≠ sourceName manifest.entry) ++ [program.entry]
  distinct : (program.sources.map (·.name)).Nodup
  entryName : program.entry.name = sourceName manifest.entry
  entry : program.entry ∈ own ∨ (∀ source ∈ own, source.name ≠ sourceName manifest.entry) ∧
    program.entry.path = manifest.entry ∧
    DecodedFrom files (Path.resolve (Path.parent manifest.path) manifest.entry) program.entry.statements

variable {program : Program}

/-- What is added at the end: the other sources of the project, and its entry. -/
theorem sources_of_additions {dependencies others : List Source} {entry : Source}
    {make : List Source → Program} (hmake : ∀ sources, (make sources).sources = sources)
    (hnodup : (dependencies.map (·.name)).Nodup)
    (h : Gives (do
      let sources ← liftM (addSources dependencies others)
      let sources ← liftM (addSources sources [entry])
      pure (make sources)) program) :
    program = make program.sources ∧ program.sources = dependencies ++ others ++ [entry] ∧
      (program.sources.map (·.name)).Nodup := by
  obtain ⟨former, hformer, h⟩ := h.of_bind
  obtain ⟨sources, hsources, hdone⟩ := h.of_bind
  obtain rfl := hdone.of_pure
  obtain ⟨rfl, hothers⟩ := addSources_eq_ok hformer.of_except
  obtain ⟨rfl, hentry⟩ := addSources_eq_ok hsources.of_except
  rw [hmake]
  exact ⟨rfl, rfl, hentry (hothers hnodup)⟩

theorem assembled_of_loadProject
    (hgit : ∀ dependency ∈ manifest.dependencies, dependency.2.git = "")
    (h : Gives (loadProject files manifest) program) :
    ∃ blocks own, program.Assembled files manifest blocks own := by
  unfold loadProject at h
  dsimp only at h
  obtain ⟨dependencies, hdependencies, h⟩ := h.of_bind
  obtain ⟨own, hown, h⟩ := h.of_bind
  obtain ⟨blocks, rfl, hblocks, hnodup⟩ := blocks_of_foldlM hgit hdependencies
  have hfree := hnodup List.nodup_nil
  rw [List.nil_append] at h hfree
  have hcovers : manifest.ownSearch.Covers files (Reached files Visible manifest.ownSearch.root)
      own := by
    simp only [Manifest.ownSearch]
    exact Search.covers_of_loadDirectory hown
  refine ⟨blocks, own, ?_⟩
  cases hfind : own.reverse.find? (·.name = sourceName manifest.entry) with
  | some entry =>
    rw [hfind] at h
    obtain ⟨_, hentry, h⟩ := h.of_bind
    obtain rfl := hentry.of_pure
    obtain ⟨hmade, hsources, hdistinct⟩ := sources_of_additions (fun _ ↦ rfl) hfree h
    rw [hmade]
    have hname := List.find?_some hfind
    have hmem := List.mem_reverse.mp (List.mem_of_find?_eq_some hfind)
    exact ⟨hblocks, hcovers, hsources, hdistinct, of_decide_eq_true hname, .inl hmem⟩
  | none =>
    rw [hfind] at h
    obtain ⟨entry, hentry, h⟩ := h.of_bind
    obtain ⟨hmade, hsources, hdistinct⟩ := sources_of_additions (fun _ ↦ rfl) hfree h
    obtain ⟨loaded, hloaded, hdone⟩ := hentry.of_inContext.of_bind
    obtain rfl := hdone.of_pure
    obtain ⟨statements, hread, hloaded⟩ := hloaded.of_bind
    obtain rfl := hloaded.of_pure
    rw [hmade]
    have hnone (source : Source) (hmem : source ∈ own) : source.name ≠ sourceName manifest.entry :=
      fun hsame ↦ List.find?_eq_none.mp hfind source (List.mem_reverse.mpr hmem)
        (decide_eq_true hsame)
    exact ⟨hblocks, hcovers, hsources, hdistinct, rfl,
      .inr ⟨hnone, rfl, Search.decodedFrom_of_readTree hread⟩⟩

theorem exists_of_forall₂ {α β : Type} {R : α → β → Prop} {xs : List α} {ys : List β}
    (h : List.Forall₂ R xs ys) {x : α} (hx : x ∈ xs) : ∃ y ∈ ys, R x y := by
  induction h with
  | nil => cases hx
  | @cons a b _ _ hfirst _ ih =>
    rcases List.mem_cons.mp hx with rfl | hlater
    · exact ⟨b, List.mem_cons_self, hfirst⟩
    · obtain ⟨y, hy, hrelated⟩ := ih hlater
      exact ⟨y, List.mem_cons_of_mem _ hy, hrelated⟩

/-- Sources of a project itself have no owner in their name. -/
theorem Search.Makes.name_own {place inside : String} {source : Source}
    (h : manifest.ownSearch.Makes files place inside source) : source.name = sourceName inside := by
  rw [h.name]
  exact if_pos rfl

namespace Program.Assembled

variable {blocks : List (List Source)} {own : List Source}

theorem hasOnce (h : program.Assembled files manifest blocks own) {search : Search}
    {place inside : String} {source : Source} (hmem : source ∈ program.sources)
    (hmakes : search.Makes files place inside source) : program.HasOnce files search place inside :=
  ⟨source, hmakes, filter_name_eq h.distinct hmem⟩

theorem hasOnce_dependency (h : program.Assembled files manifest blocks own)
    {dependency : String × Location} (hdependency : dependency ∈ manifest.dependencies)
    {place inside : String}
    (hfinds : (manifest.dependencySearch dependency).Finds files Visible place inside) :
    program.HasOnce files (manifest.dependencySearch dependency) place inside := by
  obtain ⟨block, hblock, hcovers⟩ := exists_of_forall₂ h.dependencies hdependency
  obtain ⟨source, hmem, hmakes⟩ := hcovers.complete place inside hfinds.reached hfinds.fits
  refine h.hasOnce ?_ hmakes
  rw [h.sources]
  exact List.mem_append_left _ (List.mem_append_left _ (List.mem_flatten.mpr ⟨block, hblock, hmem⟩))

theorem mem_entry (h : program.Assembled files manifest blocks own) :
    program.entry ∈ program.sources := by
  rw [h.sources]
  exact List.mem_append_right _ (List.mem_singleton_self _)

/-- Assumes: no other file of the project with the source name of the entry, if a file has it. -/
theorem hasOnce_own (h : program.Assembled files manifest blocks own) {place inside : String}
    (hfinds : manifest.ownSearch.Finds files Visible place inside)
    (halone : sourceName inside = sourceName manifest.entry → ∀ place' inside',
      manifest.ownSearch.Finds files Visible place' inside' → sourceName inside' = sourceName inside →
        place' = place ∧ inside' = inside) :
    program.HasOnce files manifest.ownSearch place inside := by
  obtain ⟨source, hmem, hmakes⟩ := h.covers.complete place inside hfinds.reached hfinds.fits
  by_cases hentry : source.name = sourceName manifest.entry
  · rcases h.entry with hown | ⟨hnone, -⟩
    · obtain ⟨place', inside', hreached, hfits, hmakes'⟩ := h.covers.sound program.entry hown
      have hname : sourceName inside = sourceName manifest.entry := hmakes.name_own.symm.trans hentry
      have hname' : sourceName inside' = sourceName manifest.entry :=
        hmakes'.name_own.symm.trans h.entryName
      obtain ⟨rfl, rfl⟩ := halone hname place' inside' ⟨hreached, hfits⟩ (hname'.trans hname.symm)
      exact h.hasOnce h.mem_entry hmakes'
    · exact absurd hentry (hnone source hmem)
  · refine h.hasOnce ?_ hmakes
    rw [h.sources]
    exact List.mem_append_left _ (List.mem_append_right _
      (List.mem_filter.mpr ⟨hmem, decide_eq_true hentry⟩))

theorem entryFrom (h : program.Assembled files manifest blocks own) :
    manifest.EntryFrom files program.entry := by
  rcases h.entry with hown | ⟨hnone, hpath, hdecoded⟩
  · obtain ⟨place, inside, hreached, hfits, hmakes⟩ := h.covers.sound program.entry hown
    exact .found ⟨hreached, hfits⟩
      (eq_of_sourceName_eq (hmakes.name_own.symm.trans h.entryName)) hmakes
  · refine .named (fun place inside hfinds hsame ↦ ?_) hpath hdecoded
    obtain ⟨source, hmem, hmakes⟩ := h.covers.complete place inside hfinds.reached hfinds.fits
    exact hnone source hmem (hmakes.name_own.trans hsame)

theorem gathers (h : program.Assembled files manifest blocks own) :
    program.Gathers files manifest where
  distinct := h.distinct
  dependencies _ hdependency _ _ hfinds := h.hasOnce_dependency hdependency hfinds
  own _ _ hfinds halone := h.hasOnce_own hfinds halone
  order := by
    refine ⟨blocks, _, h.sources, h.dependencies.imp fun dependency block hcovers source hmem ↦ ?_,
      fun source hmem ↦ ?_⟩
    · obtain ⟨place, inside, hreached, hfits, hmakes⟩ := hcovers.sound source hmem
      exact ⟨place, inside, ⟨hreached, hfits⟩, hmakes⟩
    · obtain ⟨place, inside, hreached, hfits, hmakes⟩ :=
        h.covers.sound source (List.mem_of_mem_filter hmem)
      exact ⟨place, inside, ⟨hreached, hfits⟩, hmakes⟩
  entryName := h.entryName
  entry := h.entryFrom

end Program.Assembled

end

/-! ### A small project -/

namespace Sample

/-- The text of a tree without statements. -/
def treeText : String := "\x7b\"type\": \"Root\", \"body\": []\x7d"

/-- A project with a file in a hidden directory, and another project beside it. The file of its entry
goes without the ending of tree files. -/
def tree : FileTree :=
  .directory [
    ("app", .directory [
      (".tools", .directory [("util.json", .file treeText)]),
      ("main", .file treeText)]),
    ("lib", .directory [("util.json", .file treeText)])]

def files : Files Id := tree.files "/"

def manifest : Manifest where
  path := "/app/menter.yml"
  name := "app"
  entry := "main.json"
  sources := ["*", "*/*.json"]
  dependencies := [("lib", { path := "../lib" })]

theorem eq_ok_of_toOption {α β : Type} {x : Except α β} {b : β} (h : x.toOption = some b) :
    x = .ok b := by
  cases x with
  | ok => exact congrArg Except.ok (Option.some.inj h)
  | error => cases h

theorem loads : ∃ program notes, (loadProject files manifest).run.run #[] = (.ok program, notes) ∧
    program.sources.map (·.path) = ["util.json", "main"] ∧ program.entry.path = "main" := by
  have hown : loadDirectory files (Path.parent manifest.path) manifest.sources "" = _ :=
    Search.loadDirectory_eq [(".tools", .directory), ("main", .file)]
      (eq_ok_of_toOption (by decide)) (eq_ok_of_toOption (by decide))
      (List.mergeSort_of_pairwise (by decide))
  have hlib : loadDependency files (Path.parent manifest.path) "lib" { path := "../lib" } = _ :=
    (loadDependency_eq rfl).trans (congrArg _ (Search.loadDirectory_eq [("util.json", .file)]
      (eq_ok_of_toOption (by decide)) (eq_ok_of_toOption (by decide))
      (List.mergeSort_singleton _)))
  have hdependencies : manifest.dependencies = [("lib", { path := "../lib" })] := rfl
  have hrun : ((loadProject files manifest).run.run #[]).1.toOption.any
      (fun program ↦ decide (program.sources.map (·.path) = ["util.json", "main"] ∧
        program.entry.path = "main")) = true := by
    rw [loadProject]
    dsimp only
    rw [hown, hdependencies, List.foldlM_cons]
    dsimp only
    rw [hlib]
    decide +kernel
  generalize (loadProject files manifest).run.run #[] = result at hrun
  obtain ⟨found, notes⟩ := result
  cases found with
  | error => cases hrun
  | ok program => exact ⟨program, notes, rfl, of_decide_eq_true hrun⟩

/-- The file beside the project is found for the dependency. -/
theorem finds_dependency : (manifest.dependencySearch ("lib", { path := "../lib" })).Finds files Visible
    "/lib/util.json" "util.json" where
  reached := by
    have hroot : (manifest.dependencySearch ("lib", { path := "../lib" })).root = "/lib" := by
      decide
    have hplace : Path.join "/lib" "util.json" = "/lib/util.json" := by decide
    rw [hroot, ← hplace]
    exact .below (eq_ok_of_toOption (by decide))
      (.file (eq_ok_of_toOption (b := [("util.json", .file)]) (by decide))
        (List.mem_singleton_self _))
  fits := by decide

/-- The file in the hidden directory is found if hidden directories are entered as well. -/
theorem finds_hidden : manifest.ownSearch.Finds files (fun _ ↦ True) "/app/.tools/util.json"
    ".tools/util.json" where
  reached := by
    have hroot : manifest.ownSearch.root = "/app" := by decide
    have hdirectory : Path.join "/app" ".tools" = "/app/.tools" := by decide
    have hplace : Path.join "/app/.tools" "util.json" = "/app/.tools/util.json" := by decide
    have hlisted : files.list "/app" = .ok [(".tools", .directory), ("main", .file)] :=
      eq_ok_of_toOption (by decide)
    have hlisted' : files.list "/app/.tools" = .ok [("util.json", .file)] :=
      eq_ok_of_toOption (by decide)
    rw [hroot, ← hplace]
    refine .below (eq_ok_of_toOption (by decide))
      (.directory hlisted List.mem_cons_self trivial ?_)
    rw [hdirectory]
    exact .file hlisted' (List.mem_singleton_self _)
  fits := by decide

end Sample

/-! ### Loading -/

end TreeScript.Project
