import Mathlib.Data.List.Basic
import SymbolIndex.Index
import SymbolIndex.Proofs.Log
import SymbolIndex.Proofs.Registry.Combined
import SymbolIndex.Proofs.Registry.File

/-!
# Indexing a directory is indexing its files

A directory is indexed in one run through what a walk comes by. Here the run is taken apart: each
visit adds the registry of its file or a failure, and leaves what was there before
(`registry_addVisit`, `failures_addVisit`), so the index of a directory consists of the registries
that its files have on their own (`FileSystem.registryOf`), and of the failures of the others and of
the walk itself, all in the order of the walk (`FileSystem.indexDirectory_refines_files`).

Only the root can make indexing fail, for the reasons for which listing its source files fails
(`locateDirectory_eq_error_iff`).
-/

namespace SymbolIndex

open Text

namespace FileSystem

variable (fs : FileSystem)

/-! ### One file -/

/-- What comes of a file on its own: it is read, and the registry of its text is built. -/
def registryOf (settings : ExtractSettings) (path : Path) : Except Error FileRegistry :=
  match fs.read path with
  | .error cause => .error (.io path cause)
  | .ok bytes =>
    (FileRegistry.ofSource (Utf8.decodeLossy bytes) path settings.options
      settings.collisionPolicy).result

theorem result_indexFile (settings : ExtractSettings) (path : Path) :
    (fs.indexFile settings path).result = fs.registryOf settings path := by
  rw [indexFile, registryOf]
  cases fs.read path with
  | error cause => rfl
  | ok bytes => rfl

variable {fs} {settings : ExtractSettings} {path : Path}

/-- The registry of a file is sorted. -/
theorem sorted_of_registryOf {r : FileRegistry} (h : fs.registryOf settings path = .ok r) :
    Entries.Sorted r.entries := by
  rw [registryOf] at h
  split at h
  · cases h
  · exact FileRegistry.sorted_of_ofSource h

/-- The symbols in the registry of a file belong to the file. -/
theorem path_of_registryOf {r : FileRegistry} (h : fs.registryOf settings path = .ok r) {k : Key}
    {s : Symbol} (hs : r.get? k = some s) : s.path = path := by
  rw [registryOf] at h
  split at h
  · cases h
  · exact FileRegistry.path_of_mem_ofSource h (Entries.mem_of_get?_eq_some hs)

/-- A file fails because it cannot be read, because of its text, or because of a duplicate. -/
theorem error_of_registryOf {e : Error} (h : fs.registryOf settings path = .error e) :
    (∃ cause, fs.read path = .error cause ∧ e = .io path cause) ∨
      (∃ line column detail, e = .parse path line column detail) ∨
      ∃ key, e = .duplicateSymbol path key := by
  rw [registryOf] at h
  split at h
  · rename_i cause hread
    cases h
    exact .inl ⟨cause, hread, rfl⟩
  · exact .inr (FileRegistry.error_of_ofSource h)

variable (fs) (settings)

/-! ### One visit -/

/-- The registry that a visit adds to an index. -/
def registered? : Visit → Option FileRegistry
  | .ok path => (fs.registryOf settings path).toOption
  | .error _ => none

/-- The failure that a visit adds to an index: the root stands for what cannot be visited. -/
def failure? (root : Path) : Visit → Option Failure
  | .ok path => match fs.registryOf settings path with
    | .ok _ => none
    | .error e => some ⟨path, e⟩
  | .error f => some ⟨root, f.error⟩

theorem registry_addVisit (root : Path) (d : DirectoryIndex) (v : Visit) :
    (fs.addVisit settings root d v).value.registry =
      d.registry.extend (fs.registered? settings v).toList := by
  cases v with
  | error f => rfl
  | ok path =>
    show (d.addFile path (fs.indexFile settings path).result).registry = _
    rw [result_indexFile, registered?]
    cases fs.registryOf settings path with
    | ok r => rfl
    | error e => rfl

theorem failures_addVisit (root : Path) (d : DirectoryIndex) (v : Visit) :
    (fs.addVisit settings root d v).value.failures =
      d.failures ++ (fs.failure? settings root v).toList := by
  cases v with
  | error f => rfl
  | ok path =>
    show (d.addFile path (fs.indexFile settings path).result).failures = _
    rw [result_indexFile, failure?]
    cases fs.registryOf settings path with
    | ok r => exact (List.append_nil _).symm
    | error e => rfl

/-! ### A whole run -/

/-- A run adds to an index what its visits add, in order. -/
theorem value_foldlM_addVisit (root : Path) (visits : List Visit) (d : DirectoryIndex) :
    (visits.foldlM (fs.addVisit settings root) d).value.registry =
        d.registry.extend (visits.filterMap (fs.registered? settings)) ∧
      (visits.foldlM (fs.addVisit settings root) d).value.failures =
        d.failures ++ visits.filterMap (fs.failure? settings root) := by
  simp only [List.filterMap_eq_flatMap_toList]
  induction visits generalizing d with
  | nil => exact ⟨rfl, (List.append_nil _).symm⟩
  | cons v visits ih =>
    obtain ⟨hregistry, hfailures⟩ := ih (fs.addVisit settings root d v).value
    rw [List.foldlM_cons, Logged.value_bind, hregistry, hfailures, registry_addVisit,
      failures_addVisit, List.flatMap_cons, List.flatMap_cons, CombinedRegistry.extend_append,
      List.append_assoc]
    exact ⟨rfl, rfl⟩

/-- The registry of a run is collected from the files that it comes by. -/
theorem registry_indexVisits (root : Path) (visits : List Visit) :
    (fs.indexVisits settings root visits).value.registry =
      CombinedRegistry.ofFiles ((visits.filterMap Except.toOption).filterMap fun path =>
        (fs.registryOf settings path).toOption) := by
  rw [indexVisits, (fs.value_foldlM_addVisit settings root visits .empty).1,
    List.filterMap_filterMap]
  refine congrArg (fun f => CombinedRegistry.ofFiles (visits.filterMap f)) (funext fun v => ?_)
  cases v with
  | ok path => rfl
  | error f => rfl

theorem failures_indexVisits (root : Path) (visits : List Visit) :
    (fs.indexVisits settings root visits).value.failures =
      visits.filterMap (fs.failure? settings root) :=
  (fs.value_foldlM_addVisit settings root visits .empty).2

/-- Listing the source files tells what cannot be visited and goes on. -/
theorem result_foldlM_listVisit (visits : List Visit) (paths : List Path) :
    (visits.foldlM listVisit paths).result = .ok (paths ++ visits.filterMap Except.toOption) := by
  induction visits generalizing paths with
  | nil =>
    rw [List.filterMap_nil, List.append_nil]
    rfl
  | cons v visits ih =>
    rw [List.foldlM_cons]
    cases v with
    | ok path =>
      show (pure (paths ++ [path]) >>= fun paths => visits.foldlM listVisit paths).result = _
      rw [Attempt.result_bind_of_ok (Attempt.result_pure _), ih, List.append_assoc]
      rfl
    | error f => exact (Attempt.result_bind_of_ok rfl _).trans (ih paths)

/-! ### Another file system -/

section
variable {fs} {settings} {fs' : FileSystem}

theorem indexFile_congr {path : Path} (h : fs'.read path = fs.read path) :
    fs'.indexFile settings path = fs.indexFile settings path := by
  rw [indexFile, indexFile, h]

/-- A run depends on what can be read at the paths that it comes by. -/
theorem indexVisits_congr {root : Path} {visits : List Visit}
    (h : ∀ path, .ok path ∈ visits → fs'.read path = fs.read path) :
    fs'.indexVisits settings root visits = fs.indexVisits settings root visits := by
  have hrun : ∀ d, visits.foldlM (fs'.addVisit settings root) d =
      visits.foldlM (fs.addVisit settings root) d := by
    induction visits with
    | nil => exact fun d => rfl
    | cons v visits ih =>
      intro d
      have hvisit : fs'.addVisit settings root d v = fs.addVisit settings root d v := by
        cases v with
        | error f => rfl
        | ok path => rw [addVisit, addVisit, indexFile_congr (h path List.mem_cons_self)]
      rw [List.foldlM_cons, List.foldlM_cons, hvisit]
      exact congrArg _ (funext (ih fun path hpath => h path (List.mem_cons_of_mem _ hpath)))
  exact hrun .empty

end

/-! ### The root -/

/-- A directory is located if its path leads to one; otherwise the error is about the path. -/
theorem locateDirectory_cases (root : Path) :
    (∃ cause, fs.stat root = .error cause ∧
        fs.locateDirectory root = .error (.io root cause)) ∨
      ∃ entry, fs.stat root = .ok entry ∧
        ((entry.isDirectory = true ∧ ∃ place, fs.locateDirectory root = .ok place) ∨
          entry.isDirectory = false ∧
            fs.locateDirectory root = .error (.io root .rootNotDirectory)) := by
  rw [locateDirectory, stat]
  cases fs.locate root with
  | error cause => exact .inl ⟨cause, rfl, rfl⟩
  | ok place =>
    simp only [bind, Except.bind]
    cases fs.entry? place with
    | none => exact .inl ⟨.notFound, rfl, rfl⟩
    | some entry =>
      refine .inr ⟨entry, rfl, ?_⟩
      dsimp only
      cases entry.isDirectory with
      | true => exact .inl ⟨rfl, place, rfl⟩
      | false => exact .inr ⟨rfl, rfl⟩

theorem locateDirectory_eq_error_iff {root : Path} {e : Error} :
    fs.locateDirectory root = .error e ↔
      (∃ cause, fs.stat root = .error cause ∧ e = .io root cause) ∨
        ∃ entry, fs.stat root = .ok entry ∧ entry.isDirectory = false ∧
          e = .io root .rootNotDirectory := by
  obtain ⟨cause, hstat, hroot⟩ | ⟨entry, hstat, ⟨hdir, place, hroot⟩ | ⟨hdir, hroot⟩⟩ :=
    fs.locateDirectory_cases root
  · rw [hstat, hroot]
    simp [@eq_comm _ e]
  · rw [hstat, hroot]
    simp [hdir]
  · rw [hstat, hroot]
    simp [hdir, @eq_comm _ e]

/-- A walk fails where its root cannot be located, and nowhere else. -/
theorem visits_eq_error_iff {scan : ScanSettings} {root : Path} {e : Error} :
    fs.visits scan root = .error e ↔ fs.locateDirectory root = .error e :=
  map_eq_error_iff

/-! ### Both ways through a directory -/

theorem result_sourceFiles (scan : ScanSettings) (root : Path) :
    (fs.sourceFiles scan root).result =
      (fs.visits scan root).map (List.filterMap Except.toOption) := by
  rw [sourceFiles, Attempt.result_bind, Attempt.result_ofExcept]
  cases fs.visits scan root with
  | error e => rfl
  | ok visits => exact result_foldlM_listVisit visits []

theorem result_indexDirectory (settings : Settings) (root : Path) :
    (fs.indexDirectory settings root).result =
      (fs.visits settings.scan root).map fun visits =>
        (fs.indexVisits settings.extract root visits).value := by
  rw [indexDirectory, Attempt.result_bind, Attempt.result_ofExcept]
  cases fs.visits settings.scan root with
  | error e => rfl
  | ok visits => rfl

/-- Neither way through a directory fails but for its root. -/
theorem sourceFiles_eq_error_iff {scan : ScanSettings} {root : Path} {e : Error} :
    (fs.sourceFiles scan root).result = .error e ↔ fs.visits scan root = .error e := by
  rw [result_sourceFiles, map_eq_error_iff]

theorem indexDirectory_eq_error_iff {settings : Settings} {root : Path} {e : Error} :
    (fs.indexDirectory settings root).result = .error e ↔
      fs.visits settings.scan root = .error e := by
  rw [result_indexDirectory, map_eq_error_iff]

/-- What is indexed under a key are the symbols that registered files have under it. -/
theorem mem_symbolsAt_registryOf_iff {paths : List Path} {k : Key} {s : Symbol} :
    s ∈ (CombinedRegistry.ofFiles (paths.filterMap fun path =>
        (fs.registryOf settings path).toOption)).symbolsAt k ↔
      s.path ∈ paths ∧ ∃ r, fs.registryOf settings s.path = .ok r ∧ r.get? k = some s := by
  have hsorted : ∀ r ∈ paths.filterMap fun path => (fs.registryOf settings path).toOption,
      Entries.Sorted r.entries := by
    intro r hr
    obtain ⟨path, -, hpath⟩ := List.mem_filterMap.mp hr
    exact sorted_of_registryOf (toOption_eq_some_iff.mp hpath)
  rw [CombinedRegistry.symbolsAt_ofFiles hsorted]
  constructor
  · -- Each symbol at the key is what one of the registries has there, and its path tells which.
    intro hs
    obtain ⟨r, hr, hget⟩ := List.mem_filterMap.mp hs
    obtain ⟨path, hpath, hregistry⟩ := List.mem_filterMap.mp hr
    have hregistry := toOption_eq_some_iff.mp hregistry
    have hspath := path_of_registryOf hregistry hget
    subst hspath
    exact ⟨hpath, r, hregistry, hget⟩
  · rintro ⟨hpath, r, hregistry, hget⟩
    refine List.mem_filterMap.mpr ⟨r, ?_, hget⟩
    exact List.mem_filterMap.mpr ⟨s.path, hpath, toOption_eq_some_iff.mpr hregistry⟩

/-- What is indexed under a key comes from files that are registered, the symbol of each under the
same key. -/
theorem mem_ofFiles_registryOf {paths : List Path} {k : Key} {symbols : List Symbol} {s : Symbol}
    (h : (CombinedRegistry.ofFiles (paths.filterMap fun path =>
      (fs.registryOf settings path).toOption)).get? k = some symbols)
    (hs : s ∈ symbols) :
    s.path ∈ paths ∧ ∃ r, fs.registryOf settings s.path = .ok r ∧ r.get? k = some s := by
  refine (fs.mem_symbolsAt_registryOf_iff settings).mp ?_
  rw [CombinedRegistry.symbolsAt, h]
  exact hs

/-- **Indexing a directory is indexing its files.** The index of a directory exists exactly if its
source files can be listed, which only the root can prevent. It is then collected, in the order of
the list, from the registries that the files have on their own; every other file is a failure, and
so is whatever the walk cannot visit, in the order of the walk. No symbol comes from a file that
fails. -/
theorem indexDirectory_refines_files (settings : Settings) (root : Path) :
    (∀ e, (fs.indexDirectory settings root).result = .error e ↔
      (fs.sourceFiles settings.scan root).result = .error e) ∧
    (∀ e, (fs.sourceFiles settings.scan root).result = .error e ↔
      (∃ cause, fs.stat root = .error cause ∧ e = .io root cause) ∨
        ∃ entry, fs.stat root = .ok entry ∧ entry.isDirectory = false ∧
          e = .io root .rootNotDirectory) ∧
    ∀ paths, (fs.sourceFiles settings.scan root).result = .ok paths →
      ∃ visits d, fs.visits settings.scan root = .ok visits ∧
        paths = visits.filterMap Except.toOption ∧
        (fs.indexDirectory settings root).result = .ok d ∧
        d.registry = CombinedRegistry.ofFiles (paths.filterMap fun path =>
          (fs.registryOf settings.extract path).toOption) ∧
        d.failures = visits.filterMap (fs.failure? settings.extract root) ∧
        (∀ path ∈ paths, ∀ e, fs.registryOf settings.extract path = .error e →
          (∃ cause, fs.read path = .error cause ∧ e = .io path cause) ∨
            (∃ line column detail, e = .parse path line column detail) ∨
            ∃ key, e = .duplicateSymbol path key) ∧
        ∀ k symbols, d.registry.get? k = some symbols → ∀ s ∈ symbols, s.path ∈ paths ∧
          ∃ r, fs.registryOf settings.extract s.path = .ok r ∧ r.get? k = some s := by
  refine ⟨fun e => ?_, fun e => ?_, fun paths hpaths => ?_⟩
  · rw [indexDirectory_eq_error_iff, sourceFiles_eq_error_iff]
  · rw [sourceFiles_eq_error_iff, visits_eq_error_iff, locateDirectory_eq_error_iff]
  · rw [result_sourceFiles] at hpaths
    rw [result_indexDirectory]
    cases hvisits : fs.visits settings.scan root with
    | error e =>
      rw [hvisits] at hpaths
      cases hpaths
    | ok visits =>
      rw [hvisits] at hpaths
      cases hpaths
      have hregistry := fs.registry_indexVisits settings.extract root visits
      refine ⟨visits, (fs.indexVisits settings.extract root visits).value, rfl, rfl, rfl,
        hregistry, fs.failures_indexVisits settings.extract root visits,
        fun path _ e => error_of_registryOf, fun k symbols hk s hs => ?_⟩
      rw [hregistry] at hk
      exact fs.mem_ofFiles_registryOf settings.extract hk hs

end FileSystem

end SymbolIndex
