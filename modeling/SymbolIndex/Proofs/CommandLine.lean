import SymbolIndex.CommandLine.Outcome
import SymbolIndex.Proofs.Prune

/-!
# When a directory is indexed from the command line

As lines, the registry of a directory can always be printed, so the command fails only if its root is
no directory. As JSON it can be printed only if the paths of all its symbols are text
(`CombinedRegistry.isSome_toJson?_iff`): one directory with a name that is no text is enough to lose
the output for all files, if there is a file with a symbol below it
(`CommandLine.index_succeeds_iff`).
-/

namespace SymbolIndex

open Text

/-! ### Registries as JSON -/

theorem isSome_mapM_iff {α β : Type} {f : α → Option β} {as : List α} :
    (as.mapM f).isSome = true ↔ ∀ a ∈ as, (f a).isSome = true := by
  induction as with
  | nil => simp
  | cons a as ih =>
    rw [List.mapM_cons, List.forall_mem_cons, ← ih]
    cases f a with
    | none => simp
    | some b =>
      cases as.mapM f with
      | none => simp
      | some bs => simp

theorem Symbol.isSome_toJson?_iff (s : Symbol) :
    s.toJson?.isSome = true ↔ (Utf8.decode? s.path.bytes).isSome = true := by
  rw [toJson?]
  cases Utf8.decode? s.path.bytes with
  | none => simp
  | some path => simp

namespace CombinedRegistry

variable {c : CombinedRegistry}

theorem isSome_entryJson?_iff (k : Key) (symbols : List Symbol) :
    (entryJson? k symbols).isSome = true ↔ (symbols.mapM Symbol.toJson?).isSome = true := by
  rw [entryJson?]
  cases symbols.mapM Symbol.toJson? with
  | none => simp
  | some values => simp

theorem toJson?_eq (c : CombinedRegistry) :
    c.toJson? = (c.entries.mapM fun e => entryJson? e.1 e.2).map .object := by
  rw [toJson?]
  cases c.entries.mapM fun e => entryJson? e.1 e.2 <;> rfl

/-- A registry has a JSON form exactly if the paths of all its symbols are text. -/
theorem isSome_toJson?_iff (hsorted : Entries.Sorted c.entries) :
    c.toJson?.isSome = true ↔
      ∀ k, ∀ s ∈ c.symbolsAt k, (Utf8.decode? s.path.bytes).isSome = true := by
  have hentries : c.toJson?.isSome = true ↔
      ∀ e ∈ c.entries, ∀ s ∈ e.2, (Utf8.decode? s.path.bytes).isSome = true := by
    rw [toJson?_eq, Option.isSome_map, isSome_mapM_iff]
    refine forall₂_congr fun e _ => ?_
    rw [isSome_entryJson?_iff, isSome_mapM_iff]
    exact forall₂_congr fun s _ => s.isSome_toJson?_iff
  rw [hentries]
  constructor
  · intro h k s hs
    cases hget : c.get? k with
    | none =>
      rw [symbolsAt, hget] at hs
      cases hs
    | some symbols =>
      rw [symbolsAt, hget] at hs
      exact h (k, symbols) ((Entries.get?_eq_some_iff hsorted).mp hget) s hs
  · intro h e he s hs
    have hget : c.get? e.1 = some e.2 := (Entries.get?_eq_some_iff hsorted).mpr he
    refine h e.1 s ?_
    rw [symbolsAt, hget]
    exact hs

end CombinedRegistry

/-! ### The command -/

namespace CommandLine

variable {fs : FileSystem} {settings : Settings} {root : Path}

/-- The root can be indexed exactly if it is a directory. -/
theorem exists_indexDirectory_iff (fs : FileSystem) (settings : Settings) (root : Path) :
    (∃ d, (fs.indexDirectory settings root).result = .ok d) ↔
      ∃ entry, fs.stat root = .ok entry ∧ entry.isDirectory = true := by
  obtain ⟨cause, hstat, hroot⟩ | ⟨entry, hstat, ⟨hdir, place, hroot⟩ | ⟨hdir, hroot⟩⟩ :=
    fs.locateDirectory_cases root
  · have hvisits : fs.visits settings.scan root = .error (.io root cause) :=
      fs.visits_eq_error_iff.mpr hroot
    rw [FileSystem.result_indexDirectory, hvisits, hstat]
    simp [Except.map]
  · refine iff_of_true ?_ ⟨entry, hstat, hdir⟩
    rw [FileSystem.result_indexDirectory, FileSystem.visits, hroot]
    exact ⟨_, rfl⟩
  · have hvisits : fs.visits settings.scan root = .error (.io root .rootNotDirectory) :=
      fs.visits_eq_error_iff.mpr hroot
    rw [FileSystem.result_indexDirectory, hvisits, hstat]
    simp [Except.map, hdir]

/-- The paths of all symbols are text if those of the files with symbols are. -/
theorem isSome_toJson?_indexDirectory_iff {d : DirectoryIndex} {paths : List Path}
    (hd : (fs.indexDirectory settings root).result = .ok d)
    (hpaths : (fs.sourceFiles settings.scan root).result = .ok paths) :
    d.registry.toJson?.isSome = true ↔
      ∀ p ∈ paths, ∀ r, fs.registryOf settings.extract p = .ok r → r.entries ≠ [] →
        (Utf8.decode? p.bytes).isSome = true := by
  have hregistry := fs.registry_indexDirectory settings root
  rw [hd, hpaths] at hregistry
  have hregistry : d.registry = .ofFiles (paths.filterMap fun path =>
      (fs.registryOf settings.extract path).toOption) :=
    Except.ok.inj hregistry
  rw [hregistry, CombinedRegistry.isSome_toJson?_iff (CombinedRegistry.sorted_ofFiles _)]
  simp only [fs.mem_symbolsAt_registryOf_iff settings.extract]
  constructor
  · intro h p hp r hr hne
    -- Any symbol of the file has the path.
    obtain ⟨⟨k, s⟩, es, hentries⟩ := List.exists_cons_of_ne_nil hne
    have hs : r.get? k = some s := by
      rw [FileRegistry.get?, hentries, Entries.get?_cons_self]
    obtain rfl := FileSystem.path_of_registryOf hr hs
    exact h k s ⟨hp, r, hr, hs⟩
  · rintro h k s ⟨hp, r, hr, hs⟩
    refine h s.path hp r hr fun hnil => ?_
    rw [FileRegistry.get?, hnil] at hs
    cases hs

/-- **What can make indexing fail.** As lines, the command succeeds exactly if the root is a
directory. As JSON it does if, besides, the paths of all files that have symbols are text. -/
theorem index_succeeds_iff (fs : FileSystem) (settings : Settings) (json : Bool) (root : Path) :
    (index fs settings json root).code = 0 ↔
      (∃ entry, fs.stat root = .ok entry ∧ entry.isDirectory = true) ∧
        (json = true → ∀ paths, (fs.sourceFiles settings.scan root).result = .ok paths →
          ∀ p ∈ paths, ∀ r, fs.registryOf settings.extract p = .ok r → r.entries ≠ [] →
            (Utf8.decode? p.bytes).isSome = true) := by
  rw [← exists_indexDirectory_iff fs settings root, index]
  cases hd : (fs.indexDirectory settings root).result with
  | error e => simp
  | ok d =>
    have hlisted : ∃ paths, (fs.sourceFiles settings.scan root).result = .ok paths := by
      cases hpaths : (fs.sourceFiles settings.scan root).result with
      | ok paths => exact ⟨paths, rfl⟩
      | error e =>
        have herror := (fs.indexDirectory_eq_error_iff).mpr (fs.sourceFiles_eq_error_iff.mp hpaths)
        rw [hd] at herror
        cases herror
    obtain ⟨paths, hpaths⟩ := hlisted
    have hjson := isSome_toJson?_indexDirectory_iff hd hpaths
    simp only [hpaths, Except.ok.injEq, forall_eq', exists_eq', true_and]
    rw [← hjson]
    cases json with
    | false => simp [print?]
    | true =>
      cases hprint : d.registry.toJson? with
      | none => simp [print?, hprint]
      | some value => simp [print?, hprint]

/-- A directory with a name that is no text makes one of the two forms of the command fail. -/
theorem not_index_succeeds_as_json :
    let fs : FileSystem := ⟨.directory [(Utf8.encode "src", .directory [
      ([0xff], .directory [(Utf8.encode "a.js", .file (Utf8.encode "function f() \x7b\x7d"))]),
      (Utf8.encode "b.js", .file (Utf8.encode "function g() \x7b\x7d"))])], []⟩
    fs.isDirectory "/src" = true ∧
      (index fs Settings.standard false "/src").code = 0 ∧
      (index fs Settings.standard true "/src").code = 1 ∧
      (index fs Settings.standard true "/src").stderr =
        "Error: path contains invalid UTF-8 characters\n" := by
  decide +kernel

end CommandLine

end SymbolIndex
