import Mathlib.Data.List.Count
import SymbolIndex.Proofs.Index
import SymbolIndex.Proofs.Registry.History
import SymbolIndex.Proofs.Walk

/-!
# The totals of a directory

An index counts along while it is built: the files found, those indexed and those that failed, and
the symbols of the files as they are, before they are merged. The invariant `Accounts` says what the
numbers have to do with the visits so far and with the registry and the failures next to them. A
visit keeps it (`accounts_addVisit`), so it holds at the end of a run
(`accounts_indexVisits`).

As a walk comes by no path twice, every file found is then accounted for in one way: it has exactly
one failure and no symbols, or no failure and all its symbols
(`indexDirectory_accounts_for_files`).
-/

namespace SymbolIndex.FileSystem

open Text

variable (fs : FileSystem) (settings : ExtractSettings) (root : Path)

/-- Whether a visit is one that cannot be made. -/
def isFault : Visit → Bool
  | .error _ => true
  | .ok _ => false

/-- What the numbers of an index have to do with the visits that it comes from, and with its
registry and its failures. -/
structure Accounts (visits : List Visit) (d : DirectoryIndex) : Prop where
  scanned : d.totals.scanned = (visits.filterMap Except.toOption).length
  indexed : d.totals.indexed = (visits.filterMap (fs.registered? settings)).length
  balance : d.totals.scanned = d.totals.indexed + d.totals.failed
  failures : d.failures.length = d.totals.failed + visits.countP isFault
  symbols : d.totals.symbols = d.registry.symbolCount
  /-- A failure is about the file that its error is about, or about the root. -/
  path : ∀ f ∈ d.failures, f.path = f.error.path?.getD root

variable {fs settings root}

theorem accounts_empty : fs.Accounts settings root [] .empty where
  scanned := rfl
  indexed := rfl
  balance := rfl
  failures := rfl
  symbols := rfl
  path := by
    intro f hf
    cases hf

/-! ### One visit -/

/-- The error of a file is about the file. -/
theorem path?_of_registryOf {path : Path} {e : Error} (h : fs.registryOf settings path = .error e) :
    e.path? = some path := by
  obtain ⟨cause, -, rfl⟩ | ⟨line, column, detail, rfl⟩ | ⟨key, rfl⟩ := error_of_registryOf h
  · rfl
  · rfl
  · rfl

variable {visits : List Visit} {d : DirectoryIndex}

theorem Accounts.addFault (h : fs.Accounts settings root visits d) (f : WalkFault) :
    fs.Accounts settings root (visits ++ [.error f]) (d.addFault root f) where
  scanned := by
    rw [List.filterMap_append, List.length_append]
    exact h.scanned
  indexed := by
    rw [List.filterMap_append, List.length_append]
    exact h.indexed
  balance := h.balance
  failures := by
    have hfailures := h.failures
    simp only [DirectoryIndex.addFault, List.length_append, List.length_singleton,
      List.countP_append, List.countP_singleton, isFault, if_true]
    omega
  symbols := h.symbols
  path := by
    intro failure hfailure
    rcases List.mem_append.mp hfailure with hold | hnew
    · exact h.path failure hold
    · rw [List.mem_singleton.mp hnew]

theorem Accounts.addFile (h : fs.Accounts settings root visits d) (path : Path) :
    fs.Accounts settings root (visits ++ [.ok path])
      (d.addFile path (fs.registryOf settings path)) := by
  have hscanned := h.scanned
  have hindexed := h.indexed
  have hbalance := h.balance
  have hfailures := h.failures
  cases hregistry : fs.registryOf settings path with
  | ok r =>
    have hregistered : fs.registered? settings (.ok path) = some r :=
      toOption_eq_some_iff.mpr hregistry
    refine ⟨?_, ?_, ?_, ?_, ?_, h.path⟩
    · simp [DirectoryIndex.addFile, hscanned]
      rfl
    · simp [DirectoryIndex.addFile, hindexed, hregistered]
    · simp only [DirectoryIndex.addFile]
      omega
    · simpa [DirectoryIndex.addFile, isFault] using hfailures
    · show d.totals.symbols + r.size = (d.registry.merge r).symbolCount
      rw [h.symbols, CombinedRegistry.symbolCount_merge]
  | error e =>
    have hregistered : fs.registered? settings (.ok path) = none := by
      rw [registered?, hregistry]
      rfl
    refine ⟨?_, ?_, ?_, ?_, h.symbols, fun failure hfailure => ?_⟩
    · simp [DirectoryIndex.addFile, hscanned]
      rfl
    · simp [DirectoryIndex.addFile, hindexed, hregistered]
    · simp only [DirectoryIndex.addFile]
      omega
    · simp [DirectoryIndex.addFile, isFault, hfailures]
      omega
    · rcases List.mem_append.mp hfailure with hold | hnew
      · exact h.path failure hold
      · rw [List.mem_singleton.mp hnew, path?_of_registryOf hregistry]
        rfl

/-- A visit keeps the accounts. -/
theorem accounts_addVisit (h : fs.Accounts settings root visits d) (v : Visit) :
    fs.Accounts settings root (visits ++ [v]) (fs.addVisit settings root d v).value := by
  cases v with
  | error f => exact h.addFault f
  | ok path =>
    show fs.Accounts settings root _ (d.addFile path (fs.indexFile settings path).result)
    rw [result_indexFile]
    exact h.addFile path

/-! ### A whole run -/

/-- The accounts hold at the end of a run. -/
theorem accounts_indexVisits (visits : List Visit) :
    fs.Accounts settings root visits (fs.indexVisits settings root visits).value := by
  have hrun : ∀ seen d, fs.Accounts settings root seen d →
      fs.Accounts settings root (seen ++ visits)
        (visits.foldlM (fs.addVisit settings root) d).value := by
    induction visits with
    | nil =>
      intro seen d h
      rw [List.append_nil]
      exact h
    | cons v visits ih =>
      intro seen d h
      rw [List.append_cons]
      exact ih (seen ++ [v]) _ (accounts_addVisit h v)
  exact hrun [] .empty accounts_empty

/-! ### One file in a run -/

/-- A file that does not fail on its own has no failure: the others are about other files, or about
the root. -/
theorem countP_failures_of_ok {path : Path} {r : FileRegistry} (hroot : root ≠ path)
    (hregistry : fs.registryOf settings path = .ok r) (visits : List Visit) :
    (visits.filterMap (fs.failure? settings root)).countP (·.path = path) = 0 := by
  refine List.countP_eq_zero.mpr fun failure hfailure => ?_
  obtain ⟨v, -, hv⟩ := List.mem_filterMap.mp hfailure
  rw [decide_eq_true_eq]
  rintro rfl
  cases v with
  | error f =>
    cases hv
    exact hroot rfl
  | ok path' =>
    rw [failure?] at hv
    split at hv
    · cases hv
    · rename_i e herror
      cases hv
      rw [hregistry] at herror
      cases herror

/-- A file that fails on its own has a failure each time that the walk comes by it. -/
theorem countP_failures_of_error {path : Path} {e : Error} (hroot : root ≠ path)
    (hregistry : fs.registryOf settings path = .error e) (visits : List Visit) :
    (visits.filterMap (fs.failure? settings root)).countP (·.path = path) =
      (visits.filterMap Except.toOption).count path := by
  rw [List.count, List.countP_filterMap, List.countP_filterMap]
  refine List.countP_congr fun v _ => ?_
  cases v with
  | error f => simp [failure?, hroot, Except.toOption]
  | ok path' =>
    rw [failure?]
    by_cases hpath : path' = path
    · subst hpath
      simp [hregistry, Except.toOption]
    · cases hother : fs.registryOf settings path' with
      | ok r => simp [hpath, Except.toOption]
      | error e => simp [hpath, Except.toOption]

/-- What is registered of a file that does not fail: exactly its own symbols, at their keys. -/
theorem mem_symbolsAt_of_registryOf {paths : List Path} {path : Path} {r : FileRegistry}
    (hpath : path ∈ paths) (hregistry : fs.registryOf settings path = .ok r) (k : Key)
    (s : Symbol) :
    s ∈ (CombinedRegistry.ofFiles (paths.filterMap fun path =>
        (fs.registryOf settings path).toOption)).symbolsAt k ∧ s.path = path ↔
      r.get? k = some s := by
  rw [mem_symbolsAt_registryOf_iff]
  constructor
  · rintro ⟨⟨-, r', hr', hs⟩, rfl⟩
    rw [hregistry] at hr'
    cases hr'
    exact hs
  · intro hs
    obtain rfl := path_of_registryOf hregistry hs
    exact ⟨⟨hpath, r, hregistry, hs⟩, rfl⟩

/-! ### All files of a directory -/

/-- **Every file is accounted for.** Where a directory is indexed, its totals are those of the walk:
the files found are those that are listed, and each is indexed or failed; there is a failure for
each file that failed and for each fault of the walk, about the path of its error or else about the
root; and the symbols are those of the registry. If names in the file system are proper, no file is
found twice, and each has either exactly one failure and nothing in the registry, or no failure and
exactly its own symbols in the registry. -/
theorem indexDirectory_accounts_for_files (fs : FileSystem) (settings : Settings) (root : Path)
    {d : DirectoryIndex} (h : (fs.indexDirectory settings root).result = .ok d) :
    ∃ visits paths, fs.visits settings.scan root = .ok visits ∧
      (fs.sourceFiles settings.scan root).result = .ok paths ∧
      d.totals.scanned = paths.length ∧
      d.totals.scanned = d.totals.indexed + d.totals.failed ∧
      d.failures.length = d.totals.failed + visits.countP isFault ∧
      d.totals.symbols = d.registry.symbolCount ∧
      (∀ f ∈ d.failures, f.path = f.error.path?.getD root) ∧
      (fs.WellNamed → paths.Nodup ∧ ∀ path ∈ paths,
        (d.failures.countP (·.path = path) = 1 ∧
            (∃ e, (fs.indexFile settings.extract path).result = .error e) ∧
            ∀ k, ∀ s ∈ d.registry.symbolsAt k, s.path ≠ path) ∨
          d.failures.countP (·.path = path) = 0 ∧
            ∃ r, (fs.indexFile settings.extract path).result = .ok r ∧
              ∀ k s, r.get? k = some s ↔ s ∈ d.registry.symbolsAt k ∧ s.path = path) := by
  rw [result_indexDirectory] at h
  cases hvisits : fs.visits settings.scan root with
  | error e =>
    rw [hvisits] at h
    cases h
  | ok visits =>
    rw [hvisits] at h
    cases h
    have haccounts : fs.Accounts settings.extract root visits
        (fs.indexVisits settings.extract root visits).value :=
      accounts_indexVisits visits
    refine ⟨visits, visits.filterMap Except.toOption, rfl, ?_, haccounts.scanned,
      haccounts.balance, haccounts.failures, haccounts.symbols, haccounts.path, fun hfs => ?_⟩
    · rw [result_sourceFiles, hvisits]
      rfl
    obtain ⟨hnodup, hroot⟩ := nodup_paths_of_visits hfs hvisits
    refine ⟨hnodup, fun path hpath => ?_⟩
    have hne : root ≠ path := fun heq => hroot (heq ▸ hpath)
    rw [failures_indexVisits, registry_indexVisits, result_indexFile]
    cases hregistry : fs.registryOf settings.extract path with
    | ok r =>
      exact .inr ⟨countP_failures_of_ok hne hregistry visits, r, rfl, fun k s =>
        (mem_symbolsAt_of_registryOf hpath hregistry k s).symm⟩
    | error e =>
      refine .inl ⟨?_, ⟨e, rfl⟩, ?_⟩
      · rw [countP_failures_of_error hne hregistry, List.count_eq_one_of_mem hnodup hpath]
      · rintro k s hs rfl
        obtain ⟨-, r, hr, -⟩ := (fs.mem_symbolsAt_registryOf_iff settings.extract).mp hs
        rw [hregistry] at hr
        cases hr

/-- One file is indexed, one is refused as it declares a key twice, and one link leads nowhere. -/
theorem indexDirectory_accounts_for_refused_file :
    let refused : Entry := .file (Utf8.encode "class C { m() {} m() {} }")
    let indexed : Entry := .file (Utf8.encode "class C { m() {} }")
    let fs : FileSystem := ⟨.directory [(Utf8.encode "src", .directory [
      (Utf8.encode "a.js", refused), (Utf8.encode "b.js", indexed),
      (Utf8.encode "c.js", .link "gone")])], []⟩
    let settings : Settings := ⟨.standard, ⟨true, .reject⟩⟩
    fs.WellNamed ∧ ∃ d, (fs.indexDirectory settings "/src").result = .ok d ∧
      d.totals = ⟨2, 1, 1, 1⟩ ∧ d.failures.length = 2 ∧ d.registry.symbolCount = 1 ∧
      d.failures.countP (·.path = ("/src/a.js" : Path)) = 1 ∧
      d.failures.countP (·.path = ("/src/b.js" : Path)) = 0 := by
  intro refused indexed fs settings
  have hsrc : (Entry.directory [(Utf8.encode "a.js", refused), (Utf8.encode "b.js", indexed),
      (Utf8.encode "c.js", .link "gone")]).WellNamed := by
    refine .directory (by decide +kernel) (by decide +kernel) fun e he => ?_
    simp only [List.mem_cons, List.not_mem_nil, or_false] at he
    rcases he with rfl | rfl | rfl
    · exact .file _
    · exact .file _
    · exact .link _
  have hfs : fs.WellNamed := by
    refine .directory (by decide +kernel) (by decide +kernel) fun e he => ?_
    rw [List.mem_singleton.mp he]
    exact hsrc
  have hindex : (fs.indexDirectory settings "/src").result.toOption.map (·.totals) =
      some ⟨2, 1, 1, 1⟩ := by
    decide +kernel
  obtain ⟨d, hd, htotals⟩ := Option.map_eq_some_iff.mp hindex
  have hd := toOption_eq_some_iff.mp hd
  obtain ⟨visits, paths, hvisits, hpaths, -, -, hfailures, hsymbols, -, hfiles⟩ :=
    indexDirectory_accounts_for_files fs settings "/src" hd
  have hcount : (fs.visits settings.scan "/src").toOption.map (·.countP isFault) = some 1 := by
    decide +kernel
  have hlisted : (fs.sourceFiles settings.scan "/src").result =
      .ok ["/src/a.js", "/src/b.js"] := by
    decide +kernel
  rw [hvisits] at hcount
  rw [hpaths] at hlisted
  cases hlisted
  have hfault : visits.countP isFault = 1 := Option.some.inj hcount
  rw [htotals, hfault] at hfailures
  rw [htotals] at hsymbols
  refine ⟨hfs, d, hd, htotals, hfailures, hsymbols.symm, ?_, ?_⟩
  · obtain ⟨hone, -⟩ | ⟨-, r, hr, -⟩ := (hfiles hfs).2 "/src/a.js" (by simp)
    · exact hone
    · have hrefused : (fs.indexFile settings.extract "/src/a.js").result =
          .error (.duplicateSymbol "/src/a.js" "C.m") := by
        decide +kernel
      rw [hrefused] at hr
      cases hr
  · obtain ⟨-, ⟨e, he⟩, -⟩ | ⟨hzero, -⟩ := (hfiles hfs).2 "/src/b.js" (by simp)
    · have hindexed : ((fs.indexFile settings.extract "/src/b.js").result.toOption).isSome := by
        decide +kernel
      rw [he] at hindexed
      cases hindexed
    · exact hzero

end SymbolIndex.FileSystem
