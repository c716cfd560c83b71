import Mathlib.Algebra.BigOperators.Group.List.Basic
import SymbolIndex.Proofs.Depth
import SymbolIndex.Proofs.FileSystem.Reordered
import SymbolIndex.Proofs.Totals

/-!
# The order of a walk

In which order a walk comes by entries is up to the system. An index is built in that order, and it is
not the same for every order: the symbols at a key stand in it. But nothing else changes. For any two
orders of the same visits the totals are the same, the keys are the same in the same order, and the
symbols at each key and the failures are the same in some order (`DirectoryIndex.SameUpToOrder`,
`FileSystem.sameUpToOrder_of_perm`). Within one run the symbols at a key come from different files, in
the order of the run (`FileSystem.sublist_paths_symbolsAt`).

That a walk comes by the same is shown by induction on its depth: directories in another order lead to
the same visits in another order (`Station.walk_perm`).
-/

namespace SymbolIndex

open Text

/-! ### The same visits in another order -/

/-- The indices are the same but for the order of failures and of the symbols at a key. -/
structure DirectoryIndex.SameUpToOrder (d d' : DirectoryIndex) : Prop where
  totals : d'.totals = d.totals
  keys : d'.registry.keys = d.registry.keys
  symbols : ∀ k, (d'.registry.symbolsAt k).Perm (d.registry.symbolsAt k)
  failures : d'.failures.Perm d.failures

namespace CombinedRegistry

variable {c c' : CombinedRegistry}

/-- The keys of a registry are those that have symbols. -/
theorem mem_keys_iff (hc : c.Inhabited) (k : Key) : k ∈ c.keys ↔ c.symbolsAt k ≠ [] := by
  rw [keys, ← Entries.isSome_get?_iff]
  show (c.get? k).isSome ↔ _
  rw [get?_eq_of_inhabited hc]
  split_ifs with hnone
  · simp [hnone]
  · simp [hnone]

/-- Where the symbols at each key are the same in some order, the keys are the same. -/
theorem keys_eq_of_perm (hsorted : Entries.Sorted c.entries) (hsorted' : Entries.Sorted c'.entries)
    (hc : c.Inhabited) (hc' : c'.Inhabited)
    (h : ∀ k, (c'.symbolsAt k).Perm (c.symbolsAt k)) : c'.keys = c.keys := by
  have hmem : ∀ k, k ∈ c'.keys ↔ k ∈ c.keys := by
    intro k
    have hnil : c'.symbolsAt k = [] ↔ c.symbolsAt k = [] :=
      ⟨fun hk => List.Perm.eq_nil (hk ▸ (h k).symm), fun hk => List.Perm.eq_nil (hk ▸ h k)⟩
    rw [mem_keys_iff hc, mem_keys_iff hc', ne_eq, ne_eq, hnil]
  have hperm : c'.keys.Perm c.keys :=
    (List.perm_ext_iff_of_nodup (Entries.nodup_keys hsorted') (Entries.nodup_keys hsorted)).mpr hmem
  -- Keys increase, which leaves one order only.
  have hlt : c.keys.Pairwise (· < ·) := List.pairwise_map.mpr hsorted
  have hlt' : c'.keys.Pairwise (· < ·) := List.pairwise_map.mpr hsorted'
  exact hperm.eq_of_pairwise
    (fun k k' _ _ hk hk' => absurd (lt_trans hk hk') (lt_irrefl k)) hlt' hlt

end CombinedRegistry

namespace FileSystem

variable {fs fs' : FileSystem} {settings : ExtractSettings} {root : Path}
  {visits visits' : List Visit}

/-- The symbols at a key come from files in the order of the run. -/
theorem sublist_paths_symbolsAt (visits : List Visit) (k : Key) :
    (((fs.indexVisits settings root visits).value.registry.symbolsAt k).map (·.path)).Sublist
      (visits.filterMap Except.toOption) := by
  rw [registry_indexVisits, symbolsAt_ofFiles_registryOf]
  generalize visits.filterMap Except.toOption = paths
  induction paths with
  | nil => exact List.Sublist.refl _
  | cons path paths ih =>
    rw [List.filterMap_cons]
    split
    · exact ih.cons path
    · rename_i s hs
      obtain ⟨r, hr, hget⟩ := Option.bind_eq_some_iff.mp hs
      have hpath : s.path = path := path_of_registryOf (toOption_eq_some_iff.mp hr) hget
      rw [List.map_cons, hpath]
      exact ih.cons_cons path

/-- Files that are found in another order have the same totals. -/
theorem totals_of_perm (h : visits'.Perm visits) :
    (fs.indexVisits settings root visits').value.totals =
      (fs.indexVisits settings root visits).value.totals := by
  have haccounts : fs.Accounts settings root visits (fs.indexVisits settings root visits).value :=
    accounts_indexVisits visits
  have haccounts' : fs.Accounts settings root visits'
      (fs.indexVisits settings root visits').value :=
    accounts_indexVisits visits'
  have hscanned : (visits'.filterMap Except.toOption).length =
      (visits.filterMap Except.toOption).length :=
    (h.filterMap _).length_eq
  have hindexed : (visits'.filterMap (fs.registered? settings)).length =
      (visits.filterMap (fs.registered? settings)).length :=
    (h.filterMap _).length_eq
  have hsymbols : (fs.indexVisits settings root visits').value.registry.symbolCount =
      (fs.indexVisits settings root visits).value.registry.symbolCount := by
    rw [registry_indexVisits, registry_indexVisits, CombinedRegistry.symbolCount_ofFiles,
      CombinedRegistry.symbolCount_ofFiles]
    exact (((h.filterMap _).filterMap _).map _).sum_eq
  rw [← haccounts.scanned, ← haccounts'.scanned] at hscanned
  rw [← haccounts.indexed, ← haccounts'.indexed] at hindexed
  rw [← haccounts.symbols, ← haccounts'.symbols] at hsymbols
  have hbalance := haccounts.balance
  have hbalance' := haccounts'.balance
  generalize (fs.indexVisits settings root visits').value.totals = t' at *
  generalize (fs.indexVisits settings root visits).value.totals = t at *
  obtain ⟨scanned, indexed, failed, symbols⟩ := t
  obtain ⟨scanned', indexed', failed', symbols'⟩ := t'
  simp only at hscanned hindexed hsymbols hbalance hbalance'
  have hfailed : failed' = failed := by omega
  rw [hscanned, hindexed, hsymbols, hfailed]

/-- **The same visits in another order** make the same index up to order. -/
theorem sameUpToOrder_of_perm (h : visits'.Perm visits) :
    (fs.indexVisits settings root visits).value.SameUpToOrder
      (fs.indexVisits settings root visits').value := by
  have hsymbols : ∀ k,
      ((fs.indexVisits settings root visits').value.registry.symbolsAt k).Perm
        ((fs.indexVisits settings root visits).value.registry.symbolsAt k) := by
    intro k
    rw [registry_indexVisits, registry_indexVisits, symbolsAt_ofFiles_registryOf,
      symbolsAt_ofFiles_registryOf]
    exact (h.filterMap _).filterMap _
  refine ⟨totals_of_perm h, ?_, hsymbols, ?_⟩
  · refine CombinedRegistry.keys_eq_of_perm ?_ ?_ ?_ ?_ hsymbols
    · rw [registry_indexVisits]
      exact CombinedRegistry.sorted_ofFiles _
    · rw [registry_indexVisits]
      exact CombinedRegistry.sorted_ofFiles _
    · rw [registry_indexVisits]
      exact CombinedRegistry.inhabited_ofFiles _
    · rw [registry_indexVisits]
      exact CombinedRegistry.inhabited_ofFiles _
  · rw [failures_indexVisits, failures_indexVisits]
    exact h.filterMap _

end FileSystem

/-! ### Directories in another order -/

section
variable {fs fs' : FileSystem} {scan : ScanSettings} (hfs : fs.Lawful) (h : fs.Reordered fs')
include hfs h

namespace IgnoreLevel

theorem readRules_of_reordered (path : Path) : readRules fs' path = readRules fs path := by
  rw [readRules, readRules]
  obtain heq | ⟨es, es', hes, hes'⟩ := (h.agreeAt hfs path).stat_cases
  · rw [heq]
  · rw [hes, hes']

theorem ofDirectory_of_reordered (place : Location) (trail : List Name) :
    ofDirectory fs' place trail = ofDirectory fs place trail := by
  simp only [ofDirectory, readRules_of_reordered hfs h]

theorem above_of_reordered (place : Location) : above fs' place = above fs place := by
  simp only [above, ofDirectory_of_reordered hfs h]

theorem faultsAbove_of_reordered : faultsAbove fs' = faultsAbove fs := by
  funext place
  rw [faultsAbove, faultsAbove]
  refine List.flatMap_congr fun l _ => ?_
  simp only [faults, readRules_of_reordered hfs h]

end IgnoreLevel

namespace Station

/-- **A walk comes by the same in another order.** -/
theorem walk_perm (depth : Nat) (d : Station) :
    (walk fs' scan depth d).Perm (walk fs scan depth d) := by
  induction depth generalizing d with
  | zero => exact List.Perm.refl _
  | succ depth ih =>
    have hstep : ∀ name e e', (name, e) ∈ d.entries fs → e.Reordered e' →
        (d.walkEntry fs' scan (walk fs' scan depth) name e').Perm
          (d.walkEntry fs scan (walk fs scan depth) name e) := by
      intro name e e' _ hreordered
      have hvisit : d.visit fs' scan name e' = d.visit fs scan name e := by
        cases hreordered with
        | file _ | directory _ _ | closed _ | device => rfl
        | link target => rw [visit, visit, (h.agreeAt hfs (d.entryPath name)).follow]
      have henter : ∀ place, d.enter fs' scan name place = d.enter fs scan name place := by
        intro place
        rw [enter, enter, IgnoreLevel.ofDirectory_of_reordered hfs h]
      refine walkEntry_rel (R := fun visits' visits => visits'.Perm visits)
        List.Perm.refl hvisit fun place _ => ?_
      rw [henter]
      exact ih _
    rw [walk, walk, unlisted_of_alike (h.alike hfs d.place)]
    refine List.Perm.append_left _ ?_
    by_cases hplace : fs.HasDirectory d.place
    · obtain ⟨es, hes⟩ := hplace
      obtain ⟨e', he', hreordered⟩ := h.root.at? hfs hes
      cases hreordered with
      | directory names below =>
        rw [entries_eq hes] at hstep
        have hes' : fs'.entry? d.place = some _ := he'
        rw [entries_eq hes, entries_eq hes']
        cases Entry.Lawful.at? hfs hes with
        | directory hnodup _ _ =>
          exact Entry.Reordered.flatMap_perm (.directory names below) hnodup hstep
    · have hplace' : ¬fs'.HasDirectory d.place := fun hdir =>
        hplace ((h.alike hfs d.place).symm.hasDirectory hdir)
      rw [entries_of_not_hasDirectory hplace, entries_of_not_hasDirectory hplace']
      exact List.Perm.refl _

end Station

namespace FileSystem

theorem locateDirectory_of_reordered (root : Path) :
    fs'.locateDirectory root = fs.locateDirectory root := by
  have hagree := h.agreeAt hfs root
  rw [locateDirectory, locateDirectory, hagree.locate]
  cases hplace : fs.locate root with
  | error cause => rfl
  | ok place =>
    dsimp only
    obtain heq | ⟨⟨es, hes⟩, es', hes'⟩ := (hagree.alike place hplace).cases
    · rw [heq]
    · rw [hes, hes']
      rfl

/-- Both roots fail, or both walks come by the same. -/
theorem visits_of_reordered (scan : ScanSettings) (root : Path) :
    (∃ e, fs.visits scan root = .error e ∧ fs'.visits scan root = .error e) ∨
      ∃ visits visits', fs.visits scan root = .ok visits ∧ fs'.visits scan root = .ok visits' ∧
        visits'.Perm visits := by
  cases hplace : fs.locateDirectory root with
  | error e =>
    have hplace' := (locateDirectory_of_reordered hfs h root).trans hplace
    exact .inl ⟨e, (fs.visits_eq_error_iff).mpr hplace, (fs'.visits_eq_error_iff).mpr hplace'⟩
  | ok place =>
    have hplace' := (locateDirectory_of_reordered hfs h root).trans hplace
    have hroot : Station.ofRoot fs' scan root place = Station.ofRoot fs scan root place := by
      rw [Station.ofRoot, Station.ofRoot, IgnoreLevel.ofDirectory_of_reordered hfs h,
        IgnoreLevel.above_of_reordered hfs h]
    -- Both walks are compared at one depth.
    have hwalk := walk_ofRoot hfs scan root place (Nat.le_max_left fs.walkDepth fs'.walkDepth)
    have hwalk' := walk_ofRoot (h.lawful hfs) scan root place
      (Nat.le_max_right fs.walkDepth fs'.walkDepth)
    have hperm : (Station.walk fs' scan fs'.walkDepth (.ofRoot fs' scan root place)).Perm
        (Station.walk fs scan fs.walkDepth (.ofRoot fs scan root place)) := by
      rw [← hwalk, ← hwalk', hroot]
      exact Station.walk_perm hfs h _ _
    let faults := if scan.respectGitignore then IgnoreLevel.faultsAbove fs place else []
    let before : List Visit := if faults.isEmpty then [] else [.error (.badRules faults)]
    have hvisits : fs.visits scan root = .ok (if root.isStandardInput then [] else before ++
        Station.walk fs scan fs.walkDepth (.ofRoot fs scan root place)) := by
      rw [visits, hplace]
      rfl
    have hvisits' : fs'.visits scan root = .ok (if root.isStandardInput then [] else before ++
        Station.walk fs' scan fs'.walkDepth (.ofRoot fs' scan root place)) := by
      rw [visits, hplace', IgnoreLevel.faultsAbove_of_reordered hfs h]
      rfl
    refine .inr ⟨_, _, hvisits, hvisits', ?_⟩
    split_ifs
    · exact List.Perm.refl _
    · exact hperm.append_left before

/-- **The order of a walk changes nothing but order.** If a directory is indexed where entries have
another order, that fails for the same reason or comes by the same visits in another order. For any
two orders of the visits, the indices have the same totals and the same keys in the same order, and
the symbols at each key and the failures are the same in some order. Within one run the symbols at a
key come from different files, in the order in which the run lists its files. -/
theorem indexDirectory_of_reordered (settings : Settings) (root : Path) :
    (∀ e, (fs'.indexDirectory settings root).result = .error e ↔
      (fs.indexDirectory settings root).result = .error e) ∧
    ∀ visits, fs.visits settings.scan root = .ok visits →
      (fs.indexDirectory settings root).result =
        .ok (fs.indexVisits settings.extract root visits).value ∧
      (∃ visits', fs'.visits settings.scan root = .ok visits' ∧ visits'.Perm visits ∧
        (fs'.indexDirectory settings root).result =
          .ok (fs.indexVisits settings.extract root visits').value) ∧
      (∀ order order', order.Perm visits → order'.Perm visits →
        (fs.indexVisits settings.extract root order).value.SameUpToOrder
          (fs.indexVisits settings.extract root order').value) ∧
      ∀ order, order.Perm visits → ∃ paths, (order.foldlM listVisit []).result = .ok paths ∧
        ∀ k, (((fs.indexVisits settings.extract root order).value.registry.symbolsAt k).map
            (·.path)).Sublist paths ∧
          (((fs.indexVisits settings.extract root order).value.registry.symbolsAt k).map
            (·.path)).Nodup := by
  obtain ⟨e, hvisits, hvisits'⟩ | ⟨visits, visits', hvisits, hvisits', hperm⟩ :=
    visits_of_reordered hfs h settings.scan root
  · rw [result_indexDirectory, result_indexDirectory, hvisits, hvisits']
    exact ⟨fun e => Iff.rfl, nofun⟩
  · have hreads : fs'.indexVisits settings.extract root visits' =
        fs.indexVisits settings.extract root visits' :=
      indexVisits_congr fun path _ => (h.agreeAt hfs path).read
    rw [result_indexDirectory, result_indexDirectory, hvisits, hvisits']
    refine ⟨fun e => ⟨nofun, nofun⟩, fun vs hvs => ?_⟩
    cases hvs
    refine ⟨rfl, ⟨visits', rfl, hperm, ?_⟩, fun order order' ho ho' => ?_, fun order ho => ?_⟩
    · exact congrArg (fun v => Except.ok v.value) hreads
    · exact sameUpToOrder_of_perm (ho'.trans ho.symm)
    · obtain ⟨hnodup, -⟩ := nodup_paths_of_visits hfs.wellNamed hvisits
      have hpaths : (order.filterMap Except.toOption).Nodup :=
        ((ho.filterMap Except.toOption).nodup_iff).mpr hnodup
      refine ⟨_, result_foldlM_listVisit order [], fun k => ?_⟩
      have hsublist : (((fs.indexVisits settings.extract root order).value.registry.symbolsAt
          k).map (·.path)).Sublist (order.filterMap Except.toOption) :=
        sublist_paths_symbolsAt order k
      exact ⟨hsublist, hpaths.sublist hsublist⟩

end FileSystem

end

/-- Two files with a key in common and a link that leads nowhere, listed the other way round. -/
theorem FileSystem.indexDirectory_of_reordered_reverse :
    let a : Path := "/src/a.js"
    let b : Path := "/src/b.js"
    let source : Entry := .file (Utf8.encode "class C \x7b m() \x7b\x7d \x7d")
    let entries := [(Utf8.encode "a.js", source), (Utf8.encode "b.js", source),
      (Utf8.encode "c.js", .link "gone")]
    let fs : FileSystem := ⟨.directory [(Utf8.encode "src", .directory entries)], []⟩
    let fs' : FileSystem := ⟨.directory [(Utf8.encode "src", .directory entries.reverse)], []⟩
    fs.Lawful ∧ fs.Reordered fs' ∧
      ∃ d d', (fs.indexDirectory Settings.standard "/src").result = .ok d ∧
        (fs'.indexDirectory Settings.standard "/src").result = .ok d' ∧ d.SameUpToOrder d' ∧
        (d.registry.symbolsAt "C.m").map (·.path) = [a, b] ∧
        (d'.registry.symbolsAt "C.m").map (·.path) = [b, a] := by
  intro a b source entries fs fs'
  have hfs : fs.Lawful := by decide +kernel
  have hentries : (Entry.directory entries).Lawful := by decide +kernel
  have hreordered : fs.Reordered fs' := by
    refine ⟨.directory (List.Perm.refl _) fun name e e' he he' => ?_, rfl⟩
    cases List.mem_singleton.mp he
    cases List.mem_singleton.mp he'
    exact hentries.reordered_of_perm (List.reverse_perm entries)
  have hpaths : (fs.indexDirectory Settings.standard "/src").result.toOption.map
      (fun d => (d.registry.symbolsAt "C.m").map (·.path)) = some [a, b] := by
    decide +kernel
  have hpaths' : (fs'.indexDirectory Settings.standard "/src").result.toOption.map
      (fun d => (d.registry.symbolsAt "C.m").map (·.path)) = some [b, a] := by
    decide +kernel
  obtain ⟨d, hd, horder⟩ := Option.map_eq_some_iff.mp hpaths
  obtain ⟨d', hd', horder'⟩ := Option.map_eq_some_iff.mp hpaths'
  have hd := toOption_eq_some_iff.mp hd
  have hd' := toOption_eq_some_iff.mp hd'
  refine ⟨hfs, hreordered, d, d', hd, hd', ?_, horder, horder'⟩
  obtain ⟨-, hruns⟩ := indexDirectory_of_reordered hfs hreordered Settings.standard "/src"
  cases hvisits : fs.visits Settings.standard.scan "/src" with
  | error e =>
    rw [result_indexDirectory, hvisits] at hd
    cases hd
  | ok visits =>
    obtain ⟨hindex, ⟨visits', -, hperm, hindex'⟩, hsame, -⟩ := hruns visits hvisits
    rw [hd] at hindex
    rw [hd'] at hindex'
    rw [Except.ok.inj hindex, Except.ok.inj hindex']
    exact hsame visits visits' (List.Perm.refl _) hperm

end SymbolIndex
