import SymbolIndex.Proofs.FileSystem.Names

/-!
# Which files a walk lists

Without ignore files, and if links are not followed, a walk goes through the tree of the directories
below its root. `FileSystem.IsSource` says which files of that tree are source files, by the names on
the way to them. By induction on the depth, a walk lists the source files that are less deep than
that (`Station.mem_walk_iff`). No place is as deep as there are entries, so a whole walk lists all of
them (`FileSystem.sourceFiles_lists_sources`).
-/

namespace SymbolIndex

open Text

/-! ### Source files -/

/-- The names lead from a directory to a source file that a walk with these settings is to list. -/
structure FileSystem.IsSource (fs : FileSystem) (scan : ScanSettings) (place : Location)
    (names : List Name) (name : Name) : Prop where
  /-- Every name but the last is that of a directory. -/
  way : ∀ above, above <+: names → fs.HasDirectory (place ++ above)
  /-- None of these directories is to be ignored. -/
  entered : ∀ s ∈ scan.ignoreDirs, Utf8.encode s ∉ names
  file : ∃ contents, fs.entry? (place ++ names ++ [name]) = some (.file contents)
  ending : ∃ text, Utf8.decode? name = some text ∧ scan.suffix.toList <:+ text.toList
  /-- Nothing is hidden, unless hidden entries are wanted. -/
  shown : scan.includeHidden = false → ∀ n ∈ names ++ [name], n.head? ≠ some Path.dot

namespace FileSystem.IsSource

variable {fs : FileSystem} {scan : ScanSettings} {place : Location} {names : List Name}
  {n name : Name}

theorem nil_iff :
    fs.IsSource scan place [] name ↔
      (∃ contents, fs.entry? (place ++ [name]) = some (.file contents)) ∧
        (∃ text, Utf8.decode? name = some text ∧ scan.suffix.toList <:+ text.toList) ∧
        (scan.includeHidden = false → name.head? ≠ some Path.dot) := by
  constructor
  · rintro ⟨-, -, hfile, hending, hshown⟩
    rw [List.append_nil] at hfile
    exact ⟨hfile, hending, fun hidden => hshown hidden name (List.mem_singleton_self name)⟩
  · rintro ⟨hfile, hending, hshown⟩
    refine ⟨fun above habove => ?_, fun s _ => List.not_mem_nil, ?_, hending, fun hidden n hn => ?_⟩
    · obtain ⟨contents, hcontents⟩ := hfile
      rw [List.prefix_nil.mp habove, List.append_nil]
      exact hasDirectory_of_concat hcontents
    · rwa [List.append_nil]
    · rw [List.mem_singleton.mp hn]
      exact hshown hidden

/-- One directory more is on the way. -/
theorem cons_iff :
    fs.IsSource scan place (n :: names) name ↔
      (∀ s ∈ scan.ignoreDirs, Utf8.encode s ≠ n) ∧
        (scan.includeHidden = false → n.head? ≠ some Path.dot) ∧
        fs.IsSource scan (place ++ [n]) names name := by
  have hassoc : ∀ rest : List Name, place ++ n :: rest = place ++ [n] ++ rest := fun rest => by simp
  constructor
  · rintro ⟨hway, hentered, hfile, hending, hshown⟩
    have hrest : fs.IsSource scan (place ++ [n]) names name := by
      refine ⟨fun above habove => ?_, fun s hs hmem => ?_, hassoc names ▸ hfile, hending,
        fun hidden m hm => hshown hidden m (List.mem_cons_of_mem _ hm)⟩
      · rw [← hassoc]
        exact hway _ (List.cons_prefix_cons.mpr ⟨rfl, habove⟩)
      · exact hentered s hs (List.mem_cons_of_mem _ hmem)
    refine ⟨fun s hs heq => hentered s hs (heq ▸ List.mem_cons_self), fun hidden => ?_, hrest⟩
    exact hshown hidden n List.mem_cons_self
  · rintro ⟨hn, hdot, hway, hentered, hfile, hending, hshown⟩
    refine ⟨fun above habove => ?_, fun s hs hmem => ?_, hassoc names ▸ hfile, hending,
      fun hidden => List.forall_mem_cons.mpr ⟨hdot hidden, hshown hidden⟩⟩
    · -- The directory itself is above the file, too.
      rcases List.prefix_cons_iff.mp habove with rfl | ⟨inner, rfl, hinner⟩
      · obtain ⟨contents, hcontents⟩ := hfile
        rw [List.append_nil]
        rw [List.append_assoc, List.append_assoc] at hcontents
        exact hasDirectory_of_append (by simp) hcontents
      · rw [hassoc]
        exact hway inner hinner
    · rcases List.mem_cons.mp hmem with heq | hmem
      · exact hn s hs heq
      · exact hentered s hs hmem

end FileSystem.IsSource

/-! ### One directory -/

namespace Station

variable {fs : FileSystem} {scan : ScanSettings} {d : Station} {name : Name}

/-- Without ignore files only hidden entries are left out. -/
theorem isLeftOut_eq_false_iff (h : d.levels = []) (isDirectory : Bool) :
    d.isLeftOut scan name isDirectory = false ↔
      (scan.includeHidden = false → name.head? ≠ some Path.dot) := by
  have hverdict : IgnoreLevel.verdict? d.levels name isDirectory = none := by
    rw [h]
    rfl
  rw [isLeftOut, hverdict]
  simp [isHidden]

theorem isIgnoredName_eq_false_iff :
    isIgnoredName scan name = false ↔ ∀ s ∈ scan.ignoreDirs, Utf8.encode s ≠ name := by
  simp [isIgnoredName]

/-- Where links are not followed, what is a file for a walk is one. -/
theorem eq_file_of_visit {e : Entry} (hlinks : scan.followLinks = false)
    (h : d.visit fs scan name e = .ok .file) : ∃ contents, e = .file contents := by
  cases e with
  | file contents => exact ⟨contents, rfl⟩
  | directory _ | closed _ | device => cases h
  | link target =>
    rw [visit, hlinks] at h
    cases h

/-- Where links are not followed, a directory is entered at its own place. -/
theorem eq_place_of_visit {e : Entry} {place : Location} (hlinks : scan.followLinks = false)
    (h : d.visit fs scan name e = .ok (.directory place)) : place = d.place ++ [name] := by
  cases e with
  | file _ | device => cases h
  | directory _ | closed _ =>
    cases h
    rfl
  | link target =>
    rw [visit, hlinks] at h
    cases h

/-! ### A whole walk -/

/-- **A walk lists the source files** that are less deep than it goes. -/
theorem mem_walk_iff (hfs : fs.Lawful) (hignore : scan.respectGitignore = false)
    (hlinks : scan.followLinks = false) {depth : Nat} {p : Path} (hd : d.levels = []) :
    .ok p ∈ walk fs scan depth d ↔
      ∃ names name, names.length < depth ∧ p = d.path.below (names ++ [name]) ∧
        fs.IsSource scan d.place names name := by
  induction depth generalizing d with
  | zero => simp [walk]
  | succ depth ih =>
    rw [ok_mem_walk_succ_iff]
    constructor
    · rintro ⟨⟨n, e⟩, he, hp⟩
      have hn : Path.Ordinary n := ordinary_of_mem_entries hfs he
      have hentry := (mem_entries_iff hfs).mp he
      obtain ⟨hvisit, hshown, hsuffix, rfl⟩ | ⟨place, hvisit, hshown, hentered, hp⟩ :=
        ok_mem_walkEntry_iff.mp hp
      · obtain ⟨contents, rfl⟩ := eq_file_of_visit hlinks hvisit
        have hshown := (isLeftOut_eq_false_iff hd false).mp hshown
        have hending := (Path.hasSuffix_join hn scan.suffix).mp hsuffix
        exact ⟨[], n, Nat.succ_pos depth, rfl,
          FileSystem.IsSource.nil_iff.mpr ⟨⟨contents, hentry⟩, hending, hshown⟩⟩
      · obtain rfl := eq_place_of_visit hlinks hvisit
        rw [enter_of_not_ignoring hignore] at hp
        obtain ⟨names, name, hdepth, rfl, hsource⟩ := (ih rfl).mp hp
        have hshown := (isLeftOut_eq_false_iff hd true).mp hshown
        have hentered := isIgnoredName_eq_false_iff.mp hentered
        exact ⟨n :: names, name, Nat.succ_lt_succ hdepth, rfl,
          FileSystem.IsSource.cons_iff.mpr ⟨hentered, hshown, hsource⟩⟩
    · rintro ⟨names, name, hdepth, rfl, hsource⟩
      cases names with
      | nil =>
        obtain ⟨⟨contents, hentry⟩, hending, hshown⟩ := FileSystem.IsSource.nil_iff.mp hsource
        have hmem := (mem_entries_iff hfs).mpr hentry
        have hsuffix := (Path.hasSuffix_join (p := d.path) (ordinary_of_mem_entries hfs hmem)
          scan.suffix).mpr hending
        exact ⟨(name, .file contents), hmem, ok_mem_walkEntry_iff.mpr
          (.inl ⟨rfl, (isLeftOut_eq_false_iff hd false).mpr hshown, hsuffix, rfl⟩)⟩
      | cons n names =>
        obtain ⟨hentered, hshown, hsource⟩ := FileSystem.IsSource.cons_iff.mp hsource
        obtain ⟨es, hentry⟩ := hsource.way [] List.nil_prefix
        rw [List.append_nil] at hentry
        refine ⟨(n, .directory es), (mem_entries_iff hfs).mpr hentry, ok_mem_walkEntry_iff.mpr
          (.inr ⟨d.place ++ [n], rfl, (isLeftOut_eq_false_iff hd true).mpr hshown,
            isIgnoredName_eq_false_iff.mpr hentered, ?_⟩)⟩
        rw [enter_of_not_ignoring hignore]
        exact (ih rfl).mpr ⟨names, name, Nat.lt_of_succ_lt_succ hdepth, rfl, hsource⟩

end Station

namespace FileSystem

variable {fs : FileSystem} {scan : ScanSettings} {root : Path} {place : Location}

/-- A walk goes as deep as any file is. -/
theorem length_lt_walkDepth {l names : List Name} {name : Name} {e : Entry}
    (h : fs.entry? (l ++ names ++ [name]) = some e) : names.length < fs.walkDepth := by
  have hcount := Entry.length_lt_count h
  rw [List.length_append, List.length_append, List.length_singleton] at hcount
  calc names.length
    _ < fs.root.count + 1 := by omega
    _ ≤ fs.walkDepth := Nat.le_mul_of_pos_left _ (Nat.succ_pos _)

/-- **Exactly the source files are listed.** If ignore files do not count and links are not followed,
then below a root that is a directory, and that a walk does not take for the standard input, the
source files can be listed, and these are, each once, the paths that go on from the root through
real directories, none of which is to be ignored, to a regular file whose name is text with the
suffix; unless hidden entries are wanted, none of the names starts with a dot. -/
theorem sourceFiles_lists_sources (hfs : fs.Lawful) (hignore : scan.respectGitignore = false)
    (hlinks : scan.followLinks = false) (hwalked : root.isStandardInput = false)
    (hplace : fs.locate root = .ok place) (hdir : fs.DirectoryAt place) :
    ∃ paths, (fs.sourceFiles scan root).result = .ok paths ∧ paths.Nodup ∧
      ∀ p, p ∈ paths ↔
        ∃ names name, p = root.below (names ++ [name]) ∧ fs.IsSource scan place names name := by
  have hlist : (fs.visits scan root).map (List.filterMap Except.toOption) =
      .ok ((Station.walk fs scan fs.walkDepth (.ofRoot fs scan root place)).filterMap
        Except.toOption) := by
    rw [paths_visits, locateDirectory_of_directoryAt hplace hdir, hwalked]
    rfl
  refine ⟨_, (fs.result_sourceFiles scan root).trans hlist,
    Station.nodup_paths_walk hfs.wellNamed _ _, fun p => ?_⟩
  rw [Station.mem_paths_iff, Station.ofRoot_of_not_ignoring hignore,
    Station.mem_walk_iff hfs hignore hlinks rfl]
  constructor
  · rintro ⟨names, name, -, hp, hsource⟩
    exact ⟨names, name, hp, hsource⟩
  · rintro ⟨names, name, hp, hsource⟩
    obtain ⟨contents, hfile⟩ := hsource.file
    exact ⟨names, name, length_lt_walkDepth hfile, hp, hsource⟩

/-- Of five files and a link two are listed: one file is hidden, one has another ending, one is in a
directory that is to be ignored. -/
theorem sourceFiles_lists_two_of_five :
    let file : Entry := .file (.ok [])
    let fs : FileSystem := ⟨.directory [(Utf8.encode "src", .directory [
      (Utf8.encode "a.js", file), (Utf8.encode ".b.js", file), (Utf8.encode "notes.txt", file),
      (Utf8.encode "gen", .directory [(Utf8.encode "c.js", file)]),
      (Utf8.encode "d.js", .link "a.js"),
      (Utf8.encode "lib", .directory [(Utf8.encode "e.js", file)])])], []⟩
    let scan : ScanSettings := ⟨".js", ["gen"], false, false, false⟩
    let place : Location := [Utf8.encode "src"]
    fs.Lawful ∧ fs.locate "/src" = .ok place ∧ fs.DirectoryAt place ∧
      (fs.sourceFiles scan "/src").result = .ok ["/src/a.js", "/src/lib/e.js"] ∧
      (∃ names name, "/src/lib/e.js" = ("/src" : Path).below (names ++ [name]) ∧
        fs.IsSource scan place names name) ∧
      ¬fs.IsSource scan place [] (Utf8.encode ".b.js") ∧
      ¬fs.IsSource scan place [Utf8.encode "gen"] (Utf8.encode "c.js") := by
  intro file fs scan place
  have hfs : fs.Lawful := by decide +kernel
  have hplace : fs.locate "/src" = .ok place := by decide +kernel
  have hdir : fs.DirectoryAt place := ⟨_, rfl, rfl⟩
  have hlist : (fs.sourceFiles scan "/src").result = .ok ["/src/a.js", "/src/lib/e.js"] := by
    decide +kernel
  have hignore : scan.respectGitignore = false := rfl
  have hlinks : scan.followLinks = false := rfl
  have hwalked : Path.isStandardInput "/src" = false := by decide +kernel
  obtain ⟨paths, hpaths, -, hmem⟩ :=
    sourceFiles_lists_sources hfs hignore hlinks hwalked hplace hdir
  rw [hlist] at hpaths
  cases hpaths
  refine ⟨hfs, hplace, hdir, hlist, (hmem _).mp (by decide), fun hhidden => ?_, fun hgen => ?_⟩
  · have hno := (hmem _).mpr ⟨_, _, rfl, hhidden⟩
    revert hno
    decide +kernel
  · have hno := (hmem _).mpr ⟨_, _, rfl, hgen⟩
    revert hno
    decide +kernel

end FileSystem

end SymbolIndex
