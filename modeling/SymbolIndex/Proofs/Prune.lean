import SymbolIndex.Proofs.Index
import SymbolIndex.Proofs.Registry.History
import SymbolIndex.Proofs.Walk

/-!
# Not entering directories is leaving out their files

A walk does not enter directories whose names are to be ignored. It might as well enter them and
leave out the files below them afterwards: a path tells by which names it was reached
(`Path.between_below`), since every path of a walk goes on from the root with proper names
(`Station.below_of_mem_walk`). The invariant, by induction on the depth of the walk, is that the
paths of the walk are those of the walk that enters everything, less the ones with an ignored name
between the directory and the file (`Station.paths_walk_ignoring`).

- `FileSystem.ignoring_eq_filter`: this for a whole walk, and what it means for the index: symbols of
  the files left out disappear, and so do keys that have no others.
-/

namespace SymbolIndex

open Text

/-! ### Names on a path -/

namespace Path

/-- The names of entries that are in order: neither empty nor with a slash in them. -/
def Proper (name : Name) : Prop := name ≠ [] ∧ slash ∉ name

/-- The path that goes on with the names, one below the other. -/
def below (p : Path) (names : List Name) : Path := names.foldl (fun p name => p.join ⟨name⟩) p

/-- The names on the way from `root` to the last name of the path `p`, both excluded. -/
def between (root p : Path) : List Name := (segments (p.bytes.drop root.base.length)).dropLast

/-- Whether none of the names on the way from `root` to the last name of `p` is ignored. -/
def isKept (ignored : List String) (root p : Path) : Bool :=
  (root.between p).all fun name => !ignored.any (Utf8.encode · = name)

variable {p : Path} {name : Name} {names : List Name}

theorem segments_of_not_mem (h : slash ∉ name) : segments name = [name] := by
  induction name with
  | nil => rfl
  | cons b name ih =>
    have hb : b ≠ slash := fun heq => h (heq ▸ List.mem_cons_self)
    rw [segments, if_neg hb, ih fun hmem => h (List.mem_cons_of_mem _ hmem)]

/-- A slash ends a segment. -/
theorem segments_append_slash (h : slash ∉ name) (rest : List UInt8) :
    segments (name ++ slash :: rest) = name :: segments rest := by
  induction name with
  | nil => rw [List.nil_append, segments, if_pos rfl]
  | cons b name ih =>
    have hb : b ≠ slash := fun heq => h (heq ▸ List.mem_cons_self)
    rw [List.cons_append, segments, if_neg hb, ih fun hmem => h (List.mem_cons_of_mem _ hmem)]

/-- Names with a slash behind each but the last are its segments. -/
theorem segments_flatMap (hname : slash ∉ name) (hnames : ∀ n ∈ names, slash ∉ n) :
    segments (names.flatMap (· ++ [slash]) ++ name) = names ++ [name] := by
  induction names with
  | nil => exact segments_of_not_mem hname
  | cons n names ih =>
    rw [List.flatMap_cons, List.append_assoc, List.append_assoc, List.singleton_append,
      segments_append_slash (hnames n List.mem_cons_self),
      ih fun m hm => hnames m (List.mem_cons_of_mem _ hm), List.cons_append]

theorem bytes_below (hnames : ∀ n ∈ names, Proper n) (hname : slash ∉ name) :
    (p.below (names ++ [name])).bytes = p.base ++ (names.flatMap (· ++ [slash]) ++ name) := by
  induction names generalizing p with
  | nil => exact bytes_join hname
  | cons n names ih =>
    obtain ⟨hn, hslash⟩ := hnames n List.mem_cons_self
    show ((p.join ⟨n⟩).below (names ++ [name])).bytes = _
    rw [ih fun m hm => hnames m (List.mem_cons_of_mem _ hm), base_join hn hslash,
      List.flatMap_cons]
    simp only [List.append_assoc]

/-- A path tells the names that it was made of, as far as they are between. -/
theorem between_below (hnames : ∀ n ∈ names, Proper n) (hname : slash ∉ name) :
    p.between (p.below (names ++ [name])) = names := by
  rw [between, bytes_below hnames hname, List.drop_left,
    segments_flatMap hname fun n hn => (hnames n hn).2, List.dropLast_concat]

/-- Neither the last name nor the path it starts from matter. -/
theorem isKept_below (ignored : List String) (hnames : ∀ n ∈ names, Proper n)
    (hname : slash ∉ name) :
    p.isKept ignored (p.below (names ++ [name])) = true ↔
      ∀ s ∈ ignored, Utf8.encode s ∉ names := by
  rw [isKept, between_below hnames hname, List.all_eq_true]
  constructor
  · intro h s hs hmem
    have hnone := h _ hmem
    rw [Bool.not_eq_true', List.any_eq_false] at hnone
    exact hnone s hs (decide_eq_true rfl)
  · intro h n hn
    rw [Bool.not_eq_true', List.any_eq_false]
    intro s hs heq
    exact h s hs (of_decide_eq_true heq ▸ hn)

/-- One name more is on the way when the way starts one directory above. -/
theorem isKept_below_join (ignored : List String) {n : Name} (hn : Proper n)
    (hnames : ∀ n ∈ names, Proper n) (hname : slash ∉ name) :
    p.isKept ignored ((p.join ⟨n⟩).below (names ++ [name])) =
      (!ignored.any (Utf8.encode · = n) &&
        (p.join ⟨n⟩).isKept ignored ((p.join ⟨n⟩).below (names ++ [name]))) := by
  have hbetween : p.between (p.below (n :: names ++ [name])) = n :: names :=
    between_below (List.forall_mem_cons.mpr ⟨hn, hnames⟩) hname
  change p.between ((p.join ⟨n⟩).below (names ++ [name])) = n :: names at hbetween
  rw [isKept, isKept, hbetween, between_below hnames hname, List.all_cons]

end Path

/-! ### The same walk with other names to ignore -/

/-- The settings with other names of directories to ignore. -/
def ScanSettings.ignoring (scan : ScanSettings) (ignored : List String) : ScanSettings :=
  { scan with ignoreDirs := ignored }

/-- The settings with other names of directories to ignore. -/
def Settings.ignoring (settings : Settings) (ignored : List String) : Settings :=
  { settings with scan := settings.scan.ignoring ignored }

namespace Station

variable {fs : FileSystem} {scan : ScanSettings} {ignored ignored' : List String}

/-- The entries of a directory have proper names. -/
theorem proper_of_mem_entries (hfs : fs.WellNamed) {d : Station} {e : Name × Entry}
    (he : e ∈ d.entries fs) : Path.Proper e.1 := by
  cases wellNamed_entries hfs d with
  | directory _ hnames _ => exact hnames e he

/-- Every path of a walk goes on from the directory with proper names. -/
theorem below_of_mem_walk (hfs : fs.WellNamed) {depth : Nat} {d : Station} {p : Path}
    (h : .ok p ∈ walk fs scan depth d) :
    ∃ names name, p = d.path.below (names ++ [name]) ∧ (∀ n ∈ names, Path.Proper n) ∧
      Path.Proper name := by
  induction depth generalizing d with
  | zero => cases h
  | succ depth ih =>
    obtain ⟨⟨n, e⟩, he, hp⟩ := ok_mem_walk_succ_iff.mp h
    have hn : Path.Proper n := proper_of_mem_entries hfs he
    obtain ⟨-, -, -, heq⟩ | ⟨place, -, -, -, hp⟩ := ok_mem_walkEntry_iff.mp hp
    · exact ⟨[], n, heq, by simp, hn⟩
    · obtain ⟨names, name, rfl, hnames, hname⟩ := ih hp
      exact ⟨n :: names, name, rfl, List.forall_mem_cons.mpr ⟨hn, hnames⟩, hname⟩

/-- At one entry: what is left out at the directory of a name is left out of its paths. -/
theorem paths_walkEntry_ignoring {inside inside' : Station → List Visit} {d : Station} {n : Name}
    {e : Entry} (hn : Path.Proper n)
    (hinside : ∀ d, (inside d).filterMap Except.toOption =
      ((inside' d).filterMap Except.toOption).filter (d.path.isKept ignored))
    (hbelow : ∀ d p, .ok p ∈ inside' d → ∃ names name, p = d.path.below (names ++ [name]) ∧
      (∀ n ∈ names, Path.Proper n) ∧ Path.Proper name) :
    (d.walkEntry fs (scan.ignoring ignored) inside n e).filterMap Except.toOption =
      ((d.walkEntry fs (scan.ignoring []) inside' n e).filterMap Except.toOption).filter
        (d.path.isKept ignored) := by
  have hvisit : d.visit fs (scan.ignoring ignored) n e = d.visit fs (scan.ignoring []) n e := rfl
  rw [walkEntry, walkEntry, hvisit]
  cases d.visit fs (scan.ignoring []) n e with
  | error f => rfl
  | ok visited =>
    cases visited with
    | other => rfl
    | file =>
      have hkept : d.path.isKept ignored (d.path.below ([] ++ [n])) = true :=
        (Path.isKept_below ignored (List.forall_mem_nil _) hn.2).mpr fun s _ => List.not_mem_nil
      show (if d.isLeftOut scan n false || !(d.entryPath n).hasSuffix scan.suffix then
        ([] : List Visit) else [.ok (d.entryPath n)]).filterMap Except.toOption =
        ((if d.isLeftOut scan n false || !(d.entryPath n).hasSuffix scan.suffix then
          ([] : List Visit) else [.ok (d.entryPath n)]).filterMap Except.toOption).filter _
      split_ifs
      · rfl
      · exact (List.filter_eq_self.mpr fun p hp => List.mem_singleton.mp hp ▸ hkept).symm
    | directory place =>
      show (if d.isLeftOut scan n true || ignored.any (Utf8.encode · = n) then
        ([] : List Visit) else inside (d.enter fs scan n place)).filterMap Except.toOption =
        ((if d.isLeftOut scan n true || false then
          ([] : List Visit) else inside' (d.enter fs scan n place)).filterMap
            Except.toOption).filter _
      rw [Bool.or_false]
      cases d.isLeftOut scan n true with
      | true => rfl
      | false =>
        rw [Bool.false_or, if_neg Bool.false_ne_true]
        -- The name of the directory is on the way to everything inside it.
        have hway : ∀ p ∈ (inside' (d.enter fs scan n place)).filterMap Except.toOption,
            d.path.isKept ignored p = (!ignored.any (Utf8.encode · = n) &&
              (d.enter fs scan n place).path.isKept ignored p) := by
          intro p hp
          obtain ⟨names, name, rfl, hnames, hname⟩ := hbelow _ p (mem_paths_iff.mp hp)
          exact Path.isKept_below_join ignored hn hnames hname.2
        rw [List.filter_congr hway]
        cases ignored.any (Utf8.encode · = n) with
        | true => simp
        | false => simpa using hinside (d.enter fs scan n place)

/-- **Not entering is leaving out.** -/
theorem paths_walk_ignoring (hfs : fs.WellNamed) (depth : Nat) (d : Station) :
    (walk fs (scan.ignoring ignored) depth d).filterMap Except.toOption =
      ((walk fs (scan.ignoring []) depth d).filterMap Except.toOption).filter
        (d.path.isKept ignored) := by
  induction depth generalizing d with
  | zero => rfl
  | succ depth ih =>
    rw [paths_walk_succ, paths_walk_succ, List.filter_flatMap]
    refine List.flatMap_congr fun e he => ?_
    exact paths_walkEntry_ignoring (proper_of_mem_entries hfs he) ih
      fun _ _ => below_of_mem_walk hfs

/-- The names to ignore count as a set. -/
theorem walk_ignoring_congr (h : ∀ name, name ∈ ignored' ↔ name ∈ ignored) (depth : Nat) :
    walk fs (scan.ignoring ignored') depth = walk fs (scan.ignoring ignored) depth := by
  have hignored : isIgnoredName (scan.ignoring ignored') =
      isIgnoredName (scan.ignoring ignored) := by
    funext n
    rw [Bool.eq_iff_iff, isIgnoredName, isIgnoredName, List.any_eq_true, List.any_eq_true]
    exact exists_congr fun name => and_congr_left fun _ => h name
  induction depth with
  | zero => rfl
  | succ depth ih =>
    funext d
    rw [walk, walk]
    refine congrArg (d.unlisted fs ++ ·) (List.flatMap_congr fun e _ => ?_)
    show walkEntry fs (scan.ignoring ignored') _ d e.1 e.2 = walkEntry fs _ _ d e.1 e.2
    rw [walkEntry, walkEntry, hignored, ih]
    rfl

end Station

/-! ### What is left of a registry -/

namespace Entries

variable {α β : Type}

/-- The entries with their values replaced, without those that are left with no value. -/
def filterMapValues (f : α → Option β) (es : List (String × α)) : List (String × β) :=
  es.filterMap fun e => (f e.2).map (e.1, ·)

variable {f : α → Option β} {es : List (String × α)}

theorem mem_filterMapValues {e : String × β} (he : e ∈ filterMapValues f es) :
    ∃ v, (e.1, v) ∈ es ∧ f v = some e.2 := by
  obtain ⟨⟨k, v⟩, hv, hsome⟩ := List.mem_filterMap.mp he
  obtain ⟨w, hw, rfl⟩ := Option.map_eq_some_iff.mp hsome
  exact ⟨v, hv, hw⟩

theorem sorted_filterMapValues (hs : Sorted es) : Sorted (filterMapValues f es) := by
  refine List.Pairwise.filterMap _ (fun e e' hlt w hw w' hw' => ?_) hs
  obtain ⟨_, -, rfl⟩ := Option.map_eq_some_iff.mp hw
  obtain ⟨_, -, rfl⟩ := Option.map_eq_some_iff.mp hw'
  exact hlt

theorem get?_filterMapValues (hs : Sorted es) (k : String) :
    get? k (filterMapValues f es) = (get? k es).bind f := by
  induction es with
  | nil => rfl
  | cons e es ih =>
    obtain ⟨k', v⟩ := e
    obtain ⟨hlt, hs⟩ := sorted_cons.mp hs
    have hcons : filterMapValues f ((k', v) :: es) =
        ((f v).map (k', ·)).toList ++ filterMapValues f es := by
      rw [filterMapValues, List.filterMap_cons]
      cases f v <;> rfl
    rw [hcons]
    by_cases hk : k = k'
    · subst hk
      rw [get?_cons_self, Option.bind_some]
      cases hv : f v with
      | some w => exact get?_cons_self k w _
      | none =>
        -- The key does not come again.
        refine get?_eq_none_of_forall_lt fun e he => ?_
        obtain ⟨v', hv', -⟩ := mem_filterMapValues he
        exact hlt _ hv'
    · rw [get?_cons_of_ne hk, ← ih hs]
      cases f v with
      | some w => exact get?_cons_of_ne hk w _
      | none => rfl

end Entries

namespace CombinedRegistry

/-- The registry of the symbols whose files are kept, without keys that have none of them. -/
def restrict (keep : Path → Bool) (c : CombinedRegistry) : CombinedRegistry :=
  ⟨Entries.filterMapValues (fun symbols =>
    let kept := symbols.filter (keep ·.path)
    if kept = [] then none else some kept) c.entries⟩

variable {c c' : CombinedRegistry}

theorem get?_restrict (h : Entries.Sorted c.entries) (keep : Path → Bool) (k : Key) :
    (c.restrict keep).get? k =
      if (c.symbolsAt k).filter (keep ·.path) = [] then none
      else some ((c.symbolsAt k).filter (keep ·.path)) := by
  rw [get?, restrict, Entries.get?_filterMapValues h, symbolsAt, get?]
  cases Entries.get? k c.entries <;> rfl

end CombinedRegistry

namespace FileSystem

variable {fs : FileSystem} {settings : ExtractSettings}

/-- The symbols at a key come file by file. -/
theorem symbolsAt_ofFiles_registryOf (paths : List Path) (k : Key) :
    (CombinedRegistry.ofFiles (paths.filterMap fun path =>
        (fs.registryOf settings path).toOption)).symbolsAt k =
      paths.filterMap fun path => (fs.registryOf settings path).toOption.bind (·.get? k) := by
  rw [CombinedRegistry.symbolsAt_ofFiles, List.filterMap_filterMap]
  intro r hr
  obtain ⟨path, -, hpath⟩ := List.mem_filterMap.mp hr
  exact sorted_of_registryOf (toOption_eq_some_iff.mp hpath)

/-- Collecting the registries of the files that are kept gives what is left of the registry of all
files. -/
theorem ofFiles_filter (keep : Path → Bool) (paths : List Path) :
    CombinedRegistry.ofFiles ((paths.filter keep).filterMap fun path =>
        (fs.registryOf settings path).toOption) =
      (CombinedRegistry.ofFiles (paths.filterMap fun path =>
        (fs.registryOf settings path).toOption)).restrict keep := by
  have hsorted := CombinedRegistry.sorted_ofFiles (paths.filterMap fun path =>
    (fs.registryOf settings path).toOption)
  -- A symbol belongs to the file that it comes from, so it is kept along with the file.
  have hfile : ∀ (path : Path) (k : Key),
      (if keep path then (fs.registryOf settings path).toOption.bind (·.get? k) else none) =
        ((fs.registryOf settings path).toOption.bind (·.get? k)).filter (keep ·.path) := by
    intro path k
    cases hs : (fs.registryOf settings path).toOption.bind (·.get? k) with
    | none => simp
    | some s =>
      obtain ⟨r, hr, hget⟩ := Option.bind_eq_some_iff.mp hs
      rw [Option.filter_some, path_of_registryOf (toOption_eq_some_iff.mp hr) hget]
  refine congrArg CombinedRegistry.mk (Entries.eq_of_get?_eq
    (CombinedRegistry.sorted_ofFiles _) (Entries.sorted_filterMapValues hsorted) fun k => ?_)
  have hinhabited := CombinedRegistry.inhabited_ofFiles ((paths.filter keep).filterMap fun path =>
    (fs.registryOf settings path).toOption)
  refine (CombinedRegistry.get?_eq_of_inhabited hinhabited k).trans
    (Eq.trans ?_ (CombinedRegistry.get?_restrict hsorted keep k).symm)
  rw [symbolsAt_ofFiles_registryOf, symbolsAt_ofFiles_registryOf, List.filterMap_filter,
    List.filter_filterMap, funext (hfile · k)]

/-! ### Whole directories -/

/-- The registry of a directory is collected from its source files. -/
theorem registry_indexDirectory (fs : FileSystem) (settings : Settings) (root : Path) :
    (fs.indexDirectory settings root).result.map (·.registry) =
      (fs.sourceFiles settings.scan root).result.map fun paths =>
        CombinedRegistry.ofFiles (paths.filterMap fun path =>
          (fs.registryOf settings.extract path).toOption) := by
  rw [result_indexDirectory, result_sourceFiles]
  cases fs.visits settings.scan root with
  | error e => rfl
  | ok visits => exact congrArg Except.ok (fs.registry_indexVisits settings.extract root visits)

/-- The source files that are left are those without an ignored name on the way. -/
theorem result_sourceFiles_ignoring (hfs : fs.WellNamed) (scan : ScanSettings) (root : Path)
    (ignored : List String) :
    (fs.sourceFiles (scan.ignoring ignored) root).result =
      (fs.sourceFiles (scan.ignoring []) root).result.map
        (List.filter (root.isKept ignored)) := by
  rw [result_sourceFiles, result_sourceFiles, paths_visits, paths_visits]
  cases fs.locateDirectory root with
  | error e => rfl
  | ok place =>
    refine congrArg Except.ok ?_
    dsimp only
    split_ifs
    · rfl
    · exact Station.paths_walk_ignoring hfs fs.walkDepth (.ofRoot fs scan root place)

theorem below_of_mem_sourceFiles (hfs : fs.WellNamed) {scan : ScanSettings} {root : Path}
    {paths : List Path} (h : (fs.sourceFiles scan root).result = .ok paths) {p : Path}
    (hp : p ∈ paths) :
    ∃ names name, p = root.below (names ++ [name]) ∧ (∀ n ∈ names, Path.Proper n) ∧
      Path.Proper name := by
  rw [result_sourceFiles, paths_visits] at h
  cases hplace : fs.locateDirectory root with
  | error e =>
    rw [hplace] at h
    cases h
  | ok place =>
    rw [hplace] at h
    obtain rfl := Except.ok.inj h
    split_ifs at hp
    · cases hp
    · exact Station.below_of_mem_walk hfs (Station.mem_paths_iff.mp hp)

theorem visits_ignoring_congr (fs : FileSystem) (scan : ScanSettings) (root : Path)
    {ignored ignored' : List String} (h : ∀ name, name ∈ ignored' ↔ name ∈ ignored) :
    fs.visits (scan.ignoring ignored') root = fs.visits (scan.ignoring ignored) root := by
  rw [visits, visits, Station.walk_ignoring_congr h]
  rfl

/-- **Ignoring directories is leaving out files.** Where directories of some names are ignored, the
source files are those listed without that, in the same order, except for the ones that have one of
the names strictly between the root and their own name. So the names count as a set, and neither the
name of the root nor that of a file matters. The registry is what is left of the one without ignored
names when only the symbols of these files are kept, and no key without symbols. -/
theorem ignoring_eq_filter (hfs : fs.WellNamed) (settings : Settings) (root : Path)
    (ignored : List String) :
    (fs.sourceFiles (settings.scan.ignoring ignored) root).result =
        (fs.sourceFiles (settings.scan.ignoring []) root).result.map
          (List.filter (root.isKept ignored)) ∧
      (∀ paths, (fs.sourceFiles (settings.scan.ignoring []) root).result = .ok paths →
        ∀ p ∈ paths, ∃ names name, p = root.below (names ++ [name]) ∧
          (∀ n ∈ names ++ [name], Path.Proper n) ∧
          (root.isKept ignored p = true ↔ ∀ s ∈ ignored, Utf8.encode s ∉ names)) ∧
      (∀ ignored', (∀ name, name ∈ ignored' ↔ name ∈ ignored) →
        fs.sourceFiles (settings.scan.ignoring ignored') root =
            fs.sourceFiles (settings.scan.ignoring ignored) root ∧
          fs.indexDirectory (settings.ignoring ignored') root =
            fs.indexDirectory (settings.ignoring ignored) root) ∧
      (fs.indexDirectory (settings.ignoring ignored) root).result.map (·.registry) =
        (fs.indexDirectory (settings.ignoring []) root).result.map
          (·.registry.restrict (root.isKept ignored)) := by
  have hlist := result_sourceFiles_ignoring hfs settings.scan root ignored
  refine ⟨hlist, fun paths hpaths p hp => ?_, fun ignored' h => ⟨?_, ?_⟩, ?_⟩
  · obtain ⟨names, name, rfl, hnames, hname⟩ := below_of_mem_sourceFiles hfs hpaths hp
    refine ⟨names, name, rfl, ?_, Path.isKept_below ignored hnames hname.2⟩
    intro n hn
    rcases List.mem_append.mp hn with hn | hn
    · exact hnames n hn
    · exact List.mem_singleton.mp hn ▸ hname
  · rw [sourceFiles, sourceFiles, visits_ignoring_congr fs settings.scan root h]
  · rw [indexDirectory, indexDirectory, Settings.ignoring, Settings.ignoring,
      visits_ignoring_congr fs settings.scan root h]
  · have hmap : ∀ r : Except Error DirectoryIndex,
        r.map (·.registry.restrict (root.isKept ignored)) =
          (r.map (·.registry)).map (CombinedRegistry.restrict (root.isKept ignored)) := by
      intro r
      cases r <;> rfl
    rw [hmap, registry_indexDirectory, registry_indexDirectory]
    show (fs.sourceFiles (settings.scan.ignoring ignored) root).result.map _ =
      ((fs.sourceFiles (settings.scan.ignoring []) root).result.map _).map _
    rw [hlist]
    cases (fs.sourceFiles (settings.scan.ignoring []) root).result with
    | error e => rfl
    | ok paths => exact congrArg Except.ok (ofFiles_filter _ paths)

/-- A directory that is ignored at two places. The root and a file have ignored names as well, which
does not matter. -/
theorem ignoring_eq_filter_of_nested :
    let source (owner : String) : Entry :=
      .file (Utf8.encode ("class " ++ owner ++ "\x7bm()\x7b\x7d\x7d"))
    let fs : FileSystem := ⟨.directory [(Utf8.encode "src", .directory [
      (Utf8.encode "lib.js", source "A"),
      (Utf8.encode "gen", .directory [(Utf8.encode "b.js", source "B")]),
      (Utf8.encode "lib", .directory [
        (Utf8.encode "gen", .directory [(Utf8.encode "c.js", source "C")]),
        (Utf8.encode "d.js", source "A")])])], []⟩
    let ignored := ["src", "gen", "lib.js"]
    fs.WellNamed ∧
      (fs.sourceFiles (ScanSettings.standard.ignoring []) "/src").result =
        .ok ["/src/lib.js", "/src/gen/b.js", "/src/lib/gen/c.js", "/src/lib/d.js"] ∧
      (fs.sourceFiles (ScanSettings.standard.ignoring ignored) "/src").result =
        .ok ["/src/lib.js", "/src/lib/d.js"] ∧
      (fs.indexDirectory (Settings.standard.ignoring ignored) "/src").result.map (·.registry) =
        .ok ⟨[("A.m", [⟨"m", some "A", false, none, "/src/lib.js"⟩,
          ⟨"m", some "A", false, none, "/src/lib/d.js"⟩])]⟩ := by
  intro source fs ignored
  have single {name : Name} {e : Entry} (hname : name ≠ [] ∧ Path.slash ∉ name)
      (he : e.WellNamed) : (Entry.directory [(name, e)]).WellNamed := by
    refine .directory (List.nodup_singleton _) ?_ ?_
    · exact List.forall_mem_singleton.mpr hname
    · exact List.forall_mem_singleton.mpr he
  have hlib : (Entry.directory [(Utf8.encode "gen", .directory [(Utf8.encode "c.js", source "C")]),
      (Utf8.encode "d.js", source "A")]).WellNamed := by
    refine .directory (by decide +kernel) (by decide +kernel) fun e he => ?_
    simp only [List.mem_cons, List.not_mem_nil, or_false] at he
    rcases he with rfl | rfl
    · exact single (by decide +kernel) (.file _)
    · exact .file _
  have hfs : fs.WellNamed := by
    refine single (by decide +kernel) (.directory (by decide +kernel) (by decide +kernel) ?_)
    intro e he
    simp only [List.mem_cons, List.not_mem_nil, or_false] at he
    rcases he with rfl | rfl | rfl
    · exact .file _
    · exact single (by decide +kernel) (.file _)
    · exact hlib
  have hall : (fs.sourceFiles (ScanSettings.standard.ignoring []) "/src").result =
      .ok ["/src/lib.js", "/src/gen/b.js", "/src/lib/gen/c.js", "/src/lib/d.js"] := by
    decide +kernel
  obtain ⟨hlist, -, -, hregistry⟩ := ignoring_eq_filter hfs Settings.standard "/src" ignored
  refine ⟨hfs, hall, ?_, ?_⟩
  · refine hlist.trans ?_
    rw [show Settings.standard.scan = ScanSettings.standard from rfl, hall]
    decide +kernel
  · rw [hregistry]
    decide +kernel

end FileSystem

end SymbolIndex
