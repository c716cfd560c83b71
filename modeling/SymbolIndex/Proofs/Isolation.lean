import SymbolIndex.Proofs.Depth
import SymbolIndex.Proofs.FileSystem.Without

/-!
# Files do not influence each other

What a file does to an index is its own affair. Two file systems are compared that become the same
when some files are taken out of each; what is said of other files in the two indices is then the
same (`FileSystem.indexDirectory_isolated`). Ignore files must not count, and no link may have to do
with the files that are taken out.

Each file system is compared with the one that is left. The invariant is `Station.Apart`: the path of
a directory leads there, and the files to be taken out below it are those that were asked for, by the
paths that go on from it. A directory that a link leads to has no such files below it. By induction on
the depth, a walk comes by the same with the files and without them, but for the files themselves
(`Station.filter_walk_without`), and the other files that it comes by are read alike
(`Station.read_of_mem_walk`).

That no link leads to the files, or to a directory above them, is not enough: a link whose target
goes on behind a file fails in another way if the file is missing (`FileSystem.not_isolated_from_link`).
-/

namespace SymbolIndex

open Text

namespace FileSystem

/-- Whether a path below the root is asked for; `l` is a place below that of the root. -/
def isAskedFor (P : Path → Bool) (root : Path) (place l : Location) : Bool :=
  place.isPrefixOf l && decide (place.length < l.length) && P (root.below (l.drop place.length))

/-- No link leads to a file that is gone or to a directory above one, and none is on the way of a
link. -/
structure OffLinks (fs : FileSystem) (gone : Location → Bool) : Prop where
  linked : ∀ l contents, fs.entry? l = some (.file contents) → gone l = true → ¬fs.IsLinkedTo l
  crossed : ∀ l contents, fs.entry? l = some (.file contents) → gone l = true → ¬fs.IsOnLink l

end FileSystem

/-- Whether a visit is no source file that is asked for. -/
def isElsewhere (P : Path → Bool) : Visit → Bool
  | .ok p => !P p
  | .error _ => true

/-! ### Directories on a walk -/

namespace Station

/-- The path of the directory leads to it, there are no ignore files, and what is gone below it has
been asked for. -/
structure Apart (fs : FileSystem) (gone : Location → Bool) (P : Path → Bool) (d : Station) :
    Prop where
  located : fs.locate d.path = .ok d.place
  directory : fs.DirectoryAt d.place
  levels : d.levels = []
  asked : ∀ names contents, fs.entry? (d.place ++ names) = some (.file contents) →
    gone (d.place ++ names) = true → P (d.path.below names) = true

variable {fs : FileSystem} {scan : ScanSettings} {gone : Location → Bool} {P : Path → Bool}
  {d : Station} {name : Name} {e e' : Entry} {place : Location}

/-- What holds of a directory and carries over to those that are entered from it holds wherever a
walk comes by a file. -/
theorem exists_station_of_mem_walk {I : Station → Prop}
    (henter : ∀ d name e place, I d → (name, e) ∈ d.entries fs →
      d.visit fs scan name e = .ok (.directory place) → I (d.enter fs scan name place))
    (hd : I d) {depth : Nat} {p : Path} (hp : .ok p ∈ walk fs scan depth d) :
    ∃ d name e, I d ∧ (name, e) ∈ d.entries fs ∧ p = d.entryPath name ∧
      p.hasSuffix scan.suffix = true := by
  induction depth generalizing d with
  | zero => cases hp
  | succ depth ih =>
    obtain ⟨⟨name, e⟩, he, hp⟩ := ok_mem_walk_succ_iff.mp hp
    obtain ⟨-, -, hsuffix, rfl⟩ | ⟨place, hvisit, -, -, hp⟩ := ok_mem_walkEntry_iff.mp hp
    · exact ⟨d, name, e, hd, he, rfl, hsuffix⟩
    · exact ih (henter d name e place hd he hvisit) hp

/-- The path of an entry that is left leads to the same. -/
theorem Apart.agreeAt_without (hfs : fs.Lawful) (hroot : gone [] = false)
    (hlinks : fs.OffLinks gone) (h : d.Apart fs gone P) (he : (name, e) ∈ d.entries fs)
    (hleft : e.without? gone (d.place ++ [name]) = some e') :
    fs.AgreeAt (fs.without gone) (d.entryPath name) := by
  have hentry := (mem_entries_iff hfs).mp he
  exact FileSystem.agreeAt_without hfs hroot hlinks.crossed h.located
    (FileSystem.hasDirectory_of_concat hentry) (ordinary_of_mem_entries hfs he) hentry hleft

/-- What is left is for a walk what it was. -/
theorem Apart.visit_without (hfs : fs.Lawful) (hroot : gone [] = false)
    (hlinks : fs.OffLinks gone) (h : d.Apart fs gone P) (he : (name, e) ∈ d.entries fs)
    (hleft : e.without? gone (d.place ++ [name]) = some e') :
    d.visit (fs.without gone) scan name e' = d.visit fs scan name e := by
  have hagree := h.agreeAt_without hfs hroot hlinks he hleft
  have hbare := Entry.bare_of_without? hleft
  cases e with
  | file contents =>
    cases e' with
    | file contents' => rfl
    | directory _ | link _ | closed _ | device => cases hbare
  | directory _ | closed _ | device =>
    cases hleft
    rfl
  | link target =>
    cases hleft
    rw [visit, visit, hagree.follow]

section
variable (hfs : fs.Lawful) (hignore : scan.respectGitignore = false)
include hfs hignore

/-- The directories that a walk enters are apart like the one it comes from. -/
theorem Apart.enter (hlinks : fs.OffLinks gone) (h : d.Apart fs gone P)
    (he : (name, e) ∈ d.entries fs) (hvisit : d.visit fs scan name e = .ok (.directory place)) :
    (d.enter fs scan name place).Apart fs gone P := by
  have hname := ordinary_of_mem_entries hfs he
  have hentry := (mem_entries_iff hfs).mp he
  rw [enter_of_not_ignoring hignore]
  obtain ⟨hdir, rfl⟩ | ⟨target, rfl, hfollow⟩ := visit_eq_directory hvisit
  · have hresolve := FileSystem.resolve_join_of_notLink h.located hname hentry
      fun target heq => by
        subst heq
        cases hdir
    refine ⟨FileSystem.locate_of_resolve hresolve, ⟨e, hentry, hdir⟩, rfl, ?_⟩
    intro names contents hfile hgone
    have hassoc : d.place ++ [name] ++ names = d.place ++ name :: names := by simp
    change fs.entry? (d.place ++ [name] ++ names) = _ at hfile
    change gone (d.place ++ [name] ++ names) = true at hgone
    rw [hassoc] at hfile hgone
    exact h.asked (name :: names) contents hfile hgone
  · obtain ⟨hlocate, hdir, -⟩ := follow_eq_directory hfollow
    refine ⟨hlocate, hdir.directoryAt, rfl, fun names contents hfile hgone => ?_⟩
    -- Whatever is below the directory is reached through the link.
    have hcomes : fs.Comes d.place [.into name] place [] := FileSystem.comes_of_locate_join
      h.located hname hlocate
    exact absurd ⟨d.place, name, target, place, hentry, hcomes, List.prefix_append _ _⟩
      (hlinks.linked _ contents hfile hgone)

omit hignore in
/-- A directory lists what is left of its entries. -/
theorem Apart.entries_without (hroot : gone [] = false) (h : d.Apart fs gone P) :
    d.entries (fs.without gone) = Entry.withoutAll gone d.place (d.entries fs) := by
  obtain ⟨es, hes⟩ | ⟨cause, hclosed⟩ := h.directory.cases
  · have hleft : FileSystem.entry? (fs.without gone) d.place =
        some (.directory (Entry.withoutAll gone d.place es)) := by
      rw [FileSystem.entry?_without hfs hroot, hes]
      rfl
    rw [entries_eq hleft, entries_eq hes]
  · have hleft : FileSystem.entry? (fs.without gone) d.place = some (.closed cause) := by
      rw [FileSystem.entry?_without hfs hroot, hclosed]
      rfl
    rw [entries, entries, hleft, hclosed]
    rfl

omit hignore in
/-- What is told of a directory that cannot be listed is the same without some files. -/
theorem Apart.unlisted_without (hroot : gone [] = false) (h : d.Apart fs gone P) :
    d.unlisted (fs.without gone) = d.unlisted fs := by
  exact unlisted_of_alike (FileSystem.alike_without_of_directoryAt hfs hroot h.directory)

/-- **A walk comes by the same without some files**, but for the files themselves. -/
theorem filter_walk_without (hroot : gone [] = false) (hlinks : fs.OffLinks gone)
    (h : d.Apart fs gone P) (depth : Nat) :
    (walk (fs.without gone) scan depth d).filter (isElsewhere P) =
      (walk fs scan depth d).filter (isElsewhere P) := by
  induction depth generalizing d with
  | zero => rfl
  | succ depth ih =>
    rw [walk, walk, List.filter_append, List.filter_append, List.filter_flatMap,
      List.filter_flatMap, h.entries_without hfs hroot, h.unlisted_without hfs hroot]
    refine congrArg (_ ++ ·) (Entry.flatMap_withoutAll (fun name e he hnone => ?_)
      fun name e e' he hleft => ?_)
    · -- A file that is gone had been asked for.
      obtain ⟨⟨contents, rfl⟩, hgone⟩ := Entry.without?_eq_none_iff.mp hnone
      have hentry := (mem_entries_iff hfs).mp he
      have hasked : P (d.entryPath name) = true := h.asked [name] contents hentry hgone
      show (if d.isLeftOut scan name false || !(d.entryPath name).hasSuffix scan.suffix then []
        else [.ok (d.entryPath name)] : List Visit).filter (isElsewhere P) = []
      split_ifs
      · rfl
      · simp [isElsewhere, hasked]
    · refine walkEntry_rel
        (R := fun vs' vs => vs'.filter (isElsewhere P) = vs.filter (isElsewhere P))
        (fun _ => rfl) (h.visit_without hfs hroot hlinks he hleft) fun place hplace => ?_
      have henter : d.enter (fs.without gone) scan name place = d.enter fs scan name place := by
        rw [enter_of_not_ignoring hignore, enter_of_not_ignoring hignore]
      rw [henter]
      exact ih (h.enter hfs hignore hlinks he hplace)

/-- Every other file that a walk comes by is read as before. -/
theorem read_of_mem_walk (hroot : gone [] = false) (hlinks : fs.OffLinks gone)
    (h : d.Apart fs gone P) {depth : Nat} {p : Path} (hp : .ok p ∈ walk fs scan depth d)
    (hother : P p = false) : (fs.without gone).read p = fs.read p := by
  obtain ⟨d, name, e, h, he, rfl, -⟩ := exists_station_of_mem_walk
    (fun d name e place h he hvisit => h.enter hfs hignore hlinks he hvisit) h hp
  have hentry := (mem_entries_iff hfs).mp he
  cases hleft : e.without? gone (d.place ++ [name]) with
  | none =>
    obtain ⟨⟨contents, rfl⟩, hgone⟩ := Entry.without?_eq_none_iff.mp hleft
    have hasked : P (d.entryPath name) = true := h.asked [name] contents hentry hgone
    rw [hother] at hasked
    cases hasked
  | some e' => exact (h.agreeAt_without hfs hroot hlinks he hleft).read

end

/-- A walk comes by paths with the suffix only. -/
theorem hasSuffix_of_mem_walk {depth : Nat} {p : Path} (hp : .ok p ∈ walk fs scan depth d) :
    p.hasSuffix scan.suffix = true := by
  obtain ⟨-, -, -, -, -, -, hsuffix⟩ :=
    exists_station_of_mem_walk (I := fun _ => True) (fun _ _ _ _ _ _ _ => trivial) trivial hp
  exact hsuffix

end Station

/-! ### What an index says of other files -/

namespace FileSystem

variable {fs fs' : FileSystem} {P : Path → Bool} {root : Path} {visits visits' : List Visit}

theorem paths_filter_isElsewhere (P : Path → Bool) (visits : List Visit) :
    (visits.filter (isElsewhere P)).filterMap Except.toOption =
      (visits.filterMap Except.toOption).filter (!P ·) := by
  rw [List.filterMap_filter, List.filter_filterMap]
  refine List.filterMap_congr fun v _ => ?_
  cases v with
  | ok p => cases hp : P p <;> simp [isElsewhere, Except.toOption, Option.filter, hp]
  | error f => rfl

theorem mem_filter_isElsewhere {p : Path} :
    .ok p ∈ visits.filter (isElsewhere P) ↔ .ok p ∈ visits ∧ P p = false := by
  rw [List.mem_filter, isElsewhere, Bool.not_eq_true']

/-- The registry of other files is collected from the visits elsewhere. -/
theorem restrict_indexVisits (settings : ExtractSettings) (visits : List Visit) :
    (fs.indexVisits settings root visits).value.registry.restrict (!P ·) =
      (fs.indexVisits settings root (visits.filter (isElsewhere P))).value.registry := by
  rw [registry_indexVisits, registry_indexVisits, ← ofFiles_filter, paths_filter_isElsewhere]

/-- The failures of other files come from the visits elsewhere. -/
theorem filter_failures_indexVisits (settings : ExtractSettings) (visits : List Visit) :
    (fs.indexVisits settings root visits).value.failures.filter (!P ·.path) =
      (fs.indexVisits settings root
        (visits.filter (isElsewhere P))).value.failures.filter (!P ·.path) := by
  rw [failures_indexVisits, failures_indexVisits, List.filterMap_filter, List.filter_filterMap,
    List.filter_filterMap]
  refine List.filterMap_congr fun v _ => ?_
  cases v with
  | error f => rfl
  | ok p =>
    cases hp : P p with
    | false => simp [isElsewhere, hp]
    | true =>
      -- A failure of the file is about the file.
      rw [failure?]
      cases fs.registryOf settings p with
      | ok r => simp
      | error e => simp [isElsewhere, hp]

/-! ### Two file systems -/

variable {place : Location}

theorem isAskedFor_nil (P : Path → Bool) (root : Path) (place : Location) :
    isAskedFor P root place [] = false := by
  simp [isAskedFor]

/-- What a walk comes by elsewhere can be told, and read, without the files that are asked for. -/
theorem exists_visits_without {scan : ScanSettings} (hfs : fs.Lawful)
    (hignore : scan.respectGitignore = false) (hplace : fs.locate root = .ok place)
    (hdir : fs.DirectoryAt place) (hlinks : fs.OffLinks (isAskedFor P root place)) {depth : Nat}
    (hdepth : fs.walkDepth ≤ depth) :
    ∃ visits, fs.visits scan root = .ok visits ∧
      visits.filter (isElsewhere P) = (if root.isStandardInput then []
        else Station.walk (fs.without (isAskedFor P root place)) scan depth
          ⟨root, place, [(place, root)], []⟩).filter (isElsewhere P) ∧
      ∀ p, .ok p ∈ visits → p.hasSuffix scan.suffix = true ∧
        (P p = false → (fs.without (isAskedFor P root place)).read p = fs.read p) := by
  have hstation : Station.ofRoot fs scan root place = ⟨root, place, [(place, root)], []⟩ :=
    Station.ofRoot_of_not_ignoring hignore root place
  have hvisits : fs.visits scan root = .ok (if root.isStandardInput then []
      else Station.walk fs scan depth ⟨root, place, [(place, root)], []⟩) := by
    rw [visits, locateDirectory_of_directoryAt hplace hdir, hignore, ← hstation,
      walk_ofRoot hfs scan root place hdepth]
    rfl
  have hnil := isAskedFor_nil P root place
  have hapart : Station.Apart fs (isAskedFor P root place) P
      ⟨root, place, [(place, root)], []⟩ := by
    refine ⟨hplace, hdir, rfl, fun names contents _ hgone => ?_⟩
    obtain ⟨-, hP⟩ := Bool.and_eq_true_iff.mp hgone
    rwa [List.drop_left] at hP
  refine ⟨_, hvisits, ?_, fun p hp => ?_⟩
  · split_ifs
    · rfl
    · exact (Station.filter_walk_without hfs hignore hnil hlinks hapart depth).symm
  · split_ifs at hp
    · cases hp
    · exact ⟨Station.hasSuffix_of_mem_walk hp,
        Station.read_of_mem_walk hfs hignore hnil hlinks hapart hp⟩

/-- **Files do not influence each other.** Take two file systems that differ only in regular files
below a root, at paths that are asked for: when these files are taken out of each, the same is left.
If ignore files do not count, no link leads to one of these files or to a directory above one, and
none of them is on the way of a link, then both roots are indexed, and the indices agree on
everything else: on the symbols of other files, in their order, and on the failures at other paths.
If none of the paths has the suffix of source files, the indices are the same. -/
theorem indexDirectory_isolated (settings : Settings) (P : Path → Bool) (hfs : fs.Lawful)
    (hfs' : fs'.Lawful) (hignore : settings.scan.respectGitignore = false)
    (hplace : fs.locate root = .ok place) (hdir : fs.DirectoryAt place)
    (hsame : fs'.without (isAskedFor P root place) = fs.without (isAskedFor P root place))
    (hlinks : fs.OffLinks (isAskedFor P root place))
    (hlinks' : fs'.OffLinks (isAskedFor P root place)) :
    ∃ d d', (fs.indexDirectory settings root).result = .ok d ∧
      (fs'.indexDirectory settings root).result = .ok d' ∧
      d'.registry.restrict (!P ·) = d.registry.restrict (!P ·) ∧
      d'.failures.filter (!P ·.path) = d.failures.filter (!P ·.path) ∧
      ((∀ p, P p = true → p.hasSuffix settings.scan.suffix = false) → d' = d) := by
  have hnil := isAskedFor_nil P root place
  have hmirrors := mirrors_without hfs hnil
  have hmirrors' := mirrors_of_without hfs' hnil
  rw [hsame] at hmirrors'
  have halike : fs.Alike (fs.without (isAskedFor P root place)) place :=
    alike_without_of_directoryAt hfs hnil hdir
  have hleft : DirectoryAt (fs.without (isAskedFor P root place)) place :=
    Alike.directoryAt halike hdir
  have halike' : Alike (fs.without (isAskedFor P root place)) fs' place := by
    obtain ⟨e, he, -⟩ := hleft
    rw [← hsame] at he ⊢
    exact alike_of_without hfs' hnil he
  have hplace' : fs'.locate root = .ok place :=
    hmirrors'.locate (hmirrors.locate hplace halike) halike'
  have hdir' : fs'.DirectoryAt place := Alike.directoryAt halike' hleft
  obtain ⟨visits, hvisits, hrest, hread⟩ := exists_visits_without hfs hignore hplace hdir hlinks
    (Nat.le_max_left fs.walkDepth fs'.walkDepth)
  obtain ⟨visits', hvisits', hrest', hread'⟩ := exists_visits_without hfs' hignore hplace' hdir'
    hlinks' (Nat.le_max_right fs.walkDepth fs'.walkDepth)
  rw [hsame, ← hrest] at hrest'
  have hreads : ∀ p, .ok p ∈ visits.filter (isElsewhere P) → fs'.read p = fs.read p := by
    intro p hp
    obtain ⟨hmem', hother⟩ := mem_filter_isElsewhere.mp (hrest' ▸ hp)
    obtain ⟨hmem, -⟩ := mem_filter_isElsewhere.mp hp
    rw [← (hread p hmem).2 hother, ← (hread' p hmem').2 hother, hsame]
  have hindex : fs'.indexVisits settings.extract root (visits'.filter (isElsewhere P)) =
      fs.indexVisits settings.extract root (visits.filter (isElsewhere P)) := by
    rw [hrest']
    exact indexVisits_congr hreads
  refine ⟨_, _, (fs.result_indexDirectory settings root).trans (by rw [hvisits]; rfl),
    (fs'.result_indexDirectory settings root).trans (by rw [hvisits']; rfl), ?_, ?_,
    fun hsuffix => ?_⟩
  · rw [restrict_indexVisits, restrict_indexVisits, hindex]
  · rw [filter_failures_indexVisits, filter_failures_indexVisits settings.extract visits, hindex]
  · -- A walk comes by no path that is asked for, so it comes by the same.
    have hall : ∀ vs : List Visit,
        (∀ p, .ok p ∈ vs → p.hasSuffix settings.scan.suffix = true) →
        vs.filter (isElsewhere P) = vs := by
      intro vs hvs
      refine List.filter_eq_self.mpr fun v hv => ?_
      cases v with
      | error f => rfl
      | ok p =>
        have hother : P p = false := by
          refine Bool.eq_false_iff.mpr fun hp => ?_
          have hnot := hsuffix p hp
          rw [hvs p hv] at hnot
          cases hnot
        rw [isElsewhere, hother]
        rfl
    rw [hall visits fun p hp => (hread p hp).1, hall visits' fun p hp => (hread' p hp).1] at hindex
    exact congrArg Logged.value hindex

/-! ### One link -/

variable {l : Location}

/-- The links of a file system, with their targets. -/
def links (fs : FileSystem) : List (Location × Path) :=
  fs.root.places.filterMap fun place => match place.2 with
    | .link target => some (place.1, target)
    | _ => none

theorem mem_links {target : Path} (h : fs.entry? l = some (.link target)) :
    (l, target) ∈ fs.links :=
  List.mem_filterMap.mpr ⟨_, Entry.mem_places h, rfl⟩

/-- Where there is one link, it is the one that is found. -/
theorem eq_of_links {d d' : Location} {name name' : Name} {target target' : Path}
    (hlinks : fs.links = [(d ++ [name], target)])
    (h : fs.entry? (d' ++ [name']) = some (.link target')) :
    d' = d ∧ name' = name ∧ target' = target := by
  have hmem := mem_links h
  rw [hlinks] at hmem
  have hboth := List.mem_singleton.mp hmem
  obtain ⟨hd, hname⟩ := List.append_inj' (congrArg Prod.fst hboth) rfl
  exact ⟨hd, List.singleton_inj.mp hname, congrArg Prod.snd hboth⟩

/-- A file that cannot be parsed any more, next to a file with the same key and a link to that. -/
theorem indexDirectory_isolated_from_refused :
    let root : Path := "/src"
    let P : Path → Bool := fun p => p = "/src/a.js"
    let place : Location := [Utf8.encode "src"]
    let fs (a : String) : FileSystem := ⟨.directory [(Utf8.encode "src", .directory [
      (Utf8.encode "a.js", .file (Utf8.encode a)),
      (Utf8.encode "b.js", .file (Utf8.encode "class C \x7b m() \x7b\x7d \x7d")),
      (Utf8.encode "l.js", .link "b.js")])], []⟩
    let before := fs "class C \x7b m() \x7b\x7d \x7d"
    let after := fs "class C \x7b"
    before.Lawful ∧ after.Lawful ∧ before.locate root = .ok place ∧ before.DirectoryAt place ∧
      after.without (isAskedFor P root place) = before.without (isAskedFor P root place) ∧
      before.OffLinks (isAskedFor P root place) ∧ after.OffLinks (isAskedFor P root place) ∧
      ∃ d d', (before.indexDirectory Settings.standard root).result = .ok d ∧
        (after.indexDirectory Settings.standard root).result = .ok d' ∧
        d.totals = ⟨3, 3, 0, 3⟩ ∧ d'.totals = ⟨3, 2, 1, 2⟩ ∧
        d'.registry.restrict (!P ·) = d.registry.restrict (!P ·) ∧
        d'.failures.filter (!P ·.path) = d.failures.filter (!P ·.path) := by
  intro root P place fs before after
  have hoff : ∀ a, (fs a).OffLinks (isAskedFor P root place) := by
    intro a
    have hlinks : (fs a).links = [(place ++ [Utf8.encode "l.js"], Path.ofString "b.js")] := rfl
    have hlink : entry? (fs a) (place ++ [Utf8.encode "l.js"]) = some (.link "b.js") := rfl
    have hsteps : (Path.ofString "b.js").steps = [.into (Utf8.encode "b.js")] := by decide +kernel
    have hfollow : (fs a).followThrough true linkLimit place [.into (Utf8.encode "l.js")] =
        .ok (.existing (place ++ [Utf8.encode "b.js"])) := by
      rfl
    have hasked : ∀ l contents, entry? (fs a) l = some (.file contents) →
        isAskedFor P root place l = true → l = place ++ [Utf8.encode "a.js"] := by
      intro l contents hfile hgone
      have hplace : l ∈ (fs a).root.places.map (·.1) :=
        List.mem_map.mpr ⟨_, Entry.mem_places hfile, rfl⟩
      have hplaces : (fs a).root.places.map (·.1) = (fs "").root.places.map (·.1) := rfl
      have hall : ∀ l ∈ (fs "").root.places.map (·.1), isAskedFor P root place l = true →
          l = place ++ [Utf8.encode "a.js"] := by
        decide +kernel
      exact hall l (hplaces ▸ hplace) hgone
    constructor
    · rintro l contents hfile hgone ⟨_, _, _, m, he, hcomes, hm⟩
      obtain ⟨rfl, rfl, -⟩ := eq_of_links hlinks he
      rw [hcomes.eq_of_followThrough hfollow, hasked l contents hfile hgone] at hm
      revert hm
      decide +kernel
    · rintro l contents hfile hgone ⟨_, _, _, rest, he, hcomes⟩
      obtain ⟨rfl, rfl, -⟩ := eq_of_links hlinks he
      rw [hasked l contents hfile hgone] at hcomes
      obtain hplace | hway := hcomes.of_link hlink
      · revert hplace
        decide +kernel
      · rw [hsteps] at hway
        obtain hplace | hplace := hway.of_into rfl fun target => Entry.noConfusion
        · revert hplace
          decide +kernel
        · revert hplace
          decide +kernel
  have hindex : (before.indexDirectory Settings.standard root).result.toOption.map (·.totals) =
      some ⟨3, 3, 0, 3⟩ := by
    decide +kernel
  have hindex' : (after.indexDirectory Settings.standard root).result.toOption.map (·.totals) =
      some ⟨3, 2, 1, 2⟩ := by
    decide +kernel
  have hfs : before.Lawful := by decide +kernel
  have hfs' : after.Lawful := by decide +kernel
  have hplace : before.locate root = .ok place := by decide +kernel
  have hdir : before.DirectoryAt place := ⟨_, rfl, rfl⟩
  have hsame : after.without (isAskedFor P root place) =
      before.without (isAskedFor P root place) := rfl
  obtain ⟨d, d', hd, hd', hregistry, hfailures, -⟩ := indexDirectory_isolated Settings.standard P
    hfs hfs' rfl hplace hdir hsame (hoff _) (hoff _)
  rw [hd] at hindex
  rw [hd'] at hindex'
  exact ⟨hfs, hfs', hplace, hdir, hsame, hoff _, hoff _, d, d', hd, hd',
    Option.some.inj hindex, Option.some.inj hindex', hregistry, hfailures⟩

/-- No link leads anywhere in these two file systems, and yet a failure at the root changes with a
file that is not the root: the target of a link goes on behind the file. -/
theorem not_isolated_from_link :
    let root : Path := "/src"
    let P : Path → Bool := fun p => p = "/src/a.js"
    let place : Location := [Utf8.encode "src"]
    let link : Name × Entry := (Utf8.encode "l", .link "a.js/x")
    let fs : FileSystem := ⟨.directory [(Utf8.encode "src",
      .directory [(Utf8.encode "a.js", .file (.ok [])), link])], []⟩
    let fs' : FileSystem := ⟨.directory [(Utf8.encode "src", .directory [link])], []⟩
    Settings.standard.scan.respectGitignore = false ∧ fs.Lawful ∧ fs'.Lawful ∧
      fs.locate root = .ok place ∧ fs.DirectoryAt place ∧
      fs'.without (isAskedFor P root place) = fs.without (isAskedFor P root place) ∧
      (∀ l, ¬fs.IsLinkedTo l) ∧ (∀ l, ¬fs'.IsLinkedTo l) ∧
      ∃ d d', (fs.indexDirectory Settings.standard root).result = .ok d ∧
        (fs'.indexDirectory Settings.standard root).result = .ok d' ∧
        d'.failures.filter (!P ·.path) ≠ d.failures.filter (!P ·.path) := by
  intro root P place link fs fs'
  have hlinks : fs.links = [(place ++ [Utf8.encode "l"], Path.ofString "a.js/x")] := by
    decide +kernel
  have hlinks' : fs'.links = [(place ++ [Utf8.encode "l"], Path.ofString "a.js/x")] := by
    decide +kernel
  have hfollow : fs.followThrough true linkLimit place [.into (Utf8.encode "l")] =
      .error .notDirectory := by
    decide +kernel
  have hfollow' : fs'.followThrough true linkLimit place [.into (Utf8.encode "l")] =
      .error .notFound := by
    decide +kernel
  have hindex : (fs.indexDirectory Settings.standard root).result.toOption.map
      (·.failures.filter (!P ·.path)) = some [⟨root, .walk
        "/src/l: IO error for operation on /src/l: Not a directory (os error 20)"⟩] := by
    decide +kernel
  have hindex' : (fs'.indexDirectory Settings.standard root).result.toOption.map
      (·.failures.filter (!P ·.path)) = some [⟨root, .walk
        "/src/l: IO error for operation on /src/l: No such file or directory (os error 2)"⟩] := by
    decide +kernel
  obtain ⟨d, hd, hfailures⟩ := Option.map_eq_some_iff.mp hindex
  obtain ⟨d', hd', hfailures'⟩ := Option.map_eq_some_iff.mp hindex'
  refine ⟨rfl, by decide +kernel, by decide +kernel, by decide +kernel, ⟨_, rfl, rfl⟩, rfl, ?_, ?_,
    d, d', toOption_eq_some_iff.mp hd, toOption_eq_some_iff.mp hd', ?_⟩
  · rintro l ⟨_, _, _, m, he, hcomes, -⟩
    obtain ⟨rfl, rfl, -⟩ := eq_of_links hlinks he
    exact not_comes_of_error hfollow (by decide) hcomes
  · rintro l ⟨_, _, _, m, he, hcomes, -⟩
    obtain ⟨rfl, rfl, -⟩ := eq_of_links hlinks' he
    exact not_comes_of_error hfollow' (by decide) hcomes
  · rw [hfailures, hfailures']
    decide +kernel

end FileSystem

end SymbolIndex
