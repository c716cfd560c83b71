import Mathlib.Data.List.Nodup
import SymbolIndex.Proofs.Log
import SymbolIndex.Walk

/-!
# A walk comes by no path twice

Every path that a walk comes by starts with the path of the directory, then a slash, and goes on
with the name of one of its entries, up to the end or to the next slash (`Station.Leads`). Names
have no slashes in them and no two entries of a directory share one
(`FileSystem.WellNamed`), so the name on a path can be told, and what comes from one entry is
different from what comes from another. By induction on the depth of the walk no path comes twice
(`Station.nodup_paths_walk`), and none of them is the path of the root
(`FileSystem.nodup_paths_of_visits`).
-/

namespace SymbolIndex

/-! ### Names -/

/-- In every directory of the tree the entries have different names, and a name is neither empty nor
has a slash in it. -/
inductive Entry.WellNamed : Entry → Prop where
  | file (contents : Contents) : WellNamed (.file contents)
  | link (target : Path) : WellNamed (.link target)
  | closed (cause : IoCause) : WellNamed (.closed cause)
  | device : WellNamed .device
  | directory {es : List (Name × Entry)} (nodup : (es.map (·.1)).Nodup)
      (name : ∀ e ∈ es, e.1 ≠ [] ∧ Path.slash ∉ e.1) (below : ∀ e ∈ es, WellNamed e.2) :
      WellNamed (.directory es)

/-- Every directory of the file system has entries with proper names, each for one entry. -/
def FileSystem.WellNamed (fs : FileSystem) : Prop := fs.root.WellNamed

namespace Entry

theorem mem_of_child? {name : Name} {e : Entry} {es : List (Name × Entry)}
    (h : child? name es = some e) : (name, e) ∈ es := by
  induction es with
  | nil => cases h
  | cons first es ih =>
    obtain ⟨n, e'⟩ := first
    rw [child?] at h
    split_ifs at h with hn
    · cases h
      exact hn ▸ List.mem_cons_self
    · exact List.mem_cons_of_mem _ (ih h)

/-- What is at a place below is as well named as the whole. -/
theorem WellNamed.at? {place : Location} {e e' : Entry} (h : e.WellNamed)
    (hat : Entry.at? place e = some e') : e'.WellNamed := by
  induction place generalizing e with
  | nil =>
    cases hat
    exact h
  | cons n place ih =>
    obtain ⟨es, hes, hrest⟩ := Option.bind_eq_some_iff.mp hat
    obtain ⟨child, hchild, hrest⟩ := Option.bind_eq_some_iff.mp hrest
    cases h with
    | file _ | link _ | closed _ | device => cases hes
    | directory hnodup hname hbelow =>
      cases hes
      exact ih (hbelow _ (mem_of_child? hchild)) hrest

end Entry

/-! ### Paths of entries -/

namespace Path

/-- What comes before the name of an entry in its path: the path of the directory and a slash. -/
def base (p : Path) : List UInt8 :=
  if p.bytes.isEmpty || p.bytes.getLast? = some slash then p.bytes else p.bytes ++ [slash]

theorem length_le_base (p : Path) : p.bytes.length ≤ p.base.length := by
  rw [base]
  split_ifs
  · exact Nat.le_refl _
  · exact List.length_append ▸ Nat.le_add_right _ _

variable {p : Path} {name : Name}

theorem bytes_join (hslash : slash ∉ name) : (p.join ⟨name⟩).bytes = p.base ++ name := by
  have hrelative : isAbsolute ⟨name⟩ = false :=
    decide_eq_false fun h => hslash (List.mem_of_head? h)
  rw [join, if_neg (by simp [hrelative]), base]
  split_ifs
  · rfl
  · exact List.append_cons _ _ _

/-- A name does not end in a slash, so there is one behind it in the paths that go on. -/
theorem base_join (hname : name ≠ []) (hslash : slash ∉ name) :
    (p.join ⟨name⟩).base = p.base ++ name ++ [slash] := by
  have hlast : (p.base ++ name).getLast? ≠ some slash := by
    intro h
    rw [List.getLast?_append_of_ne_nil _ hname] at h
    exact hslash (List.mem_of_getLast? h)
  have hempty : (p.base ++ name).isEmpty = false :=
    List.isEmpty_eq_false_iff.mpr (List.append_ne_nil_of_right_ne_nil _ hname)
  rw [base, bytes_join hslash, hempty, Bool.false_or, if_neg (by simpa using hlast)]

end Path

namespace Station

variable {fs : FileSystem} {scan : ScanSettings}

/-- The path goes from the directory into the entry of a name, and ends there or goes on with a
slash. -/
def Leads (d : Station) (name : Name) (p : Path) : Prop :=
  ∃ rest, p.bytes = d.path.base ++ (name ++ rest) ∧ ∀ b ∈ rest.head?, b = Path.slash

variable {d : Station} {name : Name} {p : Path}

theorem takeWhile_of_leads {rest : List UInt8} (hslash : Path.slash ∉ name)
    (hrest : ∀ b ∈ rest.head?, b = Path.slash) :
    (name ++ rest).takeWhile (· ≠ Path.slash) = name := by
  have hname : ∀ b ∈ name, decide (b ≠ Path.slash) = true := by
    intro b hb
    exact decide_eq_true fun h => hslash (h ▸ hb)
  rw [List.takeWhile_append_of_pos hname]
  cases rest with
  | nil => exact List.append_nil name
  | cons b rest =>
    rw [hrest b rfl, List.takeWhile_cons_of_neg (by simp), List.append_nil]

/-- A path leads into one entry only: its name is what comes up to the next slash. -/
theorem Leads.unique {name' : Name} (h : d.Leads name p) (h' : d.Leads name' p)
    (hslash : Path.slash ∉ name) (hslash' : Path.slash ∉ name') : name = name' := by
  obtain ⟨rest, hp, hrest⟩ := h
  obtain ⟨rest', hp', hrest'⟩ := h'
  have heq : name ++ rest = name' ++ rest' := List.append_cancel_left (hp.symm.trans hp')
  rw [← takeWhile_of_leads hslash hrest, heq, takeWhile_of_leads hslash' hrest']

theorem Leads.length_lt (h : d.Leads name p) (hname : name ≠ []) :
    d.path.bytes.length < p.bytes.length := by
  obtain ⟨rest, hp, -⟩ := h
  have hbase := d.path.length_le_base
  have hpos := List.length_pos_iff.mpr hname
  rw [hp, List.length_append, List.length_append]
  omega

theorem leads_entryPath (hslash : Path.slash ∉ name) : d.Leads name (d.entryPath name) :=
  ⟨[], by rw [entryPath, Path.bytes_join hslash, List.append_nil], by simp⟩

/-- What a directory leads to, the directory above leads to. -/
theorem leads_of_enter {name' : Name} {place : Location} (hname : name ≠ [])
    (hslash : Path.slash ∉ name) (h : (d.enter fs scan name place).Leads name' p) :
    d.Leads name p := by
  obtain ⟨rest, hp, -⟩ := h
  refine ⟨Path.slash :: (name' ++ rest), ?_, by simp⟩
  rw [hp, enter, entryPath, Path.base_join hname hslash]
  simp only [List.append_assoc, List.singleton_append]

/-- The paths that a walk comes by. -/
theorem mem_paths_iff {visits : List Visit} :
    p ∈ visits.filterMap Except.toOption ↔ .ok p ∈ visits := by
  constructor
  · intro hp
    obtain ⟨v, hv, hvp⟩ := List.mem_filterMap.mp hp
    exact toOption_eq_some_iff.mp hvp ▸ hv
  · intro hp
    exact List.mem_filterMap.mpr ⟨.ok p, hp, rfl⟩

/-! ### One entry -/

/-- A walk comes by a path at an entry that is a file, or inside a directory, unless the entry is left
out. -/
theorem ok_mem_walkEntry_iff {inside : Station → List Visit} {e : Entry} :
    .ok p ∈ d.walkEntry fs scan inside name e ↔
      (d.visit fs scan name e = .ok .file ∧ d.isLeftOut scan name false = false ∧
        (d.entryPath name).hasSuffix scan.suffix = true ∧ p = d.entryPath name) ∨
      ∃ place, d.visit fs scan name e = .ok (.directory place) ∧
        d.isLeftOut scan name true = false ∧ isIgnoredName scan name = false ∧
        .ok p ∈ inside (d.enter fs scan name place) := by
  rw [walkEntry]
  cases d.visit fs scan name e with
  | error f => simp
  | ok visited =>
    cases visited with
    | other => simp
    | file =>
      cases d.isLeftOut scan name false <;>
        cases hsuffix : (d.entryPath name).hasSuffix scan.suffix <;> simp [hsuffix]
    | directory place =>
      cases d.isLeftOut scan name true <;> cases isIgnoredName scan name <;> simp

/-- What a walk comes by at an entry leads into the entry if the paths from inside a directory lead
into one of its own. -/
theorem leads_of_mem_walkEntry {inside : Station → List Visit} {e : Entry} (hname : name ≠ [])
    (hslash : Path.slash ∉ name)
    (hinside : ∀ d, .ok p ∈ inside d → ∃ name', name' ≠ [] ∧ d.Leads name' p)
    (h : .ok p ∈ d.walkEntry fs scan inside name e) : d.Leads name p := by
  obtain ⟨-, -, -, rfl⟩ | ⟨place, -, -, -, hp⟩ := ok_mem_walkEntry_iff.mp h
  · exact leads_entryPath hslash
  · obtain ⟨name', -, hleads⟩ := hinside _ hp
    exact leads_of_enter hname hslash hleads

/-- At one entry no path comes twice if none does inside a directory. -/
theorem nodup_paths_walkEntry {inside : Station → List Visit} {e : Entry}
    (h : ∀ d, ((inside d).filterMap Except.toOption).Nodup) :
    ((d.walkEntry fs scan inside name e).filterMap Except.toOption).Nodup := by
  rw [walkEntry]
  split
  · exact List.nodup_nil
  · exact List.nodup_nil
  · dsimp only
    split_ifs
    · exact List.nodup_nil
    · exact List.nodup_singleton _
  · split_ifs
    · exact List.nodup_nil
    · exact h _

/-! ### Without ignore files -/

theorem enter_of_not_ignoring (h : scan.respectGitignore = false) (name : Name)
    (place : Location) :
    d.enter fs scan name place =
      ⟨d.entryPath name, place, (place, d.entryPath name) :: d.ancestors, []⟩ := by
  rw [enter, h]
  rfl

theorem ofRoot_of_not_ignoring (h : scan.respectGitignore = false) (root : Path)
    (place : Location) : ofRoot fs scan root place = ⟨root, place, [(place, root)], []⟩ := by
  rw [ofRoot, h]
  rfl

/-! ### A whole walk -/

theorem wellNamed_entries (hfs : fs.WellNamed) (d : Station) :
    (Entry.directory (d.entries fs)).WellNamed := by
  have hnone : (Entry.directory []).WellNamed := .directory List.nodup_nil (by simp) (by simp)
  rw [entries]
  cases hentry : fs.entry? d.place with
  | none => exact hnone
  | some e =>
    have he : e.WellNamed := hfs.at? hentry
    cases e with
    | directory es => exact he
    | file _ | link _ | closed _ | device => exact hnone

/-- What is told of a directory that cannot be listed is no path. -/
theorem paths_unlisted (fs : FileSystem) (d : Station) :
    (d.unlisted fs).filterMap Except.toOption = [] := by
  rw [unlisted]
  split <;> rfl

theorem ok_notMem_unlisted (fs : FileSystem) (d : Station) (p : Path) :
    .ok p ∉ d.unlisted fs := by
  rw [← mem_paths_iff, paths_unlisted]
  exact List.not_mem_nil

/-- The paths of a walk are those that it comes by at the entries of the directory. -/
theorem ok_mem_walk_succ_iff {depth : Nat} :
    .ok p ∈ walk fs scan (depth + 1) d ↔
      ∃ e ∈ d.entries fs, .ok p ∈ d.walkEntry fs scan (walk fs scan depth) e.1 e.2 := by
  rw [walk, List.mem_append, or_iff_right (ok_notMem_unlisted fs d p), List.mem_flatMap]

theorem paths_walk_succ (fs : FileSystem) (scan : ScanSettings) (depth : Nat) (d : Station) :
    (walk fs scan (depth + 1) d).filterMap Except.toOption =
      (d.entries fs).flatMap fun e =>
        (d.walkEntry fs scan (walk fs scan depth) e.1 e.2).filterMap Except.toOption := by
  rw [walk, List.filterMap_append, paths_unlisted, List.nil_append, List.filterMap_flatMap]

/-- Every path of a walk leads into an entry of the directory. -/
theorem leads_of_mem_walk (hfs : fs.WellNamed) {depth : Nat} (h : .ok p ∈ walk fs scan depth d) :
    ∃ name, name ≠ [] ∧ d.Leads name p := by
  induction depth generalizing d with
  | zero => cases h
  | succ depth ih =>
    obtain ⟨e, he, hp⟩ := ok_mem_walk_succ_iff.mp h
    cases wellNamed_entries hfs d with
    | directory _ hnames _ =>
      obtain ⟨hname, hslash⟩ := hnames e he
      exact ⟨e.1, hname, leads_of_mem_walkEntry hname hslash (fun _ => ih) hp⟩

/-- **A walk comes by no path twice.** -/
theorem nodup_paths_walk (hfs : fs.WellNamed) (depth : Nat) (d : Station) :
    ((walk fs scan depth d).filterMap Except.toOption).Nodup := by
  induction depth generalizing d with
  | zero => exact List.nodup_nil
  | succ depth ih =>
    have hleads : ∀ {name p e}, name ≠ [] → Path.slash ∉ name →
        p ∈ (d.walkEntry fs scan (walk fs scan depth) name e).filterMap Except.toOption →
        d.Leads name p := by
      intro name p e hname hslash hp
      exact leads_of_mem_walkEntry hname hslash (fun _ => leads_of_mem_walk hfs)
        (mem_paths_iff.mp hp)
    cases wellNamed_entries hfs d with
    | directory hnodup hnames _ =>
      rw [paths_walk_succ, List.nodup_flatMap]
      refine ⟨fun e _ => nodup_paths_walkEntry ih, ?_⟩
      -- What comes from two entries differs since their names do.
      have hpairwise := List.pairwise_map.mp hnodup
      refine hpairwise.imp_of_mem fun {e e'} he he' hne => ?_
      obtain ⟨hname, hslash⟩ := hnames e he
      obtain ⟨hname', hslash'⟩ := hnames e' he'
      intro p hp hp'
      exact hne ((hleads hname hslash hp).unique (hleads hname' hslash' hp') hslash hslash')

end Station

namespace FileSystem

variable {fs : FileSystem} {scan : ScanSettings} {root : Path}

/-- The rules above the root are no paths, so the paths are those of the walk. There are none in the
standard input. -/
theorem paths_visits (fs : FileSystem) (scan : ScanSettings) (root : Path) :
    (fs.visits scan root).map (List.filterMap Except.toOption) =
      (fs.locateDirectory root).map fun place =>
        if root.isStandardInput then []
        else (Station.walk fs scan fs.walkDepth (.ofRoot fs scan root place)).filterMap
          Except.toOption := by
  have hbefore : ∀ faults : List (Path × RuleFault),
      (if faults.isEmpty then [] else [.error (.badRules faults)] : List Visit).filterMap
        Except.toOption = [] := by
    intro faults
    split_ifs <;> rfl
  rw [visits]
  cases fs.locateDirectory root with
  | error e => rfl
  | ok place =>
    refine congrArg Except.ok ?_
    cases root.isStandardInput with
    | true => rfl
    | false =>
      show List.filterMap Except.toOption (_ ++ _) = _
      rw [List.filterMap_append, hbefore, List.nil_append]
      rfl

/-- What a walk comes by below its root: no path twice, and never the root itself. -/
theorem nodup_paths_of_visits (hfs : fs.WellNamed) {visits : List Visit}
    (h : fs.visits scan root = .ok visits) :
    (visits.filterMap Except.toOption).Nodup ∧ root ∉ visits.filterMap Except.toOption := by
  have hpaths := fs.paths_visits scan root
  rw [h] at hpaths
  cases hplace : fs.locateDirectory root with
  | error e =>
    rw [hplace] at hpaths
    cases hpaths
  | ok place =>
    rw [hplace] at hpaths
    have hpaths := Except.ok.inj hpaths
    rw [hpaths]
    split_ifs
    · exact ⟨List.nodup_nil, List.not_mem_nil⟩
    refine ⟨Station.nodup_paths_walk hfs _ _, fun hroot => ?_⟩
    obtain ⟨name, hname, hleads⟩ :=
      Station.leads_of_mem_walk hfs (Station.mem_paths_iff.mp hroot)
    exact absurd (hleads.length_lt hname) (Nat.lt_irrefl _)

end FileSystem

end SymbolIndex
