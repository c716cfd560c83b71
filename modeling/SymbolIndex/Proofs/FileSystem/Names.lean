import Mathlib.Data.List.Nodup
import SymbolIndex.Proofs.FileSystem
import SymbolIndex.Proofs.Prune

/-!
# Names that a file system can have

In the directories of a file system no two entries share a name, and a name is neither empty nor `.`
nor `..` and has no slash in it (`FileSystem.Lawful`). It can be decided whether this is so. Under
such names a path says what it means:

- `Station.mem_entries_iff`: a directory lists a name exactly if something is at the place that the
  name leads to.
- `Path.fileName?_join`, `Path.hasSuffix_join`: a path that goes on with a name ends in that name.
- `Path.steps_join`: such a path is followed like the one before it, and then into the name.

No place is as deep as the file system has entries (`Entry.length_lt_count`).
-/

namespace SymbolIndex

open Text

/-! ### Lawful file systems -/

namespace Path

/-- A name that an entry can have: it is proper, and not one of the two that every directory uses for
itself and for the directory above. -/
def Ordinary (name : Name) : Prop := Proper name ∧ name ≠ [dot] ∧ name ≠ [dot, dot]

instance (name : Name) : Decidable (Ordinary name) :=
  inferInstanceAs (Decidable ((name ≠ [] ∧ slash ∉ name) ∧ name ≠ [dot] ∧ name ≠ [dot, dot]))

end Path

namespace Entry

/-- In every directory of the tree the entries have ordinary names, each for one entry. -/
inductive Lawful : Entry → Prop where
  | file (contents : Contents) : Lawful (.file contents)
  | link (target : Path) : Lawful (.link target)
  | closed (cause : IoCause) : Lawful (.closed cause)
  | device : Lawful .device
  | directory {es : List (Name × Entry)} (nodup : (es.map (·.1)).Nodup)
      (name : ∀ e ∈ es, Path.Ordinary e.1) (below : ∀ e ∈ es, Lawful e.2) :
      Lawful (.directory es)

theorem Lawful.wellNamed {e : Entry} (h : e.Lawful) : e.WellNamed := by
  induction h with
  | file contents => exact .file contents
  | link target => exact .link target
  | closed cause => exact .closed cause
  | device => exact .device
  | directory nodup name _ ih => exact .directory nodup (fun e he => (name e he).1) ih

mutual

/-- Whether the tree is lawful. -/
def isLawful : Entry → Bool
  | directory es => decide (es.map (·.1)).Nodup && isLawfulAll es
  | file _ | link _ | closed _ | device => true

/-- Whether entries have ordinary names, and each of them is lawful. -/
def isLawfulAll : List (Name × Entry) → Bool
  | [] => true
  | (name, e) :: r => decide (Path.Ordinary name) && e.isLawful && isLawfulAll r

end

theorem isLawfulAll_eq_true_iff {es : List (Name × Entry)} :
    isLawfulAll es = true ↔ ∀ e ∈ es, Path.Ordinary e.1 ∧ e.2.isLawful = true := by
  induction es with
  | nil => simp [isLawfulAll]
  | cons e es ih => simp [isLawfulAll, ih, and_assoc]

mutual

theorem lawful_of_isLawful : {e : Entry} → e.isLawful = true → e.Lawful
  | .file contents, _ => .file contents
  | .link target, _ => .link target
  | .closed cause, _ => .closed cause
  | .device, _ => .device
  | .directory es, h => by
    obtain ⟨hnodup, hall⟩ := Bool.and_eq_true_iff.mp h
    have hnames := isLawfulAll_eq_true_iff.mp hall
    exact .directory (of_decide_eq_true hnodup) (fun e he => (hnames e he).1)
      (lawful_of_isLawfulAll hall)

theorem lawful_of_isLawfulAll : {es : List (Name × Entry)} → isLawfulAll es = true →
    ∀ e ∈ es, e.2.Lawful
  | [], _ => by
    intro e he
    cases he
  | (name, first) :: es, h => by
    obtain ⟨hfirst, hall⟩ := Bool.and_eq_true_iff.mp h
    intro e he
    rcases List.mem_cons.mp he with rfl | he
    · exact lawful_of_isLawful (Bool.and_eq_true_iff.mp hfirst).2
    · exact lawful_of_isLawfulAll hall e he

end

theorem isLawful_iff {e : Entry} : e.isLawful = true ↔ e.Lawful := by
  refine ⟨lawful_of_isLawful, fun h => ?_⟩
  induction h with
  | file _ | link _ | closed _ | device => rfl
  | directory nodup name _ ih =>
    rw [isLawful, Bool.and_eq_true]
    exact ⟨decide_eq_true nodup, isLawfulAll_eq_true_iff.mpr fun e he => ⟨name e he, ih e he⟩⟩

instance (e : Entry) : Decidable e.Lawful := decidable_of_iff _ isLawful_iff

/-- What is at a place below is as lawful as the whole. -/
theorem Lawful.at? {place : Location} {e e' : Entry} (h : e.Lawful)
    (hat : Entry.at? place e = some e') : e'.Lawful := by
  induction place generalizing e with
  | nil =>
    cases hat
    exact h
  | cons n place ih =>
    obtain ⟨es, hes, hrest⟩ := Option.bind_eq_some_iff.mp hat
    obtain ⟨child, hchild, hrest⟩ := Option.bind_eq_some_iff.mp hrest
    cases h with
    | file _ | link _ | closed _ | device => cases hes
    | directory _ _ hbelow =>
      cases hes
      exact ih (hbelow _ (mem_of_child? hchild)) hrest

/-! ### Entries by their names -/

/-- Where names are different, each entry is found by its name. -/
theorem child?_eq_some_iff {name : Name} {e : Entry} {es : List (Name × Entry)}
    (h : (es.map (·.1)).Nodup) : child? name es = some e ↔ (name, e) ∈ es := by
  refine ⟨mem_of_child?, fun hmem => ?_⟩
  induction es with
  | nil => cases hmem
  | cons first es ih =>
    obtain ⟨n, old⟩ := first
    obtain ⟨hn, hes⟩ := List.nodup_cons.mp h
    rw [child?]
    rcases List.mem_cons.mp hmem with heq | hmem
    · cases heq
      exact if_pos rfl
    · have hne : n ≠ name := fun heq => hn (heq ▸ List.mem_map_of_mem (f := (·.1)) hmem)
      rw [if_neg hne]
      exact ih hes hmem

theorem count_le_countAll {e : Name × Entry} {es : List (Name × Entry)} (h : e ∈ es) :
    e.2.count ≤ countAll es := by
  induction es with
  | nil => cases h
  | cons first es ih =>
    rw [countAll]
    rcases List.mem_cons.mp h with rfl | h
    · exact Nat.le_add_right _ _
    · exact Nat.le_trans (ih h) (Nat.le_add_left _ _)

/-- A place below an entry is less deep than there are entries. -/
theorem length_lt_count {l : Location} {e e' : Entry} (h : at? l e = some e') :
    l.length < e.count := by
  induction l generalizing e with
  | nil => cases e <;> simp [count]
  | cons n l ih =>
    obtain ⟨es, hes, hrest⟩ := Option.bind_eq_some_iff.mp h
    obtain ⟨child, hchild, hrest⟩ := Option.bind_eq_some_iff.mp hrest
    obtain rfl := eq_directory_of_entries? hes
    have hbelow : l.length < child.count := ih hrest
    have hcount : child.count ≤ countAll es := count_le_countAll (mem_of_child? hchild)
    rw [count, List.length_cons]
    omega

end Entry

namespace FileSystem

/-- The file system is one that a system can have. -/
def Lawful (fs : FileSystem) : Prop := fs.root.Lawful

instance (fs : FileSystem) : Decidable fs.Lawful := inferInstanceAs (Decidable fs.root.Lawful)

variable {fs : FileSystem}

theorem Lawful.wellNamed (h : fs.Lawful) : fs.WellNamed := Entry.Lawful.wellNamed h

/-- The place is that of a directory that can be listed. -/
def HasDirectory (fs : FileSystem) (l : Location) : Prop := ∃ es, fs.entry? l = some (.directory es)

/-- The place is that of a directory, whether it can be listed or not. -/
def DirectoryAt (fs : FileSystem) (l : Location) : Prop :=
  ∃ e, fs.entry? l = some e ∧ e.isDirectory = true

theorem HasDirectory.directoryAt {l : Location} (h : fs.HasDirectory l) : fs.DirectoryAt l := by
  obtain ⟨es, hes⟩ := h
  exact ⟨_, hes, rfl⟩

/-- A directory can be listed, or has its cause why it cannot. -/
theorem DirectoryAt.cases {l : Location} (h : fs.DirectoryAt l) :
    fs.HasDirectory l ∨ ∃ cause, fs.entry? l = some (.closed cause) := by
  obtain ⟨e, he, hdir⟩ := h
  cases e with
  | directory es => exact .inl ⟨es, he⟩
  | closed cause => exact .inr ⟨cause, he⟩
  | file _ | link _ | device => cases hdir

/-- There is nothing below what is no directory. -/
theorem hasDirectory_of_concat {l : Location} {name : Name} {e : Entry}
    (h : fs.entry? (l ++ [name]) = some e) : fs.HasDirectory l := by
  have hat : Entry.at? (l ++ [name]) fs.root = some e := h
  rw [Entry.at?_concat] at hat
  obtain ⟨es, hes, -⟩ := Option.bind_eq_some_iff.mp hat
  obtain ⟨here, hhere, hentries⟩ := Option.bind_eq_some_iff.mp hes
  exact ⟨es, Entry.eq_directory_of_entries? hentries ▸ hhere⟩

/-- Every place on the way to an entry is that of a directory. -/
theorem hasDirectory_of_append {l rest : Location} {e : Entry} (hrest : rest ≠ [])
    (h : fs.entry? (l ++ rest) = some e) : fs.HasDirectory l := by
  induction rest using List.reverseRecOn generalizing e with
  | nil => exact absurd rfl hrest
  | append_singleton rest name ih =>
    rw [← List.append_assoc] at h
    have habove := hasDirectory_of_concat h
    cases rest with
    | nil => rwa [List.append_nil] at habove
    | cons n rest =>
      obtain ⟨es, hes⟩ := habove
      exact ih (List.cons_ne_nil _ _) hes

/-- A root that is a directory is located. -/
theorem locateDirectory_of_directoryAt {root : Path} {place : Location}
    (hplace : fs.locate root = .ok place) (hdir : fs.DirectoryAt place) :
    fs.locateDirectory root = .ok place := by
  obtain ⟨e, he, hdir⟩ := hdir
  rw [locateDirectory, hplace]
  dsimp only
  rw [he]
  exact if_pos hdir

end FileSystem

namespace Station

variable {fs : FileSystem} {d : Station} {name : Name} {e : Entry}

theorem entries_eq {es : List (Name × Entry)} (h : fs.entry? d.place = some (.directory es)) :
    d.entries fs = es := by
  rw [entries, h]
  rfl

theorem entries_of_not_hasDirectory (h : ¬fs.HasDirectory d.place) : d.entries fs = [] := by
  rw [entries]
  cases hplace : fs.entry? d.place with
  | none => rfl
  | some e =>
    cases e with
    | file _ | link _ | closed _ | device => rfl
    | directory es => exact absurd ⟨es, hplace⟩ h

/-- What is told of a directory depends on what is at its place. -/
theorem unlisted_of_alike {fs' : FileSystem}
    (h : (fs'.entry? d.place).map Entry.bare = (fs.entry? d.place).map Entry.bare) :
    d.unlisted fs' = d.unlisted fs := by
  rw [unlisted, unlisted]
  cases hplace : fs.entry? d.place with
  | none =>
    rw [hplace] at h
    rw [Option.map_eq_none_iff.mp h]
  | some e =>
    rw [hplace] at h
    obtain ⟨e', he', hbare⟩ := Option.map_eq_some_iff.mp h
    rw [he']
    cases e <;> cases e' <;> cases hbare <;> rfl

/-- What a directory lists is what its names lead to. -/
theorem mem_entries_iff (hfs : fs.Lawful) :
    (name, e) ∈ d.entries fs ↔ fs.entry? (d.place ++ [name]) = some e := by
  constructor
  · intro hmem
    by_cases hdir : fs.HasDirectory d.place
    · obtain ⟨es, hes⟩ := hdir
      rw [entries_eq hes] at hmem
      rw [FileSystem.entry?_concat hes]
      cases Entry.Lawful.at? hfs hes with
      | directory hnodup _ _ => exact (Entry.child?_eq_some_iff hnodup).mpr hmem
    · rw [entries_of_not_hasDirectory hdir] at hmem
      cases hmem
  · intro he
    obtain ⟨es, hes⟩ := FileSystem.hasDirectory_of_concat he
    rw [FileSystem.entry?_concat hes] at he
    rw [entries_eq hes]
    exact Entry.mem_of_child? he

/-- The entries of a directory have ordinary names. -/
theorem ordinary_of_mem_entries (hfs : fs.Lawful) (h : (name, e) ∈ d.entries fs) :
    Path.Ordinary name := by
  obtain ⟨es, hes⟩ := FileSystem.hasDirectory_of_concat ((mem_entries_iff hfs).mp h)
  rw [entries_eq hes] at h
  cases Entry.Lawful.at? hfs hes with
  | directory _ hnames _ => exact hnames _ h

end Station

/-! ### Paths that go on with a name -/

namespace Path

variable {p : Path} {name : Name}

/-- The steps into the names of a path, and nothing for a slash at its end. -/
def moves (p : Path) : List Step :=
  ((segments p.bytes).filter (!·.isEmpty)).map steps.step

theorem segments_ne_nil (bytes : List UInt8) : segments bytes ≠ [] := by
  cases bytes with
  | nil => exact List.cons_ne_nil _ _
  | cons b bytes =>
    rw [segments]
    split_ifs
    · exact List.cons_ne_nil _ _
    · split <;> exact List.cons_ne_nil _ _

/-- A slash separates what is before it from what comes after. -/
theorem segments_append (before after : List UInt8) :
    segments (before ++ slash :: after) = segments before ++ segments after := by
  induction before with
  | nil => simp [segments]
  | cons b before ih =>
    rw [List.cons_append, segments, segments, ih]
    split_ifs
    · rfl
    · obtain ⟨s, ss, hsegments⟩ := List.exists_cons_of_ne_nil (segments_ne_nil before)
      rw [hsegments]
      rfl

/-- A name that a path goes on with is its last segment, and the segments before it are those of the
path, up to empty ones. -/
theorem segments_join (hslash : slash ∉ name) :
    ∃ before, segments (p.join ⟨name⟩).bytes = before ++ [name] ∧
      before.filter (!·.isEmpty) = (segments p.bytes).filter (!·.isEmpty) := by
  rw [bytes_join hslash, base]
  by_cases hempty : p.bytes.isEmpty
  · rw [List.isEmpty_iff.mp hempty]
    exact ⟨[], segments_of_not_mem hslash, rfl⟩
  by_cases hlast : p.bytes.getLast? = some slash
  · -- The slash is there already, and the last segment of the path is empty.
    obtain ⟨before, hbytes⟩ := List.getLast?_eq_some_iff.mp hlast
    rw [if_pos (by simp [hlast]), hbytes, List.append_assoc, List.singleton_append,
      segments_append, segments_of_not_mem hslash, segments_append]
    exact ⟨segments before, rfl, by simp [segments]⟩
  · rw [if_neg (by simp [hempty, hlast]), List.append_assoc, List.singleton_append,
      segments_append, segments_of_not_mem hslash]
    exact ⟨segments p.bytes, rfl, rfl⟩

/-- A path ends in the name that it goes on with. -/
theorem fileName?_join (h : Ordinary name) : (p.join ⟨name⟩).fileName? = some name := by
  obtain ⟨⟨hne, hslash⟩, hdot, hdots⟩ := h
  have hcomponent : component? name = some (.name name) := by
    rw [component?]
    · exact hne
    · exact hdot
    · exact hdots
  obtain ⟨before, hsegments, -⟩ := segments_join (p := p) hslash
  have hlast : (p.join ⟨name⟩).components.getLast? = some (.name name) := by
    rw [components, hsegments, List.filterMap_append, List.filterMap_cons_some hcomponent,
      List.filterMap_nil, ← List.append_assoc, List.getLast?_concat]
  rw [fileName?, hlast]

/-- The ending of a path is that of the name that it goes on with. -/
theorem hasSuffix_join (h : Ordinary name) (suffix : String) :
    (p.join ⟨name⟩).hasSuffix suffix = true ↔
      ∃ text, Utf8.decode? name = some text ∧ suffix.toList <:+ text.toList := by
  rw [hasSuffix, fileName?_join h, Option.bind_some]
  cases Utf8.decode? name with
  | none => simp
  | some text => simp

/-! ### Steps of a path -/

theorem step_of_ordinary (h : Ordinary name) : steps.step name = .into name := by
  rw [steps.step, if_neg h.2.1, if_neg h.2.2]

/-- A path is followed into its names; a slash may come after them. -/
theorem steps_cases (p : Path) : p.steps = p.moves ∨ p.steps = p.moves ++ [.slash] := by
  have hsplit := List.dropLast_concat_getLast (segments_ne_nil p.bytes)
  generalize (segments p.bytes).getLast _ = last at hsplit
  generalize (segments p.bytes).dropLast = inner at hsplit
  rw [steps, moves, ← hsplit, List.dropLast_concat, List.getLast?_concat]
  cases last with
  | nil =>
    dsimp only
    split_ifs with hinner
    · left
      simpa using hinner
    · right
      simp
  | cons b last => left; simp

theorem steps_join (h : Ordinary name) : (p.join ⟨name⟩).steps = p.moves ++ [.into name] := by
  obtain ⟨before, hsegments, hfilter⟩ := segments_join (p := p) h.1.2
  rw [steps, hsegments, List.dropLast_concat, List.getLast?_concat]
  obtain ⟨b, r, hname⟩ := List.exists_cons_of_ne_nil h.1.1
  rw [hfilter, hname]
  dsimp only
  rw [← hname, step_of_ordinary h]
  rfl

end Path

end SymbolIndex
