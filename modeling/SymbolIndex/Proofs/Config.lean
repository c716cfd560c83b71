import SymbolIndex.Config.File
import SymbolIndex.Proofs.Config.Setting
import SymbolIndex.Proofs.FileSystem
import SymbolIndex.Proofs.Text.Utf8

/-!
# Settings that are saved are loaded again

The text that settings are saved as is laid out as two tables with an entry for each setting
(`Settings.layout`). It may be edited before it is loaded again: entries of settings may be deleted,
and with them a table in which there are none left, and entries with other names may be added to the
document and to every table (`Settings.Edited`). What is laid out is read as it was written, so the
document holds the settings that were kept, and these are loaded (`Settings.load_of_edited`).

If nothing was edited, all settings are loaded (`Settings.load_of_save`), since decoding undoes
encoding and what is written to a file is what is read from it.
-/

namespace SymbolIndex

open Toml Text

namespace Settings

variable {s : Settings} {keep : Setting → Bool} {l : Layout}

/-! ### Layouts -/

/-- The entries that hold the settings of a table, if they are kept. -/
def writtenIn (s : Settings) (keep : Setting → Bool) (table : String) : List Written :=
  (Setting.all.filter fun x => x.table = table && keep x).map s.written

theorem mem_writtenIn_iff {table : String} {w : Written} :
    w ∈ s.writtenIn keep table ↔
      ∃ x : Setting, x.table = table ∧ keep x = true ∧ w = s.written x := by
  rw [writtenIn, List.mem_map]
  constructor
  · rintro ⟨x, hx, rfl⟩
    obtain ⟨htable, hkeep⟩ := Bool.and_eq_true_iff.mp (List.mem_filter.mp hx).2
    exact ⟨x, of_decide_eq_true htable, hkeep, rfl⟩
  · rintro ⟨x, htable, hkeep, rfl⟩
    refine ⟨x, List.mem_filter.mpr ⟨x.mem_all, ?_⟩, rfl⟩
    rw [hkeep, decide_eq_true htable]
    rfl

/-- No name comes twice in a table. -/
theorem nodup_writtenIn (s : Settings) (keep : Setting → Bool) (table : String) :
    ((s.writtenIn keep table).map (·.name)).Nodup := by
  have hnames : (fun x => (s.written x).name) = Setting.name := funext s.name_written
  have hall : Setting.all.Nodup := by decide
  rw [writtenIn, List.map_map, Function.comp_def, hnames]
  exact List.Pairwise.map _ (fun _ _ hne heq => hne (Setting.name_injective heq))
    (List.Pairwise.filter _ hall)

/-- How the settings that are kept are written. -/
def layout (s : Settings) (keep : Setting → Bool) : Layout where
  top := []
  sections :=
    [⟨"scan".toList, "scan", (s.writtenIn keep "scan").map .entry ++ [.empty]⟩,
      ⟨"extract".toList, "extract", (s.writtenIn keep "extract").map .entry⟩]

theorem toList_toToml (s : Settings) : s.toToml.toList = (s.layout fun _ => true).chars := by
  simp [toToml, ScanSettings.lines, ExtractSettings.lines, layout, writtenIn, Setting.all,
    Setting.table, written, Written.ofText, Written.ofTexts, Written.ofTruth, Layout.chars, textOf,
    Section.chars, Line.chars, headerText, entryText]

/-- The layout is that of the settings after some entries were deleted and others were added. -/
structure Edited (s : Settings) (keep : Setting → Bool) (l : Layout) : Prop where
  /-- Every key and every value is read as such, and in no table a name comes twice. -/
  readable : l.Readable
  /-- An entry that is added in front of the tables is none of the tables. -/
  top : ∀ w ∈ entriesOf l.top, ∀ x : Setting, w.name ≠ x.table
  /-- Of the settings that belong in a table those that are kept are left there. -/
  left : ∀ t ∈ l.sections,
    ((entriesOf t.lines).filter fun w => Setting.all.any fun x =>
      x.table = t.name && x.name = w.name).Perm (s.writtenIn keep t.name)
  /-- A table is left out only if there is no setting in it. -/
  there : ∀ x : Setting, keep x = true → ∃ t ∈ l.sections, t.name = x.table

/-- Entries were deleted, and none was added. -/
theorem edited_layout (s : Settings) (keep : Setting → Bool) : s.Edited keep (s.layout keep) where
  readable := by
    have hreadable : ∀ table, ∀ w ∈ s.writtenIn keep table, w.Readable := by
      intro table w hw
      obtain ⟨x, -, -, rfl⟩ := mem_writtenIn_iff.mp hw
      exact s.readable_written x
    refine ⟨List.forall_mem_nil _, List.forall_mem_cons.mpr ⟨?_, List.forall_mem_singleton.mpr ?_⟩,
      show ["scan", "extract"].Nodup by decide⟩
    · refine ⟨isKeyText_of_isBare (by decide), ?_, ?_⟩
      · simpa using hreadable "scan"
      · simpa using s.nodup_writtenIn keep "scan"
    · refine ⟨isKeyText_of_isBare (by decide), ?_, ?_⟩
      · simpa using hreadable "extract"
      · simpa using s.nodup_writtenIn keep "extract"
  top := List.forall_mem_nil _
  left := by
    have hall : ∀ table, ((s.writtenIn keep table).filter fun w =>
        Setting.all.any fun x => x.table = table && x.name = w.name) = s.writtenIn keep table := by
      intro table
      refine List.filter_eq_self.mpr fun w hw => ?_
      obtain ⟨x, hx, -, rfl⟩ := mem_writtenIn_iff.mp hw
      exact List.any_eq_true.mpr ⟨x, x.mem_all, by simp [hx, name_written]⟩
    refine List.forall_mem_cons.mpr ⟨?_, List.forall_mem_singleton.mpr ?_⟩
    · simp [hall]
    · simp [hall]
  there x _ := by
    rcases x.table_cases with hx | hx
    · exact ⟨_, List.mem_cons_self, hx.symm⟩
    · exact ⟨_, List.mem_cons_of_mem _ List.mem_cons_self, hx.symm⟩

/-- What is left of a setting in its table. -/
theorem Edited.mem_iff (h : s.Edited keep l) {t : Section} (ht : t ∈ l.sections) {x : Setting}
    (hx : x.table = t.name) {w : Written} (hw : w.name = x.name) :
    w ∈ entriesOf t.lines ↔ keep x = true ∧ w = s.written x := by
  have hsetting : (Setting.all.any fun y => y.table = t.name && y.name = w.name) = true :=
    List.any_eq_true.mpr ⟨x, x.mem_all, by simp [hx, hw]⟩
  have hleft := (h.left t ht).mem_iff (a := w)
  rw [List.mem_filter, and_iff_left hsetting, mem_writtenIn_iff] at hleft
  rw [hleft]
  constructor
  · rintro ⟨y, -, hkeep, rfl⟩
    rw [name_written] at hw
    obtain rfl := Setting.name_injective hw
    exact ⟨hkeep, rfl⟩
  · rintro ⟨hkeep, rfl⟩
    exact ⟨x, hx, hkeep, rfl⟩

/-- A document that is laid out in this way holds the settings that are kept. -/
theorem Edited.heldBy (h : s.Edited keep l) {entries : Entries}
    (hentries : Matches entries l.expectation) : s.HeldBy keep entries := by
  refine ⟨fun x v hv => ?_, fun x hx => ?_⟩
  · obtain ⟨e, he, hname, hholds⟩ := hentries.exists_of_mem hv
    rcases List.mem_append.mp he with he | he
    · obtain ⟨w, hw, rfl⟩ := List.mem_map.mp he
      exact absurd hname (h.top w hw x)
    obtain ⟨t, ht, rfl⟩ := List.mem_map.mp he
    obtain ⟨span, inner, rfl, hinner⟩ := hholds
    refine ⟨span, .header, inner, rfl, fun y hy => ?_⟩
    have hplace : y.table = t.name := hy.trans hname.symm
    have hmem : ∀ u, (y.name, u) ∈ inner → keep y = true ∧ (s.written y).holds u := by
      intro u hu
      obtain ⟨e, he, hname, hholds⟩ := hinner.exists_of_mem hu
      obtain ⟨w, hw, rfl⟩ := List.mem_map.mp he
      obtain ⟨hkeep, rfl⟩ := (h.mem_iff ht hplace hname).mp hw
      exact ⟨hkeep, hholds⟩
    refine ⟨⟨fun ⟨u, hu⟩ => (hmem u hu).1, fun hkeep => ?_⟩, fun u hu => (hmem u hu).2⟩
    have hw := (h.mem_iff ht hplace (s.name_written y)).mpr ⟨hkeep, rfl⟩
    have hthere := hinner.exists_mem (List.mem_map_of_mem hw)
    rwa [name_written] at hthere
  · obtain ⟨t, ht, hname⟩ := h.there x hx
    rw [← hname]
    exact hentries.exists_mem (List.mem_append_right _ (List.mem_map_of_mem ht))

/-- **The settings that are kept are read off the edited text.** -/
theorem parse_of_edited (h : s.Edited keep l) :
    parse (String.ofList l.chars) = .ok (s.only keep) := by
  obtain ⟨entries, hparse, hentries⟩ := h.readable.exists_entries
  rw [parse, String.toList_ofList, hparse]
  exact ofEntries_of_heldBy (h.heldBy hentries)

section Reading

variable {fs : FileSystem} {path : Path} {text : String}

/-- Loading reads the text of the file. -/
theorem load_eq_ofText (hread : fs.read path = .ok (Utf8.encode text)) :
    load fs path = ofText path text := by
  rw [load, hread]
  dsimp only
  rw [Utf8.decode?_encode]

theorem load_of_read (hread : fs.read path = .ok (Utf8.encode text)) (h : parse text = .ok s) :
    load fs path = .ok s := by
  rw [load_eq_ofText hread, ofText, h]

/-- A text that is not read is not loaded. -/
theorem load_of_read_of_fault (hread : fs.read path = .ok (Utf8.encode text))
    (h : (parse text).toOption = none) : (load fs path).toOption = none := by
  rw [load_eq_ofText hread, ofText]
  cases hparse : parse text with
  | ok s => rw [hparse] at h; cases h
  | error f => rfl

end Reading

variable {disk : Disk} {fs : FileSystem} {path : Path}

/-- What saving leaves behind was written to the file. -/
theorem exists_write_of_save {fs' : FileSystem} (h : save disk fs path s = (.ok (), fs')) :
    ∃ fs₁ : FileSystem, fs₁.write disk path (Utf8.encode s.toToml) = (.ok (), fs') := by
  rw [save] at h
  split at h
  · cases h
  · rename_i fs₁ _
    split at h
    · rename_i u fs₂ hwrite
      cases h
      exact ⟨fs₁, hwrite⟩
    · cases h

/-- What was saved to a file is the text of the settings. -/
theorem read_of_save (h : (save disk fs path s).1 = .ok ())
    (hfile : (save disk fs path s).2.isDevice path = false) :
    (save disk fs path s).2.read path = .ok (Utf8.encode s.toToml) := by
  obtain ⟨fs₁, hwrite⟩ := exists_write_of_save (Prod.ext h rfl)
  have hwritten : (fs₁.write disk path (Utf8.encode s.toToml)).1 = .ok () := by rw [hwrite]
  have hread := FileSystem.read_of_write hwritten
  rw [hwrite] at hread
  exact hread.resolve_right (Bool.eq_false_iff.mp hfile)

/-- **What is left of saved settings is loaded, and the rest is standard.** What was saved is laid
out as all settings are. A file with an edited layout is read as the settings that were kept; so is
any other text, however its entries are written, if these hold the settings that were kept. -/
theorem load_of_edited (s : Settings) (keep : Setting → Bool) (path : Path) :
    (∀ disk fs, (save disk fs path s).1 = .ok () → (save disk fs path s).2.isDevice path = false →
      (save disk fs path s).2.read path =
        .ok (Utf8.encode (String.ofList (s.layout fun _ => true).chars))) ∧
    s.Edited keep (s.layout keep) ∧
    (∀ (fs : FileSystem) (l : Layout), s.Edited keep l →
      fs.read path = .ok (Utf8.encode (String.ofList l.chars)) →
      load fs path = .ok (s.only keep)) ∧
    ∀ (fs : FileSystem) (text : String) (entries : Entries),
      Toml.parse text.toList = .ok entries → s.HeldBy keep entries →
      fs.read path = .ok (Utf8.encode text) → load fs path = .ok (s.only keep) := by
  refine ⟨fun disk fs hsaved hfile => ?_, s.edited_layout keep, fun fs l hl hread => ?_,
    fun fs text entries hparse hentries hread => ?_⟩
  · rw [← toList_toToml, String.ofList_toList]
    exact read_of_save hsaved hfile
  · exact load_of_read hread (parse_of_edited hl)
  · refine load_of_read hread ?_
    rw [parse, hparse]
    exact ofEntries_of_heldBy hentries

/-- An added value has to be one that is read. Lists in lists are values of TOML however deep they
nest, but no more than `depthLimit` of them are read. Here all settings are taken out of the saved
text, the header of one table is left, and under it such a list is added. -/
theorem not_load_of_edited :
    let nested (depth : Nat) := List.replicate depth '[' ++ List.replicate depth ']'
    let text (depth : Nat) := String.ofList ("[scan]\nx = ".toList ++ nested depth)
    let fs (depth : Nat) : FileSystem :=
      ⟨.directory [(Utf8.encode "c", .file (Utf8.encode (text depth)))], []⟩
    load (fs (Toml.depthLimit - 1)) "/c" = .ok .standard ∧
      (load (fs Toml.depthLimit) "/c").toOption = none := by
  intro nested text fs
  have hread (depth : Nat) : (fs depth).read "/c" = .ok (Utf8.encode (text depth)) := rfl
  refine ⟨load_of_read (hread _) ?_, load_of_read_of_fault (hread _) ?_⟩
  · rw [parse, String.toList_ofList]
    decide +kernel
  · rw [parse, String.toList_ofList]
    decide +kernel

/-- Two settings of a table are left, in another order, and the other table is gone; an entry in front
and a table were added, and a list under a name with a blank. From a document in which none is left,
but a table with nothing in it, the standard settings are loaded. -/
theorem load_of_edited_two_of_scan :
    let s : Settings := ⟨⟨"'\"", ["a\\b", "c"], true, false, false⟩, ⟨false, .reject⟩⟩
    let keep : Setting → Bool := fun x => x = .ignoreDirs || x = .followLinks
    let extra : Written := ⟨'"' :: ((escapedLine "a b".toList).toList ++ ['"']), "a b",
      (printList ["d"]).toList, IsTexts ["d"]⟩
    let l : Layout := ⟨[.entry (.ofTruth "strict" true)],
      [⟨"scan".toList, "scan",
          [.entry (s.written .followLinks), .empty, .entry extra, .entry (s.written .ignoreDirs)]⟩,
        ⟨"other".toList, "other", [.entry (.ofText "suffix" ".ts")]⟩]⟩
    let fs : String → FileSystem := fun text =>
      ⟨.directory [(Utf8.encode "c", .file (Utf8.encode text))], []⟩
    String.ofList l.chars = "strict = true\n[scan]\nfollow_links = false\n\n" ++
        "\"a b\" = [\"d\"]\nignore_dirs = [\n    'a\\b',\n    \"c\",\n]\n" ++
        "[other]\nsuffix = \".ts\"\n" ∧
      s.Edited keep l ∧
      load (fs (String.ofList l.chars)) "/c" =
        .ok ⟨⟨".js", ["a\\b", "c"], false, true, false⟩, ⟨true, .lastWins⟩⟩ ∧
      load (fs "extract=\x7b\x7d") "/c" = .ok .standard := by
  intro s keep extra l fs
  have hedited : s.Edited keep l := by
    refine ⟨⟨?_, ?_, show ["strict", "scan", "other"].Nodup by decide⟩, ?_, ?_, fun x hx => ?_⟩
    · exact List.forall_mem_singleton.mpr (Written.readable_ofTruth (by decide))
    · refine List.forall_mem_cons.mpr ⟨⟨isKeyText_of_isBare (by decide), ?_,
        show ["follow_links", "a b", "ignore_dirs"].Nodup by decide⟩, List.forall_mem_singleton.mpr
          ⟨isKeyText_of_isBare (by decide), ?_, show ["suffix"].Nodup by decide⟩⟩
      · have hextra : extra.Readable := ⟨isKeyText_quoted "a b", isValueText_printList⟩
        show ∀ w ∈ [s.written .followLinks, extra, s.written .ignoreDirs], w.Readable
        simp [readable_written, hextra]
      · exact List.forall_mem_singleton.mpr (Written.readable_ofText (by decide))
    · refine List.forall_mem_singleton.mpr fun x => ?_
      cases x <;> exact ne_of_beq_false rfl
    · refine List.forall_mem_cons.mpr ⟨?_, List.forall_mem_singleton.mpr .nil⟩
      exact .swap (s.written .ignoreDirs) (s.written .followLinks) []
    · refine ⟨_, List.mem_cons_self, ?_⟩
      cases x <;> first | rfl | exact absurd hx (by decide)
  have hnone : s.HeldBy (fun _ => false) [("extract", .table ⟨8, 10⟩ .inline [])] := by
    refine ⟨fun x v hv => ?_, fun x hx => absurd hx (by decide)⟩
    obtain ⟨-, rfl⟩ := Prod.mk.inj (List.mem_singleton.mp hv)
    exact ⟨_, _, [], rfl, fun y _ => by simp⟩
  have hread (text : String) : (fs text).read "/c" = .ok (Utf8.encode text) := rfl
  exact ⟨by decide +kernel, hedited,
    (load_of_edited s keep "/c").2.2.1 _ l hedited (hread _),
    (load_of_edited s (fun _ => false) "/c").2.2.2 _ _ _ rfl hnone (hread _)⟩

end Settings

end SymbolIndex
