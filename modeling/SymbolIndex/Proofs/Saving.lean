import SymbolIndex.Config.File
import SymbolIndex.Proofs.FileSystem.Resolution

/-!
# What saving changes

Settings are saved in two steps, each of which can fail: the directories above the file are made, and
the file is written. The first step can stop after some of the directories. Up to there it has only
added directories, and each is at a place that the path itself or a path above it leads to
(`FileSystem.AddsDirectories`). One call of `makeDirectory` does so, and what is added stays where it
is, so any number of calls do (`FileSystem.addsDirectories_makeDirectoriesUpTo`).

The second step either changes nothing or gives one file other bytes, also where it fails
(`FileSystem.write_cases`). So whatever saving answers, no other file is touched
(`Settings.save_effect`). The file itself may be lost: it is emptied before it is written, and the
disk may run out of room (`Settings.not_save_effect`).
-/

namespace SymbolIndex

open Text

/-- The first path is the parent of the second, or above the parent. -/
inductive Path.Above : Path → Path → Prop
  | parent {p q : Path} (h : p.parent? = some q) : Above q p
  | further {p q above : Path} (h : p.parent? = some q) (habove : Above above q) : Above above p

namespace FileSystem

variable {disk : Disk} {fs fs' fs'' : FileSystem} {P Q : Path → Prop} {p path : Path}
  {bytes : List UInt8}

/-! ### Making directories -/

/-- The second file system is the first one with more directories, each at a place that one of the
paths leads to. -/
structure AddsDirectories (fs : FileSystem) (P : Path → Prop) (fs' : FileSystem) : Prop where
  workingDirectory : fs'.workingDirectory = fs.workingDirectory
  alike : ∀ l e, fs.entry? l = some e → fs.Alike fs' l
  new : ∀ l e, fs.entry? l = none → fs'.entry? l = some e →
    fs'.HasDirectory l ∧ ∃ p, P p ∧ fs'.locate p = .ok l

namespace AddsDirectories

theorem refl (fs : FileSystem) (P : Path → Prop) : fs.AddsDirectories P fs where
  workingDirectory := rfl
  alike _ _ _ := rfl
  new l e hnone he := by
    rw [hnone] at he
    cases he

theorem mono (h : fs.AddsDirectories P fs') (hPQ : ∀ p, P p → Q p) :
    fs.AddsDirectories Q fs' where
  workingDirectory := h.workingDirectory
  alike := h.alike
  new l e hnone he := by
    obtain ⟨hdir, p, hp, hl⟩ := h.new l e hnone he
    exact ⟨hdir, p, hPQ p hp, hl⟩

/-- What is no directory is the same. -/
theorem entry? (h : fs.AddsDirectories P fs') {l : Location} {e : Entry}
    (he : fs.entry? l = some e) (hentries : e.entries? = none) : fs'.entry? l = some e :=
  Alike.entry? (h.alike l e he) he hentries

theorem keeps (h : fs.AddsDirectories P fs') : fs.Keeps fs' where
  workingDirectory := h.workingDirectory
  entry l e he := by
    have hbare := h.alike l e he
    rw [Alike, he] at hbare
    obtain ⟨e', he', heq⟩ := Option.map_eq_some_iff.mp hbare
    exact ⟨e', he', Entry.shape_eq_of_bare_eq heq⟩

theorem trans (h : fs.AddsDirectories P fs') (h' : fs'.AddsDirectories P fs'') :
    fs.AddsDirectories P fs'' where
  workingDirectory := h'.workingDirectory.trans h.workingDirectory
  alike l e he := by
    obtain ⟨e', he', -⟩ := h.keeps.entry l e he
    exact (h'.alike l e' he').trans (h.alike l e he)
  new l e hnone he := by
    cases hl : fs'.entry? l with
    | none => exact h'.new l e hl he
    | some e' =>
      -- It was new before, and its path still leads there.
      obtain ⟨⟨es, hes⟩, p, hp, hlocate⟩ := h.new l e' hnone hl
      exact ⟨h'.keeps.directory hes, p, hp, h'.keeps.locate hlocate⟩

end AddsDirectories

/-- One directory is made, at the place that its path leads to then. -/
theorem addsDirectories_of_makeDirectory (h : fs.makeDirectory disk p = .ok fs') :
    fs.AddsDirectories (· = p) fs' := by
  rw [makeDirectory] at h
  cases ht : fs.resolve false p with
  | error cause =>
    rw [ht] at h
    cases h
  | ok t =>
    rw [ht] at h
    cases t with
    | existing l => cases h
    | absent d name slashed =>
      obtain ⟨m, hm, rfl⟩ := except_map_eq_ok h
      obtain rfl := Disk.eq_of_allow hm
      obtain ⟨es, hes, hchild⟩ := resolve_absent ht
      have htakes := Entry.takes_of_absent hes hchild
      have hnone : fs.entry? (d ++ [name]) = none := (entry?_concat hes name).trans hchild
      have hbelow : ∀ name l, Entry.at? (name :: l) (.directory []) = none := fun _ _ => rfl
      have hkeeps : fs.Keeps (fs.set (d ++ [name]) (.directory [])) := by
        refine keeps_set htakes hbelow fun e he => ?_
        rw [hnone] at he
        cases he
      refine ⟨rfl, fun l e he => Entry.at?_setAt_of_ne htakes hbelow ?_, fun l e hl he => ?_⟩
      · rintro rfl
        rw [hnone] at he
        cases he
      · by_cases heq : l = d ++ [name]
        · subst heq
          have hmade := Entry.at?_setAt_self htakes (.directory [])
          exact ⟨⟨[], hmade⟩, p, rfl, locate_of_keeps hkeeps ht (fun _ => Target.noConfusion)
            ⟨_, hmade, fun target => Entry.noConfusion, fun _ => ⟨[], rfl⟩⟩⟩
        · have halike : fs.Alike (fs.set (d ++ [name]) (.directory [])) l :=
            Entry.at?_setAt_of_ne htakes hbelow heq
          rw [Alike, he, hl] at halike
          cases halike

theorem addsDirectories_of_ensureDirectory (h : fs.ensureDirectory disk p = .ok fs') :
    fs.AddsDirectories (· = p) fs' := by
  rw [ensureDirectory] at h
  split at h
  · rename_i made hmade
    cases h
    exact addsDirectories_of_makeDirectory hmade
  · split at h
    · cases h
      exact .refl fs _
    · cases h

/-- **Directories are made at the path and above it**, and nothing else is done, wherever that
stops. -/
theorem addsDirectories_makeDirectoriesUpTo (disk : Disk) (fs : FileSystem) (fuel : Nat)
    (p : Path) :
    fs.AddsDirectories (fun q => q = p ∨ q.Above p) (makeDirectoriesUpTo disk fuel fs p).2 := by
  induction fuel generalizing fs p with
  | zero => exact .refl fs _
  | succ fuel ih =>
    rw [makeDirectoriesUpTo]
    split
    · exact .refl fs _
    split
    · rename_i made hmade
      exact (addsDirectories_of_makeDirectory hmade).mono fun _ => .inl
    · split
      · exact .refl fs _
      · rename_i above habove
        have hup := (ih fs above).mono (Q := fun q => q = p ∨ q.Above p) fun q hq =>
          .inr (hq.elim (fun heq => heq ▸ .parent habove) (.further habove))
        split
        · rename_i cause made hmade
          rwa [hmade] at hup
        · rename_i made hmade
          rw [hmade] at hup
          split
          · rename_i ensured hensured
            exact hup.trans ((addsDirectories_of_ensureDirectory hensured).mono fun _ => .inl)
          · exact hup
    · exact .refl fs _

/-! ### Saving -/

/-- From the first file system to the second, a path has become that of a file. -/
structure SavesOnly (fs : FileSystem) (path : Path) (fs' : FileSystem) : Prop where
  /-- No entry is removed or is of another kind than before, and no link has another target. -/
  keeps : fs.Keeps fs'
  /-- The path leads where it led before. -/
  locate : ∀ l, fs.locate path = .ok l → fs'.locate path = .ok l
  /-- A file has its bytes, unless it is the one that the path leads to. -/
  files : ∀ l old, fs.entry? l = some (.file old) → fs'.locate path ≠ .ok l →
    fs'.entry? l = some (.file old)
  /-- Only directories at paths above are new, and the file that the path leads to. -/
  new : ∀ l e, fs.entry? l = none → fs'.entry? l = some e →
    (fs'.HasDirectory l ∧ ∃ above, Path.Above above path ∧ fs'.locate above = .ok l) ∨
      (fs'.locate path = .ok l ∧ ∃ stored, e = .file (.ok stored))

/-- What saving `bytes` at a path has done to a file system if it answers with `result`. -/
structure SaveEffect (disk : Disk) (fs : FileSystem) (path : Path) (bytes : List UInt8)
    (result : Except Error Unit) (fs' : FileSystem) : Prop extends fs.SavesOnly path fs' where
  /-- If saving fails, every file has its bytes; or the disk had no room for the file that the path
  leads to, which has as many of the new bytes now as there is room for. -/
  failed : ∀ e, result = .error e →
    (∀ l old, fs.entry? l = some (.file old) → fs'.entry? l = some (.file old)) ∨
      ∃ l limit, fs'.locate path = .ok l ∧ disk.limit? l = some limit ∧
        limit.room < bytes.length ∧ e = .io path limit.cause ∧
        fs'.entry? l = some (.file (.ok (bytes.take limit.room)))
  /-- If saving succeeds, the bytes are in the file, unless the path leads to a device. -/
  saved : result = .ok () → fs'.read path = .ok bytes ∨ fs'.isDevice path = true

namespace AddsDirectories

/-- Where only directories were made, saving has touched no file. -/
theorem savesOnly (h : fs.AddsDirectories (Path.Above · path) fs') : fs.SavesOnly path fs' where
  keeps := h.keeps
  locate _ := h.keeps.locate
  files _ _ hl _ := h.entry? hl rfl
  new l e hnone he := .inl (h.new l e hnone he)

/-- The file that was opened is the only one that is touched after that. -/
theorem savesOnly_set (h : fs.AddsDirectories (Path.Above · path) fs') {l : Location}
    (hopens : fs'.Opens path l) (stored : List UInt8) :
    fs.SavesOnly path (fs'.set l (.file (.ok stored))) := by
  have halike : ∀ m ≠ l, fs'.Alike (fs'.set l (.file (.ok stored))) m := fun m hne =>
    Entry.at?_setAt_of_ne hopens.takes (Entry.at?_cons_of_entries? rfl) hne
  have hkeeps := keeps_set_file hopens.takes (.ok stored)
  have hl := hopens.locate (.ok stored)
  have hstored := Entry.at?_setAt_self hopens.takes (.file (.ok stored))
  refine ⟨h.keeps.trans hkeeps, fun m hm => hkeeps.locate (h.keeps.locate hm), ?_, ?_⟩
  · intro m old hm hne
    have hml : m ≠ l := fun heq => hne (heq ▸ hl)
    exact Alike.entry? (halike m hml) (h.entry? hm rfl) rfl
  · intro m e hnone he
    by_cases hml : m = l
    · subst hml
      exact .inr ⟨hl, stored, Option.some.inj (he.symm.trans hstored)⟩
    · -- A directory that was made before the file.
      have hbare := halike m hml
      rw [Alike, he] at hbare
      obtain ⟨e', he', -⟩ := Option.map_eq_some_iff.mp hbare.symm
      obtain ⟨⟨es, hes⟩, above, habove, hm⟩ := h.new m e' hnone he'
      exact .inl ⟨hkeeps.directory hes, above, habove, hkeeps.locate hm⟩

/-- Saving that fails before it opens the file has only made directories. -/
theorem saveEffect_error (h : fs.AddsDirectories (Path.Above · path) fs') (e : Error) :
    SaveEffect disk fs path bytes (.error e) fs' where
  toSavesOnly := h.savesOnly
  failed _ _ := .inl fun _ _ hl => h.entry? hl rfl
  saved hok := by cases hok

/-- **Saving that gets to the file** does what writing does. -/
theorem saveEffect_write (h : fs.AddsDirectories (Path.Above · path) fs') :
    SaveEffect disk fs path bytes
      ((fs'.write disk path bytes).1.mapError (.io path))
      (fs'.write disk path bytes).2 := by
  have hsaved : (fs'.write disk path bytes).1 = .ok () →
      (fs'.write disk path bytes).2.read path = .ok bytes ∨
        (fs'.write disk path bytes).2.isDevice path = true := read_of_write
  obtain ⟨cause, hwrite⟩ | ⟨l, -, -, hwrite⟩ | ⟨l, hopens, hwrite | ⟨limit, hlimit, hroom, hwrite⟩⟩ :=
    fs'.write_cases disk path bytes
  · rw [hwrite]
    exact h.saveEffect_error _
  · rw [hwrite] at hsaved ⊢
    exact ⟨h.savesOnly, (fun e he => by cases he), fun _ => hsaved rfl⟩
  · rw [hwrite] at hsaved ⊢
    exact ⟨h.savesOnly_set hopens bytes, (fun e he => by cases he), fun _ => hsaved rfl⟩
  · rw [hwrite]
    refine ⟨h.savesOnly_set hopens _, fun e he => .inr ?_, (fun hok => by cases hok)⟩
    exact ⟨l, limit, hopens.locate _, hlimit, hroom, (Except.error.inj he).symm,
      Entry.at?_setAt_self hopens.takes _⟩

end AddsDirectories

end FileSystem

namespace Settings

/-- **Saving changes one file and makes the directories above it.** If it fails it has changed no
file, unless it is the writing that failed, which leaves the file with a part of the text; if it
succeeds the file has the whole text. -/
theorem save_effect (disk : Disk) (fs : FileSystem) (path : Path) (s : Settings) :
    FileSystem.SaveEffect disk fs path (Utf8.encode s.toToml) (save disk fs path s).1
      (save disk fs path s).2 := by
  unfold save
  extract_lets above
  have hadds : fs.AddsDirectories (Path.Above · path) above.2 := by
    dsimp only [above]
    split
    · exact .refl fs _
    · rename_i parent hparent
      have hup := (FileSystem.addsDirectories_makeDirectoriesUpTo disk fs
        (parent.bytes.length + 2) parent).mono (Q := (Path.Above · path)) fun q hq =>
          hq.elim (fun heq => heq ▸ .parent hparent) (.further hparent)
      split
      all_goals
        rename_i hmade
        rw [FileSystem.makeDirectories] at hmade
        rwa [hmade] at hup
  clear_value above
  obtain ⟨made, fs₁⟩ := above
  cases made with
  | error e => exact hadds.saveEffect_error e
  | ok u =>
    have heffect : FileSystem.SaveEffect disk fs path (Utf8.encode s.toToml)
        ((fs₁.write disk path (Utf8.encode s.toToml)).1.mapError (.io path))
        (fs₁.write disk path (Utf8.encode s.toToml)).2 := hadds.saveEffect_write
    dsimp only
    cases hwrite : fs₁.write disk path (Utf8.encode s.toToml) with
    | mk result fs₂ =>
      rw [hwrite] at heffect
      cases result with
      | error cause => exact heffect
      | ok u => exact heffect

/-- Saving is not all or nothing. A file whose disk has room for four bytes loses what it had and is
left with the first of the new ones, and saving fails. What is saved to the null device is nowhere,
and saving succeeds. -/
theorem not_save_effect :
    let cause : IoCause := .other "No space left on device (os error 28)"
    let full : Disk := ⟨fun _ => none, fun _ => some ⟨4, cause⟩⟩
    let fs : FileSystem := ⟨.directory [(Utf8.encode "c.toml", .file (Utf8.encode "[extract]\n"))], []⟩
    let fs' : FileSystem := ⟨.directory [(Utf8.encode "c.toml", .link "/dev/null"),
      (Utf8.encode "dev", .directory [(Utf8.encode "null", .device)])], []⟩
    (save full fs "/c.toml" .standard).1 = .error (.io "/c.toml" cause) ∧
      fs.read "/c.toml" = .ok (Utf8.encode "[extract]\n") ∧
      (save full fs "/c.toml" .standard).2.read "/c.toml" = .ok (Utf8.encode "[sca") ∧
      (save .ample fs' "/c.toml" .standard).1 = .ok () ∧
      (save .ample fs' "/c.toml" .standard).2.read "/c.toml" = .ok [] ∧
      Utf8.encode (toToml .standard) ≠ [] := by
  intro cause full fs fs'
  decide +kernel

end Settings

end SymbolIndex
