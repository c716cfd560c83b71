import Mathlib.Data.List.Basic
import SymbolIndex.FileSystem

/-!
# A file that is written can be read

Writing changes a tree of entries at one place: a file gives way to a file, or a directory gets an
entry more (`Entry.Takes`). Every other entry stays what it is, up to what directories have in them
(`Entry.at?_setAt_of_ne`). A path is followed by looking at entries one by one, and does not see what
is in a file. So where every entry is still there and of the same kind (`FileSystem.Keeps`), a path
leads to where it led, and if it led to a name that was missing, to what has that name now
(`FileSystem.follow_of_keeps`).

- `FileSystem.write_cases`: what writing comes to, whether it succeeds or not.
- `FileSystem.read_of_write`: a path gives the bytes that were written at it, unless it leads to a
  device.
-/

namespace SymbolIndex

namespace Entry

/-! ### Entries by their names -/

variable {name name' : Name} {e new : Entry} {es : List (Name × Entry)} {l l' : Location}

theorem child?_setChild_self (name : Name) (e : Entry) (es : List (Name × Entry)) :
    child? name (setChild name e es) = some e := by
  induction es with
  | nil => exact if_pos rfl
  | cons first es ih =>
    obtain ⟨n, old⟩ := first
    rw [setChild]
    by_cases hn : n = name
    · rw [if_pos hn, child?, if_pos hn]
    · rw [if_neg hn, child?, if_neg hn, ih]

theorem child?_setChild_of_ne (h : name' ≠ name) (e : Entry) (es : List (Name × Entry)) :
    child? name' (setChild name e es) = child? name' es := by
  induction es with
  | nil => exact if_neg (Ne.symm h)
  | cons first es ih =>
    obtain ⟨n, old⟩ := first
    rw [setChild]
    by_cases hn : n = name
    · have hne : n ≠ name' := fun heq => h (heq ▸ hn)
      rw [if_pos hn, child?, child?, if_neg hne, if_neg hne]
    · rw [if_neg hn, child?, child?, ih]

/-- Only a directory has entries. -/
theorem eq_directory_of_entries? (h : e.entries? = some es) : e = .directory es := by
  cases e with
  | directory es' =>
    cases h
    rfl
  | file _ | link _ | closed _ | device => cases h

theorem at?_cons_directory (name : Name) (l : Location) (es : List (Name × Entry)) :
    at? (name :: l) (directory es) = (child? name es).bind (at? l) :=
  rfl

theorem at?_concat (l : Location) (name : Name) (e : Entry) :
    at? (l ++ [name]) e = ((at? l e).bind entries?).bind (child? name) := by
  induction l generalizing e with
  | nil =>
    show (e.entries?.bind fun es => (child? name es).bind some) = e.entries?.bind (child? name)
    exact congrArg e.entries?.bind (funext fun es => Option.bind_fun_some _)
  | cons n l ih =>
    cases e with
    | directory es =>
      rw [List.cons_append, at?_cons_directory, at?_cons_directory]
      cases child? n es with
      | none => rfl
      | some child => exact ih child
    | file _ | link _ | closed _ | device => rfl

/-! ### Changing one place -/

/-- There may be a file at the place `l` below: there is one, or the last name on the way is all that
is missing. -/
inductive Takes : Location → Entry → Prop
  | file (contents : Contents) : Takes [] (.file contents)
  | new {name : Name} {es : List (Name × Entry)} (h : child? name es = none) :
      Takes [name] (.directory es)
  | inside {name : Name} {l : Location} {e : Entry} {es : List (Name × Entry)}
      (h : child? name es = some e) (hl : Takes l e) : Takes (name :: l) (.directory es)

theorem takes_of_file {contents : Contents} (h : at? l e = some (.file contents)) :
    Takes l e := by
  induction l generalizing e with
  | nil =>
    cases h
    exact .file contents
  | cons n l ih =>
    obtain ⟨es, hes, hrest⟩ := Option.bind_eq_some_iff.mp h
    obtain ⟨child, hchild, hrest⟩ := Option.bind_eq_some_iff.mp hrest
    obtain rfl := eq_directory_of_entries? hes
    exact .inside hchild (ih hrest)

theorem takes_of_absent (h : at? l e = some (.directory es)) (hnone : child? name es = none) :
    Takes (l ++ [name]) e := by
  induction l generalizing e with
  | nil =>
    cases h
    exact .new hnone
  | cons n l ih =>
    obtain ⟨es', hes, hrest⟩ := Option.bind_eq_some_iff.mp h
    obtain ⟨child, hchild, hrest⟩ := Option.bind_eq_some_iff.mp hrest
    obtain rfl := eq_directory_of_entries? hes
    exact .inside hchild (ih hrest)

/-- Where a file may be there is a file, or nothing. -/
theorem Takes.eq_file (h : Takes l e) (he : at? l e = some new) :
    ∃ contents, new = .file contents := by
  induction h with
  | file contents => exact ⟨contents, (Option.some.inj he).symm⟩
  | new h =>
    rw [at?_cons_directory, h] at he
    cases he
  | inside h _ ih =>
    rw [at?_cons_directory, h] at he
    exact ih he

theorem setAt_inside (h : child? name es = some e) (new : Entry) (l : Location) :
    setAt new (name :: l) (directory es) = directory (setChild name (setAt new l e) es) := by
  cases l with
  | nil => rfl
  | cons n l => rw [setAt, h]; simp

theorem at?_setAt_self (h : Takes l e) (new : Entry) : at? l (setAt new l e) = some new := by
  induction h with
  | file contents => rfl
  | new h =>
    show at? _ (directory (setChild _ new _)) = _
    rw [at?_cons_directory, child?_setChild_self]
    rfl
  | inside h _ ih =>
    rw [setAt_inside h, at?_cons_directory, child?_setChild_self]
    exact ih

/-- The entry without what is in it, if it is a directory. -/
def bare : Entry → Entry
  | directory _ => directory []
  | e => e

/-- The entry without what is in it, be it a directory or a file. -/
def shape : Entry → Entry
  | directory _ => directory []
  | file _ => file (.ok [])
  | e => e

theorem shape_eq_of_bare_eq {e e' : Entry} (h : e'.bare = e.bare) : e'.shape = e.shape := by
  cases e <;> cases e' <;> cases h <;> rfl

theorem exists_of_shape_eq_directory {e : Entry} (h : e.shape = directory []) :
    ∃ es, e = directory es := by
  cases e with
  | directory es => exact ⟨es, rfl⟩
  | file _ | link _ | closed _ | device => cases h

theorem eq_link_of_shape_eq {e : Entry} {target : Path} (h : e.shape = link target) :
    e = link target := by
  cases e with
  | link _ => exact h
  | directory _ | file _ | closed _ | device => cases h

theorem eq_closed_of_shape_eq {e : Entry} {cause : IoCause} (h : e.shape = closed cause) :
    e = closed cause := by
  cases e with
  | closed _ => exact h
  | directory _ | file _ | link _ | device => cases h

theorem at?_cons_of_entries? (h : e.entries? = none) (name : Name) (l : Location) :
    at? (name :: l) e = none := by
  rw [at?, h]
  rfl

/-- Every other place has what it had, but for the entries in directories, if the new entry has
nothing in it. -/
theorem at?_setAt_of_ne (h : Takes l e) (hnew : ∀ name l, at? (name :: l) new = none)
    (hne : l' ≠ l) : (at? l' (setAt new l e)).map bare = (at? l' e).map bare := by
  induction h generalizing l' with
  | file contents =>
    cases l' with
    | nil => exact absurd rfl hne
    | cons m l' => rw [setAt, hnew, at?_cons_of_entries? rfl]
  | @new name es h =>
    cases l' with
    | nil => rfl
    | cons m l' =>
      show (at? (m :: l') (directory (setChild name new es))).map bare = _
      rw [at?_cons_directory, at?_cons_directory]
      by_cases hm : m = name
      · -- Nothing was below the name, and nothing is below the new entry.
        subst hm
        rw [child?_setChild_self, h]
        cases l' with
        | nil => exact absurd rfl hne
        | cons m' l' => exact congrArg (Option.map bare) (hnew m' l')
      · rw [child?_setChild_of_ne hm]
  | @inside name l e es h _ ih =>
    rw [setAt_inside h]
    cases l' with
    | nil => rfl
    | cons m l' =>
      rw [at?_cons_directory, at?_cons_directory]
      by_cases hm : m = name
      · subst hm
        rw [child?_setChild_self, h]
        exact ih fun heq => hne (heq ▸ rfl)
      · rw [child?_setChild_of_ne hm]

end Entry

/-- The place that a path leads to, or would lead to if the name were not missing. -/
def Target.place : Target → Location
  | .existing l => l
  | .absent d name _ => d ++ [name]

namespace Disk

variable {disk : Disk} {l here : Location}

theorem eq_of_allow (h : disk.allow l = .ok here) : here = l := by
  rw [allow] at h
  split at h
  · cases h
  · cases h
    rfl

/-- There is room for the bytes, or only for some of them at the front. -/
theorem store_cases (disk : Disk) (l : Location) (bytes : List UInt8) :
    disk.store l bytes = (.ok (), bytes) ∨
      ∃ limit, disk.limit? l = some limit ∧ limit.room < bytes.length ∧
        disk.store l bytes = (.error limit.cause, bytes.take limit.room) := by
  rw [store]
  cases hlimit : disk.limit? l with
  | none => exact .inl rfl
  | some limit =>
    by_cases hroom : limit.room < bytes.length
    · exact .inr ⟨limit, rfl, hroom, if_pos hroom⟩
    · exact .inl (if_neg hroom)

end Disk

namespace FileSystem

variable {fs fs' fs'' : FileSystem} {l here : Location} {p : Path} {bytes : List UInt8} {t : Target}

theorem except_map_eq_ok {α β ε : Type} {f : α → β} {x : Except ε α} {b : β}
    (h : f <$> x = .ok b) : ∃ a, x = .ok a ∧ f a = b := by
  cases x with
  | error e => cases h
  | ok a =>
    cases h
    exact ⟨a, rfl, rfl⟩

theorem entry?_concat {es : List (Name × Entry)} (h : fs.entry? here = some (.directory es))
    (name : Name) : fs.entry? (here ++ [name]) = Entry.child? name es := by
  have hat : Entry.at? here fs.root = some (.directory es) := h
  show Entry.at? (here ++ [name]) fs.root = Entry.child? name es
  rw [Entry.at?_concat, hat]
  rfl

/-! ### Following a path once there is more -/

/-- What is there in the first file system is there in the second one, of the same kind. -/
structure Keeps (fs fs' : FileSystem) : Prop where
  workingDirectory : fs'.workingDirectory = fs.workingDirectory
  entry : ∀ l e, fs.entry? l = some e → ∃ e', fs'.entry? l = some e' ∧ e'.shape = e.shape

/-- The name that a path found missing is there. With a slash behind it, it has to be that of a
directory. -/
def Supplies (fs : FileSystem) : Target → Prop
  | .existing _ => True
  | .absent d name slashed => ∃ e, fs.entry? (d ++ [name]) = some e ∧
      (∀ target, e ≠ .link target) ∧ (slashed = true → ∃ es, e = .directory es)

theorem Keeps.trans (h : fs.Keeps fs') (h' : fs'.Keeps fs'') : fs.Keeps fs'' where
  workingDirectory := h'.workingDirectory.trans h.workingDirectory
  entry l e he := by
    obtain ⟨e', he', hshape⟩ := h.entry l e he
    obtain ⟨e'', he'', hshape'⟩ := h'.entry l e' he'
    exact ⟨e'', he'', hshape'.trans hshape⟩

/-- An entry is put where there was none, or one of the same kind. -/
theorem keeps_set {new : Entry} (h : Entry.Takes l fs.root)
    (hbelow : ∀ name l, Entry.at? (name :: l) new = none)
    (hself : ∀ e, fs.entry? l = some e → new.shape = e.shape) : fs.Keeps (fs.set l new) where
  workingDirectory := rfl
  entry l' e he := by
    by_cases hl : l' = l
    · subst hl
      exact ⟨new, Entry.at?_setAt_self h new, hself e he⟩
    · have hbare := Entry.at?_setAt_of_ne h hbelow hl
      rw [show Entry.at? l' fs.root = some e from he] at hbare
      obtain ⟨e', he', heq⟩ := Option.map_eq_some_iff.mp hbare
      exact ⟨e', he', Entry.shape_eq_of_bare_eq heq⟩

/-- A directory is still a directory. -/
theorem Keeps.directory (h : fs.Keeps fs') {es : List (Name × Entry)}
    (hes : fs.entry? here = some (.directory es)) :
    ∃ es', fs'.entry? here = some (.directory es') := by
  obtain ⟨e, he, hshape⟩ := h.entry here _ hes
  obtain ⟨es', rfl⟩ := Entry.exists_of_shape_eq_directory hshape
  exact ⟨es', he⟩

/-- A link is still the same link. -/
theorem Keeps.link (h : fs.Keeps fs') {target : Path}
    (hlink : fs.entry? here = some (.link target)) : fs'.entry? here = some (.link target) := by
  obtain ⟨e, he, hshape⟩ := h.entry here _ hlink
  rwa [Entry.eq_link_of_shape_eq hshape] at he

/-- What is no link is still there, and no link. -/
theorem Keeps.notLink (h : fs.Keeps fs') {e : Entry} (he : fs.entry? here = some e)
    (hlink : ∀ target, e ≠ .link target) :
    ∃ e', fs'.entry? here = some e' ∧ ∀ target, e' ≠ .link target := by
  obtain ⟨e', he', hshape⟩ := h.entry here e he
  refine ⟨e', he', ?_⟩
  rintro target rfl
  exact hlink target (Entry.eq_link_of_shape_eq hshape.symm)

section
variable {followLast : Bool} {onLink onLink' : Location → List Step → Except IoCause Target}

/-- A step can be taken from a place: there is a directory, and one that can be entered unless the
step is a slash. -/
inductive Allows (fs : FileSystem) (here : Location) : Step → Prop
  | directory {es : List (Name × Entry)} (h : fs.entry? here = some (.directory es)) (s : Step) :
      Allows fs here s
  | closed {cause : IoCause} (h : fs.entry? here = some (.closed cause)) : Allows fs here .slash

/-- A name can only be looked up in a directory that can be entered. -/
theorem Allows.exists_of_into {name : Name} (h : fs.Allows here (.into name)) :
    ∃ es, fs.entry? here = some (.directory es) := by
  cases h with
  | directory h => exact ⟨_, h⟩

theorem Keeps.allows (h : fs.Keeps fs') {s : Step} (hs : fs.Allows here s) : fs'.Allows here s := by
  cases hs with
  | directory hes s =>
    obtain ⟨es', hes'⟩ := h.directory hes
    exact .directory hes' s
  | closed hclosed =>
    obtain ⟨e, he, hshape⟩ := h.entry here _ hclosed
    rw [Entry.eq_closed_of_shape_eq hshape] at he
    exact .closed he

section
variable (fs followLast onLink) (here : Location) (rest : List Step) (t : Target)

/-- How a path that leads to `t` goes on from the directory `here`, with a step and `rest` behind
it. -/
inductive Passes : Step → Prop
  | stay (h : fs.follow followLast onLink here rest = .ok t) : Passes .stay
  | slash (h : fs.follow followLast onLink here rest = .ok t) : Passes .slash
  | up (h : fs.follow followLast onLink here.dropLast rest = .ok t) : Passes .up
  | into {name : Name} {e : Entry} (he : fs.entry? (here ++ [name]) = some e)
      (hlink : ∀ target, e ≠ .link target)
      (h : fs.follow followLast onLink (here ++ [name]) rest = .ok t) : Passes (.into name)
  | link {name : Name} {target : Path} (he : fs.entry? (here ++ [name]) = some (.link target))
      (hlast : (rest.isEmpty && !followLast) = false) (htarget : target.bytes.isEmpty = false)
      (h : onLink (if target.isAbsolute then [] else here) (target.steps ++ rest) = .ok t) :
      Passes (.into name)
  | lastLink {name : Name} {target : Path} (he : fs.entry? (here ++ [name]) = some (.link target))
      (hlast : (rest.isEmpty && !followLast) = true) (h : t = .existing (here ++ [name])) :
      Passes (.into name)
  | missing {name : Name} (he : fs.entry? (here ++ [name]) = none) (slashed : Bool)
      (hrest : rest = if slashed then [.slash] else []) (h : t = .absent here name slashed) :
      Passes (.into name)

end

/-- Following a path step by step. -/
theorem follow_cons_eq_ok_iff {s : Step} {rest : List Step} :
    fs.follow followLast onLink here (s :: rest) = .ok t ↔
      fs.Allows here s ∧ fs.Passes followLast onLink here rest t s := by
  rw [follow]
  cases hhere : fs.entry? here with
  | none =>
    refine iff_of_false (fun h => by cases h) ?_
    rintro ⟨⟨hes, _⟩ | hclosed, -⟩
    · rw [hhere] at hes
      cases hes
    · rw [hhere] at hclosed
      cases hclosed
  | some e =>
    cases e with
    | file _ | link _ | device =>
      refine iff_of_false (fun h => by cases h) ?_
      rintro ⟨⟨hes, _⟩ | hclosed, -⟩
      · rw [hhere] at hes
        cases hes
      · rw [hhere] at hclosed
        cases hclosed
    | closed cause =>
      dsimp only
      split_ifs with hs
      · subst hs
        exact ⟨fun h => ⟨.closed hhere, .slash h⟩, fun ⟨_, .slash h⟩ => h⟩
      · refine iff_of_false (fun h => by cases h) ?_
        rintro ⟨⟨hes, _⟩ | hclosed, -⟩
        · rw [hhere] at hes
          cases hes
        · exact hs rfl
    | directory es =>
      rw [and_iff_right (.directory hhere s)]
      cases s with
      | stay => exact ⟨.stay, fun | .stay h => h⟩
      | slash => exact ⟨.slash, fun | .slash h => h⟩
      | up => exact ⟨.up, fun | .up h => h⟩
      | into name =>
        dsimp only
        rw [← entry?_concat hhere]
        cases hentry : fs.entry? (here ++ [name]) with
        | none =>
          constructor
          · intro h
            dsimp only at h
            split_ifs at h with hrest hslash
            · cases h
              exact .missing hentry false hrest rfl
            · cases h
              exact .missing hentry true hslash rfl
          · intro h
            cases h with
            | into he _ _ | link he _ _ _ | lastLink he _ _ =>
              rw [hentry] at he
              cases he
            | missing _ slashed hrest heq =>
              subst heq
              subst hrest
              cases slashed <;> rfl
        | some child =>
          cases child with
          | file _ | directory _ | closed _ | device =>
            constructor
            · exact .into hentry fun target => Entry.noConfusion
            · intro h
              cases h with
              | into _ _ h => exact h
              | link he _ _ _ | lastLink he _ _ | missing he _ _ _ =>
                rw [hentry] at he
                cases he
          | link target =>
            dsimp only
            constructor
            · intro h
              by_cases hlast : rest.isEmpty && !followLast
              · rw [if_pos hlast] at h
                cases h
                exact .lastLink hentry hlast rfl
              rw [if_neg hlast] at h
              by_cases htarget : target.bytes.isEmpty
              · rw [if_pos htarget] at h
                cases h
              · rw [if_neg htarget] at h
                exact .link hentry (Bool.eq_false_iff.mpr hlast) (Bool.eq_false_iff.mpr htarget) h
            · intro h
              cases h with
              | into he hlink _ =>
                rw [hentry] at he
                cases he
                exact absurd rfl (hlink target)
              | link he hlast htarget h =>
                rw [hentry] at he
                cases he
                rw [hlast, htarget]
                exact h
              | lastLink he hlast heq =>
                rw [if_pos hlast, heq]
              | missing he _ _ _ =>
                rw [hentry] at he
                cases he

/-- **A path leads to where it led, or to what it found missing.** A link that it ended in may be
followed now, so it must not have led to one. -/
theorem follow_of_keeps (h : fs.Keeps fs')
    (honLink : ∀ here steps, onLink here steps = .ok t →
      onLink' here steps = .ok (.existing t.place))
    (hlast : ∀ l, t = .existing l → followLast = true) (hsupplies : fs'.Supplies t)
    {steps : List Step} (ht : fs.follow followLast onLink here steps = .ok t) :
    fs'.follow true onLink' here steps = .ok (.existing t.place) := by
  induction steps generalizing here with
  | nil =>
    rw [follow] at ht
    cases ht
    rfl
  | cons s rest ih =>
    obtain ⟨hallows, hpasses⟩ := follow_cons_eq_ok_iff.mp ht
    refine follow_cons_eq_ok_iff.mpr ⟨h.allows hallows, ?_⟩
    cases hpasses with
    | stay hrest => exact .stay (ih hrest)
    | slash hrest => exact .slash (ih hrest)
    | up hrest => exact .up (ih hrest)
    | into he hlink hrest =>
      obtain ⟨e', he', hlink'⟩ := h.notLink he hlink
      exact .into he' hlink' (ih hrest)
    | link he _ htarget hrest =>
      exact .link (h.link he) (Bool.and_false _) htarget (honLink _ _ hrest)
    | lastLink he hlink heq =>
      rw [hlast _ heq, Bool.not_true, Bool.and_false] at hlink
      cases hlink
    | missing _ slashed hrest heq =>
      -- The name is there now.
      subst heq
      subst hrest
      obtain ⟨e, he, hlink, hslashed⟩ := hsupplies
      refine .into he hlink ?_
      cases slashed with
      | false => rfl
      | true =>
        obtain ⟨es', rfl⟩ := hslashed rfl
        exact follow_cons_eq_ok_iff.mpr ⟨.directory he _, .slash rfl⟩

theorem followThrough_of_keeps (h : fs.Keeps fs')
    (hlast : ∀ l, t = .existing l → followLast = true) (hsupplies : fs'.Supplies t) {links : Nat}
    {steps : List Step} (ht : fs.followThrough followLast links here steps = .ok t) :
    fs'.followThrough true links here steps = .ok (.existing t.place) := by
  induction links generalizing here steps with
  | zero =>
    refine follow_of_keeps h (fun _ _ hlink => ?_) hlast hsupplies ht
    cases hlink
  | succ links ih => exact follow_of_keeps h (fun _ _ hlink => ih hlink) hlast hsupplies ht

theorem locate_of_keeps (h : fs.Keeps fs') (ht : fs.resolve followLast p = .ok t)
    (hlast : ∀ l, t = .existing l → followLast = true) (hsupplies : fs'.Supplies t) :
    fs'.locate p = .ok t.place := by
  rw [resolve] at ht
  rw [locate, resolve]
  by_cases hempty : p.bytes.isEmpty
  · rw [if_pos hempty] at ht
    cases ht
  · rw [if_neg hempty] at ht ⊢
    rw [h.workingDirectory, followThrough_of_keeps h hlast hsupplies ht]
    rfl

theorem Keeps.locate (h : fs.Keeps fs') (hp : fs.locate p = .ok l) : fs'.locate p = .ok l := by
  rw [FileSystem.locate] at hp
  cases ht : fs.resolve true p with
  | error cause =>
    rw [ht] at hp
    cases hp
  | ok t =>
    rw [ht] at hp
    cases t with
    | existing m =>
      cases hp
      exact locate_of_keeps h ht (fun _ _ => rfl) trivial
    | absent _ _ _ => cases hp

/-- A name that is missing is missing in a directory. -/
theorem follow_absent {steps : List Step} {d : Location} {name : Name} {slashed : Bool}
    (honLink : ∀ here steps, onLink here steps = .ok (.absent d name slashed) →
      ∃ es, fs.entry? d = some (.directory es) ∧ Entry.child? name es = none)
    (ht : fs.follow followLast onLink here steps = .ok (.absent d name slashed)) :
    ∃ es, fs.entry? d = some (.directory es) ∧ Entry.child? name es = none := by
  induction steps generalizing here with
  | nil =>
    rw [follow] at ht
    cases ht
  | cons s rest ih =>
    obtain ⟨hallows, hpasses⟩ := follow_cons_eq_ok_iff.mp ht
    cases hpasses with
    | stay hrest | slash hrest | up hrest | into _ _ hrest => exact ih hrest
    | link _ _ _ hrest => exact honLink _ _ hrest
    | lastLink _ _ heq => cases heq
    | missing he _ _ heq =>
      cases heq
      obtain ⟨es, hes⟩ := hallows.exists_of_into
      exact ⟨es, hes, entry?_concat hes name ▸ he⟩

theorem followThrough_absent {links : Nat} {steps : List Step} {d : Location} {name : Name}
    {slashed : Bool}
    (ht : fs.followThrough followLast links here steps = .ok (.absent d name slashed)) :
    ∃ es, fs.entry? d = some (.directory es) ∧ Entry.child? name es = none := by
  induction links generalizing here steps with
  | zero =>
    refine follow_absent (fun _ _ hlink => ?_) ht
    cases hlink
  | succ links ih => exact follow_absent (fun _ _ hlink => ih hlink) ht

theorem resolve_absent {d : Location} {name : Name} {slashed : Bool}
    (ht : fs.resolve followLast p = .ok (.absent d name slashed)) :
    ∃ es, fs.entry? d = some (.directory es) ∧ Entry.child? name es = none := by
  rw [resolve] at ht
  by_cases hempty : p.bytes.isEmpty
  · rw [if_pos hempty] at ht
    cases ht
  · rw [if_neg hempty] at ht
    exact followThrough_absent ht

end

/-! ### Writing and reading -/

variable {disk : Disk}

/-- A file takes the place of a file or of a missing name, and the path leads there then. -/
structure Opens (fs : FileSystem) (p : Path) (l : Location) : Prop where
  takes : Entry.Takes l fs.root
  locate : ∀ contents, (fs.set l (.file contents)).locate p = .ok l

theorem keeps_set_file (htakes : Entry.Takes l fs.root) (contents : Contents) :
    fs.Keeps (fs.set l (.file contents)) := by
  refine keeps_set htakes (Entry.at?_cons_of_entries? rfl) fun e he => ?_
  obtain ⟨old, rfl⟩ := htakes.eq_file he
  rfl

/-- What is opened to be written is a file, or a device. -/
theorem openFile_eq_ok {place? : Option Location} (h : fs.openFile disk p = .ok place?) :
    (∃ l, place? = some l ∧ fs.Opens p l) ∨
      place? = none ∧ ∃ l, fs.locate p = .ok l ∧ fs.entry? l = some .device := by
  rw [openFile] at h
  cases ht : fs.resolve true p with
  | error cause =>
    rw [ht] at h
    cases h
  | ok t =>
    rw [ht] at h
    cases t with
    | existing l =>
      have hlocate : fs.locate p = .ok l := by
        rw [FileSystem.locate, ht]
        rfl
      dsimp only [bind, Except.bind] at h
      split at h
      · rename_i old hold
        obtain ⟨m, hm, rfl⟩ := except_map_eq_ok h
        obtain rfl := Disk.eq_of_allow hm
        have htakes := Entry.takes_of_file hold
        exact .inl ⟨m, rfl, htakes, fun contents => (keeps_set_file htakes contents).locate hlocate⟩
      · cases h
      · rename_i hdevice
        cases h
        exact .inr ⟨rfl, l, hlocate, hdevice⟩
      · cases h
    | absent d name slashed =>
      cases slashed with
      | true => cases h
      | false =>
        obtain ⟨m, hm, rfl⟩ := except_map_eq_ok h
        obtain rfl := Disk.eq_of_allow hm
        obtain ⟨es, hes, hnone⟩ := resolve_absent ht
        have htakes := Entry.takes_of_absent hes hnone
        refine .inl ⟨_, rfl, htakes, fun contents => ?_⟩
        exact locate_of_keeps (keeps_set_file htakes contents) ht (fun _ _ => rfl)
          ⟨_, Entry.at?_setAt_self htakes _, fun target => Entry.noConfusion, Bool.noConfusion⟩

/-- **What writing comes to.** Nothing is opened, and nothing is changed; a device is written to; or a
file is, which has all the bytes then if there is room for them, and the first ones if there is
not. -/
theorem write_cases (fs : FileSystem) (disk : Disk) (p : Path) (bytes : List UInt8) :
    (∃ cause, fs.write disk p bytes = (.error cause, fs)) ∨
    (∃ l, fs.locate p = .ok l ∧ fs.entry? l = some .device ∧
      fs.write disk p bytes = (.ok (), fs)) ∨
    ∃ l, fs.Opens p l ∧
      (fs.write disk p bytes = (.ok (), fs.set l (.file (.ok bytes))) ∨
        ∃ limit, disk.limit? l = some limit ∧ limit.room < bytes.length ∧
          fs.write disk p bytes =
            (.error limit.cause, fs.set l (.file (.ok (bytes.take limit.room))))) := by
  rw [write]
  cases h : fs.openFile disk p with
  | error cause => exact .inl ⟨cause, rfl⟩
  | ok place? =>
    obtain ⟨l, rfl, hopens⟩ | ⟨rfl, l, hl, hdevice⟩ := openFile_eq_ok h
    · refine .inr (.inr ⟨l, hopens, ?_⟩)
      obtain hall | ⟨limit, hlimit, hroom, hsome⟩ := disk.store_cases l bytes
      · refine .inl ?_
        dsimp only
        rw [hall]
      · refine .inr ⟨limit, hlimit, hroom, ?_⟩
        dsimp only
        rw [hsome]
    · exact .inr (.inl ⟨l, hl, hdevice, rfl⟩)

theorem stat_of_locate {e : Entry} (hp : fs.locate p = .ok l) (hl : fs.entry? l = some e) :
    fs.stat p = .ok e := by
  rw [stat, hp]
  dsimp only [bind, Except.bind]
  rw [hl]

/-- Whether the path leads to a device. -/
def isDevice (fs : FileSystem) (p : Path) : Bool :=
  match fs.stat p with
  | .ok .device => true
  | _ => false

theorem isDevice_of_locate (hp : fs.locate p = .ok l) (hl : fs.entry? l = some .device) :
    fs.isDevice p = true := by
  rw [isDevice, stat_of_locate hp hl]

theorem read_of_locate {contents : Contents} (hp : fs.locate p = .ok l)
    (hl : fs.entry? l = some (.file contents)) : fs.read p = contents := by
  rw [read, stat_of_locate hp hl]
  rfl

theorem Opens.read (h : fs.Opens p l) (contents : Contents) :
    (fs.set l (.file contents)).read p = contents :=
  read_of_locate (h.locate contents) (Entry.at?_setAt_self h.takes _)

/-- **What is written can be read**, unless it was written to a device. -/
theorem read_of_write (h : (fs.write disk p bytes).1 = .ok ()) :
    (fs.write disk p bytes).2.read p = .ok bytes ∨
      (fs.write disk p bytes).2.isDevice p = true := by
  obtain ⟨cause, hwrite⟩ | ⟨l, hl, hdevice, hwrite⟩ | ⟨l, hopens, hwrite | ⟨limit, -, -, hwrite⟩⟩ :=
    fs.write_cases disk p bytes
  · rw [hwrite] at h
    cases h
  · rw [hwrite]
    exact .inr (isDevice_of_locate hl hdevice)
  · rw [hwrite]
    exact .inl (hopens.read _)
  · rw [hwrite] at h
    cases h

end FileSystem

end SymbolIndex
