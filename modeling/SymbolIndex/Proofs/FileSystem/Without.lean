import SymbolIndex.Proofs.FileSystem.Resolution

/-!
# A file system without some of its files

Regular files can be taken out of a file system without changing anything else: directories stay in
their places, in the same order, and so do links (`FileSystem.without`). What is left at a place is
what was there without the files below it (`FileSystem.entry?_without`).

A path that goes on with the name of an entry leads to the same place as before, unless a file that
was taken out is on the way (`FileSystem.agreeAt_without`). If such a file is on the way of no link
(`FileSystem.IsOnLink`), that can only be because the name is that of the file itself.
-/

namespace SymbolIndex

/-! ### Taking out files -/

namespace Entry

mutual

/-- The tree at a place without the files at the places that are gone, nothing if it is such a
file. -/
def without? (gone : Location → Bool) (here : Location) : Entry → Option Entry
  | directory es => some (directory (withoutAll gone here es))
  | file contents => if gone here then none else some (file contents)
  | e => some e

/-- The entries of the directory at a place without the files at the places that are gone. -/
def withoutAll (gone : Location → Bool) (here : Location) : List (Name × Entry) → List (Name × Entry)
  | [] => []
  | (name, e) :: r => match e.without? gone (here ++ [name]) with
    | some e => (name, e) :: withoutAll gone here r
    | none => withoutAll gone here r

end

variable {gone : Location → Bool} {here l : Location} {name : Name} {e e' : Entry}
  {es : List (Name × Entry)}

theorem without?_eq_none_iff :
    e.without? gone here = none ↔ (∃ contents, e = .file contents) ∧ gone here = true := by
  cases e with
  | directory _ | file _ | link _ | closed _ | device => simp [without?]

/-- What is left is the same, but for what directories have in them. -/
theorem bare_of_without? (h : e.without? gone here = some e') : e'.bare = e.bare := by
  cases e with
  | directory _ | link _ | closed _ | device =>
    cases h
    rfl
  | file contents =>
    rw [without?] at h
    split_ifs at h
    cases h
    rfl

theorem withoutAll_cons (gone : Location → Bool) (here : Location) (name : Name) (e : Entry)
    (es : List (Name × Entry)) :
    withoutAll gone here ((name, e) :: es) =
      ((e.without? gone (here ++ [name])).map (name, ·)).toList ++ withoutAll gone here es := by
  rw [withoutAll]
  cases e.without? gone (here ++ [name]) with
  | none => rfl
  | some e' => rfl

/-- Only entries of the directory are left in it. -/
theorem mem_withoutAll (h : (name, e') ∈ withoutAll gone here es) :
    ∃ e, (name, e) ∈ es ∧ e.without? gone (here ++ [name]) = some e' := by
  induction es with
  | nil => cases h
  | cons first es ih =>
    obtain ⟨n, old⟩ := first
    rw [withoutAll_cons] at h
    rcases List.mem_append.mp h with hfirst | hrest
    · obtain ⟨e, he, heq⟩ := Option.map_eq_some_iff.mp (Option.mem_toList.mp hfirst)
      cases heq
      exact ⟨old, List.mem_cons_self, he⟩
    · obtain ⟨e, he, hleft⟩ := ih hrest
      exact ⟨e, List.mem_cons_of_mem _ he, hleft⟩

theorem child?_cons_self (name : Name) (e : Entry) (es : List (Name × Entry)) :
    child? name ((name, e) :: es) = some e :=
  if_pos rfl

theorem child?_cons_of_ne {n : Name} (h : n ≠ name) (e : Entry) (es : List (Name × Entry)) :
    child? name ((n, e) :: es) = child? name es :=
  if_neg h

theorem child?_eq_none (h : ∀ e, (name, e) ∉ es) : child? name es = none := by
  cases hchild : child? name es with
  | none => rfl
  | some e => exact absurd (mem_of_child? hchild) (h e)

/-- A name leads to what is left of its entry, where each name has one entry. -/
theorem child?_withoutAll (h : (es.map (·.1)).Nodup) :
    child? name (withoutAll gone here es) =
      (child? name es).bind (without? gone (here ++ [name])) := by
  induction es with
  | nil => rfl
  | cons first es ih =>
    obtain ⟨n, e⟩ := first
    obtain ⟨hn, hes⟩ := List.nodup_cons.mp h
    rw [withoutAll_cons]
    by_cases heq : n = name
    · subst heq
      rw [child?_cons_self, Option.bind_some]
      cases hleft : e.without? gone (here ++ [n]) with
      | some e' => exact child?_cons_self n e' _
      | none =>
        -- The name has no other entry.
        refine child?_eq_none fun e' he' => hn ?_
        obtain ⟨old, hold, -⟩ := mem_withoutAll he'
        exact List.mem_map_of_mem (f := (·.1)) hold
    · rw [child?_cons_of_ne heq, ← ih hes]
      cases e.without? gone (here ++ [n]) with
      | some e' => exact child?_cons_of_ne heq e' _
      | none => rfl

/-- What is left of a tree has at a place what is left of what the tree has there. -/
theorem at?_of_without? (h : e.Lawful) (hleft : e.without? gone here = some e') :
    at? l e' = (at? l e).bind (without? gone (here ++ l)) := by
  induction l generalizing e e' here with
  | nil => rw [List.append_nil, at?, at?, Option.bind_some, hleft]
  | cons n l ih =>
    cases h with
    | file contents =>
      have hbare := bare_of_without? hleft
      rw [at?_cons_of_entries? (e := .file contents) rfl, Option.bind_none]
      cases e' with
      | directory _ | link _ | closed _ | device => cases hbare
      | file _ => rfl
    | link _ | closed _ | device =>
      cases hleft
      rfl
    | @directory es hnodup hname hbelow =>
      cases hleft
      have hassoc : here ++ n :: l = here ++ [n] ++ l := List.append_cons here n l
      rw [at?_cons_directory, at?_cons_directory, child?_withoutAll hnodup, hassoc]
      cases hchild : child? n es with
      | none => rfl
      | some e =>
        rw [Option.bind_some, Option.bind_some]
        cases hleft : e.without? gone (here ++ [n]) with
        | some e' => exact ih (hbelow _ (mem_of_child? hchild)) hleft
        | none =>
          -- A file is gone, and there was nothing below it.
          obtain ⟨⟨contents, rfl⟩, hgone⟩ := without?_eq_none_iff.mp hleft
          cases l with
          | nil => rw [List.append_nil, at?, Option.bind_some, hleft, Option.bind_none]
          | cons m l => rw [at?_cons_of_entries? rfl, Option.bind_none, Option.bind_none]

/-- What comes of the entries that are left is what came of all, if nothing came of those that are
gone. -/
theorem flatMap_withoutAll {β : Type} {f f' : Name × Entry → List β}
    (hgone : ∀ name e, (name, e) ∈ es → e.without? gone (here ++ [name]) = none → f (name, e) = [])
    (hleft : ∀ name e e', (name, e) ∈ es → e.without? gone (here ++ [name]) = some e' →
      f' (name, e') = f (name, e)) :
    (withoutAll gone here es).flatMap f' = es.flatMap f := by
  induction es with
  | nil => rfl
  | cons first es ih =>
    obtain ⟨n, e⟩ := first
    have hrest := ih (fun name e he => hgone name e (List.mem_cons_of_mem _ he))
      fun name e e' he => hleft name e e' (List.mem_cons_of_mem _ he)
    rw [withoutAll_cons, List.flatMap_append, List.flatMap_cons, hrest]
    cases he : e.without? gone (here ++ [n]) with
    | none =>
      rw [hgone n e List.mem_cons_self he]
      rfl
    | some e' =>
      rw [← hleft n e e' List.mem_cons_self he]
      exact congrArg (· ++ _) (List.append_nil _)

end Entry

namespace FileSystem

/-- The file system without the files at the places that are gone. -/
def without (gone : Location → Bool) (fs : FileSystem) : FileSystem :=
  { fs with root := (fs.root.without? gone []).getD fs.root }

/-- A link leads to the place, or to a directory above it. -/
def IsLinkedTo (fs : FileSystem) (l : Location) : Prop :=
  ∃ d name target m, fs.entry? (d ++ [name]) = some (.link target) ∧
    fs.Comes d [.into name] m [] ∧ m <+: l

/-- The place is on the way that a link leads. -/
def IsOnLink (fs : FileSystem) (l : Location) : Prop :=
  ∃ d name target rest, fs.entry? (d ++ [name]) = some (.link target) ∧
    fs.Comes d [.into name] l rest

variable {fs : FileSystem} {gone : Location → Bool} {l : Location} {name : Name} {p : Path}

/-! ### What is left at a place -/

/-- At every place there is what is left of what was there. -/
theorem entry?_without (hfs : fs.Lawful) (hroot : gone [] = false) (l : Location) :
    entry? (fs.without gone) l = (fs.entry? l).bind (Entry.without? gone l) := by
  obtain ⟨e, he⟩ : ∃ e, fs.root.without? gone [] = some e := by
    refine Option.ne_none_iff_exists'.mp fun hnone => ?_
    obtain ⟨-, hgone⟩ := Entry.without?_eq_none_iff.mp hnone
    rw [hroot] at hgone
    cases hgone
  have hat : Entry.at? l e = (Entry.at? l fs.root).bind (Entry.without? gone ([] ++ l)) :=
    Entry.at?_of_without? hfs he
  rw [FileSystem.entry?, without, he]
  exact hat

/-- Whatever is not gone is alike. -/
theorem alike_without (hfs : fs.Lawful) (hroot : gone [] = false)
    (h : ∀ contents, fs.entry? l = some (.file contents) → gone l = false) :
    fs.Alike (fs.without gone) l := by
  rw [Alike, entry?_without hfs hroot]
  cases hl : fs.entry? l with
  | none => rfl
  | some e =>
    rw [Option.bind_some]
    cases hleft : e.without? gone l with
    | some e' => exact congrArg some (Entry.bare_of_without? hleft)
    | none =>
      obtain ⟨⟨contents, rfl⟩, hgone⟩ := Entry.without?_eq_none_iff.mp hleft
      rw [h contents hl] at hgone
      cases hgone

theorem alike_without_of_directoryAt (hfs : fs.Lawful) (hroot : gone [] = false)
    (h : fs.DirectoryAt l) : fs.Alike (fs.without gone) l := by
  refine alike_without hfs hroot fun contents hfile => ?_
  obtain ⟨e, he, hdir⟩ := h
  rw [hfile] at he
  cases he
  cases hdir

/-- What is left was there before. -/
theorem alike_of_without (hfs : fs.Lawful) (hroot : gone [] = false) {e : Entry}
    (h : entry? (fs.without gone) l = some e) : Alike (fs.without gone) fs l := by
  rw [Alike, h]
  rw [entry?_without hfs hroot] at h
  obtain ⟨old, hold, hleft⟩ := Option.bind_eq_some_iff.mp h
  rw [hold, Option.map_some, Option.map_some, Entry.bare_of_without? hleft]

/-- Directories and links are never taken out. -/
theorem mirrors_without (hfs : fs.Lawful) (hroot : gone [] = false) :
    fs.Mirrors (fs.without gone) where
  workingDirectory := rfl
  directory := by
    rintro l ⟨es, hes⟩
    rw [HasDirectory, entry?_without hfs hroot, hes]
    exact ⟨_, rfl⟩
  link := by
    intro l target hl
    rw [entry?_without hfs hroot, hl]
    rfl

/-- Neither are they put in. -/
theorem mirrors_of_without (hfs : fs.Lawful) (hroot : gone [] = false) :
    (fs.without gone).Mirrors fs where
  workingDirectory := rfl
  directory := by
    rintro l ⟨es, hes⟩
    exact (alike_of_without hfs hroot hes).hasDirectory ⟨es, hes⟩
  link := by
    intro l target hl
    exact Alike.entry? (alike_of_without hfs hroot hl) hl rfl

/-! ### Paths of entries that are left -/

/-- On the way that the name of an entry leads nothing is gone, unless the entry is gone itself. -/
theorem alike_of_comes_without (hfs : fs.Lawful) (hroot : gone [] = false)
    (hlinks : ∀ m contents, fs.entry? m = some (.file contents) → gone m = true →
      ¬fs.IsOnLink m)
    {e e' : Entry} (he : fs.entry? (l ++ [name]) = some e)
    (hleft : e.without? gone (l ++ [name]) = some e') {m : Location} {t : List Step}
    (h : fs.Comes l [.into name] m t) : fs.Alike (fs.without gone) m := by
  refine alike_without hfs hroot fun contents hm => Bool.eq_false_iff.mpr fun hgone => ?_
  by_cases hlink : ∃ target, e = .link target
  · obtain ⟨target, rfl⟩ := hlink
    exact hlinks m contents hm hgone ⟨l, name, target, t, he, h⟩
  obtain rfl | rfl := h.of_into he fun target heq => hlink ⟨target, heq⟩
  · obtain ⟨es, hes⟩ := hasDirectory_of_concat he
    rw [hes] at hm
    cases hm
  · rw [he] at hm
    cases hm
    have hnone := Entry.without?_eq_none_iff.mpr ⟨⟨contents, rfl⟩, hgone⟩
    rw [hleft] at hnone
    cases hnone

/-- **The path of an entry that is left leads to the same.** -/
theorem agreeAt_without (hfs : fs.Lawful) (hroot : gone [] = false)
    (hlinks : ∀ m contents, fs.entry? m = some (.file contents) → gone m = true →
      ¬fs.IsOnLink m)
    (hp : fs.locate p = .ok l) (hl : fs.HasDirectory l) (hname : Path.Ordinary name)
    {e e' : Entry} (he : fs.entry? (l ++ [name]) = some e)
    (hleft : e.without? gone (l ++ [name]) = some e') :
    fs.AgreeAt (fs.without gone) (p.join ⟨name⟩) := by
  have hcomes : ∀ m t, fs.Comes l [.into name] m t → fs.Alike (fs.without gone) m :=
    fun m t hm => alike_of_comes_without hfs hroot hlinks he hleft hm
  have hnew : ∀ l, fs.entry? l = none → entry? (fs.without gone) l = none := by
    intro l hnone
    rw [entry?_without hfs hroot, hnone]
    rfl
  exact agreeAt_of_resolve ((mirrors_without hfs hroot).resolve_join hnew hp hl hname hcomes)
    fun m hm => hcomes m [] (comes_of_locate_join hp hname hm)

end FileSystem

end SymbolIndex
