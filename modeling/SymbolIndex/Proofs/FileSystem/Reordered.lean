import Mathlib.Data.List.Perm.Basic
import SymbolIndex.Proofs.FileSystem.Resolution

/-!
# The same entries in another order

A directory has its entries in some order, which is up to the system. Two trees that differ in these
orders only (`Entry.Reordered`) have the same at every place, up to orders further down
(`Entry.Reordered.at?`). Following a path does not depend on them, so a path leads to the same place
in both file systems (`FileSystem.Reordered.agreeAt`).
-/

namespace SymbolIndex

namespace Entry

/-- The trees are the same but for the order of the entries in directories. -/
inductive Reordered : Entry → Entry → Prop
  | file (contents : Contents) : Reordered (.file contents) (.file contents)
  | link (target : Path) : Reordered (.link target) (.link target)
  | closed (cause : IoCause) : Reordered (.closed cause) (.closed cause)
  | device : Reordered .device .device
  | directory {es es' : List (Name × Entry)} (names : (es'.map (·.1)).Perm (es.map (·.1)))
      (below : ∀ name e e', (name, e) ∈ es → (name, e') ∈ es' → Reordered e e') :
      Reordered (.directory es) (.directory es')

variable {e e' : Entry} {es es' : List (Name × Entry)} {name : Name} {l : Location}

/-- The entries of the two directories have the same names. -/
theorem exists_mem_of_names (names : (es'.map (·.1)).Perm (es.map (·.1)))
    (he : (name, e) ∈ es) : ∃ e', (name, e') ∈ es' := by
  have hname : name ∈ es'.map (·.1) := names.mem_iff.mpr (List.mem_map_of_mem (f := (·.1)) he)
  obtain ⟨⟨n, e'⟩, he', rfl⟩ := List.mem_map.mp hname
  exact ⟨e', he'⟩

theorem Reordered.bare (h : e.Reordered e') : e'.bare = e.bare := by
  cases h <;> rfl

/-- Another order is as lawful. -/
theorem Reordered.lawful (h : e.Reordered e') (he : e.Lawful) : e'.Lawful := by
  induction h with
  | file contents => exact .file contents
  | link target => exact .link target
  | closed cause => exact .closed cause
  | device => exact .device
  | @directory es es' names _ ih =>
    cases he with
    | directory hnodup hname hbelow =>
      have hsource : ∀ x ∈ es', ∃ old, (x.1, old) ∈ es :=
        fun x hx => exists_mem_of_names names.symm hx
      refine .directory (names.nodup_iff.mpr hnodup) (fun x hx => ?_) fun x hx => ?_
      · obtain ⟨old, hold⟩ := hsource x hx
        have hordinary : Path.Ordinary (x.1, old).1 := hname _ hold
        exact hordinary
      · obtain ⟨old, hold⟩ := hsource x hx
        exact ih x.1 old x.2 hold hx (hbelow _ hold)

/-- A name that one directory has leads to an entry in the other that differs in orders only. -/
theorem Reordered.child? (h : (Entry.directory es).Reordered (.directory es'))
    (hnodup : (es.map (·.1)).Nodup) (he : child? name es = some e) :
    ∃ e', Entry.child? name es' = some e' ∧ e.Reordered e' := by
  cases h with
  | directory names below =>
    have hmem := mem_of_child? he
    obtain ⟨e', he'⟩ := exists_mem_of_names names hmem
    exact ⟨e', (child?_eq_some_iff (names.nodup_iff.mpr hnodup)).mpr he',
      below name e e' hmem he'⟩

/-- What is at a place in one tree is in the other, up to orders. -/
theorem Reordered.at? (h : e.Reordered e') (he : e.Lawful) {x : Entry}
    (hx : Entry.at? l e = some x) : ∃ x', Entry.at? l e' = some x' ∧ x.Reordered x' := by
  induction l generalizing e e' with
  | nil =>
    cases hx
    exact ⟨e', rfl, h⟩
  | cons n l ih =>
    obtain ⟨es, hes, hrest⟩ := Option.bind_eq_some_iff.mp hx
    obtain ⟨child, hchild, hrest⟩ := Option.bind_eq_some_iff.mp hrest
    cases he with
    | file _ | link _ | closed _ | device => cases hes
    | directory hnodup _ hbelow =>
      cases hes
      cases h with
      | directory names below =>
        obtain ⟨child', hchild', hreordered⟩ :=
          Reordered.child? (.directory names below) hnodup hchild
        obtain ⟨x', hx', hx⟩ := ih hreordered (hbelow _ (mem_of_child? hchild)) hrest
        refine ⟨x', ?_, hx⟩
        rw [at?_cons_directory, hchild']
        exact hx'

theorem Reordered.symm (h : e.Reordered e') : e'.Reordered e := by
  induction h with
  | file contents => exact .file contents
  | link target => exact .link target
  | closed cause => exact .closed cause
  | device => exact .device
  | directory names _ ih =>
    exact .directory names.symm fun name e' e he' he => ih name e e' he he'

theorem Lawful.reordered (h : e.Lawful) : e.Reordered e := by
  induction h with
  | file contents => exact .file contents
  | link target => exact .link target
  | closed cause => exact .closed cause
  | device => exact .device
  | directory hnodup _ _ ih =>
    refine .directory (List.Perm.refl _) fun name e e' he he' => ?_
    have hsame := (child?_eq_some_iff hnodup).mpr he
    rw [(child?_eq_some_iff hnodup).mpr he'] at hsame
    cases hsame
    exact ih _ he

/-- The entries of a directory may be listed in any order. -/
theorem Lawful.reordered_of_perm (h : (Entry.directory es).Lawful) (hperm : es'.Perm es) :
    (Entry.directory es).Reordered (.directory es') := by
  have hself := h.reordered
  cases hself with
  | directory _ below =>
    exact .directory (hperm.map _) fun name e e' he he' =>
      below name e e' he (hperm.mem_iff.mp he')

/-- What comes of the entries of a directory comes of their names, where these are different. -/
theorem flatMap_names {β : Type} (h : (es.map (·.1)).Nodup) (f : Name × Entry → List β) :
    es.flatMap f = (es.map (·.1)).flatMap fun name =>
      (Entry.child? name es).elim [] fun e => f (name, e) := by
  rw [List.flatMap_map]
  refine List.flatMap_congr fun x hx => ?_
  rw [(child?_eq_some_iff h).mpr hx]
  rfl

/-- What comes of the entries in another order comes in another order. -/
theorem Reordered.flatMap_perm {β : Type} {f f' : Name × Entry → List β}
    (h : (Entry.directory es).Reordered (.directory es')) (hnodup : (es.map (·.1)).Nodup)
    (hf : ∀ name e e', (name, e) ∈ es → e.Reordered e' → (f' (name, e')).Perm (f (name, e))) :
    (es'.flatMap f').Perm (es.flatMap f) := by
  have hnames : (es'.map (·.1)).Perm (es.map (·.1)) := by
    cases h with
    | directory names _ => exact names
  rw [flatMap_names hnodup, flatMap_names (hnames.nodup_iff.mpr hnodup)]
  refine (hnames.flatMap_right _).trans (List.Perm.flatMap_left _ fun name hname => ?_)
  obtain ⟨⟨n, e⟩, he, rfl⟩ := List.mem_map.mp hname
  have hchild := (child?_eq_some_iff hnodup).mpr he
  obtain ⟨e', hchild', hreordered⟩ := h.child? hnodup hchild
  rw [hchild, hchild']
  exact hf n e e' he hreordered

end Entry

namespace FileSystem

/-- The file systems are the same but for the order of the entries in directories. -/
structure Reordered (fs fs' : FileSystem) : Prop where
  root : fs.root.Reordered fs'.root
  workingDirectory : fs'.workingDirectory = fs.workingDirectory

variable {fs fs' : FileSystem} {l : Location} {p : Path}

theorem Reordered.lawful (h : fs.Reordered fs') (hfs : fs.Lawful) : fs'.Lawful :=
  h.root.lawful hfs

theorem Reordered.alike (h : fs.Reordered fs') (hfs : fs.Lawful) (l : Location) :
    fs.Alike fs' l := by
  rw [Alike]
  cases hl : fs.entry? l with
  | some e =>
    obtain ⟨e', he', hreordered⟩ := h.root.at? hfs hl
    have hl' : fs'.entry? l = some e' := he'
    rw [hl']
    exact congrArg some hreordered.bare
  | none =>
    cases hl' : fs'.entry? l with
    | none => rfl
    | some e' =>
      obtain ⟨e, he, -⟩ := h.root.symm.at? (h.lawful hfs) hl'
      have hsome : fs.entry? l = some e := he
      rw [hl] at hsome
      cases hsome

/-- **A path leads to the same place**, whatever the order of entries. -/
theorem Reordered.agreeAt (h : fs.Reordered fs') (hfs : fs.Lawful) (p : Path) :
    fs.AgreeAt fs' p := by
  have halike := h.alike hfs
  have hmirrors : fs.Mirrors fs' :=
    ⟨h.workingDirectory, fun l hl => (halike l).hasDirectory hl,
      fun l target hl => Alike.entry? (halike l) hl rfl⟩
  have hmissing : ∀ l, fs.entry? l = none → fs'.entry? l = none := by
    intro l hl
    obtain heq | ⟨⟨es, hes⟩, -⟩ := (halike l).cases
    · rw [heq, hl]
    · rw [hl] at hes
      cases hes
  refine agreeAt_of_resolve ?_ fun l _ => halike l
  by_cases hempty : p.bytes = []
  · rw [fs.resolve_nil hempty, fs'.resolve_nil hempty]
  · rw [fs.resolve_eq hempty, fs'.resolve_eq hempty, start, start, h.workingDirectory]
    exact hmirrors.followThrough (fun l _ _ => halike l) fun l name _ _ => hmissing (l ++ [name])

end FileSystem

end SymbolIndex
