import Mathlib.Algebra.Order.Ring.Nat
import SymbolIndex.Proofs.Registry.Combined
import SymbolIndex.Proofs.Registry.File

/-!
# The history of a combined registry

A combined registry starts out empty and is changed by merging a file, by extending it by several
files, or by replacing it with the registry that is collected from several files. Whatever the
sequence of changes, the registry is the one of the files merged since it was last replaced:
one change keeps this (`Change.apply_ofFiles`), hence so does a whole history
(`Change.run_eq_ofFiles`).

What is at a key of such a registry is then read off the files (`CombinedRegistry.get?_ofFiles`):
one symbol from each file that has the key, in the order of the files. No key is left without
symbols on the way (`CombinedRegistry.inhabited_merge`), which is why the keys of a registry tell
where its files have symbols.
-/

namespace SymbolIndex

/-! ### Registries of files -/

namespace FileRegistry

/-- The registry is made of a list of symbols, under whatever policy. There is no other way to come
by the registry of a file. -/
def IsOfSymbols (r : FileRegistry) : Prop :=
  ∃ path policy symbols, (ofSymbols path policy symbols).result = .ok r

variable {r : FileRegistry}

theorem IsOfSymbols.sorted (h : r.IsOfSymbols) : Entries.Sorted r.entries := by
  obtain ⟨path, policy, symbols, hr⟩ := h
  exact (holds_ofSymbols hr).sorted

theorem IsOfSymbols.key_of_get? (h : r.IsOfSymbols) {k : Key} {s : Symbol}
    (hs : r.get? k = some s) : s.key = k := by
  obtain ⟨path, policy, symbols, hr⟩ := h
  exact (holds_ofSymbols hr).key_of_mem (Entries.mem_of_get?_eq_some hs)

/-- The registry of a source text is made of the symbols that the text declares. -/
theorem isOfSymbols_of_ofSource {source : String} {path : Path} {options : ExtractOptions}
    {policy : CollisionPolicy} (h : (ofSource source path options policy).result = .ok r) :
    r.IsOfSymbols := by
  obtain ⟨t, -, hr⟩ := result_ofSource_eq_ok_iff.mp h
  exact ⟨path, policy, t.symbols options, hr⟩

end FileRegistry

/-! ### Every key has symbols, and every symbol is counted -/

namespace CombinedRegistry

/-- No key is without symbols. -/
def Inhabited (c : CombinedRegistry) : Prop := ∀ e ∈ c.entries, e.2 ≠ []

variable {c : CombinedRegistry}

theorem inhabited_empty : Inhabited empty := by
  intro e he
  cases he

theorem inhabited_push (h : c.Inhabited) (k : Key) (s : Symbol) : (c.push k s).Inhabited := by
  obtain ⟨entries⟩ := c
  intro e he
  rw [push] at he
  induction entries with
  | nil =>
    rw [List.mem_singleton.mp he]
    simp
  | cons e' entries ih =>
    obtain ⟨k', symbols⟩ := e'
    have hrest : Inhabited ⟨entries⟩ := fun e he => h e (List.mem_cons_of_mem _ he)
    simp only [Entries.alter] at he
    split_ifs at he with heq hk
    · rcases List.mem_cons.mp he with rfl | he
      · simp
      · exact hrest e he
    · rcases List.mem_cons.mp he with rfl | he
      · simp
      · exact h e he
    · rcases List.mem_cons.mp he with rfl | he
      · exact h _ List.mem_cons_self
      · exact ih hrest he

theorem inhabited_merge (h : c.Inhabited) (f : FileRegistry) : (c.merge f).Inhabited := by
  rw [merge]
  generalize f.entries = es
  induction es generalizing c with
  | nil => exact h
  | cons e es ih => exact ih (inhabited_push h e.1 e.2)

/-- A symbol that is pushed is one more, at whatever key. -/
theorem symbolCount_push (c : CombinedRegistry) (k : Key) (s : Symbol) :
    (c.push k s).symbolCount = c.symbolCount + 1 := by
  obtain ⟨entries⟩ := c
  simp only [push, symbolCount]
  induction entries with
  | nil => rfl
  | cons e entries ih =>
    obtain ⟨k', symbols⟩ := e
    rw [Entries.alter]
    split_ifs
    · simp only [List.foldr_cons, Option.getD_some, List.length_append, List.length_singleton]
      omega
    · simp only [List.foldr_cons, Option.getD_none, List.nil_append, List.length_singleton]
      omega
    · simp only [List.foldr_cons, ih]
      omega

theorem symbolCount_merge (c : CombinedRegistry) (f : FileRegistry) :
    (c.merge f).symbolCount = c.symbolCount + f.size := by
  rw [merge, FileRegistry.size]
  generalize f.entries = es
  induction es generalizing c with
  | nil => rfl
  | cons e es ih =>
    rw [List.foldl_cons, ih, symbolCount_push, List.length_cons]
    omega

/-! ### The registry of several files -/

theorem sorted_extend (h : Entries.Sorted c.entries) (fs : List FileRegistry) :
    Entries.Sorted (c.extend fs).entries := by
  induction fs generalizing c with
  | nil => exact h
  | cons f fs ih => exact ih (sorted_merge h f)

theorem inhabited_extend (h : c.Inhabited) (fs : List FileRegistry) : (c.extend fs).Inhabited := by
  induction fs generalizing c with
  | nil => exact h
  | cons f fs ih => exact ih (inhabited_merge h f)

theorem symbolCount_extend (c : CombinedRegistry) (fs : List FileRegistry) :
    (c.extend fs).symbolCount = c.symbolCount + (fs.map FileRegistry.size).sum := by
  induction fs generalizing c with
  | nil => rfl
  | cons f fs ih =>
    show ((c.merge f).extend fs).symbolCount = _
    rw [ih, symbolCount_merge, List.map_cons, List.sum_cons]
    omega

theorem sorted_ofFiles (fs : List FileRegistry) : Entries.Sorted (ofFiles fs).entries :=
  sorted_extend Entries.sorted_nil fs

theorem inhabited_ofFiles (fs : List FileRegistry) : (ofFiles fs).Inhabited :=
  inhabited_extend inhabited_empty fs

theorem symbolCount_ofFiles (fs : List FileRegistry) :
    (ofFiles fs).symbolCount = (fs.map FileRegistry.size).sum := by
  rw [ofFiles, symbolCount_extend]
  exact Nat.zero_add _

/-- Where every key has symbols, a key is there exactly if it has some. -/
theorem get?_eq_of_inhabited (h : c.Inhabited) (k : Key) :
    c.get? k = if c.symbolsAt k = [] then none else some (c.symbolsAt k) := by
  rw [symbolsAt]
  cases hget : c.get? k with
  | none => rfl
  | some symbols =>
    have hsome : symbols ≠ [] := h (k, symbols) (Entries.mem_of_get?_eq_some hget)
    exact (if_neg hsome).symm

/-- What is at a key: one symbol from each file that has the key, in the order of the files, and
nothing at all if no file has it. -/
theorem get?_ofFiles {fs : List FileRegistry} (hfs : ∀ f ∈ fs, f.IsOfSymbols) (k : Key) :
    (ofFiles fs).get? k =
      if fs.filterMap (·.get? k) = [] then none else some (fs.filterMap (·.get? k)) := by
  rw [get?_eq_of_inhabited (inhabited_ofFiles fs), symbolsAt_ofFiles fun f hf => (hfs f hf).sorted]

/-- Every symbol is one that a file has at the key. -/
theorem exists_get?_of_mem_ofFiles {fs : List FileRegistry} (hfs : ∀ f ∈ fs, f.IsOfSymbols)
    {e : Key × List Symbol} (he : e ∈ (ofFiles fs).entries) {s : Symbol} (hs : s ∈ e.2) :
    ∃ f ∈ fs, f.get? e.1 = some s := by
  have hget : (ofFiles fs).get? e.1 = some e.2 :=
    (Entries.get?_eq_some_iff (sorted_ofFiles fs)).mpr he
  rw [get?_ofFiles hfs] at hget
  split_ifs at hget
  rw [← Option.some.inj hget] at hs
  exact List.mem_filterMap.mp hs

/-- Every symbol stands under its own key. -/
theorem key_of_mem_ofFiles {fs : List FileRegistry} (hfs : ∀ f ∈ fs, f.IsOfSymbols)
    {e : Key × List Symbol} (he : e ∈ (ofFiles fs).entries) {s : Symbol} (hs : s ∈ e.2) :
    s.key = e.1 := by
  obtain ⟨f, hf, hget⟩ := exists_get?_of_mem_ofFiles hfs he hs
  exact (hfs f hf).key_of_get? hget

end CombinedRegistry

/-! ### Changes -/

/-- A change of a combined registry. -/
inductive Change where
  /-- The symbols of a file are added. -/
  | merge (f : FileRegistry)
  /-- The symbols of several files are added, one file after the other. -/
  | extend (fs : List FileRegistry)
  /-- The registry is replaced by the one of several files. -/
  | collect (fs : List FileRegistry)
  deriving DecidableEq, Repr

namespace Change

/-- The files that a change brings. -/
def files : Change → List FileRegistry
  | merge f => [f]
  | extend fs | collect fs => fs

/-- The registry after a change. -/
def apply (c : CombinedRegistry) : Change → CombinedRegistry
  | merge f => c.merge f
  | extend fs => c.extend fs
  | collect fs => .ofFiles fs

/-- The registry after a history of changes, which starts from nothing. -/
def run (changes : List Change) : CombinedRegistry := changes.foldl apply .empty

/-- The files in a registry after a change, `before` being those that were in it. -/
def settle (before : List FileRegistry) : Change → List FileRegistry
  | merge f => before ++ [f]
  | extend fs => before ++ fs
  | collect fs => fs

/-- The files that are merged since the registry was last replaced, in order. -/
def merged (changes : List Change) : List FileRegistry := changes.foldl settle []

/-- One change: the registry stays the one of the files that are in it. -/
theorem apply_ofFiles (fs : List FileRegistry) (ch : Change) :
    apply (.ofFiles fs) ch = .ofFiles (settle fs ch) := by
  cases ch with
  | merge f => exact (CombinedRegistry.extend_append .empty fs [f]).symm
  | extend gs => exact (CombinedRegistry.extend_append .empty fs gs).symm
  | collect gs => rfl

/-- A whole history: the registry is the one of the files merged since it was last replaced. -/
theorem run_eq_ofFiles (changes : List Change) : run changes = .ofFiles (merged changes) := by
  have hrun : ∀ fs, changes.foldl apply (.ofFiles fs) = .ofFiles (changes.foldl settle fs) := by
    induction changes with
    | nil => exact fun fs => rfl
    | cons ch changes ih =>
      intro fs
      rw [List.foldl_cons, List.foldl_cons, apply_ofFiles]
      exact ih (settle fs ch)
  exact hrun []

/-- The files in a registry are among those that the changes brought. -/
theorem mem_merged {changes : List Change} {f : FileRegistry} (h : f ∈ merged changes) :
    ∃ ch ∈ changes, f ∈ ch.files := by
  induction changes using List.reverseRecOn with
  | nil => cases h
  | append_singleton changes ch ih =>
    rw [merged, List.foldl_append] at h
    -- A file is in the registry since before the last change, or it came with that change.
    have hsettle : f ∈ merged changes ∨ f ∈ ch.files := by
      cases ch with
      | merge g => exact List.mem_append.mp h
      | extend gs => exact List.mem_append.mp h
      | collect gs => exact .inr h
    rcases hsettle with h | h
    · obtain ⟨ch', hch', hf⟩ := ih h
      exact ⟨ch', List.mem_append_left _ hch', hf⟩
    · exact ⟨ch, List.mem_append_right _ List.mem_cons_self, h⟩

/-- **Multiplicity across files**: after any history of changes a registry has, at each key, one
symbol from each of the files merged since it was last replaced that has the key, in the order in
which they were merged, and nothing at a key that none of them has. So no key is without symbols,
every symbol stands under its own key, the keys are in the order of their bytes, no symbol is lost
or counted twice, and it does not matter in how many steps files are added. -/
theorem run_keeps_every_file (changes : List Change)
    (hfiles : ∀ ch ∈ changes, ∀ f ∈ ch.files, f.IsOfSymbols) :
    (∀ k, (∀ f ∈ merged changes, f.get? k = none) → (run changes).get? k = none) ∧
    (∀ k, (∃ f ∈ merged changes, f.get? k ≠ none) →
      (run changes).get? k = some ((merged changes).filterMap (·.get? k))) ∧
    (∀ e ∈ (run changes).entries, e.2 ≠ []) ∧
    (∀ e ∈ (run changes).entries, ∀ s ∈ e.2, s.key = e.1) ∧
    (run changes).keys.Pairwise (fun k k' => Text.Utf8.encode k < Text.Utf8.encode k') ∧
    (run changes).symbolCount = ((merged changes).map FileRegistry.size).sum ∧
    ∀ fs gs, ((run changes).extend fs).extend gs = (run changes).extend (fs ++ gs) := by
  have hmerged : ∀ f ∈ merged changes, f.IsOfSymbols := by
    intro f hf
    obtain ⟨ch, hch, hf⟩ := mem_merged hf
    exact hfiles ch hch f hf
  have hget := CombinedRegistry.get?_ofFiles hmerged
  rw [run_eq_ofFiles]
  refine ⟨fun k hnone => ?_, fun k hsome => ?_, CombinedRegistry.inhabited_ofFiles _,
    fun e he s hs => CombinedRegistry.key_of_mem_ofFiles hmerged he hs, ?_,
    CombinedRegistry.symbolCount_ofFiles _,
    fun fs gs => (CombinedRegistry.extend_append _ fs gs).symm⟩
  · rw [hget, if_pos (List.filterMap_eq_nil_iff.mpr hnone)]
  · obtain ⟨f, hf, hfk⟩ := hsome
    rw [hget, if_neg fun hnil => hfk (List.filterMap_eq_nil_iff.mp hnil f hf)]
  · rw [CombinedRegistry.keys, List.pairwise_map]
    exact (CombinedRegistry.sorted_ofFiles _).imp Text.Utf8.encode_lt_encode

/-- A file is merged twice over, and once before the registry is replaced. -/
theorem run_merge_collect_extend :
    let a : FileRegistry := ⟨"a.js", [("C.m", .method "m" "C" false none "a.js")]⟩
    let b : FileRegistry :=
      ⟨"b.js", [("C.m", .method "m" "C" true none "b.js"), ("Global.f", .function "f" "b.js")]⟩
    let changes : List Change := [.merge b, .collect [b, a], .extend [], .merge b]
    (∀ ch ∈ changes, ∀ f ∈ ch.files, f.IsOfSymbols) ∧
      (run changes).get? "C.m" =
        some [.method "m" "C" true none "b.js", .method "m" "C" false none "a.js",
          .method "m" "C" true none "b.js"] ∧
      (run changes).get? "Global.g" = none ∧ (run changes).symbolCount = 5 := by
  intro a b changes
  have ha : a.IsOfSymbols :=
    ⟨"a.js", .reject, [.method "m" "C" false none "a.js"], by decide +kernel⟩
  have hb : b.IsOfSymbols :=
    ⟨"b.js", .lastWins, [.function "f" "b.js", .method "m" "C" true none "b.js"],
      by decide +kernel⟩
  have hfiles : ∀ ch ∈ changes, ∀ f ∈ ch.files, f.IsOfSymbols := by
    simp [changes, files, ha, hb]
  obtain ⟨hnone, hsome, -, -, -, hcount, -⟩ := run_keeps_every_file changes hfiles
  have hmerged : merged changes = [b, a, b] := rfl
  rw [hmerged] at hnone hsome hcount
  refine ⟨hfiles, ?_, hnone _ (by decide +kernel), by rw [hcount]; rfl⟩
  rw [hsome "C.m" ⟨a, by simp, by decide +kernel⟩]
  decide +kernel

end Change

end SymbolIndex
