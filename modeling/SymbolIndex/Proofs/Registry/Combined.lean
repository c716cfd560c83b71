import SymbolIndex.Proofs.Registry.Entries
import SymbolIndex.Registry.Combined

/-!
# The symbols at a key of a combined registry

Merging a file adds the one symbol that the file has at a key behind those that are there
(`symbolsAt_merge`), so a combined registry has at each key what its files have there, in the order
of the files (`symbolsAt_ofFiles`). The entries stay sorted on the way (`sorted_merge`).
-/

namespace SymbolIndex.CombinedRegistry

/-- The symbols at a key, none if the key is not there. -/
def symbolsAt (c : CombinedRegistry) (k : Key) : List Symbol := (c.get? k).getD []

variable {c : CombinedRegistry}

theorem sorted_push (h : Entries.Sorted c.entries) (k : Key) (s : Symbol) :
    Entries.Sorted (c.push k s).entries :=
  Entries.sorted_alter k _ h

theorem symbolsAt_push_self (h : Entries.Sorted c.entries) (k : Key) (s : Symbol) :
    (c.push k s).symbolsAt k = c.symbolsAt k ++ [s] := by
  show ((Entries.get? k (Entries.alter k _ c.entries)).getD []) = _
  rw [Entries.get?_alter_self k _ h]
  rfl

theorem symbolsAt_push_of_ne {k k' : Key} (h : k' ≠ k) (s : Symbol) :
    (c.push k s).symbolsAt k' = c.symbolsAt k' := by
  show ((Entries.get? k' (Entries.alter k _ c.entries)).getD []) = _
  rw [Entries.get?_alter_of_ne k _ h]
  rfl

/-! ### Merging a file -/

theorem sorted_foldl_push (es : List (Key × Symbol)) (h : Entries.Sorted c.entries) :
    Entries.Sorted (es.foldl (fun c (k, s) => c.push k s) c).entries := by
  induction es generalizing c with
  | nil => exact h
  | cons e es ih => exact ih (sorted_push h e.1 e.2)

/-- Entries that are pushed one by one have a place of their own, as each key comes once. -/
theorem symbolsAt_foldl_push {es : List (Key × Symbol)} (hes : Entries.Sorted es)
    (h : Entries.Sorted c.entries) (k : Key) :
    (es.foldl (fun c (k, s) => c.push k s) c).symbolsAt k =
      c.symbolsAt k ++ (Entries.get? k es).toList := by
  induction es generalizing c with
  | nil => exact (List.append_nil _).symm
  | cons e es ih =>
    obtain ⟨k', s⟩ := e
    obtain ⟨hlt, hes⟩ := Entries.sorted_cons.mp hes
    rw [List.foldl_cons, ih hes (sorted_push h k' s)]
    by_cases hk : k = k'
    · -- The keys after this one are higher, so the key does not come again.
      subst hk
      rw [symbolsAt_push_self h, Entries.get?_cons_self, Entries.get?_eq_none_of_forall_lt hlt]
      exact List.append_nil _
    · rw [symbolsAt_push_of_ne hk, Entries.get?_cons_of_ne hk]

theorem sorted_merge (h : Entries.Sorted c.entries) (f : FileRegistry) :
    Entries.Sorted (c.merge f).entries :=
  sorted_foldl_push f.entries h

theorem symbolsAt_merge {f : FileRegistry} (hf : Entries.Sorted f.entries)
    (h : Entries.Sorted c.entries) (k : Key) :
    (c.merge f).symbolsAt k = c.symbolsAt k ++ (f.get? k).toList :=
  symbolsAt_foldl_push hf h k

/-! ### Merging many files -/

theorem extend_append (c : CombinedRegistry) (fs gs : List FileRegistry) :
    c.extend (fs ++ gs) = (c.extend fs).extend gs :=
  List.foldl_append

theorem symbolsAt_extend {fs : List FileRegistry} (hfs : ∀ f ∈ fs, Entries.Sorted f.entries)
    (h : Entries.Sorted c.entries) (k : Key) :
    (c.extend fs).symbolsAt k = c.symbolsAt k ++ fs.filterMap (·.get? k) := by
  induction fs generalizing c with
  | nil => exact (List.append_nil _).symm
  | cons f fs ih =>
    have hf := hfs f List.mem_cons_self
    have hfs' : ∀ f ∈ fs, Entries.Sorted f.entries := fun g hg => hfs g (List.mem_cons_of_mem _ hg)
    show ((c.merge f).extend fs).symbolsAt k = _
    rw [ih hfs' (sorted_merge h f), symbolsAt_merge hf h, List.append_assoc]
    cases hget : f.get? k with
    | none => simp [hget]
    | some s => simp [hget]

/-- The symbols at a key are those that the files have there, in the order of the files. -/
theorem symbolsAt_ofFiles {fs : List FileRegistry} (hfs : ∀ f ∈ fs, Entries.Sorted f.entries)
    (k : Key) : (ofFiles fs).symbolsAt k = fs.filterMap (·.get? k) :=
  symbolsAt_extend hfs Entries.sorted_nil k

end SymbolIndex.CombinedRegistry
