import Mathlib.Data.List.Nodup
import Mathlib.Data.String.Basic
import SymbolIndex.Registry.Entries

/-!
# Entries in key order as finite maps

Entries are `Sorted` if their keys strictly increase, which leaves one place for each key. Sorted
entries are determined by their lookups (`eq_of_get?_eq`), and `alter` changes a single lookup
(`get?_alter_self`, `get?_alter_of_ne`) and keeps the order (`sorted_alter`).
-/

namespace SymbolIndex.Entries

variable {α : Type}

/-- The keys strictly increase. -/
def Sorted (es : List (String × α)) : Prop := es.Pairwise fun e e' => e.1 < e'.1

theorem sorted_nil : Sorted ([] : List (String × α)) := List.Pairwise.nil

theorem sorted_cons {k : String} {v : α} {es : List (String × α)} :
    Sorted ((k, v) :: es) ↔ (∀ e ∈ es, k < e.1) ∧ Sorted es :=
  List.pairwise_cons

/-! ### Lookups -/

theorem get?_cons_self (k : String) (v : α) (es : List (String × α)) :
    get? k ((k, v) :: es) = some v :=
  if_pos rfl

theorem get?_cons_of_ne {k k' : String} (h : k ≠ k') (v : α) (es : List (String × α)) :
    get? k ((k', v) :: es) = get? k es :=
  if_neg h

theorem get?_eq_none_of_forall_lt {k : String} {es : List (String × α)}
    (h : ∀ e ∈ es, k < e.1) : get? k es = none := by
  induction es with
  | nil => rfl
  | cons e es ih =>
    obtain ⟨k', v⟩ := e
    have hk : k ≠ k' := ne_of_lt (h (k', v) List.mem_cons_self)
    rw [get?_cons_of_ne hk]
    exact ih fun e he => h e (List.mem_cons_of_mem _ he)

/-- A key has a value exactly if it is among the keys. -/
theorem isSome_get?_iff {k : String} {es : List (String × α)} :
    (get? k es).isSome ↔ k ∈ es.map (·.1) := by
  induction es with
  | nil => simp [get?]
  | cons e es ih =>
    obtain ⟨k', v⟩ := e
    rw [List.map_cons, List.mem_cons]
    by_cases hk : k = k'
    · subst hk
      simp [get?_cons_self]
    · rw [get?_cons_of_ne hk, ih]
      simp [hk]

theorem mem_of_get?_eq_some {k : String} {v : α} {es : List (String × α)}
    (h : get? k es = some v) : (k, v) ∈ es := by
  induction es with
  | nil => cases h
  | cons e es ih =>
    obtain ⟨k', w⟩ := e
    by_cases hk : k = k'
    · subst hk
      rw [get?_cons_self] at h
      cases h
      exact List.mem_cons_self
    · rw [get?_cons_of_ne hk] at h
      exact List.mem_cons_of_mem _ (ih h)

/-- Sorted entries have one value at each of their keys. -/
theorem get?_eq_some_iff {k : String} {v : α} {es : List (String × α)} (hs : Sorted es) :
    get? k es = some v ↔ (k, v) ∈ es := by
  refine ⟨mem_of_get?_eq_some, fun h => ?_⟩
  induction es with
  | nil => cases h
  | cons e es ih =>
    obtain ⟨k', w⟩ := e
    obtain ⟨hlt, hs⟩ := sorted_cons.mp hs
    rcases List.mem_cons.mp h with heq | hmem
    · cases heq
      exact get?_cons_self k v es
    · have hk : k ≠ k' := (ne_of_lt (hlt (k, v) hmem)).symm
      rw [get?_cons_of_ne hk]
      exact ih hs hmem

theorem nodup_keys {es : List (String × α)} (hs : Sorted es) : (es.map (·.1)).Nodup := by
  rw [List.Nodup, List.pairwise_map]
  exact hs.imp fun h => ne_of_lt h

theorem nodup {es : List (String × α)} (hs : Sorted es) : es.Nodup :=
  List.Nodup.of_map _ (nodup_keys hs)

/-- Sorted entries with the same lookups are the same. -/
theorem eq_of_get?_eq {es es' : List (String × α)} (hs : Sorted es) (hs' : Sorted es')
    (h : ∀ k, get? k es = get? k es') : es = es' := by
  have hmem : ∀ e, e ∈ es ↔ e ∈ es' := by
    rintro ⟨k, v⟩
    rw [← get?_eq_some_iff hs, ← get?_eq_some_iff hs', h k]
  -- The same entries in some order, and keys that increase leave one order only.
  have hperm : es.Perm es' :=
    (List.perm_ext_iff_of_nodup (nodup hs) (nodup hs')).mpr hmem
  exact hperm.eq_of_pairwise
    (fun e e' _ _ hlt hgt => absurd (lt_trans hlt hgt) (lt_irrefl e.1)) hs hs'

/-! ### Changes -/

section
variable (k : String) (f : Option α → α)

/-- Altering a key adds no other key. -/
theorem mem_alter {e : String × α} {es : List (String × α)} (h : e ∈ alter k f es) :
    e.1 = k ∨ e ∈ es := by
  induction es with
  | nil =>
    rw [List.mem_singleton.mp h]
    exact .inl rfl
  | cons e' es ih =>
    obtain ⟨k', v⟩ := e'
    rw [alter] at h
    split_ifs at h with heq hk
    · rcases List.mem_cons.mp h with rfl | h
      · exact .inl heq.symm
      · exact .inr (List.mem_cons_of_mem _ h)
    · rcases List.mem_cons.mp h with rfl | h
      · exact .inl rfl
      · exact .inr h
    · rcases List.mem_cons.mp h with rfl | h
      · exact .inr List.mem_cons_self
      · exact (ih h).imp_right (List.mem_cons_of_mem _)

theorem sorted_alter {es : List (String × α)} (hs : Sorted es) : Sorted (alter k f es) := by
  induction es with
  | nil => exact List.pairwise_singleton _ _
  | cons e es ih =>
    obtain ⟨k', v⟩ := e
    obtain ⟨hlt, hs'⟩ := sorted_cons.mp hs
    rw [alter]
    split_ifs with heq hk
    · exact sorted_cons.mpr ⟨hlt, hs'⟩
    · refine sorted_cons.mpr ⟨fun e he => ?_, hs⟩
      rcases List.mem_cons.mp he with rfl | he
      · exact hk
      · exact lt_trans hk (hlt e he)
    · refine sorted_cons.mpr ⟨fun e he => ?_, ih hs'⟩
      -- What follows is the altered key, which is higher than `k'`, or was there before.
      rcases mem_alter k f he with hek | he
      · rw [hek]
        exact lt_of_le_of_ne (not_lt.mp hk) (Ne.symm heq)
      · exact hlt e he

/-- A key that has an entry keeps its place, and any other key gets a new one. -/
theorem length_alter {es : List (String × α)} (hs : Sorted es) :
    (alter k f es).length = if (get? k es).isSome then es.length else es.length + 1 := by
  induction es with
  | nil => rfl
  | cons e es ih =>
    obtain ⟨k', v⟩ := e
    obtain ⟨hlt, hs⟩ := sorted_cons.mp hs
    rw [alter]
    by_cases heq : k = k'
    · subst heq
      rw [if_pos rfl, get?_cons_self]
      rfl
    · rw [if_neg heq, get?_cons_of_ne heq]
      by_cases hk : k < k'
      · rw [if_pos hk, get?_eq_none_of_forall_lt fun e he => lt_trans hk (hlt e he)]
        rfl
      · rw [if_neg hk, List.length_cons, ih hs, List.length_cons]
        split_ifs <;> rfl

theorem get?_alter_self {es : List (String × α)} (hs : Sorted es) :
    get? k (alter k f es) = some (f (get? k es)) := by
  induction es with
  | nil => exact get?_cons_self k (f none) []
  | cons e es ih =>
    obtain ⟨k', v⟩ := e
    obtain ⟨hlt, hs⟩ := sorted_cons.mp hs
    rw [alter]
    split_ifs with heq hk
    · subst heq
      rw [get?_cons_self, get?_cons_self]
    · rw [get?_cons_self, get?_cons_of_ne heq,
        get?_eq_none_of_forall_lt fun e he => lt_trans hk (hlt e he)]
    · rw [get?_cons_of_ne heq, get?_cons_of_ne heq, ih hs]

theorem get?_alter_of_ne {k' : String} (h : k' ≠ k) (es : List (String × α)) :
    get? k' (alter k f es) = get? k' es := by
  induction es with
  | nil => exact get?_cons_of_ne h (f none) []
  | cons e es ih =>
    obtain ⟨k'', v⟩ := e
    rw [alter]
    split_ifs with heq hk
    · subst heq
      rw [get?_cons_of_ne h, get?_cons_of_ne h]
    · rw [get?_cons_of_ne h]
    · by_cases hk' : k' = k''
      · subst hk'
        rw [get?_cons_self, get?_cons_self]
      · rw [get?_cons_of_ne hk', get?_cons_of_ne hk', ih]

end

end SymbolIndex.Entries
