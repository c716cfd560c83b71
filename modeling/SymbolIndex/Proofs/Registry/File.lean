import Mathlib.Data.List.Dedup
import Mathlib.Data.List.Induction
import SymbolIndex.Proofs.Extraction
import SymbolIndex.Proofs.Log
import SymbolIndex.Proofs.Registry.Entries
import SymbolIndex.Proofs.Syntax.Fault
import SymbolIndex.Proofs.Text.Utf8
import SymbolIndex.Registry.File

/-!
# What a policy keeps

The registry of a list of symbols is made by adding one symbol after the other. `Holds` says what it
is like after each of them: sorted by key, each symbol under its own key, the one at a key being the
one that the policy picks among all symbols with that key, and as many events told as symbols were
displaced or dropped. A symbol that is added keeps this (`Holds.add`), so it is true of every
registry (`holds_ofSymbols`).

Adding fails under the policy that refuses duplicates alone, and at the first duplicate
(`result_add_eq_error_iff`, `result_ofSymbols_of_first_repeat`). Without duplicates the policies
make no difference (`ofSymbols_of_nodup`).
-/

namespace SymbolIndex

/-- Which of the symbols with one key a policy keeps, if there are any. -/
def CollisionPolicy.pick : CollisionPolicy → List Symbol → Option Symbol
  | lastWins, symbols => symbols.getLast?
  | firstWins, symbols | reject, symbols => symbols.head?

/-- Whether an event tells that a key is declared again. -/
def Event.isRedeclaration : Event → Bool
  | redeclared .. => true
  | _ => false

/-- The symbols with a key, in order. -/
def Symbol.withKey (symbols : List Symbol) (k : Key) : List Symbol := symbols.filter (·.key = k)

namespace FileRegistry

variable {path : Path} {policy : CollisionPolicy} {symbols : List Symbol} {r r' : FileRegistry}
  {s : Symbol} {events : List Event}

/-! ### Adding a symbol -/

theorem get?_insert_self (hs : Entries.Sorted r.entries) : (r.insert s).get? s.key = some s :=
  Entries.get?_alter_self s.key (fun _ => s) hs

theorem get?_insert_of_ne {k : Key} (h : k ≠ s.key) : (r.insert s).get? k = r.get? k :=
  Entries.get?_alter_of_ne s.key (fun _ => s) h r.entries

/-- A symbol with a new key is registered, whatever the policy. -/
theorem add_of_not_contains (h : r.contains s.key = false) :
    r.add policy s = pure (r.insert s) := by
  unfold add
  rw [h]
  rfl

theorem add_lastWins_of_contains (h : r.contains s.key = true) :
    r.add .lastWins s = ExceptT.mk ⟨.ok (r.insert s), [.redeclared s.key r.path .later]⟩ := by
  rw [add, if_pos h]
  rfl

theorem add_firstWins_of_contains (h : r.contains s.key = true) :
    r.add .firstWins s = ExceptT.mk ⟨.ok r, [.redeclared s.key r.path .first]⟩ := by
  rw [add, if_pos h]
  rfl

theorem add_reject_of_contains (h : r.contains s.key = true) :
    r.add .reject s = throw (.duplicateSymbol r.path s.key) := by
  rw [add, if_pos h]

/-- Adding fails for a duplicate that the policy refuses, and for nothing else. -/
theorem result_add_eq_error_iff {e : Error} :
    (r.add policy s).result = .error e ↔
      policy = .reject ∧ r.contains s.key = true ∧ e = .duplicateSymbol r.path s.key := by
  cases hc : r.contains s.key with
  | false => simp [add_of_not_contains hc]
  | true =>
    cases policy with
    | lastWins =>
      rw [add_lastWins_of_contains hc]
      simp [Attempt.result, ExceptT.run, ExceptT.mk]
    | firstWins =>
      rw [add_firstWins_of_contains hc]
      simp [Attempt.result, ExceptT.run, ExceptT.mk]
    | reject =>
      rw [add_reject_of_contains hc, Attempt.result_throw]
      simp [eq_comm]

/-! ### The registry after each symbol -/

/-- The registry `r` holds what the policy keeps of the symbols, and the events tell of the others,
one of each. -/
structure Holds (policy : CollisionPolicy) (path : Path) (symbols : List Symbol)
    (r : FileRegistry) (events : List Event) : Prop where
  path_eq : r.path = path
  sorted : Entries.Sorted r.entries
  get?_eq : ∀ k, r.get? k = policy.pick (Symbol.withKey symbols k)
  told : events.length + r.size = symbols.length
  redeclared : ∀ e ∈ events, e.isRedeclaration = true

theorem holds_empty : Holds policy path [] (empty path) [] where
  path_eq := rfl
  sorted := Entries.sorted_nil
  get?_eq k := by cases policy <;> rfl
  told := rfl
  redeclared e he := by cases he

theorem withKey_append_self (symbols : List Symbol) (s : Symbol) :
    Symbol.withKey (symbols ++ [s]) s.key = Symbol.withKey symbols s.key ++ [s] := by
  simp [Symbol.withKey]

theorem withKey_append_of_ne {k : Key} (h : k ≠ s.key) (symbols : List Symbol) :
    Symbol.withKey (symbols ++ [s]) k = Symbol.withKey symbols k := by
  simp [Symbol.withKey, h.symm]

theorem withKey_eq_nil_iff {k : Key} :
    Symbol.withKey symbols k = [] ↔ k ∉ symbols.map Symbol.key := by
  simp [Symbol.withKey]

theorem pick_eq_none_iff : policy.pick symbols = none ↔ symbols = [] := by
  cases policy with
  | lastWins => exact List.getLast?_eq_none_iff
  | firstWins | reject => exact List.head?_eq_none_iff

namespace Holds

/-- The keys of the registry are those of the symbols. -/
theorem contains_iff (h : Holds policy path symbols r events) {k : Key} :
    r.contains k = true ↔ k ∈ symbols.map Symbol.key := by
  rw [contains, h.get?_eq, Option.isSome_iff_ne_none, ne_eq, pick_eq_none_iff, withKey_eq_nil_iff,
    not_not]

/-- A symbol that takes a place of its own, or the place of another. -/
theorem insert (h : Holds policy path symbols r events) {more : List Event}
    (hpick : policy.pick (Symbol.withKey symbols s.key ++ [s]) = some s)
    (hmore : more.length = if r.contains s.key then 1 else 0)
    (hredeclared : ∀ e ∈ more, e.isRedeclaration = true) :
    Holds policy path (symbols ++ [s]) (r.insert s) (events ++ more) where
  path_eq := h.path_eq
  sorted := Entries.sorted_alter s.key (fun _ => s) h.sorted
  get?_eq k := by
    by_cases hk : k = s.key
    · subst hk
      rw [get?_insert_self h.sorted, withKey_append_self, hpick]
    · rw [get?_insert_of_ne hk, withKey_append_of_ne hk, h.get?_eq]
  told := by
    have hsize : (r.insert s).size = if r.contains s.key then r.size else r.size + 1 :=
      Entries.length_alter s.key (fun _ => s) h.sorted
    have htold := h.told
    rw [hsize, List.length_append, List.length_append, List.length_singleton, hmore]
    split_ifs <;> omega
  redeclared e he := by
    rcases List.mem_append.mp he with he | he
    · exact h.redeclared e he
    · exact hredeclared e he

/-- Adding a symbol keeps the registry as it should be. -/
theorem add (h : Holds policy path symbols r events) (hadd : (r.add policy s).result = .ok r') :
    Holds policy path (symbols ++ [s]) r' (events ++ (r.add policy s).events) := by
  cases hc : r.contains s.key with
  | false =>
    have hnone : Symbol.withKey symbols s.key = [] := by
      rw [withKey_eq_nil_iff, ← h.contains_iff, hc]
      simp
    rw [add_of_not_contains hc] at hadd ⊢
    cases hadd
    refine h.insert ?_ (by rw [hc]; rfl) (by simp)
    rw [hnone]
    cases policy <;> rfl
  | true =>
    cases policy with
    | lastWins =>
      rw [add_lastWins_of_contains hc] at hadd ⊢
      cases hadd
      refine h.insert List.getLast?_concat (by rw [hc]; rfl) ?_
      intro e he
      rw [List.mem_singleton.mp he]
      rfl
    | firstWins =>
      rw [add_firstWins_of_contains hc] at hadd ⊢
      cases hadd
      -- The registry stays; there is an earlier symbol at the key, and the policy picks it still.
      refine ⟨h.path_eq, h.sorted, fun k => ?_, ?_, ?_⟩
      · by_cases hk : k = s.key
        · have hsome : Symbol.withKey symbols s.key ≠ [] := by
            rw [ne_eq, withKey_eq_nil_iff, not_not, ← h.contains_iff, hc]
          subst hk
          rw [h.get?_eq, withKey_append_self]
          exact (List.head?_append_of_ne_nil _ hsome).symm
        · rw [h.get?_eq, withKey_append_of_ne hk]
      · have htold := h.told
        rw [List.length_append, List.length_append, ← htold]
        show events.length + 1 + r.size = _
        rw [List.length_singleton]
        omega
      · intro e he
        rcases List.mem_append.mp he with he | he
        · exact h.redeclared e he
        · rw [List.mem_singleton.mp he]
          rfl
    | reject =>
      rw [add_reject_of_contains hc] at hadd
      cases hadd

end Holds

/-! ### The registry of a list of symbols -/

theorem ofSymbols_eq_foldlM (path : Path) (policy : CollisionPolicy) (symbols : List Symbol) :
    ofSymbols path policy symbols = symbols.foldlM (add policy) (empty path) := by
  rw [ofSymbols, ofFindings, List.foldlM_map]
  rfl

theorem ofSymbols_append (path : Path) (policy : CollisionPolicy) (symbols more : List Symbol) :
    ofSymbols path policy (symbols ++ more) =
      ofSymbols path policy symbols >>= fun r => more.foldlM (add policy) r := by
  rw [ofSymbols_eq_foldlM, ofSymbols_eq_foldlM, List.foldlM_append]

theorem ofSymbols_append_singleton (path : Path) (policy : CollisionPolicy) (symbols : List Symbol)
    (s : Symbol) :
    ofSymbols path policy (symbols ++ [s]) =
      ofSymbols path policy symbols >>= fun r => r.add policy s := by
  rw [ofSymbols_append]
  refine bind_congr fun r => ?_
  rw [List.foldlM_cons]
  exact bind_pure _

/-- Every registry is as it should be. -/
theorem holds_ofSymbols (h : (ofSymbols path policy symbols).result = .ok r) :
    Holds policy path symbols r (ofSymbols path policy symbols).events := by
  -- Registries grow at the end of the list, so the induction takes the last symbol off.
  induction symbols using List.reverseRecOn generalizing r with
  | nil =>
    cases h
    exact holds_empty
  | append_singleton symbols s ih =>
    rw [ofSymbols_append_singleton] at h ⊢
    obtain ⟨r₀, hr₀, hadd⟩ := Attempt.result_bind_eq_ok_iff.mp h
    rw [Attempt.events_bind_of_ok hr₀]
    exact (ih hr₀).add hadd

/-- Policies that keep one of two symbols never fail. -/
theorem exists_ofSymbols_of_ne_reject (h : policy ≠ .reject) (path : Path) (symbols : List Symbol) :
    ∃ r, (ofSymbols path policy symbols).result = .ok r := by
  induction symbols using List.reverseRecOn with
  | nil => exact ⟨empty path, rfl⟩
  | append_singleton symbols s ih =>
    obtain ⟨r, hr⟩ := ih
    rw [ofSymbols_append_singleton, Attempt.result_bind_of_ok hr]
    cases hadd : (r.add policy s).result with
    | ok r' => exact ⟨r', rfl⟩
    | error e => exact absurd (result_add_eq_error_iff.mp hadd).1 h

/-- Where no key repeats every symbol is registered, whatever the policy, and nothing is told. -/
theorem ofSymbols_of_nodup (h : (symbols.map Symbol.key).Nodup) (path : Path)
    (policy : CollisionPolicy) :
    ofSymbols path policy symbols = pure (symbols.foldl insert (empty path)) := by
  induction symbols using List.reverseRecOn with
  | nil => rfl
  | append_singleton symbols s ih =>
    rw [List.map_append, List.nodup_append] at h
    obtain ⟨hsymbols, -, hdisjoint⟩ := h
    have hok : (ofSymbols path policy symbols).result =
        .ok (symbols.foldl insert (empty path)) := by
      rw [ih hsymbols]
      rfl
    have hfresh : (symbols.foldl insert (empty path)).contains s.key = false := by
      rw [Bool.eq_false_iff, ne_eq, (holds_ofSymbols hok).contains_iff]
      intro hmem
      exact hdisjoint s.key hmem s.key (List.mem_singleton.mpr rfl) rfl
    rw [ofSymbols_append_singleton, ih hsymbols, pure_bind, add_of_not_contains hfresh,
      List.foldl_append]
    rfl

theorem result_ofSymbols_of_nodup (h : (symbols.map Symbol.key).Nodup) (path : Path)
    (policy : CollisionPolicy) :
    (ofSymbols path policy symbols).result = .ok (symbols.foldl insert (empty path)) := by
  rw [ofSymbols_of_nodup h]
  rfl

/-- The first symbol that repeats a key is refused, whatever follows it. -/
theorem result_ofSymbols_of_first_repeat (path : Path) {before : List Symbol} {s : Symbol}
    (hbefore : (before.map Symbol.key).Nodup) (hrepeat : s.key ∈ before.map Symbol.key)
    (after : List Symbol) :
    (ofSymbols path .reject (before ++ s :: after)).result =
      .error (.duplicateSymbol path s.key) := by
  have hok := result_ofSymbols_of_nodup hbefore path .reject
  have hholds := holds_ofSymbols hok
  have hadd := result_add_eq_error_iff.mpr
    ⟨rfl, hholds.contains_iff.mpr hrepeat, rfl⟩
  rw [hholds.path_eq] at hadd
  rw [ofSymbols_append, Attempt.result_bind_of_ok hok, List.foldlM_cons]
  exact Attempt.result_bind_of_error hadd _

/-- Where a key repeats there is a first symbol that repeats one. -/
theorem exists_first_repeat (h : ¬(symbols.map Symbol.key).Nodup) :
    ∃ before s after, symbols = before ++ s :: after ∧ (before.map Symbol.key).Nodup ∧
      s.key ∈ before.map Symbol.key := by
  induction symbols using List.reverseRecOn with
  | nil => exact absurd List.nodup_nil h
  | append_singleton symbols s ih =>
    by_cases hsymbols : (symbols.map Symbol.key).Nodup
    · -- Nothing repeats before the last symbol, so it is the one.
      refine ⟨symbols, s, [], rfl, hsymbols, ?_⟩
      by_contra hfresh
      refine h ?_
      rw [List.map_append]
      exact hsymbols.append (List.nodup_singleton _) (by simpa using hfresh)
    · obtain ⟨before, s', after, rfl, hbefore, hrepeat⟩ := ih hsymbols
      exact ⟨before, s', after ++ [s], by simp, hbefore, hrepeat⟩

/-- What is refused: the key of the first symbol that repeats one. -/
theorem result_ofSymbols_reject_eq_error_iff {e : Error} :
    (ofSymbols path .reject symbols).result = .error e ↔
      ∃ before s after, symbols = before ++ s :: after ∧ (before.map Symbol.key).Nodup ∧
        s.key ∈ before.map Symbol.key ∧ e = .duplicateSymbol path s.key := by
  constructor
  · intro h
    have hrepeat : ¬(symbols.map Symbol.key).Nodup := by
      intro hnodup
      cases (result_ofSymbols_of_nodup hnodup path .reject).symm.trans h
    obtain ⟨before, s, after, rfl, hbefore, hkey⟩ := exists_first_repeat hrepeat
    rw [result_ofSymbols_of_first_repeat path hbefore hkey] at h
    exact ⟨before, s, after, rfl, hbefore, hkey, (Except.error.inj h).symm⟩
  · rintro ⟨before, s, after, rfl, hbefore, hkey, rfl⟩
    exact result_ofSymbols_of_first_repeat path hbefore hkey after

theorem exists_error_ofSymbols_reject_iff :
    (∃ e, (ofSymbols path .reject symbols).result = .error e) ↔
      ¬(symbols.map Symbol.key).Nodup := by
  constructor
  · rintro ⟨e, h⟩ hnodup
    cases (result_ofSymbols_of_nodup hnodup path .reject).symm.trans h
  · intro h
    obtain ⟨before, s, after, hsplit, hbefore, hkey⟩ := exists_first_repeat h
    exact ⟨_, result_ofSymbols_reject_eq_error_iff.mpr
      ⟨before, s, after, hsplit, hbefore, hkey, rfl⟩⟩

/-! ### Order and number of the entries -/

namespace Holds

/-- An entry is one of the symbols with its key. -/
theorem mem_withKey (h : Holds policy path symbols r events) {e : Key × Symbol}
    (he : e ∈ r.entries) : e.2 ∈ Symbol.withKey symbols e.1 := by
  have hget : r.get? e.1 = some e.2 := (Entries.get?_eq_some_iff h.sorted).mpr he
  rw [h.get?_eq] at hget
  cases policy with
  | lastWins => exact List.mem_of_getLast? hget
  | firstWins | reject => exact List.mem_of_head? hget

/-- Every symbol stands under its own key. -/
theorem key_of_mem (h : Holds policy path symbols r events) {e : Key × Symbol}
    (he : e ∈ r.entries) : e.2.key = e.1 := by
  simpa using (List.mem_filter.mp (h.mem_withKey he)).2

theorem mem_keys_iff (h : Holds policy path symbols r events) {k : Key} :
    k ∈ r.keys ↔ k ∈ symbols.map Symbol.key := by
  rw [← h.contains_iff]
  exact Entries.isSome_get?_iff.symm

theorem pairwise_keys (h : Holds policy path symbols r events) : r.keys.Pairwise (· < ·) := by
  rw [keys, List.pairwise_map]
  exact h.sorted

/-- There are as many entries as different keys. -/
theorem size_eq (h : Holds policy path symbols r events) :
    r.size = (symbols.map Symbol.key).dedup.length := by
  have hperm : r.keys.Perm (symbols.map Symbol.key).dedup := by
    refine (List.perm_ext_iff_of_nodup (Entries.nodup_keys h.sorted) (List.nodup_dedup _)).mpr
      fun k => ?_
    rw [List.mem_dedup]
    exact h.mem_keys_iff
  rw [← hperm.length_eq, keys, List.length_map]
  rfl

theorem countP_isRedeclaration (h : Holds policy path symbols r events) :
    events.countP Event.isRedeclaration + r.size = symbols.length := by
  rw [List.countP_eq_length.mpr h.redeclared, h.told]

end Holds

/-- **Collision policies**: the registry of a list of symbols exists under the policies that keep
one of two symbols, and holds the last or the first symbol of each key; the policy that refuses
duplicates fails exactly where there are some, and names the first key that repeats. Whenever there
is a registry, it lists each key of the symbols once, in the order of the bytes, with a symbol of
that key. -/
theorem ofSymbols_keeps_by_policy (path : Path) (symbols : List Symbol) :
    (∃ r, (ofSymbols path .lastWins symbols).result = .ok r ∧
      ∀ k, r.get? k = (symbols.filter (·.key = k)).getLast?) ∧
    (∃ r, (ofSymbols path .firstWins symbols).result = .ok r ∧
      ∀ k, r.get? k = (symbols.filter (·.key = k)).head?) ∧
    ((∃ e, (ofSymbols path .reject symbols).result = .error e) ↔
      ¬(symbols.map Symbol.key).Nodup) ∧
    (∀ e, (ofSymbols path .reject symbols).result = .error e ↔
      ∃ before s after, symbols = before ++ s :: after ∧ (before.map Symbol.key).Nodup ∧
        s.key ∈ before.map Symbol.key ∧ e = .duplicateSymbol path s.key) ∧
    ((symbols.map Symbol.key).Nodup →
      ∃ r, ∀ policy, (ofSymbols path policy symbols).result = .ok r) ∧
    ∀ policy r, (ofSymbols path policy symbols).result = .ok r →
      r.path = path ∧
      r.keys.Pairwise (fun k k' => Text.Utf8.encode k < Text.Utf8.encode k') ∧
      (∀ k, k ∈ r.keys ↔ k ∈ symbols.map Symbol.key) ∧
      (∀ e ∈ r.entries, e.2.key = e.1) ∧
      r.size = (symbols.map Symbol.key).dedup.length ∧
      (ofSymbols path policy symbols).events.countP Event.isRedeclaration + r.size =
        symbols.length := by
  refine ⟨?_, ?_, exists_error_ofSymbols_reject_iff,
    fun e => result_ofSymbols_reject_eq_error_iff, fun hnodup => ?_, fun policy r hr => ?_⟩
  · have hlast : CollisionPolicy.lastWins ≠ .reject := by decide
    obtain ⟨r, hr⟩ := exists_ofSymbols_of_ne_reject hlast path symbols
    exact ⟨r, hr, (holds_ofSymbols hr).get?_eq⟩
  · have hfirst : CollisionPolicy.firstWins ≠ .reject := by decide
    obtain ⟨r, hr⟩ := exists_ofSymbols_of_ne_reject hfirst path symbols
    exact ⟨r, hr, (holds_ofSymbols hr).get?_eq⟩
  · exact ⟨symbols.foldl insert (empty path), result_ofSymbols_of_nodup hnodup path⟩
  · have hholds := holds_ofSymbols hr
    exact ⟨hholds.path_eq, hholds.pairwise_keys.imp Text.Utf8.encode_lt_encode,
      fun k => hholds.mem_keys_iff, fun e => hholds.key_of_mem, hholds.size_eq,
      hholds.countP_isRedeclaration⟩

/-! ### The registry of a source text -/

/-- What is found besides symbols is told and changes no registry. -/
theorem result_ofFindings (path : Path) (policy : CollisionPolicy) (found : List Finding) :
    (ofFindings path policy found).result =
      (ofSymbols path policy (found.filterMap Finding.symbol?)).result := by
  rw [ofFindings, ofSymbols_eq_foldlM]
  generalize empty path = r
  induction found generalizing r with
  | nil => rfl
  | cons f found ih =>
    cases f with
    | skipped e =>
      rw [List.foldlM_cons, List.filterMap_cons_none rfl]
      exact ih r
    | symbol s =>
      rw [List.foldlM_cons]
      show (r.add policy s >>= _).result = (r.add policy s >>= fun r =>
        (found.filterMap Finding.symbol?).foldlM (add policy) r).result
      rw [Attempt.result_bind, Attempt.result_bind]
      exact congrArg ((r.add policy s).result >>= ·) (funext ih)

theorem result_ofSource (source : String) (path : Path) (options : ExtractOptions)
    (policy : CollisionPolicy) :
    (ofSource source path options policy).result =
      JavaScript.parse source path >>= fun t =>
        (ofSymbols path policy (t.symbols options)).result := by
  rw [ofSource, Attempt.result_bind, Attempt.result_ofExcept]
  simp only [result_ofFindings, Syntax.SyntaxTree.symbols]

theorem result_ofSource_of_parse {source : String} {t : Syntax.SyntaxTree}
    (h : JavaScript.parse source path = .ok t) (options : ExtractOptions)
    (policy : CollisionPolicy) : (ofSource source path options policy).result =
      (ofSymbols path policy (t.symbols options)).result := by
  rw [result_ofSource, h]
  rfl

/-- The registry of a source text is the registry of the symbols of its tree. -/
theorem result_ofSource_eq_ok_iff {source : String} {options : ExtractOptions} :
    (ofSource source path options policy).result = .ok r ↔
      ∃ t, JavaScript.parse source path = .ok t ∧
        (ofSymbols path policy (t.symbols options)).result = .ok r := by
  rw [ofSource, Attempt.result_bind_eq_ok_iff]
  simp only [Attempt.result_ofExcept, result_ofFindings, Syntax.SyntaxTree.symbols]

/-- The symbols that are registered for a source text belong to its file. -/
theorem path_of_mem_ofSource {source : String} {options : ExtractOptions}
    (h : (ofSource source path options policy).result = .ok r) {e : Key × Symbol}
    (he : e ∈ r.entries) : e.2.path = path := by
  obtain ⟨t, ht, hr⟩ := result_ofSource_eq_ok_iff.mp h
  have hmem := (holds_ofSymbols hr).mem_withKey he
  rw [Syntax.SyntaxTree.path_of_mem_symbols (List.mem_of_mem_filter hmem)]
  exact Syntax.SyntaxTree.path_of_ofRoot ht

theorem sorted_of_ofSource {source : String} {options : ExtractOptions}
    (h : (ofSource source path options policy).result = .ok r) : Entries.Sorted r.entries := by
  obtain ⟨t, -, hr⟩ := result_ofSource_eq_ok_iff.mp h
  exact (holds_ofSymbols hr).sorted

/-- A source text is refused for what is wrong in it, or for a key that it declares twice. -/
theorem error_of_ofSource {source : String} {options : ExtractOptions} {e : Error}
    (h : (ofSource source path options policy).result = .error e) :
    (∃ line column detail, e = .parse path line column detail) ∨
      ∃ key, e = .duplicateSymbol path key := by
  rw [result_ofSource] at h
  cases hparse : JavaScript.parse source path with
  | error e' =>
    rw [hparse] at h
    cases h
    exact .inl (Syntax.SyntaxTree.error_of_ofRoot hparse)
  | ok t =>
    rw [hparse] at h
    right
    have hreject : policy = .reject := by
      by_contra hne
      obtain ⟨r, hr⟩ := exists_ofSymbols_of_ne_reject hne path (t.symbols options)
      cases hr.symm.trans h
    subst hreject
    obtain ⟨before, s, after, -, -, -, rfl⟩ := result_ofSymbols_reject_eq_error_iff.mp h
    exact ⟨s.key, rfl⟩

end FileRegistry

end SymbolIndex
