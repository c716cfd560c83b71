import SymbolIndex.Proofs.CommandLine
import SymbolIndex.Proofs.Json.Printer
import SymbolIndex.Proofs.Json.Reader
import SymbolIndex.Proofs.Registry.History
import SymbolIndex.Proofs.Text.Utf8

/-!
# Reading a printed registry

A registry that is printed as JSON can be read back (`CombinedRegistry.print_reads_back`). The text
is one of the value that was printed, whatever is escaped in it (`Json.parse?_pretty`); the values of
the entries give the symbols back, as a path that is text is the encoding of that text
(`Symbol.ofJson?_of_toJson?`); and there is nothing to print that has no text if all paths are text.
-/

namespace SymbolIndex

open Text

/-- **A printed value is read as the value**, whether it is on several lines or on one. -/
theorem Json.parse?_pretty {v : Json} (h : v.Proper) : Json.parse? (v.pretty ++ "\n") = some v := by
  have hgap : IsGap ['\n'] := isGap_singleton rfl
  have hread := parse?_of_spellsElement (.intro isGap_nil (spells_prettyAt 0 v h) hgap)
  have htext : v.pretty ++ "\n" = String.ofList ([] ++ (v.prettyAt 0).toList ++ ['\n']) := by
    rw [← String.toList_inj]
    simp [pretty]
  rwa [htext]

theorem Json.parse?_compact {v : Json} (h : v.Proper) : Json.parse? v.compact = some v := by
  have hread := parse?_of_spellsElement (spells_compact v h).element
  rwa [String.ofList_toList] at hread

/-- The results of a list are those of its members. -/
theorem mapM_eq_some_iff_forall₂ {α β : Type} {f : α → Option β} {as : List α} {bs : List β} :
    as.mapM f = some bs ↔ List.Forall₂ (fun a b => f a = some b) as bs := by
  induction as generalizing bs with
  | nil =>
    rw [List.forall₂_nil_left_iff]
    exact ⟨fun h => by cases h; rfl, fun h => by rw [h]; rfl⟩
  | cons a as ih =>
    rw [List.mapM_cons, List.forall₂_cons_left_iff]
    simp only [← ih]
    cases f a with
    | none => simp
    | some b =>
      cases as.mapM f with
      | none => simp
      | some bs' => simp [eq_comm]

/-- Where each result can be taken back, a list of them can. -/
theorem mapM_eq_some_of_inverse {α β : Type} {f : α → Option β} {g : β → Option α}
    (hfg : ∀ a b, f a = some b → g b = some a) {as : List α} {bs : List β}
    (h : as.mapM f = some bs) : bs.mapM g = some as := by
  rw [mapM_eq_some_iff_forall₂] at h ⊢
  exact (h.imp hfg).flip

namespace Json

theorem properAll_of_mapM {α : Type} {f : α → Option Json} (hf : ∀ a v, f a = some v → v.Proper)
    {as : List α} {vs : List Json} (h : as.mapM f = some vs) : ProperAll vs := by
  rw [mapM_eq_some_iff_forall₂] at h
  induction h with
  | nil => trivial
  | cons hv _ ih => exact ⟨hf _ _ hv, ih⟩

theorem properMembers_of_mapM {α : Type} {f : α → Option (Option String × Json)}
    (hf : ∀ a m, f a = some m → m.2.Proper) {as : List α} {ms : List (Option String × Json)}
    (h : as.mapM f = some ms) : ProperMembers ms := by
  rw [mapM_eq_some_iff_forall₂] at h
  induction h with
  | nil => trivial
  | cons hm _ ih => exact ⟨hf _ _ hm, ih⟩

theorem proper_ofOption (s : Option String) : (ofOption s).Proper := by
  cases s <;> trivial

variable {v : Json}

theorem string?_eq_some_iff {s : String} : v.string? = some s ↔ v = .string s := by
  cases v <;> simp [string?]

theorem optionalString?_eq_some_iff {s : Option String} :
    v.optionalString? = some s ↔ v = ofOption s := by
  cases s <;> cases v <;> simp [optionalString?, ofOption]

theorem bool?_eq_some_iff {b : Bool} : v.bool? = some b ↔ v = .bool b := by
  cases v <;> simp [bool?]

end Json

/-! ### Symbols -/

/-- A path is made of a text if its bytes are the encoding of it. -/
theorem Path.ofString_eq_iff {text : String} {p : Path} :
    ofString text = p ↔ Utf8.decode? p.bytes = some text := by
  constructor
  · rintro rfl
    exact Utf8.decode?_encode text
  · intro h
    rw [ofString, Utf8.encode_of_decode? h]

namespace Symbol

/-- The members of the JSON form of a symbol, its path being the text `path`. -/
def fields (s : Symbol) (path : String) : List (Option String × Json) :=
  [(some "method_name", .string s.name), (some "class_name", .ofOption s.owner),
    (some "is_static", .bool s.isStatic), (some "super_class", .ofOption s.superclass),
    (some "source_path", .string path)]

theorem toJson?_eq_some_iff {s : Symbol} {v : Json} :
    s.toJson? = some v ↔ ∃ path, Utf8.decode? s.path.bytes = some path ∧
      v = .object (s.fields path) := by
  rw [toJson?]
  cases Utf8.decode? s.path.bytes with
  | none => simp
  | some path => simp [fields, eq_comm]

theorem proper_of_toJson? {s : Symbol} {v : Json} (h : s.toJson? = some v) : v.Proper := by
  obtain ⟨path, -, rfl⟩ := toJson?_eq_some_iff.mp h
  exact ⟨trivial, Json.proper_ofOption _, trivial, Json.proper_ofOption _, trivial, trivial⟩

/-- Values give a symbol exactly if they are those of its fields. -/
theorem ofValues?_eq_some_iff {name owner isStatic superclass path : Json} {s : Symbol} :
    ofValues? name owner isStatic superclass path = some s ↔
      name = .string s.name ∧ owner = .ofOption s.owner ∧ isStatic = .bool s.isStatic ∧
        superclass = .ofOption s.superclass ∧
        ∃ text, path = .string text ∧ Utf8.decode? s.path.bytes = some text := by
  simp only [ofValues?, Option.bind_eq_bind, Option.pure_def, Option.bind_eq_some_iff,
    Option.some.injEq, Json.string?_eq_some_iff, Json.optionalString?_eq_some_iff,
    Json.bool?_eq_some_iff]
  constructor
  · rintro ⟨n, hn, o, ho, i, hi, u, hu, text, htext, rfl⟩
    exact ⟨hn, ho, hi, hu, text, htext, Utf8.decode?_encode text⟩
  · rintro ⟨hn, ho, hi, hu, text, htext, hpath⟩
    refine ⟨_, hn, _, ho, _, hi, _, hu, text, htext, ?_⟩
    rw [Path.ofString_eq_iff.mpr hpath]

/-- The JSON form of a symbol gives the symbol back. -/
theorem ofJson?_of_toJson? (s : Symbol) (v : Json) (h : s.toJson? = some v) :
    ofJson? v = some s := by
  obtain ⟨path, hpath, rfl⟩ := toJson?_eq_some_iff.mp h
  exact ofValues?_eq_some_iff.mpr ⟨rfl, rfl, rfl, rfl, path, rfl, hpath⟩

end Symbol

/-! ### Registries -/

namespace CombinedRegistry

/-- The symbols of a list in JSON. -/
def readSymbols? : Json → Option (List Symbol)
  | .array vs => vs.mapM Symbol.ofJson?
  | _ => none

/-- The key and the symbols of a member. -/
def readEntry? (m : Option String × Json) : Option (Key × List Symbol) := do
  pure (← m.1, ← readSymbols? m.2)

theorem entryJson?_eq_some_iff {e : Key × List Symbol} {m : Option String × Json} :
    entryJson? e.1 e.2 = some m ↔
      ∃ vs, e.2.mapM Symbol.toJson? = some vs ∧ m = (some e.1, .array vs) := by
  rw [entryJson?]
  cases e.2.mapM Symbol.toJson? with
  | none => simp
  | some vs => simp [eq_comm]

/-- The member for a key gives key and symbols back. -/
theorem readEntry?_of_entryJson? (e : Key × List Symbol) (m : Option String × Json)
    (h : entryJson? e.1 e.2 = some m) : readEntry? m = some e := by
  obtain ⟨vs, hvs, rfl⟩ := entryJson?_eq_some_iff.mp h
  show (do pure (e.1, ← vs.mapM Symbol.ofJson?)) = _
  rw [mapM_eq_some_of_inverse Symbol.ofJson?_of_toJson? hvs]
  rfl

theorem proper_of_entryJson? (e : Key × List Symbol) (m : Option String × Json)
    (h : entryJson? e.1 e.2 = some m) : m.2.Proper := by
  obtain ⟨vs, hvs, rfl⟩ := entryJson?_eq_some_iff.mp h
  exact Json.properAll_of_mapM (fun _ _ => Symbol.proper_of_toJson?) hvs

/-- The members have the names of the keys. -/
theorem map_fst_of_mapM {es : List (Key × List Symbol)} {ms : List (Option String × Json)}
    (h : (es.mapM fun e => entryJson? e.1 e.2) = some ms) :
    ms.map Prod.fst = es.map (some ∘ Prod.fst) := by
  rw [mapM_eq_some_iff_forall₂] at h
  induction h with
  | nil => rfl
  | cons hm _ ih =>
    obtain ⟨vs, -, rfl⟩ := entryJson?_eq_some_iff.mp hm
    rw [List.map_cons, List.map_cons, ih]
    rfl

variable {c : CombinedRegistry} {P : Symbol → Prop}

/-- What holds of all symbols goes on to hold when another one is pushed of which it holds. -/
theorem forall_symbolsAt_push (hsorted : Entries.Sorted c.entries)
    (h : ∀ k, ∀ s ∈ c.symbolsAt k, P s) (k : Key) {s : Symbol} (hs : P s) :
    ∀ k', ∀ s' ∈ (c.push k s).symbolsAt k', P s' := by
  intro k' s' hs'
  by_cases hk : k' = k
  · rw [hk, symbolsAt_push_self hsorted] at hs'
    rcases List.mem_append.mp hs' with hs' | hs'
    · exact h k s' hs'
    · rw [List.mem_singleton.mp hs']
      exact hs
  · rw [symbolsAt_push_of_ne hk] at hs'
    exact h k' s' hs'

theorem forall_symbolsAt_foldl_push {es : List (Key × Symbol)} (hes : ∀ e ∈ es, P e.2)
    (hsorted : Entries.Sorted c.entries) (h : ∀ k, ∀ s ∈ c.symbolsAt k, P s) :
    ∀ k, ∀ s ∈ (es.foldl (fun c (k, s) => c.push k s) c).symbolsAt k, P s := by
  induction es generalizing c with
  | nil => exact h
  | cons e es ih =>
    have hpush := forall_symbolsAt_push hsorted h e.1 (hes e List.mem_cons_self)
    exact ih (fun e' he' => hes e' (List.mem_cons_of_mem _ he')) (sorted_push hsorted e.1 e.2) hpush

theorem forall_symbolsAt_extend {fs : List FileRegistry} (hfs : ∀ f ∈ fs, ∀ e ∈ f.entries, P e.2)
    (hsorted : Entries.Sorted c.entries) (h : ∀ k, ∀ s ∈ c.symbolsAt k, P s) :
    ∀ k, ∀ s ∈ (c.extend fs).symbolsAt k, P s := by
  induction fs generalizing c with
  | nil => exact h
  | cons f fs ih =>
    have hmerge := forall_symbolsAt_foldl_push (hfs f List.mem_cons_self) hsorted h
    exact ih (fun f' hf' => hfs f' (List.mem_cons_of_mem _ hf')) (sorted_merge hsorted f) hmerge

/-- What holds of the symbols of all files holds of those of their registry. -/
theorem forall_symbolsAt_ofFiles {fs : List FileRegistry}
    (hfs : ∀ f ∈ fs, ∀ e ∈ f.entries, P e.2) : ∀ k, ∀ s ∈ (ofFiles fs).symbolsAt k, P s :=
  forall_symbolsAt_extend hfs Entries.sorted_nil fun k s hs => by cases hs

/-- **What is printed as JSON can be read back.** The registry of files whose paths are text is
printed as a text of an object. The members of the object are in the order of the keys, which
increase, and each gives back its key and the symbols there, in their order. -/
theorem print_reads_back {fs : List FileRegistry}
    (h : ∀ f ∈ fs, ∀ e ∈ f.entries, (Utf8.decode? e.2.path.bytes).isSome = true) :
    ∃ text members, CommandLine.print? true (ofFiles fs) = some text ∧
      Json.parse? text = some (.object members) ∧
      members.map Prod.fst = (ofFiles fs).keys.map some ∧
      ((ofFiles fs).keys.map Utf8.encode).Pairwise (· < ·) ∧
      members.mapM readEntry? = some (ofFiles fs).entries := by
  have hsorted : Entries.Sorted (ofFiles fs).entries := sorted_ofFiles fs
  have hprint : (ofFiles fs).toJson?.isSome = true := by
    rw [isSome_toJson?_iff hsorted]
    exact forall_symbolsAt_ofFiles (P := fun s => (Utf8.decode? s.path.bytes).isSome = true) h
  obtain ⟨v, hv⟩ := Option.isSome_iff_exists.mp hprint
  obtain ⟨members, hmembers, rfl⟩ := Option.map_eq_some_iff.mp ((toJson?_eq _).symm.trans hv)
  have hproper : Json.Proper (.object members) :=
    Json.properMembers_of_mapM proper_of_entryJson? hmembers
  refine ⟨_, members, ?_, Json.parse?_pretty hproper, ?_, ?_, ?_⟩
  · rw [CommandLine.print?, if_pos rfl, hv]
    rfl
  · rw [keys, List.map_map]
    exact map_fst_of_mapM hmembers
  · rw [keys, List.map_map, List.pairwise_map]
    exact hsorted.imp Utf8.encode_lt_encode
  · exact mapM_eq_some_of_inverse readEntry?_of_entryJson? hmembers

/-- Two files with a key in common, and with characters that have to be escaped. -/
def escapedFiles : List FileRegistry :=
  [⟨"/src/a.js", [("Q\"\\.\x01", .method "\x01" "Q\"\\" true (some "\u2028\n") "/src/a.js"),
      ("é.😀", .method "😀" "é" false none "/src/a.js")]⟩,
    ⟨"/src/b\t.js", [("é.😀", .method "😀" "é" true (some "") "/src/b\t.js")]⟩]

/-- The registry of `escapedFiles` is read back from what is printed. -/
theorem print_escapedFiles_reads_back :
    ∃ text members, CommandLine.print? true (ofFiles escapedFiles) = some text ∧
      Json.parse? text = some (.object members) ∧
      members.map Prod.fst = [some "Q\"\\.\x01", some "é.😀"] ∧
      members.mapM readEntry? = some
        [("Q\"\\.\x01", [.method "\x01" "Q\"\\" true (some "\u2028\n") "/src/a.js"]),
          ("é.😀", [.method "😀" "é" false none "/src/a.js",
            .method "😀" "é" true (some "") "/src/b\t.js"])] := by
  have hpaths : ∀ f ∈ escapedFiles, ∀ e ∈ f.entries,
      (Utf8.decode? e.2.path.bytes).isSome = true := by
    decide +kernel
  obtain ⟨text, members, hprint, hparse, hkeys, -, hread⟩ := print_reads_back hpaths
  have hentries : (ofFiles escapedFiles).entries =
      [("Q\"\\.\x01", [.method "\x01" "Q\"\\" true (some "\u2028\n") "/src/a.js"]),
        ("é.😀", [.method "😀" "é" false none "/src/a.js",
          .method "😀" "é" true (some "") "/src/b\t.js"])] := by
    decide +kernel
  rw [keys, hentries] at hkeys
  rw [hentries] at hread
  exact ⟨text, members, hprint, hparse, hkeys, hread⟩

end CombinedRegistry

end SymbolIndex
