import SymbolIndex.Proofs.Registry.History
import SymbolIndex.Proofs.Registry.Scope

/-!
# A registry is told by its text

The text of a registry determines the registry, if its names are plain: without blanks, line feeds,
dots and opening brackets (`CombinedRegistry.display_eq_display_iff`). Paths may have all of these
but for line feeds; they are not escaped.

The text is taken apart from the outside. Its lines are those of the keys and those of the symbols,
and only the latter start with a blank. The line of a symbol ends in its path, which starts at the
first bracket. What is in front of that consists of words (`Symbol.words`), and the words tell what the
symbol is: a function has two words, of which the first is no `static`. In all cases it is a list of
texts that is put together with a mark behind each of them, and can be told again as none of the texts
has the mark in it (`eq_of_flatMap_append_eq`).

The lines of the keys are not needed for that. A registry is determined by its symbols in the order of
their lines, as each of them stands under its own key (`CombinedRegistry.eq_of_symbols_eq`).
-/

namespace SymbolIndex

open Text

/-! ### Texts with marks behind them -/

section
variable {α : Type} {x : α}

/-- Lists without an `x` can be told again if an `x` is put behind each of them. -/
theorem eq_of_flatMap_append_eq {ls ls' : List (List α)} (hls : ∀ l ∈ ls, x ∉ l)
    (hls' : ∀ l ∈ ls', x ∉ l) (h : ls.flatMap (· ++ [x]) = ls'.flatMap (· ++ [x])) : ls = ls' := by
  induction ls generalizing ls' with
  | nil =>
    cases ls' with
    | nil => rfl
    | cons l' ls' => simp at h
  | cons l ls ih =>
    cases ls' with
    | nil => simp at h
    | cons l' ls' =>
      rw [List.flatMap_cons, List.flatMap_cons, List.append_assoc, List.append_assoc] at h
      obtain ⟨rfl, htail⟩ :=
        eq_of_append_cons_eq (hls l List.mem_cons_self) (hls' l' List.mem_cons_self) h
      rw [ih (fun m hm => hls m (List.mem_cons_of_mem _ hm))
        (fun m hm => hls' m (List.mem_cons_of_mem _ hm)) htail]

/-- Where a function has different values at different elements, it has different values at different
lists of them. -/
theorem eq_of_map_eq {β : Type} {f : α → β} {p : α → Prop}
    (hf : ∀ a b, p a → p b → f a = f b → a = b) {as bs : List α} (has : ∀ a ∈ as, p a)
    (hbs : ∀ b ∈ bs, p b) (h : as.map f = bs.map f) : as = bs := by
  induction as generalizing bs with
  | nil => exact (List.map_eq_nil_iff.mp h.symm).symm
  | cons a as ih =>
    cases bs with
    | nil => cases h
    | cons b bs =>
      obtain ⟨hab, htail⟩ := List.cons.inj h
      rw [hf a b (has a List.mem_cons_self) (hbs b List.mem_cons_self) hab,
        ih (fun c hc => has c (List.mem_cons_of_mem _ hc))
          (fun c hc => hbs c (List.mem_cons_of_mem _ hc)) htail]

end

/-! ### The line of a symbol -/

/-- The character does not stand between the parts of a line. -/
def IsPlainChar (c : Char) : Prop := c ≠ ' ' ∧ c ≠ '\n' ∧ c ≠ '('

instance (c : Char) : Decidable (IsPlainChar c) := inferInstanceAs (Decidable (_ ∧ _ ∧ _))

/-- The name has nothing in it that stands between the names of a line. Of white space, blanks and
line feeds are all that matters. -/
def IsPlainName (name : String) : Prop := ∀ c ∈ name.toList, IsPlainChar c ∧ c ≠ '.'

-- The characters of the name are tested, where a search might settle on testing all there are.
instance (name : String) : Decidable (IsPlainName name) := List.decidableBAll _ name.toList

namespace Symbol

/-- The symbol is a function or a method, its names are plain, and its path is text on one line. -/
structure IsPlain (s : Symbol) : Prop where
  made : (∃ name path, s = .function name path) ∨
    ∃ name owner isStatic superclass path, s = .method name owner isStatic superclass path
  name : IsPlainName s.name
  owner : ∀ owner, s.owner = some owner → IsPlainName owner
  superclass : ∀ parent, s.superclass = some parent → IsPlainName parent
  path : ∃ text, Utf8.decode? s.path.bytes = some text ∧ '\n' ∉ text.toList

theorem isPlain_function {name : String} {path : Path} (hname : IsPlainName name)
    (hpath : ∃ text, Utf8.decode? path.bytes = some text ∧ '\n' ∉ text.toList) :
    (function name path).IsPlain where
  made := .inl ⟨name, path, rfl⟩
  name := hname
  owner owner h := by cases h
  superclass parent h := by cases h
  path := hpath

theorem isPlain_method {name owner : String} {isStatic : Bool} {superclass : Option String}
    {path : Path} (hname : IsPlainName name) (howner : IsPlainName owner)
    (hparent : ∀ parent, superclass = some parent → IsPlainName parent)
    (hpath : ∃ text, Utf8.decode? path.bytes = some text ∧ '\n' ∉ text.toList) :
    (method name owner isStatic superclass path).IsPlain where
  made := .inr ⟨name, owner, isStatic, superclass, path, rfl⟩
  name := hname
  owner owner' h := by
    cases h
    exact howner
  superclass := hparent
  path := hpath

/-- What is in front of the path. -/
def words (s : Symbol) : List String :=
  match s.owner with
  | none => ["function", s.name]
  | some _ => (if s.isStatic then ["static"] else []) ++ [s.key]
    ++ s.superclass.elim [] fun parent => ["extends", parent]

/-- A line consists of words, with a blank behind each of them, and of the path. -/
theorem toList_display (s : Symbol) :
    s.display.toList = (s.words.map String.toList).flatMap (· ++ [' '])
      ++ '(' :: (s.path.display.toList ++ [')']) := by
  obtain ⟨name, owner, isStatic, superclass, path⟩ := s
  cases owner with
  | none => simp [display, words]
  | some owner =>
    cases isStatic <;> cases superclass <;> simp [display, words, key, Key.qualify]

variable {s s' : Symbol}

namespace IsPlain

theorem dot_not_mem_scope (h : s.IsPlain) : '.' ∉ s.scope.toList := by
  rw [scope]
  cases howner : s.owner with
  | none =>
    show '.' ∉ globalScope.toList
    decide
  | some owner =>
    intro hdot
    exact (h.owner owner howner '.' hdot).2 rfl

/-- A symbol without a class has nothing that only classes give. -/
theorem global (h : s.IsPlain) (howner : s.owner = none) :
    s.isStatic = false ∧ s.superclass = none := by
  rcases h.made with ⟨name, path, rfl⟩ | ⟨name, owner, isStatic, superclass, path, rfl⟩
  · exact ⟨rfl, rfl⟩
  · cases howner

theorem isPlainChar_of_mem_key (h : s.IsPlain) : ∀ c ∈ s.key.toList, IsPlainChar c := by
  have hscope : ∀ c ∈ s.scope.toList, IsPlainChar c := by
    rw [scope]
    cases howner : s.owner with
    | none =>
      have hglobal : IsPlainName globalScope := by decide
      exact fun c hc => (hglobal c hc).1
    | some owner => exact fun c hc => (h.owner owner howner c hc).1
  intro c hc
  rw [toList_key] at hc
  rcases List.mem_append.mp hc with hc | hc
  · exact hscope c hc
  · rcases List.mem_cons.mp hc with rfl | hc
    · decide
    · exact (h.name c hc).1

/-- No word has in it what stands around words. -/
theorem isPlainChar_of_mem_words (h : s.IsPlain) {w : String} (hw : w ∈ s.words) :
    ∀ c ∈ w.toList, IsPlainChar c := by
  have hliteral : ∀ w ∈ ["function", "static", "extends"], ∀ c ∈ w.toList, IsPlainChar c := by
    have hplain : ∀ w ∈ ["function", "static", "extends"], IsPlainName w := by decide
    exact fun w hw c hc => (hplain w hw c hc).1
  rw [words] at hw
  cases howner : s.owner with
  | none =>
    rw [howner] at hw
    rcases List.mem_pair.mp hw with rfl | rfl
    · exact hliteral _ (by simp)
    · exact fun c hc => (h.name c hc).1
  | some owner =>
    rw [howner] at hw
    rcases List.mem_append.mp hw with hw | hw
    · rcases List.mem_append.mp hw with hw | hw
      · split at hw
        · exact hliteral w (by simp [List.mem_singleton.mp hw])
        · cases hw
      · rw [List.mem_singleton.mp hw]
        exact h.isPlainChar_of_mem_key
    · cases hparent : s.superclass with
      | none =>
        rw [hparent] at hw
        cases hw
      | some parent =>
        rw [hparent] at hw
        rcases List.mem_pair.mp hw with rfl | rfl
        · exact hliteral _ (by simp)
        · exact fun c hc => (h.superclass w hparent c hc).1

/-- The words tell all but the path. -/
theorem eq_of_words_eq (h : s.IsPlain) (h' : s'.IsPlain) (hwords : s.words = s'.words) :
    s.owner = s'.owner ∧ s.name = s'.name ∧ s.isStatic = s'.isStatic ∧
      s.superclass = s'.superclass := by
  -- There are two words without a class or with `static` alone, and one, three or four otherwise.
  rw [words, words] at hwords
  cases howner : s.owner with
  | none =>
    obtain ⟨hstatic, hparent⟩ := h.global howner
    cases howner' : s'.owner with
    | none =>
      obtain ⟨hstatic', hparent'⟩ := h'.global howner'
      rw [howner, howner'] at hwords
      rw [hstatic, hstatic', hparent, hparent']
      exact ⟨rfl, by simpa using hwords, rfl, rfl⟩
    | some owner' =>
      rw [howner, howner'] at hwords
      cases hstatic' : s'.isStatic <;> cases hparent' : s'.superclass <;>
        simp [hstatic', hparent'] at hwords
  | some owner =>
    cases howner' : s'.owner with
    | none =>
      rw [howner, howner'] at hwords
      cases hstatic : s.isStatic <;> cases hparent : s.superclass <;>
        simp [hstatic, hparent] at hwords
    | some owner' =>
      rw [howner, howner'] at hwords
      have hrest : s.key = s'.key ∧ s.isStatic = s'.isStatic ∧ s.superclass = s'.superclass := by
        cases hstatic : s.isStatic <;> cases hparent : s.superclass <;>
          cases hstatic' : s'.isStatic <;> cases hparent' : s'.superclass <;>
          simp [hstatic, hparent, hstatic', hparent'] at hwords ⊢ <;> exact hwords
      obtain ⟨hkey, hstatic, hparent⟩ := hrest
      obtain ⟨hscope, hname⟩ := (key_eq_key_iff h.dot_not_mem_scope h'.dot_not_mem_scope).mp hkey
      refine ⟨?_, hname, hstatic, hparent⟩
      rw [sameScope_iff, scope, scope, howner, howner'] at hscope
      exact congrArg some hscope

/-- A path that is text is shown as that text. -/
theorem display_path (h : s.IsPlain) :
    Path.ofString s.path.display = s.path ∧ '\n' ∉ s.path.display.toList := by
  obtain ⟨text, htext, hline⟩ := h.path
  have hdisplay : s.path.display = text := by
    rw [Path.display, ← Utf8.encode_of_decode? htext, Utf8.decodeLossy, Utf8.pieces_encode]
    simp
  rw [hdisplay, Path.ofString, Utf8.encode_of_decode? htext]
  exact ⟨rfl, hline⟩

theorem front_plain (h : s.IsPlain) :
    ∀ c ∈ (s.words.map String.toList).flatMap (· ++ [' ']), c ≠ '\n' ∧ c ≠ '(' := by
  intro c hc
  obtain ⟨l, hl, hc⟩ := List.mem_flatMap.mp hc
  obtain ⟨w, hw, rfl⟩ := List.mem_map.mp hl
  rcases List.mem_append.mp hc with hc | hc
  · exact (h.isPlainChar_of_mem_words hw c hc).2
  · rw [List.mem_singleton.mp hc]
    decide

/-- **The line of a symbol tells the symbol.** -/
theorem eq_of_display_eq (h : s.IsPlain) (h' : s'.IsPlain) (hdisplay : s.display = s'.display) :
    s = s' := by
  have hlines := congrArg String.toList hdisplay
  rw [toList_display, toList_display] at hlines
  obtain ⟨hfront, hback⟩ := eq_of_append_cons_eq (fun hc => (h.front_plain _ hc).2 rfl)
    (fun hc => (h'.front_plain _ hc).2 rfl) hlines
  have hpath : s.path = s'.path := by
    rw [← h.display_path.1, ← h'.display_path.1,
      String.toList_inj.mp (List.append_cancel_right hback)]
  have hblank : ∀ {s : Symbol}, s.IsPlain → ∀ l ∈ s.words.map String.toList, ' ' ∉ l := by
    intro s h l hl hblank
    obtain ⟨w, hw, rfl⟩ := List.mem_map.mp hl
    exact (h.isPlainChar_of_mem_words hw ' ' hblank).1 rfl
  have htexts := eq_of_flatMap_append_eq (hblank h) (hblank h') hfront
  have hwords : s.words = s'.words :=
    List.map_injective_iff.mpr (fun _ _ => String.toList_inj.mp) htexts
  obtain ⟨howner, hname, hstatic, hparent⟩ := h.eq_of_words_eq h' hwords
  cases s
  cases s'
  simp_all

theorem newline_not_mem_display (h : s.IsPlain) : '\n' ∉ s.display.toList := by
  rw [toList_display]
  intro hc
  rcases List.mem_append.mp hc with hc | hc
  · exact (h.front_plain _ hc).1 rfl
  · have hpath := h.display_path.2
    simp [hpath] at hc

end IsPlain

end Symbol

/-! ### The lines of a registry -/

namespace CombinedRegistry

/-- All symbols, in the order of their keys. -/
def symbols (c : CombinedRegistry) : List Symbol := c.entries.flatMap (·.2)

/-- The line of a key. -/
def keyLine (e : Key × List Symbol) : List Char :=
  e.1.toList ++ (" (" ++ toString e.2.length ++ ")").toList

/-- The line of a symbol, below its key. -/
def symbolLine (s : Symbol) : List Char := ' ' :: ' ' :: s.display.toList

/-- The lines for a key. -/
def entryLines (e : Key × List Symbol) : List (List Char) := keyLine e :: e.2.map symbolLine

theorem toList_display (c : CombinedRegistry) :
    c.display.toList = (c.entries.flatMap entryLines).flatMap (· ++ ['\n']) := by
  rw [display, String.toList_join, List.flatMap_map, List.flatMap_assoc]
  refine congrArg (c.entries.flatMap ·) (funext fun e => ?_)
  simp [displayEntry, entryLines, keyLine, symbolLine, String.toList_join, List.flatMap_map]

/-- Each key has symbols, all of this key, and the symbols are plain. -/
structure IsPlain (c : CombinedRegistry) : Prop where
  sorted : Entries.Sorted c.entries
  inhabited : c.Inhabited
  key : ∀ e ∈ c.entries, ∀ s ∈ e.2, s.key = e.1
  plain : ∀ e ∈ c.entries, ∀ s ∈ e.2, s.IsPlain

variable {c c' : CombinedRegistry}

/-- Symbols that stand under their own keys are told apart by these. -/
theorem filter_key_flatMap {es : List (Key × List Symbol)} (hsorted : Entries.Sorted es)
    (hkey : ∀ e ∈ es, ∀ s ∈ e.2, s.key = e.1) (k : Key) :
    (es.flatMap (·.2)).filter (·.key = k) = (Entries.get? k es).getD [] := by
  induction es with
  | nil => rfl
  | cons e es ih =>
    obtain ⟨k', ss⟩ := e
    obtain ⟨hlt, hsorted⟩ := Entries.sorted_cons.mp hsorted
    have hss : ∀ s ∈ ss, s.key = k' := hkey (k', ss) List.mem_cons_self
    rw [List.flatMap_cons, List.filter_append,
      ih hsorted fun e he => hkey e (List.mem_cons_of_mem _ he)]
    by_cases hk : k = k'
    · -- The keys after this one are higher.
      subst hk
      have hall : ss.filter (·.key = k) = ss :=
        List.filter_eq_self.mpr fun s hs => decide_eq_true (hss s hs)
      rw [Entries.get?_cons_self, Entries.get?_eq_none_of_forall_lt hlt, hall]
      exact List.append_nil ss
    · have hnone : ss.filter (·.key = k) = [] := by
        rw [List.filter_eq_nil_iff]
        intro s hs hkey
        exact hk ((of_decide_eq_true hkey).symm.trans (hss s hs))
      rw [Entries.get?_cons_of_ne hk, hnone, List.nil_append]

namespace IsPlain

/-- A registry is determined by its symbols in their order. -/
theorem eq_of_symbols_eq (h : c.IsPlain) (h' : c'.IsPlain) (hsymbols : c.symbols = c'.symbols) :
    c = c' := by
  have hget : ∀ k, c.get? k = c'.get? k := by
    intro k
    have hat : c.symbolsAt k = c'.symbolsAt k := by
      rw [symbolsAt, get?, ← filter_key_flatMap h.sorted h.key, symbolsAt, get?,
        ← filter_key_flatMap h'.sorted h'.key]
      exact congrArg (·.filter (·.key = k)) hsymbols
    rw [get?_eq_of_inhabited h.inhabited, get?_eq_of_inhabited h'.inhabited, hat]
  have hentries := Entries.eq_of_get?_eq h.sorted h'.sorted hget
  cases c
  cases c'
  exact congrArg CombinedRegistry.mk hentries

/-- A key is not empty, and has nothing in it that stands around it. -/
theorem of_mem_keys (h : c.IsPlain) {e : Key × List Symbol} (he : e ∈ c.entries) :
    e.1.toList ≠ [] ∧ ∀ ch ∈ e.1.toList, IsPlainChar ch := by
  obtain ⟨s, ss, hss⟩ := List.exists_cons_of_ne_nil (h.inhabited e he)
  have hs : s ∈ e.2 := by simp [hss]
  rw [← h.key e he s hs]
  refine ⟨?_, (h.plain e he s hs).isPlainChar_of_mem_key⟩
  simp [Symbol.toList_key]

theorem newline_not_mem_keyLine (h : c.IsPlain) {e : Key × List Symbol} (he : e ∈ c.entries) :
    '\n' ∉ keyLine e := by
  have hkey : '\n' ∉ e.1.toList := fun hc => ((h.of_mem_keys he).2 _ hc).2.1 rfl
  have hcount : '\n' ∉ Nat.toDigits 10 e.2.length := by
    intro hc
    exact absurd (Nat.isDigit_of_mem_toDigits (by decide) (by decide) hc) (by decide)
  simp [keyLine, hkey, hcount]

theorem newline_not_mem_lines (h : c.IsPlain) :
    ∀ l ∈ c.entries.flatMap entryLines, '\n' ∉ l := by
  intro l hl
  obtain ⟨e, he, hl⟩ := List.mem_flatMap.mp hl
  rcases List.mem_cons.mp hl with rfl | hl
  · exact h.newline_not_mem_keyLine he
  · obtain ⟨s, hs, rfl⟩ := List.mem_map.mp hl
    have hline := (h.plain e he s hs).newline_not_mem_display
    simp [symbolLine, hline]

/-- The lines that start with a blank are those of the symbols. -/
theorem filter_lines (h : c.IsPlain) :
    (c.entries.flatMap entryLines).filter (·.head? = some ' ') = c.symbols.map symbolLine := by
  rw [List.filter_flatMap, symbols, List.map_flatMap]
  refine List.flatMap_congr fun e he => ?_
  have hkey : (keyLine e).head? ≠ some ' ' := by
    obtain ⟨hne, hplain⟩ := h.of_mem_keys he
    obtain ⟨ch, cs, hcs⟩ := List.exists_cons_of_ne_nil hne
    rw [keyLine, hcs, List.cons_append, List.head?_cons]
    intro hblank
    exact (hplain ch (by simp [hcs])).1 (Option.some.inj hblank)
  have hsymbols : (e.2.map symbolLine).filter (·.head? = some ' ') = e.2.map symbolLine := by
    rw [List.filter_eq_self]
    intro l hl
    obtain ⟨s, -, rfl⟩ := List.mem_map.mp hl
    rfl
  rw [entryLines, List.filter_cons_of_neg (by simpa using hkey), hsymbols]

/-- **The text of a registry tells the registry**, if all is plain in it. -/
theorem eq_of_display_eq (h : c.IsPlain) (h' : c'.IsPlain) (hdisplay : c.display = c'.display) :
    c = c' := by
  have htexts := congrArg String.toList hdisplay
  rw [toList_display, toList_display] at htexts
  have hlines := eq_of_flatMap_append_eq h.newline_not_mem_lines h'.newline_not_mem_lines htexts
  have hsymbolLines : c.symbols.map symbolLine = c'.symbols.map symbolLine := by
    rw [← h.filter_lines, ← h'.filter_lines, hlines]
  have hmem : ∀ {c : CombinedRegistry}, c.IsPlain → ∀ s ∈ c.symbols, s.IsPlain := by
    intro c h s hs
    obtain ⟨e, he, hs⟩ := List.mem_flatMap.mp hs
    exact h.plain e he s hs
  refine h.eq_of_symbols_eq h' (eq_of_map_eq (fun s s' hs hs' hline => ?_) (hmem h) (hmem h')
    hsymbolLines)
  exact hs.eq_of_display_eq hs' (String.toList_inj.mp (List.cons.inj (List.cons.inj hline).2).2)

end IsPlain

/-- The registry of files with plain symbols is plain. -/
theorem isPlain_ofFiles {fs : List FileRegistry} (hfs : ∀ f ∈ fs, f.IsOfSymbols)
    (hplain : ∀ f ∈ fs, ∀ e ∈ f.entries, e.2.IsPlain) : (ofFiles fs).IsPlain where
  sorted := sorted_ofFiles fs
  inhabited := inhabited_ofFiles fs
  key e he s hs := key_of_mem_ofFiles hfs he hs
  plain e he s hs := by
    obtain ⟨f, hf, hget⟩ := exists_get?_of_mem_ofFiles hfs he hs
    exact hplain f hf (e.1, s) (Entries.mem_of_get?_eq_some hget)

/-- **Two registries have the same text only if they are the same**, provided that they are made of
files whose symbols are functions and methods with plain names and with paths that are text on one
line. -/
theorem display_eq_display_iff {fs gs : List FileRegistry} (hfs : ∀ f ∈ fs, f.IsOfSymbols)
    (hgs : ∀ g ∈ gs, g.IsOfSymbols) (hfsplain : ∀ f ∈ fs, ∀ e ∈ f.entries, e.2.IsPlain)
    (hgsplain : ∀ g ∈ gs, ∀ e ∈ g.entries, e.2.IsPlain) :
    (ofFiles fs).display = (ofFiles gs).display ↔ ofFiles fs = ofFiles gs := by
  constructor
  · intro h
    exact (isPlain_ofFiles hfs hfsplain).eq_of_display_eq (isPlain_ofFiles hgs hgsplain) h
  · intro h
    rw [h]

/-- A function and a method of a class `Global`, a static method and a method of a class `static`: the
texts differ, even if the path looks like the end of a line. -/
theorem display_ne_display_of_namesakes :
    let path : Path := "a (b) extends C (c.js"
    let function : Symbol := .function "f" path
    let method : Symbol := .method "f" "Global" false (some "C") path
    let ofStatic : Symbol := .method "m" "static" false none path
    let staticOfC : Symbol := .method "m" "C" true none path
    let f : FileRegistry := ⟨path, [("Global.f", function), ("static.m", ofStatic)]⟩
    let g : FileRegistry := ⟨path, [("C.m", staticOfC), ("Global.f", method)]⟩
    f.IsOfSymbols ∧ g.IsOfSymbols ∧ (∀ e ∈ f.entries ++ g.entries, e.2.IsPlain) ∧
      (ofFiles [f]).display ≠ (ofFiles [g]).display := by
  intro path function method ofStatic staticOfC f g
  have hf : f.IsOfSymbols := ⟨path, .reject, [function, ofStatic], by decide +kernel⟩
  have hg : g.IsOfSymbols := ⟨path, .reject, [staticOfC, method], by decide +kernel⟩
  have hpath : ∃ text, Utf8.decode? path.bytes = some text ∧ '\n' ∉ text.toList :=
    ⟨"a (b) extends C (c.js", Utf8.decode?_encode _, by decide⟩
  have hfplain : ∀ e ∈ f.entries, e.2.IsPlain := by
    simp only [f, List.forall_mem_cons]
    exact ⟨Symbol.isPlain_function (by decide) hpath,
      Symbol.isPlain_method (by decide) (by decide) (by simp) hpath, List.forall_mem_nil _⟩
  have hgplain : ∀ e ∈ g.entries, e.2.IsPlain := by
    simp only [g, List.forall_mem_cons]
    refine ⟨Symbol.isPlain_method (by decide) (by decide) (by simp) hpath,
      Symbol.isPlain_method (by decide) (by decide) ?_ hpath, List.forall_mem_nil _⟩
    rintro parent ⟨⟩
    decide
  refine ⟨hf, hg, List.forall_mem_append.mpr ⟨hfplain, hgplain⟩, ?_⟩
  rw [ne_eq, display_eq_display_iff (by simpa using hf) (by simpa using hg) (by simpa using hfplain)
    (by simpa using hgplain)]
  decide +kernel

end CombinedRegistry

end SymbolIndex
