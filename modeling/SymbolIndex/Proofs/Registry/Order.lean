import Mathlib.Data.List.MinMax
import SymbolIndex.Proofs.JavaScript.Program
import SymbolIndex.Proofs.Registry.File
import SymbolIndex.Proofs.Site

/-!
# Which declaration of a file is kept

Of the declarations with one key the policies keep the one that is found last, or first. They are
found in the order of the text, but for classes that are nested in a method: what such a class gives
is found after everything that the class around it gives. So what is found later and starts no later
comes from a class inside (`Site.inside_of_foundBefore`). The invariant behind this is that the
definitions of a tree start one after the other in pre-order (`Node.Increasing`).

- `FileRegistry.ofSource_keeps_by_source_order`: which declaration the policies keep, and when it is
  the one that starts last or first.
- `FileRegistry.not_keeps_by_source_order`: it is not that one in general.
-/

namespace SymbolIndex

open Syntax

namespace Site

/-! ### The order of the text -/

/-- Of the sites with the key `k` the site `a` starts last. -/
def StartsLast (sites : List Site) (k : Key) (a : Site) : Prop :=
  a ∈ sites ∧ a.symbol.key = k ∧
    ∀ b ∈ sites, b.symbol.key = k → b.node.start.offset ≤ a.node.start.offset

/-- Of the sites with the key `k` the site `a` starts first. -/
def StartsFirst (sites : List Site) (k : Key) (a : Site) : Prop :=
  a ∈ sites ∧ a.symbol.key = k ∧
    ∀ b ∈ sites, b.symbol.key = k → a.node.start.offset ≤ b.node.start.offset

/-- Which site starts last can be told from where the symbols start. -/
theorem exists_startsLast_of_starts {sites : List Site} {starts : List (Nat × Symbol)} {n : Nat}
    {s : Symbol} (h : sites.map (fun a => (a.node.start.offset, a.symbol)) = starts)
    (hs : (n, s) ∈ starts) (hlast : ∀ p ∈ starts, p.2.key = s.key → p.1 ≤ n) :
    ∃ a, StartsLast sites s.key a ∧ a.symbol = s := by
  subst h
  obtain ⟨a, ha, heq⟩ := List.mem_map.mp hs
  cases heq
  exact ⟨a, ⟨ha, rfl, fun b hb hkey => hlast _ (List.mem_map_of_mem hb) hkey⟩, rfl⟩

theorem exists_startsFirst_of_starts {sites : List Site} {starts : List (Nat × Symbol)} {n : Nat}
    {s : Symbol} (h : sites.map (fun a => (a.node.start.offset, a.symbol)) = starts)
    (hs : (n, s) ∈ starts) (hfirst : ∀ p ∈ starts, p.2.key = s.key → n ≤ p.1) :
    ∃ a, StartsFirst sites s.key a ∧ a.symbol = s := by
  subst h
  obtain ⟨a, ha, heq⟩ := List.mem_map.mp hs
  cases heq
  exact ⟨a, ⟨ha, rfl, fun b hb hkey => hfirst _ (List.mem_map_of_mem hb) hkey⟩, rfl⟩

variable {t : SyntaxTree} {options : ExtractOptions} {a b : Site}

/-- A symbol that is found later and starts no later comes from a class inside. -/
theorem inside_of_foundBefore (h : t.root.Increasing) (ha : a ∈ t.sites options)
    (hb : b ∈ t.sites options) (hfound : a.FoundBefore b)
    (hle : b.node.start.offset ≤ a.node.start.offset) :
    b.declaration.Inside a.declaration := by
  obtain ⟨hamem, hadef, hanode, hanodedef⟩ := SyntaxTree.of_mem_sites ha
  obtain ⟨hbmem, hbdef, hbnode, hbnodedef⟩ := SyntaxTree.of_mem_sites hb
  rcases hfound with hlt | ⟨-, hlt⟩
  · -- The class starts between the other one and a method of that.
    have hbstart := h.start_le hbmem hbnode hbdef hbnodedef
    exact h.inside hbmem hamem hanode hbdef hadef hanodedef hlt (hbstart.trans hle)
  · omega

/-- What is found no later is not inside. -/
theorem not_inside_of_foundBefore (h : t.root.Increasing) (ha : a ∈ t.sites options)
    (hb : b ∈ t.sites options) (hfound : b = a ∨ b.FoundBefore a) :
    ¬b.declaration.Inside a.declaration := by
  intro hinside
  obtain ⟨hamem, hadef, -, -⟩ := SyntaxTree.of_mem_sites ha
  obtain ⟨-, hbdef, -, -⟩ := SyntaxTree.of_mem_sites hb
  have hlt := h.start_lt hamem hinside hbdef hadef
  rcases hfound with rfl | hlt' | ⟨hsame, -⟩
  · exact Nat.lt_irrefl _ hlt
  · omega
  · rw [hsame] at hlt
    exact Nat.lt_irrefl _ hlt

/-! ### The sites of a key -/

/-- The sites with a key, in order. -/
def withKey (sites : List Site) (k : Key) : List Site := sites.filter (·.symbol.key = k)

theorem mem_withKey_iff {sites : List Site} {k : Key} :
    a ∈ withKey sites k ↔ a ∈ sites ∧ a.symbol.key = k := by
  simp [withKey]

/-- If there is a site with the key, one of them starts last. -/
theorem withKey_eq_nil_or_startsLast (sites : List Site) (k : Key) :
    withKey sites k = [] ∨ ∃ a, StartsLast sites k a := by
  cases h : (withKey sites k).argmax (·.node.start.offset) with
  | none => exact .inl (List.argmax_eq_none.mp h)
  | some a =>
    obtain ⟨hmem, hkey⟩ := mem_withKey_iff.mp (List.argmax_mem h)
    refine .inr ⟨a, hmem, hkey, fun b hb hbkey => ?_⟩
    exact List.le_of_mem_argmax (f := fun a : Site => a.node.start.offset)
      (mem_withKey_iff.mpr ⟨hb, hbkey⟩) h

theorem withKey_eq_nil_or_startsFirst (sites : List Site) (k : Key) :
    withKey sites k = [] ∨ ∃ a, StartsFirst sites k a := by
  cases h : (withKey sites k).argmin (·.node.start.offset) with
  | none => exact .inl (List.argmin_eq_none.mp h)
  | some a =>
    obtain ⟨hmem, hkey⟩ := mem_withKey_iff.mp (List.argmin_mem h)
    refine .inr ⟨a, hmem, hkey, fun b hb hbkey => ?_⟩
    exact List.le_of_mem_argmin (f := fun a : Site => a.node.start.offset)
      (mem_withKey_iff.mpr ⟨hb, hbkey⟩) h

theorem withKey_map_symbol (sites : List Site) (k : Key) :
    Symbol.withKey (sites.map symbol) k = (withKey sites k).map symbol := by
  rw [Symbol.withKey, List.filter_map]
  rfl

variable {k : Key} {e : Site}

theorem foundBefore_getLast? (h : t.root.Increasing)
    (he : (withKey (t.sites options) k).getLast? = some e) (hb : b ∈ t.sites options)
    (hbkey : b.symbol.key = k) : b = e ∨ b.FoundBefore e := by
  obtain ⟨front, hfront⟩ := List.getLast?_eq_some_iff.mp he
  have hpairwise : (withKey (t.sites options) k).Pairwise FoundBefore :=
    (SyntaxTree.pairwise_sites h).sublist List.filter_sublist
  have hmem := mem_withKey_iff.mpr ⟨hb, hbkey⟩
  rw [hfront] at hpairwise hmem
  rcases List.mem_append.mp hmem with hmem | hmem
  · exact .inr ((List.pairwise_append.mp hpairwise).2.2 b hmem e List.mem_cons_self)
  · exact .inl (List.mem_singleton.mp hmem)

theorem head?_foundBefore (h : t.root.Increasing)
    (he : (withKey (t.sites options) k).head? = some e) (hb : b ∈ t.sites options)
    (hbkey : b.symbol.key = k) : e = b ∨ e.FoundBefore b := by
  obtain ⟨rest, hrest⟩ := List.head?_eq_some_iff.mp he
  have hpairwise : (withKey (t.sites options) k).Pairwise FoundBefore :=
    (SyntaxTree.pairwise_sites h).sublist List.filter_sublist
  have hmem := mem_withKey_iff.mpr ⟨hb, hbkey⟩
  rw [hrest] at hpairwise hmem
  rcases List.mem_cons.mp hmem with rfl | hmem
  · exact .inl rfl
  · exact .inr ((List.pairwise_cons.mp hpairwise).1 b hmem)

/-- The site that is found last is the one that starts last, unless another one is inside that. -/
theorem getLast?_withKey (h : t.root.Increasing) (ha : StartsLast (t.sites options) k a)
    (he : (withKey (t.sites options) k).getLast? = some e) :
    (e = a ∨ e.declaration.Inside a.declaration) ∧
      (e = a ↔ ∀ b ∈ t.sites options, b.symbol.key = k → ¬b.declaration.Inside a.declaration) := by
  obtain ⟨hamem, hakey, hlast⟩ := ha
  obtain ⟨hemem, hekey⟩ := mem_withKey_iff.mp (List.mem_of_getLast? he)
  have hcases : e = a ∨ e.declaration.Inside a.declaration := by
    rcases foundBefore_getLast? h he hamem hakey with rfl | hbefore
    · exact .inl rfl
    · exact .inr (inside_of_foundBefore h hamem hemem hbefore (hlast e hemem hekey))
  refine ⟨hcases, ?_, fun hnone => hcases.resolve_right (hnone e hemem hekey)⟩
  rintro rfl b hb hbkey
  exact not_inside_of_foundBefore h hamem hb (foundBefore_getLast? h he hb hbkey)

/-- The site that is found first is the one that starts first, unless that is inside another one. -/
theorem head?_withKey (h : t.root.Increasing) (ha : StartsFirst (t.sites options) k a)
    (he : (withKey (t.sites options) k).head? = some e) :
    (e = a ∨ a.declaration.Inside e.declaration) ∧
      (e = a ↔ ∀ b ∈ t.sites options, b.symbol.key = k → ¬a.declaration.Inside b.declaration) := by
  obtain ⟨hamem, hakey, hfirst⟩ := ha
  obtain ⟨hemem, hekey⟩ := mem_withKey_iff.mp (List.mem_of_head? he)
  have hcases : e = a ∨ a.declaration.Inside e.declaration := by
    rcases head?_foundBefore h he hamem hakey with rfl | hafter
    · exact .inl rfl
    · exact .inr (inside_of_foundBefore h hemem hamem hafter (hfirst e hemem hekey))
  refine ⟨hcases, ?_, fun hnone => hcases.resolve_right (hnone e hemem hekey)⟩
  rintro rfl b hb hbkey
  exact not_inside_of_foundBefore h hb hamem (head?_foundBefore h he hb hbkey)

end Site

namespace FileRegistry

variable {source : String} {path : Path} {t : SyntaxTree}

/-- What a policy picks comes from the site that it picks. -/
theorem get?_ofSource (h : JavaScript.parse source path = .ok t) (options : ExtractOptions)
    (policy : CollisionPolicy) (hpolicy : policy ≠ .reject) :
    ∃ r, (ofSource source path options policy).result = .ok r ∧
      ∀ k, r.get? k = policy.pick ((Site.withKey (t.sites options) k).map Site.symbol) := by
  obtain ⟨r, hr⟩ := exists_ofSymbols_of_ne_reject hpolicy path (t.symbols options)
  refine ⟨r, result_ofSource_eq_ok_iff.mpr ⟨t, h, hr⟩, fun k => ?_⟩
  rw [(holds_ofSymbols hr).get?_eq, ← SyntaxTree.map_symbol_sites, Site.withKey_map_symbol]

/-- **Which declaration is kept.** The policy for the last one keeps the declaration that starts
last among those with a key, unless there is one in a class inside that; then it keeps such a one.
The policy for the first one keeps the declaration that starts first, unless that is in a class
inside another one with the key; then it keeps such another one. -/
theorem ofSource_keeps_by_source_order (h : JavaScript.parse source path = .ok t)
    (options : ExtractOptions) :
    (t.sites options).map Site.symbol = t.symbols options ∧
    (∃ r, (ofSource source path options .lastWins).result = .ok r ∧ ∀ k,
      (r.get? k = none ∧ (∀ b ∈ t.sites options, b.symbol.key ≠ k) ∨
        ∃ a, Site.StartsLast (t.sites options) k a) ∧
      ∀ a, Site.StartsLast (t.sites options) k a →
        ∃ e ∈ t.sites options, e.symbol.key = k ∧ r.get? k = some e.symbol ∧
          (e = a ∨ e.declaration.Inside a.declaration) ∧
          (e = a ↔ ∀ b ∈ t.sites options, b.symbol.key = k →
            ¬b.declaration.Inside a.declaration)) ∧
    ∃ r, (ofSource source path options .firstWins).result = .ok r ∧ ∀ k,
      (r.get? k = none ∧ (∀ b ∈ t.sites options, b.symbol.key ≠ k) ∨
        ∃ a, Site.StartsFirst (t.sites options) k a) ∧
      ∀ a, Site.StartsFirst (t.sites options) k a →
        ∃ e ∈ t.sites options, e.symbol.key = k ∧ r.get? k = some e.symbol ∧
          (e = a ∨ a.declaration.Inside e.declaration) ∧
          (e = a ↔ ∀ b ∈ t.sites options, b.symbol.key = k →
            ¬a.declaration.Inside b.declaration) := by
  obtain ⟨hi, hplaced⟩ := JavaScript.placed_of_parse h
  have hincreasing := Node.increasing_of_placed hplaced
  -- Without a site there is no symbol to pick.
  have hnone : ∀ {policy : CollisionPolicy} {r : FileRegistry} {k},
      (∀ k, r.get? k = policy.pick ((Site.withKey (t.sites options) k).map Site.symbol)) →
      Site.withKey (t.sites options) k = [] →
      r.get? k = none ∧ ∀ b ∈ t.sites options, b.symbol.key ≠ k := by
    intro policy r k hget hnil
    refine ⟨?_, fun b hb hbkey => List.not_mem_nil (hnil ▸ Site.mem_withKey_iff.mpr ⟨hb, hbkey⟩)⟩
    rw [hget, hnil, List.map_nil, pick_eq_none_iff]
  refine ⟨SyntaxTree.map_symbol_sites t options, ?_, ?_⟩
  · obtain ⟨r, hr, hget⟩ := get?_ofSource h options .lastWins (by decide)
    refine ⟨r, hr, fun k => ⟨?_, fun a ha => ?_⟩⟩
    · exact (Site.withKey_eq_nil_or_startsLast _ k).imp_left (hnone hget)
    · have hne := List.ne_nil_of_mem (Site.mem_withKey_iff.mpr ⟨ha.1, ha.2.1⟩)
      have he := List.getLast?_eq_some_getLast hne
      obtain ⟨hmem, hkey⟩ := Site.mem_withKey_iff.mp (List.getLast_mem hne)
      refine ⟨_, hmem, hkey, ?_, Site.getLast?_withKey hincreasing ha he⟩
      rw [hget]
      show ((Site.withKey (t.sites options) k).map Site.symbol).getLast? = _
      rw [List.getLast?_map, he]
      rfl
  · obtain ⟨r, hr, hget⟩ := get?_ofSource h options .firstWins (by decide)
    refine ⟨r, hr, fun k => ⟨?_, fun a ha => ?_⟩⟩
    · exact (Site.withKey_eq_nil_or_startsFirst _ k).imp_left (hnone hget)
    · have hne := List.ne_nil_of_mem (Site.mem_withKey_iff.mpr ⟨ha.1, ha.2.1⟩)
      have he := List.head?_eq_some_head hne
      obtain ⟨hmem, hkey⟩ := Site.mem_withKey_iff.mp (List.head_mem hne)
      refine ⟨_, hmem, hkey, ?_, Site.head?_withKey hincreasing ha he⟩
      rw [hget]
      show ((Site.withKey (t.sites options) k).map Site.symbol).head? = _
      rw [List.head?_map, he]
      rfl

/-! ### A class inside a class of the same name -/

/-- A class with a class of the same name in a method in front of its own `m`. -/
def nestedNamesake : String := "class C { a() { class C extends B { static m() {} } } m() {} }"

/-- The method `m` of the class around, which starts last. -/
def outerMethod : Symbol := .method "m" "C" false none "test.js"

/-- The method `m` of the class inside. -/
def innerMethod : Symbol := .method "m" "C" true (some "B") "test.js"

/-- Where the symbols of `nestedNamesake` start, in the order in which they are found. -/
def nestedNamesakeStarts : List (Nat × Symbol) :=
  [(10, .method "a" "C" false none "test.js"), (54, outerMethod), (36, innerMethod)]

theorem parse_nestedNamesake : ∃ t, JavaScript.parse nestedNamesake "test.js" = .ok t ∧
    (t.sites .standard).map (fun a => (a.node.start.offset, a.symbol)) = nestedNamesakeStarts := by
  have hsites : (JavaScript.parse nestedNamesake "test.js").toOption.map (fun t =>
      (t.sites .standard).map fun a => (a.node.start.offset, a.symbol)) =
        some nestedNamesakeStarts := by
    decide +kernel
  cases h : JavaScript.parse nestedNamesake "test.js" with
  | error e =>
    rw [h] at hsites
    cases hsites
  | ok t =>
    rw [h] at hsites
    exact ⟨t, rfl, Option.some.inj hsites⟩

theorem ofSource_nestedNamesake_lastWins :
    (ofSource nestedNamesake "test.js" .standard .lastWins).result =
      .ok ⟨"test.js", [("C.a", .method "a" "C" false none "test.js"), ("C.m", innerMethod)]⟩ := by
  decide +kernel

theorem ofSource_nestedNamesake_firstWins :
    (ofSource nestedNamesake "test.js" .standard .firstWins).result =
      .ok ⟨"test.js", [("C.a", .method "a" "C" false none "test.js"), ("C.m", outerMethod)]⟩ := by
  decide +kernel

/-- The method that is kept is not the one that starts last, and its class is inside the class of
that. -/
theorem ofSource_keeps_nested_namesake :
    ∃ t, JavaScript.parse nestedNamesake "test.js" = .ok t ∧
      ∃ a e, Site.StartsLast (t.sites .standard) "C.m" a ∧ a.symbol = outerMethod ∧
        e ∈ t.sites .standard ∧ e.symbol = innerMethod ∧
        e.declaration.Inside a.declaration := by
  obtain ⟨t, ht, hsites⟩ := parse_nestedNamesake
  obtain ⟨-, ⟨r, hr, hkeeps⟩, -⟩ := ofSource_keeps_by_source_order ht .standard
  cases hr.symm.trans ofSource_nestedNamesake_lastWins
  obtain ⟨a, ha, hasymbol⟩ := Site.exists_startsLast_of_starts (s := outerMethod) (n := 54) hsites
    (by decide +kernel) (by decide +kernel)
  obtain ⟨e, hemem, -, hkept, hcases, -⟩ := (hkeeps "C.m").2 a ha
  have hget : FileRegistry.get? ⟨"test.js", [("C.a", .method "a" "C" false none "test.js"),
      ("C.m", innerMethod)]⟩ "C.m" = some innerMethod := by
    decide +kernel
  have hesymbol : e.symbol = innerMethod := Option.some.inj (hkept.symm.trans hget)
  refine ⟨t, ht, a, e, ha, hasymbol, hemem, hesymbol, hcases.resolve_left ?_⟩
  rintro rfl
  rw [hasymbol] at hesymbol
  exact absurd hesymbol (by decide)

/-- **What is kept is not what starts last, or first.** -/
theorem not_keeps_by_source_order :
    (¬∀ (source : String) (path : Path) (t : SyntaxTree), JavaScript.parse source path = .ok t →
      ∃ r, (ofSource source path .standard .lastWins).result = .ok r ∧
        ∀ k a, Site.StartsLast (t.sites .standard) k a → r.get? k = some a.symbol) ∧
    ¬∀ (source : String) (path : Path) (t : SyntaxTree), JavaScript.parse source path = .ok t →
      ∃ r, (ofSource source path .standard .firstWins).result = .ok r ∧
        ∀ k a, Site.StartsFirst (t.sites .standard) k a → r.get? k = some a.symbol := by
  obtain ⟨t, ht, hsites⟩ := parse_nestedNamesake
  refine ⟨fun hclaim => ?_, fun hclaim => ?_⟩
  · obtain ⟨r, hr, hkeeps⟩ := hclaim nestedNamesake "test.js" t ht
    cases hr.symm.trans ofSource_nestedNamesake_lastWins
    obtain ⟨a, ha, hsymbol⟩ := Site.exists_startsLast_of_starts (s := outerMethod) (n := 54) hsites
      (by decide +kernel) (by decide +kernel)
    have hkept := hkeeps _ a ha
    rw [hsymbol] at hkept
    exact absurd hkept (by decide +kernel)
  · obtain ⟨r, hr, hkeeps⟩ := hclaim nestedNamesake "test.js" t ht
    cases hr.symm.trans ofSource_nestedNamesake_firstWins
    obtain ⟨a, ha, hsymbol⟩ := Site.exists_startsFirst_of_starts (s := innerMethod) (n := 36) hsites
      (by decide +kernel) (by decide +kernel)
    have hkept := hkeeps _ a ha
    rw [hsymbol] at hkept
    exact absurd hkept (by decide +kernel)

end FileRegistry

end SymbolIndex
