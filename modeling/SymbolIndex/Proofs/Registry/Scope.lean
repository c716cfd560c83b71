import SymbolIndex.Proofs.JavaScript.Program
import SymbolIndex.Proofs.Registry.File
import SymbolIndex.Proofs.Site

/-!
# Keys tell scopes apart

A key is the scope of a symbol, a dot and its name. No class of a source text has a dot in its name,
so the first dot of a key ends the scope, and the key determines both parts
(`Symbol.key_eq_key_iff`). The scope tells the owner with one exception: what belongs to a class
`Global` has the scope of what belongs to no class (`FileRegistry.not_key_determines_owner`). A
policy therefore weighs against each other only symbols of one scope and name
(`FileRegistry.ofSource_displaces_in_scope`).
-/

namespace SymbolIndex

open Syntax

/-- What is in front of the first `x` of a list, and what is behind it. -/
theorem eq_of_append_cons_eq {α : Type} {x : α} {l l' r r' : List α} (hl : x ∉ l) (hl' : x ∉ l')
    (h : l ++ x :: r = l' ++ x :: r') : l = l' ∧ r = r' := by
  induction l generalizing l' with
  | nil =>
    cases l' with
    | nil => exact ⟨rfl, (List.cons.inj h).2⟩
    | cons a l' =>
      obtain ⟨rfl, -⟩ := List.cons.inj h
      exact absurd List.mem_cons_self hl'
  | cons a l ih =>
    cases l' with
    | nil =>
      obtain ⟨rfl, -⟩ := List.cons.inj h
      exact absurd List.mem_cons_self hl
    | cons b l' =>
      obtain ⟨rfl, htail⟩ := List.cons.inj h
      obtain ⟨rfl, hr⟩ :=
        ih (List.not_mem_of_not_mem_cons hl) (List.not_mem_of_not_mem_cons hl') htail
      exact ⟨rfl, hr⟩

namespace Symbol

/-- What a key has in place of the owner. -/
def scope (s : Symbol) : String := s.owner.getD globalScope

/-- The symbols have one owner, or else one belongs to no class and the other to a class whose name
stands for that. -/
def SameScope (s s' : Symbol) : Prop :=
  s.owner = s'.owner ∨ s.owner = none ∧ s'.owner = some globalScope ∨
    s.owner = some globalScope ∧ s'.owner = none

theorem sameScope_iff {s s' : Symbol} : s.SameScope s' ↔ s.scope = s'.scope := by
  rw [SameScope, scope, scope]
  cases s.owner <;> cases s'.owner <;> simp [eq_comm]

theorem toList_key (s : Symbol) : s.key.toList = s.scope.toList ++ '.' :: s.name.toList := by
  rw [key, Key.qualify, String.toList_append, String.toList_append, List.append_assoc]
  rfl

/-- The first dot of a key ends the scope. -/
theorem key_eq_key_iff {s s' : Symbol} (h : '.' ∉ s.scope.toList) (h' : '.' ∉ s'.scope.toList) :
    s.key = s'.key ↔ s.SameScope s' ∧ s.name = s'.name := by
  rw [sameScope_iff, ← String.toList_inj, toList_key, toList_key]
  constructor
  · intro hkey
    obtain ⟨hscope, hname⟩ := eq_of_append_cons_eq h h' hkey
    exact ⟨String.toList_inj.mp hscope, String.toList_inj.mp hname⟩
  · rintro ⟨hscope, hname⟩
    rw [hscope, hname]

end Symbol

/-! ### The symbols of a text -/

/-- A class is named by what its node is named by. -/
theorem Syntax.Placed.dot_not_mem_name {source : List Char} {lo hi : Nat} {root n : Node}
    {parent : Option Kind} {c : ClassDeclaration} (h : Placed source lo hi root.outline)
    (hn : n ∈ root.preorder)
    (hc : Declaration.ofNode? source parent n = some (.classDeclaration c)) :
    '.' ∉ c.name.toList := by
  obtain ⟨name, hname, hc', -⟩ := Declaration.eq_of_ofClass (Declaration.ofClass_of_ofNode? hc)
  have hparts : ClassParts source n.children :=
    h.parts_of_mem hn .ofClass (Declaration.sort?_of_classDeclaration hc)
  rw [hc', Node.text, String.toList_ofList]
  exact (hparts.named name (List.mem_of_find?_eq_some hname)
    (by simpa using List.find?_some hname)).dot_not_mem

namespace FileRegistry

variable {source : String} {path : Path} {options : ExtractOptions} {t : SyntaxTree}

/-- No scope of a source text has a dot in it. -/
theorem dot_not_mem_scope (h : JavaScript.parse source path = .ok t) {s : Symbol}
    (hs : s ∈ t.symbols options) : '.' ∉ s.scope.toList := by
  obtain ⟨hi, hplaced⟩ := JavaScript.placed_of_parse h
  rw [SyntaxTree.symbols_eq_flatMap] at hs
  obtain ⟨d, hd, hs⟩ := List.mem_flatMap.mp hs
  obtain ⟨⟨parent, n⟩, hv, hd⟩ := List.mem_filterMap.mp hd
  cases d with
  | functionDeclaration f =>
    rw [List.mem_singleton.mp hs]
    show '.' ∉ globalScope.toList
    decide
  | malformed kind nameless line => cases hs
  | classDeclaration c =>
    obtain ⟨member, -, hmember⟩ := List.mem_filterMap.mp hs
    obtain ⟨m, name, -, -, rfl⟩ := Member.eq_of_symbol? hmember
    exact hplaced.dot_not_mem_name (Visit.mem_preorder hv) hd

theorem key_eq_key_iff_of_parse (h : JavaScript.parse source path = .ok t) {s s' : Symbol}
    (hs : s ∈ t.symbols options) (hs' : s' ∈ t.symbols options) :
    s.key = s'.key ↔ s.SameScope s' ∧ s.name = s'.name :=
  Symbol.key_eq_key_iff (dot_not_mem_scope h hs) (dot_not_mem_scope h hs')

/-! ### Symbols that give way -/

/-- The last symbol with the key of `s` is no earlier one than `s`. -/
theorem exists_getLast?_withKey (before after : List Symbol) (s : Symbol) :
    ∃ s' ∈ s :: after, (Symbol.withKey (before ++ s :: after) s.key).getLast? = some s' ∧
      s.key = s'.key := by
  have hsplit : Symbol.withKey (before ++ s :: after) s.key =
      Symbol.withKey before s.key ++ Symbol.withKey (s :: after) s.key := List.filter_append ..
  have hne : Symbol.withKey (s :: after) s.key ≠ [] := by simp [Symbol.withKey]
  have hmem := List.mem_filter.mp (List.getLast_mem hne)
  refine ⟨_, hmem.1, ?_, (of_decide_eq_true hmem.2).symm⟩
  rw [hsplit, List.getLast?_append_of_ne_nil _ hne, List.getLast?_eq_some_getLast hne]

/-- The first symbol with the key of `s` is no later one than `s`. -/
theorem exists_head?_withKey (before after : List Symbol) (s : Symbol) :
    ∃ s' ∈ before ++ [s], (Symbol.withKey (before ++ s :: after) s.key).head? = some s' ∧
      s.key = s'.key := by
  have hsplit : Symbol.withKey (before ++ s :: after) s.key =
      Symbol.withKey (before ++ [s]) s.key ++ Symbol.withKey after s.key := by
    rw [List.append_cons]
    exact List.filter_append ..
  have hne : Symbol.withKey (before ++ [s]) s.key ≠ [] := by simp [Symbol.withKey]
  have hmem := List.mem_filter.mp (List.head_mem hne)
  refine ⟨_, hmem.1, ?_, (of_decide_eq_true hmem.2).symm⟩
  rw [hsplit, List.head?_append_of_ne_nil _ hne, List.head?_eq_some_head hne]

/-- **A symbol gives way only to symbols of the same scope and name**, later or earlier ones as the
policy has it, and a file is refused only for two such symbols. -/
theorem ofSource_displaces_in_scope (h : JavaScript.parse source path = .ok t)
    (options : ExtractOptions) :
    (∀ s ∈ t.symbols options, ∀ s' ∈ t.symbols options,
      s.key = s'.key ↔ s.SameScope s' ∧ s.name = s'.name) ∧
    (∃ r, (ofSource source path options .lastWins).result = .ok r ∧
      ∀ before s after, t.symbols options = before ++ s :: after →
        ∃ s' ∈ s :: after, r.get? s.key = some s' ∧ s.SameScope s' ∧ s.name = s'.name) ∧
    (∃ r, (ofSource source path options .firstWins).result = .ok r ∧
      ∀ before s after, t.symbols options = before ++ s :: after →
        ∃ s' ∈ before ++ [s], r.get? s.key = some s' ∧ s.SameScope s' ∧ s.name = s'.name) ∧
    ∀ e, (ofSource source path options .reject).result = .error e →
      ∃ before s after, t.symbols options = before ++ s :: after ∧
        ∃ s' ∈ before, s'.SameScope s ∧ s'.name = s.name ∧ e = .duplicateSymbol path s.key := by
  have hpath := SyntaxTree.path_of_ofRoot h
  have hkeys : ∀ s ∈ t.symbols options, ∀ s' ∈ t.symbols options,
      s.key = s'.key ↔ s.SameScope s' ∧ s.name = s'.name :=
    fun s hs s' hs' => key_eq_key_iff_of_parse h hs hs'
  have hresult : ∀ policy, (ofSource source path options policy).result =
      (ofSymbols path policy (t.symbols options)).result := by
    intro policy
    rw [result_ofSource, h]
    rfl
  have hregistry : ∀ policy, policy ≠ .reject → ∃ r,
      (ofSource source path options policy).result = .ok r ∧
        ∀ k, r.get? k = policy.pick (Symbol.withKey (t.symbols options) k) := by
    intro policy hpolicy
    obtain ⟨r, hr⟩ := exists_ofSymbols_of_ne_reject hpolicy path (t.symbols options)
    exact ⟨r, (hresult policy).trans hr, (holds_ofSymbols hr).get?_eq⟩
  refine ⟨hkeys, ?_, ?_, ?_⟩
  · obtain ⟨r, hr, hget⟩ := hregistry .lastWins (by decide)
    refine ⟨r, hr, fun before s after hsymbols => ?_⟩
    obtain ⟨s', hs', hlast, hkey⟩ := exists_getLast?_withKey before after s
    rw [hsymbols] at hkeys hget
    refine ⟨s', hs', (hget _).trans hlast, (hkeys s (by simp) s' ?_).mp hkey⟩
    exact List.mem_append_right _ hs'
  · obtain ⟨r, hr, hget⟩ := hregistry .firstWins (by decide)
    refine ⟨r, hr, fun before s after hsymbols => ?_⟩
    obtain ⟨s', hs', hfirst, hkey⟩ := exists_head?_withKey before after s
    rw [hsymbols] at hkeys hget
    refine ⟨s', hs', (hget _).trans hfirst, (hkeys s (by simp) s' ?_).mp hkey⟩
    rw [List.append_cons]
    exact List.mem_append_left _ hs'
  · intro e he
    rw [hresult] at he
    obtain ⟨before, s, after, hsymbols, -, hrepeat, rfl⟩ :=
      result_ofSymbols_reject_eq_error_iff.mp he
    obtain ⟨s', hs', hkey⟩ := List.mem_map.mp hrepeat
    rw [hsymbols] at hkeys
    obtain ⟨hscope, hname⟩ := (hkeys s' (List.mem_append_left _ hs') s (by simp)).mp hkey
    exact ⟨before, s, after, hsymbols, s', hs', hscope, hname, rfl⟩

/-- A text with a method of a class `Global` and a function of one name. -/
def globalPair : String := "class Global { f() {} }\nfunction f() {}"

/-- The symbols of `globalPair`. -/
def globalPairSymbols : List Symbol :=
  [.method "f" "Global" false none "test.js", .function "f" "test.js"]

theorem parse_globalPair : ∃ t, JavaScript.parse globalPair "test.js" = .ok t ∧
    t.symbols .standard = globalPairSymbols := by
  have hsymbols : (JavaScript.parse globalPair "test.js").toOption.map (·.symbols .standard) =
      some globalPairSymbols := by
    decide +kernel
  cases h : JavaScript.parse globalPair "test.js" with
  | error e =>
    rw [h] at hsymbols
    cases hsymbols
  | ok t =>
    rw [h] at hsymbols
    exact ⟨t, rfl, Option.some.inj hsymbols⟩

/-- The pair is of one scope and name, so a file that declares it is refused for it. -/
theorem ofSource_refuses_globalPair :
    (ofSource globalPair "test.js" .standard .reject).result =
      .error (.duplicateSymbol "test.js" "Global.f") ∧
    ∃ before s after, globalPairSymbols = before ++ s :: after ∧
      ∃ s' ∈ before, s'.SameScope s ∧ s'.name = s.name ∧ s.key = "Global.f" := by
  obtain ⟨t, ht, hsymbols⟩ := parse_globalPair
  have hrefused : (ofSource globalPair "test.js" .standard .reject).result =
      .error (.duplicateSymbol "test.js" "Global.f") := by
    decide +kernel
  obtain ⟨-, -, -, hreject⟩ := ofSource_displaces_in_scope ht .standard
  obtain ⟨before, s, after, hsplit, s', hs', hscope, hname, he⟩ := hreject _ hrefused
  rw [hsymbols] at hsplit
  exact ⟨hrefused, before, s, after, hsplit, s', hs', hscope, hname,
    (Error.duplicateSymbol.inj he).2.symm⟩

/-- **The key of a symbol does not determine its owner.** -/
theorem not_key_determines_owner :
    ¬∀ (source : String) (path : Path) (options : ExtractOptions) (t : SyntaxTree),
      JavaScript.parse source path = .ok t →
        ∀ s ∈ t.symbols options, ∀ s' ∈ t.symbols options,
          s.key = s'.key → s.owner = s'.owner ∧ s.name = s'.name := by
  intro hclaim
  obtain ⟨t, ht, hsymbols⟩ := parse_globalPair
  have howner := hclaim globalPair "test.js" .standard t ht
  rw [hsymbols] at howner
  exact absurd (howner _ (List.mem_cons_self ..) (.function "f" "test.js")
    (by simp [globalPairSymbols]) (by decide)).1 (by decide)

end FileRegistry

end SymbolIndex
