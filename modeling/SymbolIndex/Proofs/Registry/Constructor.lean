import SymbolIndex.Proofs.Registry.File

/-!
# Leaving constructors out

To leave constructors out is to strike them off afterwards. What a symbol is made from, a function or
a method, does not depend on any option (`SyntaxTree.origins`), and an option only chooses among
these (`SyntaxTree.symbols_eq_origins`).

Constructors have keys that end in their name (`Origin.key_of_isConstructor`), so the symbols with
any other key stay what they are (`FileRegistry.withKey_symbols`), and with them what a policy picks.
A constructor may have displaced another member with its key, or have been displaced by one, but
nobody else is concerned (`FileRegistry.ofSource_without_constructors`).
-/

namespace SymbolIndex

open Syntax

/-! ### What symbols are made from -/

namespace Syntax

/-- What a symbol is made from. -/
inductive Origin where
  | function (f : FunctionDeclaration)
  /-- A method of the class `c` that is known as `name`. -/
  | method (c : ClassDeclaration) (m : Method) (name : String)

namespace Origin

/-- The symbol that is made. -/
def symbol (path : Path) : Origin → Symbol
  | function f => .function f.name path
  | method c m name => .method name c.name m.isStatic c.superclass path

/-- Whether it is a method, and a constructor. -/
def isConstructor : Origin → Bool
  | function _ => false
  | method _ m _ => m.kind = .constructor

/-- Whether the options ask for the symbol. -/
def isWanted (options : ExtractOptions) (o : Origin) : Bool :=
  options.includeConstructors || !o.isConstructor

/-- What a member of the class `c` is for symbols: a method, if it is known by a name. -/
def ofMember? (c : ClassDeclaration) : Member → Option Origin
  | .other => none
  | .method m => m.simpleName?.map (method c m)

/-- What symbols are made from in a declaration, in order. -/
def ofDeclaration : Declaration → List Origin
  | .functionDeclaration f => [function f]
  | .classDeclaration c => c.members.filterMap (ofMember? c)
  | .malformed .. => []

end Origin

/-- What symbols are made from in a tree, in order. -/
def SyntaxTree.origins (t : SyntaxTree) : List Origin := t.declarations.flatMap Origin.ofDeclaration

/-! ### Options choose among them -/

theorem Member.symbol?_eq_origin (options : ExtractOptions) (path : Path) (c : ClassDeclaration)
    (member : Member) :
    member.symbol? options path c =
      ((Origin.ofMember? c member).filter (Origin.isWanted options)).map (Origin.symbol path) := by
  cases member with
  | other => rfl
  | method m =>
    rw [Member.symbol?, Origin.ofMember?, Method.simpleName?]
    cases m.key with
    | literal text | computed text => rfl
    | identifier name | privateName name =>
      by_cases hkind : m.kind = .constructor
      · cases hoption : options.includeConstructors with
        | false => simp [Option.filter, Origin.isWanted, Origin.isConstructor, hkind, hoption]
        | true => simp [Option.filter, Origin.isWanted, Origin.symbol, hoption]
      · simp [Option.filter, Origin.isWanted, Origin.isConstructor, Origin.symbol, hkind]

theorem Declaration.symbols_eq_origins (options : ExtractOptions) (path : Path)
    (d : Declaration) :
    d.symbols options path =
      ((Origin.ofDeclaration d).filter (Origin.isWanted options)).map (Origin.symbol path) := by
  cases d with
  | functionDeclaration f =>
    have hwanted : Origin.isWanted options (.function f) = true := Bool.or_true _
    rw [Origin.ofDeclaration, List.filter_cons_of_pos hwanted]
    rfl
  | malformed kind nameless line => rfl
  | classDeclaration c =>
    rw [Origin.ofDeclaration, List.filter_filterMap, List.map_filterMap]
    exact congrArg (c.members.filterMap ·) (funext fun member =>
      member.symbol?_eq_origin options path c)

/-- The symbols of a tree are made from what the options ask for. -/
theorem SyntaxTree.symbols_eq_origins (t : SyntaxTree) (options : ExtractOptions) :
    t.symbols options =
      (t.origins.filter (Origin.isWanted options)).map (Origin.symbol t.path) := by
  rw [symbols_eq_flatMap, origins, List.filter_flatMap, List.map_flatMap]
  exact congrArg (t.declarations.flatMap ·) (funext fun d =>
    d.symbols_eq_origins options t.path)

theorem SyntaxTree.symbols_with_constructors (t : SyntaxTree) :
    t.symbols ⟨true⟩ = t.origins.map (Origin.symbol t.path) := by
  rw [symbols_eq_origins, List.filter_eq_self.mpr]
  intro o _
  rfl

theorem SyntaxTree.symbols_without_constructors (t : SyntaxTree) :
    t.symbols ⟨false⟩ = (t.origins.filter (!·.isConstructor)).map (Origin.symbol t.path) :=
  t.symbols_eq_origins ⟨false⟩

/-- Symbols that are found one at a time are those that are found at once. -/
theorem SyntaxTree.value_take_ofTree (t : SyntaxTree) (options : ExtractOptions) (n : Nat) :
    ((SymbolStream.ofTree t options).take n).value = (t.symbols options).take n := by
  rw [SymbolStream.take_eq, SymbolStream.remaining_ofTree, ← symbols_eq_flatMap]

/-! ### The keys of constructors -/

/-- A constructor is a method of that name. -/
theorem Origin.key_of_isConstructor {t : SyntaxTree} {o : Origin} (ho : o ∈ t.origins)
    (h : o.isConstructor = true) (path : Path) :
    ∃ owner, (o.symbol path).key = .qualify (some owner) "constructor" := by
  obtain ⟨d, hd, ho⟩ := List.mem_flatMap.mp ho
  obtain ⟨v, -, hd⟩ := List.mem_filterMap.mp hd
  cases d with
  | functionDeclaration f =>
    rw [List.mem_singleton.mp ho] at h
    cases h
  | malformed kind nameless line => cases ho
  | classDeclaration c =>
    obtain ⟨member, hmember, ho⟩ := List.mem_filterMap.mp ho
    cases member with
    | other => cases ho
    | method m =>
      obtain ⟨name, hname, rfl⟩ := Option.map_eq_some_iff.mp ho
      have hkind : m.kind = .constructor := of_decide_eq_true h
      have hplain := Declaration.constructorsNamed_of_ofNode? hd m hmember hkind
      obtain rfl : name = "constructor" := Option.some.inj (hname.symm.trans hplain)
      exact ⟨c.name, rfl⟩

end Syntax

/-! ### Registries with and without constructors -/

namespace FileRegistry

variable {source : String} {path : Path} {t : SyntaxTree}

/-- The symbols with a key that is no constructor's are the same. -/
theorem withKey_symbols (t : SyntaxTree) {k : Key}
    (hk : ∀ owner, k ≠ .qualify (some owner) "constructor") :
    Symbol.withKey (t.symbols ⟨false⟩) k = Symbol.withKey (t.symbols ⟨true⟩) k := by
  rw [t.symbols_with_constructors, t.symbols_without_constructors, Symbol.withKey, Symbol.withKey,
    List.filter_map, List.filter_map, List.filter_filter]
  refine congrArg (List.map _) (List.filter_congr fun o ho => ?_)
  -- Among those with the key there is no constructor to strike off.
  by_cases hkey : (o.symbol t.path).key = k
  · have hplain : o.isConstructor = false := by
      rw [Bool.eq_false_iff]
      intro hconstructor
      obtain ⟨owner, howner⟩ := Origin.key_of_isConstructor ho hconstructor t.path
      exact hk owner (hkey.symm.trans howner)
    simp [hkey, hplain]
  · simp [hkey]

/-- Without constructors there are fewer symbols, in the same order. -/
theorem sublist_symbols (t : SyntaxTree) : (t.symbols ⟨false⟩).Sublist (t.symbols ⟨true⟩) := by
  rw [t.symbols_with_constructors, t.symbols_without_constructors]
  exact List.filter_sublist.map _

/-- Symbols that are not refused are not refused when there are fewer of them: where no key repeats,
none repeats among fewer. -/
theorem exists_ofSymbols_reject_of_sublist {symbols symbols' : List Symbol}
    (hsublist : symbols'.Sublist symbols)
    (h : ∃ r, (ofSymbols path .reject symbols).result = .ok r) :
    ∃ r, (ofSymbols path .reject symbols').result = .ok r := by
  obtain ⟨r, hr⟩ := h
  have hnodup : (symbols.map Symbol.key).Nodup := by
    by_contra hrepeat
    obtain ⟨e, he⟩ := exists_error_ofSymbols_reject_iff.mpr hrepeat
    cases hr.symm.trans he
  exact ⟨_, result_ofSymbols_of_nodup (hnodup.sublist (hsublist.map _)) path .reject⟩

/-- **Leaving constructors out concerns constructors only.** The symbols of a text are made from its
functions and methods, and without constructors they are the same ones in the same order, but for
those that are made from constructors. A text that has a registry under the policy that refuses
duplicates has one without constructors, too. Under the policies that keep one of two symbols, both
registries have the same at every key that is none of a constructor. -/
theorem ofSource_without_constructors (h : JavaScript.parse source path = .ok t) :
    (t.symbols ⟨true⟩ = t.origins.map (Origin.symbol path) ∧
      t.symbols ⟨false⟩ = (t.origins.filter (!·.isConstructor)).map (Origin.symbol path) ∧
      ∀ options n,
        ((SymbolStream.ofTree t options).take n).value = (t.symbols options).take n) ∧
    ((∃ r, (ofSource source path ⟨true⟩ .reject).result = .ok r) →
      ∃ r, (ofSource source path ⟨false⟩ .reject).result = .ok r) ∧
    ∀ policy, policy = .lastWins ∨ policy = .firstWins →
      ∃ r r', (ofSource source path ⟨true⟩ policy).result = .ok r ∧
        (ofSource source path ⟨false⟩ policy).result = .ok r' ∧
        ∀ k, (∀ owner, k ≠ .qualify (some owner) "constructor") → r.get? k = r'.get? k := by
  have hpath : t.path = path := SyntaxTree.path_of_ofRoot h
  have hresult := result_ofSource_of_parse h
  refine ⟨⟨?_, ?_, t.value_take_ofTree⟩, ?_, ?_⟩
  · rw [t.symbols_with_constructors, hpath]
  · rw [t.symbols_without_constructors, hpath]
  · rw [hresult, hresult]
    exact exists_ofSymbols_reject_of_sublist (sublist_symbols t)
  · intro policy hpolicy
    have hkeeps : policy ≠ .reject := by
      rcases hpolicy with rfl | rfl <;> decide
    obtain ⟨r, hr⟩ := exists_ofSymbols_of_ne_reject hkeeps path (t.symbols ⟨true⟩)
    obtain ⟨r', hr'⟩ := exists_ofSymbols_of_ne_reject hkeeps path (t.symbols ⟨false⟩)
    refine ⟨r, r', (hresult _ _).trans hr, (hresult _ _).trans hr', fun k hk => ?_⟩
    rw [(holds_ofSymbols hr).get?_eq, (holds_ofSymbols hr').get?_eq, withKey_symbols t hk]

/-- A constructor is struck off, and a function of that name is not. -/
theorem ofSource_without_constructor_of_class :
    let source := "class A { constructor() {} m() {} }\nfunction constructor() {}"
    let constructor : Symbol := .method "constructor" "A" false none "a.js"
    let method : Symbol := .method "m" "A" false none "a.js"
    let function : Symbol := .function "constructor" "a.js"
    ∃ t, JavaScript.parse source "a.js" = .ok t ∧
      t.symbols ⟨true⟩ = [constructor, method, function] ∧
      t.symbols ⟨false⟩ = [method, function] ∧
      (∃ r, (ofSource source "a.js" ⟨false⟩ .reject).result = .ok r) ∧
      ∃ r, (ofSource source "a.js" ⟨false⟩ .lastWins).result = .ok r ∧
        r.get? "A.m" = some method := by
  intro source constructor method function
  have hsymbols : (JavaScript.parse source "a.js").toOption.map
      (fun t => (t.symbols ⟨true⟩, t.symbols ⟨false⟩)) =
        some ([constructor, method, function], [method, function]) := by
    decide +kernel
  obtain ⟨t, ht, hsymbols⟩ := Option.map_eq_some_iff.mp hsymbols
  obtain ⟨hwith, hwithout⟩ := Prod.mk.inj hsymbols
  have ht := toOption_eq_some_iff.mp ht
  obtain ⟨-, hreject, hkeep⟩ := ofSource_without_constructors ht
  have haccepted : ∃ r, (ofSource source "a.js" ⟨true⟩ .reject).result = .ok r := by
    have hnodup : ([constructor, method, function].map Symbol.key).Nodup := by decide
    rw [result_ofSource_of_parse ht, hwith]
    exact ⟨_, result_ofSymbols_of_nodup hnodup "a.js" .reject⟩
  obtain ⟨r, r', hr, hr', hget⟩ := hkeep .lastWins (.inl rfl)
  have hmethod : r.get? "A.m" = some method := by
    rw [result_ofSource_of_parse ht, hwith] at hr
    rw [(holds_ofSymbols hr).get?_eq]
    decide +kernel
  have hkey : ∀ owner, "A.m" ≠ Key.qualify (some owner) "constructor" := by
    intro owner hkey
    have hlast := congrArg (·.toList.getLast?) hkey
    simp [Key.qualify] at hlast
  refine ⟨t, ht, hwith, hwithout, hreject haccepted, r', hr', ?_⟩
  rw [← hget "A.m" hkey]
  exact hmethod

end FileRegistry

end SymbolIndex
