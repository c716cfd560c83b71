import SymbolIndex.Proofs.Index
import SymbolIndex.Proofs.Registry.History
import SymbolIndex.Proofs.Registry.Scope

/-!
# What a registry stores

A registry stores a symbol at its own key and nowhere else, the key can be taken apart at its first
dot, and a symbol without a class has neither of what only classes give (`Symbol.StoredAt`). This
holds of a symbol from the moment it is found: its name is the text of a node that the grammar has
for a name, so it has characters (`SyntaxTree.name_ne_empty`), and no scope has a dot in it. Policies
and merging only choose among the symbols that are found (`FileSystem.registries_store_symbols`).
-/

namespace SymbolIndex

open Syntax Text

/-- The key taken apart at its first dot. -/
def Key.splitAtDot? (k : Key) : Option (String × String) :=
  match k.toList.dropWhile (· ≠ '.') with
  | [] => none
  | _ :: name => some (String.ofList (k.toList.takeWhile (· ≠ '.')), String.ofList name)

namespace Symbol

/-- The symbol may be stored at the key `k` of a registry, and comes from the file `path`. -/
structure StoredAt (s : Symbol) (k : Key) (path : Path) : Prop where
  key : k = s.key
  global : s.owner = none → s.isStatic = false ∧ s.superclass = none
  path : s.path = path
  name : s.name ≠ ""
  split : k.splitAtDot? = some (s.scope, s.name)

/-- The first dot of a key stands right behind the scope. -/
theorem splitAtDot?_key {s : Symbol} (h : '.' ∉ s.scope.toList) :
    s.key.splitAtDot? = some (s.scope, s.name) := by
  have hscope : ∀ c ∈ s.scope.toList, decide (c ≠ '.') = true := by
    intro c hc
    rw [decide_eq_true_eq]
    rintro rfl
    exact h hc
  have hfront : s.key.toList.takeWhile (· ≠ '.') = s.scope.toList := by
    rw [toList_key, List.takeWhile_append_of_pos hscope, List.takeWhile_cons_of_neg (by simp),
      List.append_nil]
  have hback : s.key.toList.dropWhile (· ≠ '.') = '.' :: s.name.toList := by
    rw [toList_key, List.dropWhile_append_of_pos hscope, List.dropWhile_cons_of_neg (by simp)]
  rw [Key.splitAtDot?, hback, hfront]
  dsimp only
  rw [String.ofList_toList, String.ofList_toList]

end Symbol

/-! ### Names of symbols -/

namespace Syntax

/-- The child in the role of the name is the first one, if there is none in front of it. -/
theorem find?_name {head rest : List Node} {key : Node} (hhead : ∀ n ∈ head, n.field = none)
    (hkey : key.field = some .name) :
    (head ++ key :: rest).find? (·.field = some .name) = some key := by
  have hnone : head.find? (·.field = some .name) = none := by
    rw [List.find?_eq_none]
    intro n hn
    simp [hhead n hn]
  rw [List.find?_append, hnone, List.find?_cons_of_pos (by simp [hkey])]
  rfl

theorem ModifierParts.field_eq_none {source : List Char} {ns : List Node}
    (h : ModifierParts source ns) : ∀ n ∈ ns, n.field = none := by
  obtain ⟨hstatic, hasync, haccessor⟩ := h
  have hextra : ∀ e : Node, e.IsExtra → e.field = none := fun e he => he.field
  simp only [List.forall_mem_append]
  refine ⟨⟨hstatic.of_mem hextra fun n hn => ?_, hasync.of_mem hextra fun n hn => hn.field⟩,
    haccessor.of_mem hextra fun n hn => ?_⟩
  · exact hn.elim (·.field) (·.field)
  · exact hn.elim (·.field) (·.elim (·.field) (·.field))

/-- Nothing in front of the name of a method has a role. -/
theorem MethodParts.field_eq_none {source : List Char} {decorators modifiers before : List Node}
    (hdecorators : Decorators decorators) (hmodifiers : ModifierParts source modifiers)
    (hbefore : ∀ e ∈ before, e.IsExtra) :
    ∀ n ∈ decorators ++ modifiers ++ before, n.field = none := by
  simp only [List.forall_mem_append]
  exact ⟨⟨fun n hn => (hdecorators n hn).2, hmodifiers.field_eq_none⟩,
    fun e he => (hbefore e he).field⟩

theorem Method.key_of_simpleName? {m : Method} {name : String} (h : m.simpleName? = some name) :
    m.key = .identifier name ∨ m.key = .privateName name := by
  rw [simpleName?] at h
  split at h
  · rename_i hkey
    cases h
    exact .inl hkey
  · rename_i hkey
    cases h
    exact .inr hkey
  · cases h
  · cases h

/-- A key that is a name is the text of a node that is one. -/
theorem MemberKey.eq_text_of_ofNode {source : List Char} {n : Node} {name : String} {key : MemberKey}
    (h : MemberKey.ofNode source n = key) (hkey : key = .identifier name ∨ key = .privateName name) :
    (n.kind = .propertyIdentifier ∨ n.kind = .privatePropertyIdentifier) ∧
      name = n.text source := by
  rw [ofNode] at h
  split at h
  · rename_i hkind
    subst h
    rcases hkey with hkey | hkey <;> cases hkey
    exact ⟨.inl hkind, rfl⟩
  · rename_i hkind
    subst h
    rcases hkey with hkey | hkey <;> cases hkey
    exact ⟨.inr hkind, rfl⟩
  all_goals
    subst h
    rcases hkey with hkey | hkey <;> cases hkey

theorem Node.text_ne_empty {source : List Char} {n : Node} (h : n.chars source ≠ []) :
    n.text source ≠ "" := by
  intro hempty
  rw [text, ← String.toList_inj, String.toList_ofList] at hempty
  exact h hempty

/-- A method without an error in it is known under a name that has characters. -/
theorem Method.ne_empty_of_simpleName? {source : List Char} {n : Node} {m : Method} {name : String}
    (h : MethodParts source n.children) (herror : ∀ e ∈ n.children, e.kind ≠ .error)
    (hm : Method.ofNode? source n = some m) (hname : m.simpleName? = some name) : name ≠ "" := by
  have hkey := Method.key_of_simpleName? hname
  rw [Method.ofNode?, Node.child?] at hm
  generalize n.children = ns at h herror hm
  obtain ⟨hdecorators, hmodifiers, hbefore, -, hfield, -, htext⟩ := h
  rename_i decorators modifiers before rest key
  rw [find?_name (MethodParts.field_eq_none hdecorators hmodifiers hbefore) hfield] at hm
  cases hm
  obtain ⟨hplain, rfl⟩ := MemberKey.eq_text_of_ofNode rfl hkey
  refine Node.text_ne_empty ?_
  rcases htext hplain with hchars | ⟨e, he, hkind⟩
  · exact hchars
  · exact absurd hkind (herror e (by simp [he]))

/-- The name of a function that a node declares has characters. -/
theorem FunctionDeclaration.name_ne_empty {source : List Char} {n : Node} {parent : Option Kind}
    {f : FunctionDeclaration} (h : Named source n.children)
    (hf : Declaration.ofNode? source parent n = some (.functionDeclaration f)) : f.name ≠ "" := by
  obtain ⟨name, hname, hf⟩ :=
    Declaration.eq_of_ofFunction (Declaration.ofFunction_of_ofNode? hf)
  have hfield : name.field = some .name := by simpa using List.find?_some hname
  rw [hf]
  exact Node.text_ne_empty (h name (List.mem_of_find?_eq_some hname) hfield).chars_ne_nil

/-- The methods of the classes in a text are made up like methods. -/
theorem methodParts_of_mem_memberNodes {source : String} {path : Path} {t : SyntaxTree}
    (h : JavaScript.parse source path = .ok t) {n node : Node} (hn : n ∈ t.root.preorder)
    (hnode : node ∈ n.memberNodes) (hkind : node.kind = .methodDefinition) :
    MethodParts t.source.toList node.children := by
  have hbelow : node ∈ t.root.preorder :=
    Node.mem_preorder_trans (n.memberNodes_sublist_preorder.subset hnode) hn
  have hparts := JavaScript.parts_of_parse h hbelow
  rw [hkind] at hparts
  exact hparts .ofMethod rfl

end Syntax

namespace FileRegistry

variable {source : String} {path : Path} {options : ExtractOptions} {t : SyntaxTree}

/-- A symbol without a class has nothing that only classes give. -/
theorem plain_of_owner_eq_none {s : Symbol} (hs : s ∈ t.symbols options) (howner : s.owner = none) :
    s.isStatic = false ∧ s.superclass = none := by
  rw [SyntaxTree.symbols_eq_flatMap] at hs
  obtain ⟨d, -, hs⟩ := List.mem_flatMap.mp hs
  cases d with
  | functionDeclaration f =>
    rw [List.mem_singleton.mp hs]
    exact ⟨rfl, rfl⟩
  | malformed kind nameless line => cases hs
  | classDeclaration c =>
    obtain ⟨member, -, hmember⟩ := List.mem_filterMap.mp hs
    obtain ⟨m, name, -, -, rfl⟩ := Member.eq_of_symbol? hmember
    cases howner

/-- Every symbol of a text has a name. -/
theorem name_ne_empty (h : JavaScript.parse source path = .ok t) {s : Symbol}
    (hs : s ∈ t.symbols options) : s.name ≠ "" := by
  rw [SyntaxTree.symbols_eq_flatMap] at hs
  obtain ⟨d, hd, hs⟩ := List.mem_flatMap.mp hs
  obtain ⟨⟨parent, n⟩, hv, hd⟩ := List.mem_filterMap.mp hd
  have hn : n ∈ t.root.preorder := Visit.mem_preorder hv
  cases d with
  | functionDeclaration f =>
    rw [List.mem_singleton.mp hs]
    have hparts : Named t.source.toList n.children :=
      JavaScript.parts_of_parse h hn .ofFunction (Declaration.sort?_of_functionDeclaration hd)
    exact FunctionDeclaration.name_ne_empty hparts hd
  | malformed kind nameless line => cases hs
  | classDeclaration c =>
    obtain ⟨member, hmember, hsymbol⟩ := List.mem_filterMap.mp hs
    obtain ⟨m, name, rfl, hname, rfl⟩ := Member.eq_of_symbol? hsymbol
    obtain ⟨-, -, -, hmembers⟩ := Declaration.eq_of_ofClass (Declaration.ofClass_of_ofNode? hd)
    rw [hmembers, Node.members_eq] at hmember
    obtain ⟨child, hchild, hofNode⟩ := List.mem_map.mp hmember
    obtain ⟨hkind, hm⟩ := Member.ofNode?_of_ofNode hofNode
    have hbelow : child ∈ t.root.preorder :=
      Node.mem_preorder_trans (n.memberNodes_sublist_preorder.subset hchild) hn
    have hparts := methodParts_of_mem_memberNodes h hn hchild hkind
    refine Method.ne_empty_of_simpleName? hparts (fun e he => ?_) hm hname
    exact JavaScript.kind_ne_error_of_parse h
      (Node.mem_preorder_trans (Node.mem_preorder_of_mem_children he) hbelow)

/-- What is found in a text has all that a registry asks for. -/
theorem storedAt_of_mem_symbols (h : JavaScript.parse source path = .ok t) {s : Symbol}
    (hs : s ∈ t.symbols options) : s.StoredAt s.key path where
  key := rfl
  global howner := plain_of_owner_eq_none hs howner
  path := (SyntaxTree.path_of_mem_symbols hs).trans (SyntaxTree.path_of_ofRoot h)
  name := name_ne_empty h hs
  split := Symbol.splitAtDot?_key (dot_not_mem_scope h hs)

theorem storedAt_of_ofSource {policy : CollisionPolicy} {r : FileRegistry}
    (h : (ofSource source path options policy).result = .ok r) {k : Key} {s : Symbol}
    (hs : (k, s) ∈ r.entries) : s.StoredAt k path := by
  obtain ⟨t, ht, hr⟩ := result_ofSource_eq_ok_iff.mp h
  obtain ⟨hmem, hkey⟩ := List.mem_filter.mp ((holds_ofSymbols hr).mem_withKey hs)
  have hkey : s.key = k := of_decide_eq_true hkey
  rw [← hkey]
  exact storedAt_of_mem_symbols ht hmem

end FileRegistry

namespace FileSystem

/-- **Registries store symbols by their keys.** Whatever a registry of a text has at a key has that
key, comes from the file of the text, has a name, and has neither a modifier nor a superclass if it
has no class; and the key gives back scope and name when it is taken apart at its first dot. The
registry of a directory has at a key only what the registries of its files have there. -/
theorem registries_store_symbols (fs : FileSystem) :
    (∀ source path options policy r,
      (FileRegistry.ofSource source path options policy).result = .ok r →
        ∀ k s, (k, s) ∈ r.entries → s.StoredAt k path) ∧
    ∀ settings root d, (fs.indexDirectory settings root).result = .ok d →
      ∃ paths, (fs.sourceFiles settings.scan root).result = .ok paths ∧
        ∀ k symbols, (k, symbols) ∈ d.registry.entries → ∀ s ∈ symbols,
          s.StoredAt k s.path ∧ s.path ∈ paths ∧
            ∃ r, fs.registryOf settings.extract s.path = .ok r ∧ (k, s) ∈ r.entries := by
  refine ⟨fun source path options policy r h k s hs => FileRegistry.storedAt_of_ofSource h hs,
    fun settings root d hd => ?_⟩
  rw [result_indexDirectory] at hd
  cases hvisits : fs.visits settings.scan root with
  | error e =>
    rw [hvisits] at hd
    cases hd
  | ok visits =>
    rw [hvisits] at hd
    cases hd
    refine ⟨visits.filterMap Except.toOption, ?_, fun k symbols hk s hs => ?_⟩
    · rw [result_sourceFiles, hvisits]
      rfl
    rw [registry_indexVisits] at hk
    have hget := (Entries.get?_eq_some_iff (CombinedRegistry.sorted_ofFiles _)).mpr hk
    obtain ⟨hpath, r, hr, hget⟩ := fs.mem_ofFiles_registryOf settings.extract hget hs
    have hmem : (k, s) ∈ r.entries := Entries.mem_of_get?_eq_some hget
    refine ⟨?_, hpath, r, hr, hmem⟩
    rw [registryOf] at hr
    split at hr
    · cases hr
    · exact FileRegistry.storedAt_of_ofSource hr hmem

/-- A function has the scope that stands for no class, and a private method keeps its mark. -/
theorem registries_store_function_and_method :
    let source := "class C extends B { static #m() {} }\nfunction f() {}"
    let fs : FileSystem := ⟨.directory [(Utf8.encode "src", .directory [
      (Utf8.encode "a.js", .file (Utf8.encode source))])], []⟩
    let method : Symbol := .method "#m" "C" true (some "B") "/src/a.js"
    let function : Symbol := .function "f" "/src/a.js"
    (∃ d, (fs.indexDirectory .standard "/src").result = .ok d ∧
      d.registry.entries = [("C.#m", [method]), ("Global.f", [function])]) ∧
    method.StoredAt "C.#m" "/src/a.js" ∧ function.StoredAt "Global.f" "/src/a.js" := by
  intro source fs method function
  have hindex : (fs.indexDirectory .standard "/src").result.toOption.map (·.registry.entries) =
      some [("C.#m", [method]), ("Global.f", [function])] := by
    decide +kernel
  obtain ⟨d, hd, hentries⟩ := Option.map_eq_some_iff.mp hindex
  have hd := toOption_eq_some_iff.mp hd
  obtain ⟨paths, -, hstored⟩ := (registries_store_symbols fs).2 .standard "/src" d hd
  rw [hentries] at hstored
  refine ⟨⟨d, hd, hentries⟩, ?_, ?_⟩
  · exact (hstored "C.#m" [method] (by simp) method (by simp)).1
  · exact (hstored "Global.f" [function] (by simp) function (by simp)).1

end FileSystem

end SymbolIndex
