import SymbolIndex.Proofs.Extraction
import SymbolIndex.Proofs.Syntax.Outline

/-!
# Where symbols come from

A symbol comes from a node, its function or method, and is found when the declaration is looked into
that gives it: the same function, or the class around the method. `SyntaxTree.sites` lists these
nodes with the symbols, in the order in which the symbols are found.

If the definitions of a tree start one after the other in pre-order (`Node.Increasing`), then

- the sites are in the order in which their declarations start, and those of one class in the order
  in which its methods start (`SyntaxTree.pairwise_sites`);
- a definition that starts between another one and something inside that is inside it too
  (`Node.Increasing.inside`).
-/

namespace SymbolIndex

open Syntax

namespace Syntax

namespace Node

/-! ### Definitions in increasing order -/

/-- Both nodes are definitions only if the first one starts in front of the second. -/
def StartsBefore (m n : Node) : Prop :=
  m.kind.isDefinition = true → n.kind.isDefinition = true → m.start.offset < n.start.offset

/-- The definitions in a tree start one after the other. -/
def Increasing (n : Node) : Prop := n.preorder.Pairwise StartsBefore

/-- The node is below another one. -/
def Inside (m n : Node) : Prop := m ∈ preorderAll n.children

theorem increasing_of_placed {source : List Char} {lo hi : Nat} {n : Node}
    (h : Placed source lo hi n.outline) : n.Increasing := by
  refine (List.pairwise_filterMap.mp h.increasing).imp fun {a b} hab ha hb => ?_
  obtain ⟨sort, hsort⟩ := Kind.sort?_of_isDefinition ha
  obtain ⟨sort', hsort'⟩ := Kind.sort?_of_isDefinition hb
  exact hab _ (definition?_of_sort? hsort) _ (definition?_of_sort? hsort')

theorem mem_preorder_self (n : Node) : n ∈ n.preorder := by
  rw [preorder_eq]
  exact List.mem_cons_self

theorem mem_preorder_iff {m n : Node} : m ∈ n.preorder ↔ m = n ∨ m.Inside n := by
  rw [preorder_eq, List.mem_cons, Inside]

/-- A node below is there with all that is below it, in the same order. -/
theorem preorder_sublist {m n : Node} (h : m ∈ n.preorder) : m.preorder.Sublist n.preorder := by
  obtain ⟨before, after, hsplit⟩ := preorder_split n h
  rw [hsplit, List.append_assoc]
  exact (List.sublist_append_left _ _).trans (List.sublist_append_right _ _)

theorem mem_preorder_trans {l m n : Node} (hl : l ∈ m.preorder) (hm : m ∈ n.preorder) :
    l ∈ n.preorder :=
  (preorder_sublist hm).subset hl

/-- The roots of several trees are among the nodes of those trees, in the same order. -/
theorem sublist_preorderAll (ns : List Node) : ns.Sublist (preorderAll ns) := by
  induction ns with
  | nil => exact List.nil_sublist _
  | cons n ns ih =>
    rw [preorderAll, preorder_eq, List.cons_append]
    exact (ih.trans (List.sublist_append_right _ _)).cons_cons n

theorem children_sublist_preorder (n : Node) : n.children.Sublist n.preorder := by
  rw [preorder_eq]
  exact (sublist_preorderAll n.children).cons n

theorem mem_preorder_of_mem_children {m n : Node} (h : m ∈ n.children) : m ∈ n.preorder :=
  n.children_sublist_preorder.subset h

namespace Increasing

variable {root m n : Node} (h : root.Increasing)
include h

/-- The parts of a tree are like the tree. -/
theorem part (hm : m ∈ root.preorder) : m.Increasing := h.sublist (preorder_sublist hm)

/-- What is inside a definition starts later. -/
theorem start_lt (hn : n ∈ root.preorder) (hinside : m.Inside n)
    (hm : m.kind.isDefinition = true) (hdefinition : n.kind.isDefinition = true) :
    n.start.offset < m.start.offset := by
  have hparts := h.part hn
  rw [Increasing, preorder_eq, List.pairwise_cons] at hparts
  exact hparts.1 m hinside hdefinition hm

theorem start_le (hn : n ∈ root.preorder) (hm : m ∈ n.preorder)
    (hdefinition : n.kind.isDefinition = true) (hmdef : m.kind.isDefinition = true) :
    n.start.offset ≤ m.start.offset := by
  rcases mem_preorder_iff.mp hm with rfl | hinside
  · exact Nat.le_refl _
  · exact Nat.le_of_lt (h.start_lt hn hinside hmdef hdefinition)

/-- A definition that starts after another one, but not after something in it, is inside it. -/
theorem inside {l : Node} (hm : m ∈ root.preorder) (hn : n ∈ root.preorder) (hl : l ∈ n.preorder)
    (hmdef : m.kind.isDefinition = true) (hndef : n.kind.isDefinition = true)
    (hldef : l.kind.isDefinition = true) (hlt : n.start.offset < m.start.offset)
    (hle : m.start.offset ≤ l.start.offset) : m.Inside n := by
  obtain ⟨before, after, hsplit⟩ := preorder_split root hn
  rw [Increasing, hsplit] at h
  obtain ⟨hfront, -, hafter⟩ := List.pairwise_append.mp h
  obtain ⟨-, -, hbefore⟩ := List.pairwise_append.mp hfront
  rw [hsplit] at hm
  rcases List.mem_append.mp hm with hm | hm
  · rcases List.mem_append.mp hm with hm | hm
    · have := hbefore m hm n (mem_preorder_self n) hmdef hndef
      omega
    · rcases mem_preorder_iff.mp hm with rfl | hinside
      · omega
      · exact hinside
  · have := hafter l (List.mem_append_right _ hl) m hm hldef hmdef
    omega

end Increasing

end Node

/-! ### Visited nodes -/

namespace Visit

mutual

/-- The visited nodes are nodes of the tree, in pre-order. -/
theorem sublist_preorder (parent : Option Kind) :
    ∀ n : Node, ((all parent n).map (·.2)).Sublist n.preorder
  | ⟨kind, field, missing, start, stop, children⟩ => by
    rw [all, Node.preorder, List.map_cons]
    exact (sublist_preorderAll kind children).cons_cons _

theorem sublist_preorderAll (parent : Kind) :
    ∀ ns : List Node, ((allNamed parent ns).map (·.2)).Sublist (Node.preorderAll ns)
  | [] => by
    rw [allNamed, Node.preorderAll]
    exact List.nil_sublist _
  | n :: ns => by
    rw [allNamed, Node.preorderAll]
    split
    · rw [List.map_append]
      exact (sublist_preorder _ n).append (sublist_preorderAll parent ns)
    · exact (sublist_preorderAll parent ns).trans (List.sublist_append_right _ _)

end

theorem mem_preorder {parent : Option Kind} {n : Node} {v : Visit} (h : v ∈ all parent n) :
    v.2 ∈ n.preorder :=
  (sublist_preorder parent n).subset (List.mem_map_of_mem h)

end Visit

/-! ### What a node declares -/

namespace Declaration

variable {source : List Char} {parent : Option Kind} {n : Node}

/-- What declares something is a definition. -/
theorem isDefinition_of_ofNode? {d : Declaration} (h : ofNode? source parent n = some d) :
    n.kind.isDefinition = true := by
  rw [ofNode?] at h
  split at h
  case h_7 => cases h
  all_goals
    rename_i hkind
    rw [hkind]
    rfl

theorem ofFunction_ne_classDeclaration (c : ClassDeclaration) :
    ofFunction source n ≠ .classDeclaration c := by
  rw [ofFunction]
  split <;> simp

theorem ofClass_ne_functionDeclaration (f : FunctionDeclaration) :
    ofClass source n ≠ .functionDeclaration f := by
  rw [ofClass]
  split <;> simp

/-- What declares a class is a class. -/
theorem sort?_of_classDeclaration {c : ClassDeclaration}
    (h : ofNode? source parent n = some (.classDeclaration c)) :
    n.kind.sort? = some .ofClass := by
  rw [ofNode?] at h
  split at h
  case h_1 hkind | h_4 hkind =>
    rw [hkind]
    rfl
  case h_2 | h_3 => exact absurd (Option.some.inj h) (ofFunction_ne_classDeclaration c)
  case h_5 | h_6 =>
    split at h
    · exact absurd (Option.some.inj h) (ofFunction_ne_classDeclaration c)
    · cases h
  case h_7 => cases h

/-- What declares a function is a function. -/
theorem sort?_of_functionDeclaration {f : FunctionDeclaration}
    (h : ofNode? source parent n = some (.functionDeclaration f)) :
    n.kind.sort? = some .ofFunction := by
  rw [ofNode?] at h
  split at h
  case h_2 hkind | h_3 hkind | h_5 hkind | h_6 hkind =>
    rw [hkind]
    rfl
  case h_1 => exact absurd (Option.some.inj h) (ofClass_ne_functionDeclaration f)
  case h_4 =>
    split at h
    · exact absurd (Option.some.inj h) (ofClass_ne_functionDeclaration f)
    · cases h
  case h_7 => cases h

theorem ofClass_of_ofNode? {c : ClassDeclaration}
    (h : ofNode? source parent n = some (.classDeclaration c)) :
    ofClass source n = .classDeclaration c := by
  rcases ofNode?_cases h with hclass | hfunction
  · exact hclass.symm
  · exact absurd hfunction.symm (ofFunction_ne_classDeclaration c)

theorem eq_of_ofClass {c : ClassDeclaration} (h : ofClass source n = .classDeclaration c) :
    ∃ name, n.child? .name = some name ∧ c.name = name.text source ∧
      c.members = n.members source := by
  rw [ofClass] at h
  split at h
  · rename_i name hname
    cases h
    exact ⟨name, hname, rfl, rfl⟩
  · cases h

theorem superclass_of_ofClass {c : ClassDeclaration} (h : ofClass source n = .classDeclaration c) :
    c.superclass = n.superclass? source := by
  rw [ofClass] at h
  split at h <;> cases h
  rfl

theorem ofFunction_of_ofNode? {f : FunctionDeclaration}
    (h : ofNode? source parent n = some (.functionDeclaration f)) :
    ofFunction source n = .functionDeclaration f := by
  rcases ofNode?_cases h with hclass | hfunction
  · exact absurd hclass.symm (ofClass_ne_functionDeclaration f)
  · exact hfunction.symm

theorem eq_of_ofFunction {f : FunctionDeclaration}
    (h : ofFunction source n = .functionDeclaration f) :
    ∃ name, n.child? .name = some name ∧ f.name = name.text source := by
  rw [ofFunction] at h
  split at h
  · rename_i name hname
    cases h
    exact ⟨name, hname, rfl⟩
  · cases h

end Declaration

/-- The nodes that are the members of a class node. -/
def Node.memberNodes (n : Node) : List Node :=
  match n.child? .body with
  | some body => body.namedChildren.filter (·.kind ≠ .comment)
  | none => []

theorem Node.members_eq (source : List Char) (n : Node) :
    n.members source = n.memberNodes.map (Member.ofNode source) := by
  rw [members, memberNodes]
  cases n.child? .body with
  | none => rfl
  | some body => rfl

/-- The members of a class node are below it, in the order of the tree. -/
theorem Node.memberNodes_sublist_preorder (n : Node) : n.memberNodes.Sublist n.preorder := by
  rw [memberNodes]
  split
  · rename_i body hbody
    have hbelow := mem_preorder_of_mem_children (List.mem_of_find?_eq_some hbody)
    have hfilter : (body.namedChildren.filter (·.kind ≠ .comment)).Sublist body.children :=
      List.filter_sublist.trans List.filter_sublist
    exact (hfilter.trans body.children_sublist_preorder).trans (preorder_sublist hbelow)
  · exact List.nil_sublist _

/-- Only methods give symbols. -/
theorem Member.kind_of_symbol? {options : ExtractOptions} {path : Path} {c : ClassDeclaration}
    {source : List Char} {n : Node} {s : Symbol}
    (h : (Member.ofNode source n).symbol? options path c = some s) :
    n.kind = .methodDefinition := by
  by_contra hkind
  rw [Member.ofNode, if_neg hkind] at h
  cases h

end Syntax

/-! ### Sites -/

/-- Where a symbol comes from. -/
structure Site where
  /-- The declaration that gives the symbol: the function, or the class around the method. -/
  declaration : Node
  /-- The function or method itself. -/
  node : Node
  symbol : Symbol

namespace Site

/-- The sites of the symbols that a visited node gives. -/
def ofVisit (options : ExtractOptions) (path : Path) (source : List Char) (v : Visit) : List Site :=
  match Declaration.ofNode? source v.1 v.2 with
  | some (.functionDeclaration f) => [⟨v.2, v.2, .function f.name path⟩]
  | some (.classDeclaration c) => v.2.memberNodes.filterMap fun m =>
    ((Member.ofNode source m).symbol? options path c).map (⟨v.2, m, ·⟩)
  | some (.malformed ..) | none => []

/-- The symbol of the first site is found first. -/
def FoundBefore (a b : Site) : Prop :=
  a.declaration.start.offset < b.declaration.start.offset ∨
    a.declaration = b.declaration ∧ a.node.start.offset < b.node.start.offset

end Site

/-- Where the symbols of a tree come from, in the order in which they are found. -/
def Syntax.SyntaxTree.sites (t : SyntaxTree) (options : ExtractOptions) : List Site :=
  (Visit.all none t.root).flatMap (Site.ofVisit options t.path t.source.toList)

namespace Site

variable {options : ExtractOptions} {path : Path} {source : List Char}

theorem map_symbol_ofVisit (v : Visit) :
    (ofVisit options path source v).map symbol =
      (Declaration.ofNode? source v.1 v.2).toList.flatMap (Declaration.symbols options path) := by
  rw [ofVisit]
  split
  · rename_i f hf
    rw [hf]
    rfl
  · rename_i c hc
    have hmembers : c.members = v.2.memberNodes.map (Member.ofNode source) := by
      have hclass := Declaration.ofClass_of_ofNode? hc
      obtain ⟨-, -, -, hmembers⟩ := Declaration.eq_of_ofClass hclass
      rw [hmembers, Node.members_eq]
    rw [hc, Option.toList_some, List.flatMap_singleton, Declaration.symbols, hmembers,
      List.filterMap_map, List.map_filterMap]
    refine congrArg (v.2.memberNodes.filterMap ·) (funext fun m => ?_)
    cases h : (Member.ofNode source m).symbol? options path c <;> simp [h]
  · rename_i hmalformed
    rw [hmalformed]
    rfl
  · rename_i hnone
    rw [hnone]
    rfl

/-- The site of a symbol that a visited node gives: it is the node or a method in it. -/
theorem of_mem_ofVisit {v : Visit} {a : Site} (ha : a ∈ ofVisit options path source v) :
    a.declaration = v.2 ∧ v.2.kind.isDefinition = true ∧ a.node ∈ v.2.preorder ∧
      a.node.kind.isDefinition = true := by
  rw [ofVisit] at ha
  split at ha
  · rename_i f hf
    have hdefinition := Declaration.isDefinition_of_ofNode? hf
    rw [List.mem_singleton.mp ha]
    exact ⟨rfl, hdefinition, Node.mem_preorder_self _, hdefinition⟩
  · rename_i c hc
    obtain ⟨m, hm, hsymbol⟩ := List.mem_filterMap.mp ha
    obtain ⟨s, hs, rfl⟩ := Option.map_eq_some_iff.mp hsymbol
    have hkind := Member.kind_of_symbol? hs
    exact ⟨rfl, Declaration.isDefinition_of_ofNode? hc,
      v.2.memberNodes_sublist_preorder.subset hm, by rw [hkind]; rfl⟩
  · cases ha
  · cases ha

/-- The methods of a class start one after the other. -/
theorem pairwise_ofVisit {root : Node} (h : root.Increasing) {v : Visit}
    (hv : v.2 ∈ root.preorder) : (ofVisit options path source v).Pairwise FoundBefore := by
  rw [ofVisit]
  split
  · exact List.pairwise_singleton _ _
  · rename_i c hc
    have hbelow := v.2.memberNodes_sublist_preorder.trans (Node.preorder_sublist hv)
    refine List.pairwise_filterMap.mpr ((h.sublist hbelow).imp fun {m n} hmn a ha b hb => ?_)
    obtain ⟨s, hs, rfl⟩ := Option.map_eq_some_iff.mp ha
    obtain ⟨s', hs', rfl⟩ := Option.map_eq_some_iff.mp hb
    refine .inr ⟨rfl, hmn ?_ ?_⟩
    · rw [Member.kind_of_symbol? hs]
      rfl
    · rw [Member.kind_of_symbol? hs']
      rfl
  · exact .nil
  · exact .nil

end Site

namespace Syntax.SyntaxTree

variable {options : ExtractOptions} {t : SyntaxTree}

/-- The sites are those of the symbols of the tree. -/
theorem map_symbol_sites (t : SyntaxTree) (options : ExtractOptions) :
    (t.sites options).map Site.symbol = t.symbols options := by
  rw [symbols_eq_flatMap, declarations, sites, List.map_flatMap]
  generalize Visit.all none t.root = visits
  induction visits with
  | nil => rfl
  | cons v visits ih =>
    obtain ⟨parent, n⟩ := v
    rw [List.flatMap_cons, ih, Site.map_symbol_ofVisit]
    cases h : Declaration.ofNode? t.source.toList parent n with
    | none => simp [h]
    | some d => simp [h]

theorem of_mem_sites {a : Site} (ha : a ∈ t.sites options) :
    a.declaration ∈ t.root.preorder ∧ a.declaration.kind.isDefinition = true ∧
      a.node ∈ a.declaration.preorder ∧ a.node.kind.isDefinition = true := by
  obtain ⟨v, hv, ha⟩ := List.mem_flatMap.mp ha
  have hnode := Visit.mem_preorder hv
  obtain ⟨hdeclaration, hsite⟩ := Site.of_mem_ofVisit ha
  rw [hdeclaration]
  exact ⟨hnode, hsite⟩

/-- **Symbols are found in the order in which the declarations start that give them**, and those
that one class gives in the order in which its methods start. -/
theorem pairwise_sites (h : t.root.Increasing) : (t.sites options).Pairwise Site.FoundBefore := by
  rw [sites, List.pairwise_flatMap]
  refine ⟨fun v hv => Site.pairwise_ofVisit h (Visit.mem_preorder hv), ?_⟩
  have hvisits := List.pairwise_map.mp (h.sublist (Visit.sublist_preorder none t.root))
  refine hvisits.imp_of_mem fun {v w} hv hw hvw a ha b hb => .inl ?_
  obtain ⟨hadecl, hadef, -, -⟩ := Site.of_mem_ofVisit ha
  obtain ⟨hbdecl, hbdef, -, -⟩ := Site.of_mem_ofVisit hb
  rw [hadecl, hbdecl]
  exact hvw hadef hbdef

end Syntax.SyntaxTree

end SymbolIndex
