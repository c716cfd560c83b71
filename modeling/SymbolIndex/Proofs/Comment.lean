import Mathlib.Data.List.Forall2
import SymbolIndex.Proofs.Extraction
import SymbolIndex.Proofs.Registry.File
import SymbolIndex.Proofs.Syntax.Fault
import SymbolIndex.Proofs.Syntax.Outline

/-!
# Comments give no symbols and take none away

A comment may stand between any two parts of a construct, and then it is a child of the construct
like the others. `Node.Commented` relates a tree to the trees that have comments put in, anywhere but
in the heritage clause of a class, where a comment would be taken for the superclass. The invariant
is that every reader of a node passes over comments: what is looked for among the children of the two
nodes are related nodes again (`Node.CommentedAll.filter`). So related nodes declare the same, but
for the line (`Node.Commented.declared`), and the two trees have nodes of the same kinds in the same
order, but for the comments (`Node.Commented.kinds`).

- `SyntaxTree.comments_keep_symbols`: the symbols of the two trees, how they are found one by one,
  and what becomes of them in a registry are the same; and the search for markup refuses both trees
  or none.
-/

namespace SymbolIndex

namespace Syntax

/-! ### Trees with comments put in -/

namespace Node

/-- A comment: a leaf without a role. -/
structure IsComment (c : Node) : Prop where
  kind : c.kind = .comment
  field : c.field = none
  children : c.children = []

/-- Whether the text of a node is taken for a name: it is in the role of one, or it names a
superclass. -/
def IsName (parent : Option Kind) (n : Node) : Prop :=
  n.field = some .name ∨ parent = some .classHeritage ∧ n.kind = .identifier

instance (parent : Option Kind) (n : Node) : Decidable (n.IsName parent) :=
  inferInstanceAs (Decidable (_ ∨ _ ∧ _))

section
variable (source source' : List Char)

mutual

/-- The second node, in the text `source'`, is the first one with comments put in below it. It may
stand elsewhere, but what is taken for a name is the same text in both. -/
inductive Commented : Option Kind → Node → Node → Prop
  | node {parent : Option Kind} {n n' : Node} (kind : n'.kind = n.kind) (field : n'.field = n.field)
      (missing : n'.missing = n.missing)
      (text : n.IsName parent → n'.chars source' = n.chars source)
      (children : CommentedAll n.kind n.children n'.children) : Commented parent n n'

/-- The second nodes are the first ones with comments put in between them and below them. -/
inductive CommentedAll : Kind → List Node → List Node → Prop
  | nil {parent : Kind} : CommentedAll parent [] []
  | cons {parent : Kind} {n n' : Node} {ns ns' : List Node} (head : Commented (some parent) n n')
      (tail : CommentedAll parent ns ns') : CommentedAll parent (n :: ns) (n' :: ns')
  | comment {parent : Kind} {c : Node} {ns ns' : List Node} (place : parent ≠ .classHeritage)
      (head : c.IsComment) (tail : CommentedAll parent ns ns') : CommentedAll parent ns (c :: ns')

end

end

variable {source source' : List Char} {parent : Option Kind} {k : Kind} {n n' : Node}
  {ns ns' : List Node}

theorem Commented.kind_eq : Commented source source' parent n n' → n'.kind = n.kind
  | .node kind _ _ _ _ => kind

theorem Commented.field_eq : Commented source source' parent n n' → n'.field = n.field
  | .node _ field _ _ _ => field

theorem Commented.isNamed_eq (h : Commented source source' parent n n') :
    n'.isNamed = n.isNamed := by
  rw [isNamed, h.kind_eq, isNamed]

theorem Commented.text_eq (h : Commented source source' parent n n') (hname : n.IsName parent) :
    n'.text source' = n.text source := by
  cases h with
  | node _ _ _ text _ => rw [Node.text, text hname, Node.text]

theorem Commented.commentedAll : Commented source source' parent n n' →
    CommentedAll source source' n.kind n.children n'.children
  | .node _ _ _ _ children => children

/-! ### What is looked for among the children -/

/-- Nodes that are chosen for something that comments do not have are related one by one. In a
heritage clause there are no comments to pass over. -/
theorem CommentedAll.filter {p : Node → Bool} (h : CommentedAll source source' k ns ns')
    (hp : ∀ {m m' : Node}, Commented source source' (some k) m m' → p m' = p m)
    (hcomment : k ≠ .classHeritage → ∀ c : Node, c.IsComment → p c = false) :
    List.Forall₂ (Commented source source' (some k)) (ns.filter p) (ns'.filter p) := by
  induction ns' generalizing ns with
  | nil =>
    cases h
    exact .nil
  | cons n' ns' ih =>
    cases h with
    | cons head tail =>
      rw [List.filter_cons, List.filter_cons, hp head]
      split
      · exact .cons head (ih tail)
      · exact ih tail
    | comment place hc tail =>
      rw [List.filter_cons, hcomment place _ hc]
      exact ih tail

/-- Looking for something that comments do not have finds nothing below either node, or related
nodes. -/
theorem Commented.find?_cases {p : Node → Bool} (h : Commented source source' parent n n')
    (hp : ∀ {m m' : Node}, Commented source source' (some n.kind) m m' → p m' = p m)
    (hcomment : n.kind ≠ .classHeritage → ∀ c : Node, c.IsComment → p c = false) :
    n.children.find? p = none ∧ n'.children.find? p = none ∨
      ∃ m m', n.children.find? p = some m ∧ n'.children.find? p = some m' ∧
        Commented source source' (some n.kind) m m' := by
  rw [← List.head?_filter, ← List.head?_filter]
  have hfilter := h.commentedAll.filter hp hcomment
  generalize n.children.filter p = ms at hfilter ⊢
  generalize n'.children.filter p = ms' at hfilter ⊢
  cases hfilter with
  | nil => exact .inl ⟨rfl, rfl⟩
  | cons head _ => exact .inr ⟨_, _, rfl, rfl, head⟩

theorem Commented.child?_cases (h : Commented source source' parent n n') (f : Field) :
    n.child? f = none ∧ n'.child? f = none ∨
      ∃ m m', n.child? f = some m ∧ n'.child? f = some m' ∧ m.field = some f ∧
        Commented source source' (some n.kind) m m' := by
  rcases h.find?_cases (p := (·.field = some f)) (fun hm => by rw [hm.field_eq])
    (fun _ c hc => by simp [hc.field]) with hnone | ⟨m, m', hm, hm', hrel⟩
  · exact .inl hnone
  · exact .inr ⟨m, m', hm, hm', by simpa using List.find?_some hm, hrel⟩

/-- What is computed from the children one by one, comments making no difference, is the same. -/
theorem CommentedAll.foldl {β : Type} {step : β → Node → β}
    (h : CommentedAll source source' k ns ns')
    (hstep : ∀ (b : β) {m m' : Node}, Commented source source' (some k) m m' →
      step b m' = step b m)
    (hcomment : ∀ (b : β) (c : Node), c.IsComment → step b c = b) (b : β) :
    ns'.foldl step b = ns.foldl step b := by
  induction ns' generalizing ns b with
  | nil =>
    cases h
    rfl
  | cons n' ns' ih =>
    cases h with
    | cons head tail =>
      rw [List.foldl_cons, List.foldl_cons, hstep b head]
      exact ih tail _
    | comment place hc tail =>
      rw [List.foldl_cons, hcomment b _ hc]
      exact ih tail b

theorem Commented.hasModifier (h : Commented source source' parent n n') (w : Keyword) :
    n'.hasModifier w = n.hasModifier w := by
  rw [Node.hasModifier, Node.hasModifier, ← List.isSome_find?, ← List.isSome_find?]
  rcases h.find?_cases (p := (·.kind = .word w)) (fun hm => by rw [hm.kind_eq])
    (fun _ c hc => by simp [hc.kind]) with ⟨hnone, hnone'⟩ | ⟨m, m', hm, hm', -⟩
  · rw [hnone, hnone']
  · rw [hm, hm']
    rfl

end Node

/-! ### Declarations without their places -/

/-- The method without its line. -/
def Method.unplaced (m : Method) : Method := { m with line := 0 }

/-- The member without its line. -/
def Member.unplaced : Member → Member
  | .method m => .method m.unplaced
  | .other => .other

/-- The declaration without lines. -/
def Declaration.unplaced : Declaration → Declaration
  | .classDeclaration c =>
    .classDeclaration { c with members := c.members.map Member.unplaced, line := 0 }
  | .functionDeclaration f => .functionDeclaration { f with line := 0 }
  | .malformed kind nameless _ => .malformed kind nameless 0

/-- What a node declares on its visit, without lines. -/
def Visit.declared? (source : List Char) (v : Visit) : Option Declaration :=
  (Declaration.ofNode? source v.1 v.2).map Declaration.unplaced

/-- Symbols do not tell where they are declared. -/
theorem Declaration.symbols_unplaced (options : ExtractOptions) (path : Path) (d : Declaration) :
    d.unplaced.symbols options path = d.symbols options path := by
  cases d with
  | functionDeclaration f => rfl
  | malformed kind nameless line => rfl
  | classDeclaration c =>
    show (c.members.map Member.unplaced).filterMap _ = c.members.filterMap _
    rw [List.filterMap_map]
    refine congrArg (c.members.filterMap ·) (funext fun member => ?_)
    cases member <;> rfl

namespace Node

variable {source source' : List Char} {parent : Option Kind} {k : Kind} {n n' : Node}
  {ns ns' : List Node}

theorem Commented.methodKind (h : Commented source source' parent n n') (key : MemberKey) :
    MethodKind.ofNode n' key = MethodKind.ofNode n key := by
  rw [MethodKind.ofNode, MethodKind.ofNode, h.hasModifier, h.commentedAll.foldl]
  · intro kind m m' hm
    rw [hm.kind_eq]
  · intro kind c hc
    simp [hc.kind]

theorem Commented.key (h : Commented source source' parent n n') (hname : n.field = some .name) :
    MemberKey.ofNode source' n' = MemberKey.ofNode source n := by
  rw [MemberKey.ofNode, MemberKey.ofNode, h.kind_eq, h.text_eq (.inl hname)]

/-- The two nodes define the same method, if any, but for its line. -/
theorem Commented.method (h : Commented source source' parent n n') :
    (Method.ofNode? source' n').map Method.unplaced =
      (Method.ofNode? source n).map Method.unplaced := by
  rw [Method.ofNode?, Method.ofNode?]
  rcases h.child?_cases .name with ⟨hnone, hnone'⟩ | ⟨m, m', hm, hm', hfield, hrel⟩
  · rw [hnone, hnone']
    rfl
  · rw [hm, hm']
    simp [hrel.key hfield, h.hasModifier, h.methodKind, Method.unplaced]

theorem Commented.member (h : Commented source source' parent n n') :
    (Member.ofNode source' n').unplaced = (Member.ofNode source n).unplaced := by
  rw [Member.ofNode, Member.ofNode, h.kind_eq]
  have hmethod := h.method
  by_cases hkind : n.kind = .methodDefinition
  · rw [if_pos hkind, if_pos hkind]
    cases hm : Method.ofNode? source n <;> cases hm' : Method.ofNode? source' n' <;>
      simp_all [Member.unplaced]
  · rw [if_neg hkind, if_neg hkind]

/-- What is read off related nodes alike is the same list. -/
theorem map_eq_of_forall₂ {β : Type} {R : Node → Node → Prop} {f f' : Node → β}
    (hf : ∀ {m m' : Node}, R m m' → f' m' = f m) (h : List.Forall₂ R ns ns') :
    ns'.map f' = ns.map f := by
  induction h with
  | nil => rfl
  | cons head _ ih => rw [List.map_cons, List.map_cons, hf head, ih]

/-- Comments in the body of a class are no members. -/
theorem Commented.members (h : Commented source source' parent n n') :
    (n'.members source').map Member.unplaced = (n.members source).map Member.unplaced := by
  rw [Node.members, Node.members]
  rcases h.child?_cases .body with ⟨hnone, hnone'⟩ | ⟨m, m', hm, hm', -, hrel⟩
  · rw [hnone, hnone']
  · rw [hm, hm']
    dsimp only
    rw [List.map_map, List.map_map, namedChildren, namedChildren, List.filter_filter,
      List.filter_filter]
    refine map_eq_of_forall₂ (fun hmember => hmember.member) (hrel.commentedAll.filter ?_ ?_)
    · intro c c' hc
      rw [hc.kind_eq, hc.isNamed_eq]
    · intro _ c hc
      simp [hc.kind]

theorem Commented.heritage_cases (h : Commented source source' parent n n') :
    n.namedChildren.find? (·.kind = .classHeritage) = none ∧
        n'.namedChildren.find? (·.kind = .classHeritage) = none ∨
      ∃ m m', n.namedChildren.find? (·.kind = .classHeritage) = some m ∧
        n'.namedChildren.find? (·.kind = .classHeritage) = some m' ∧ m.kind = .classHeritage ∧
        Commented source source' (some n.kind) m m' := by
  rw [namedChildren, namedChildren, List.find?_filter, List.find?_filter]
  rcases h.find?_cases (p := fun m => m.isNamed = true ∧ decide (m.kind = .classHeritage) = true)
    (fun hm => by rw [hm.kind_eq, hm.isNamed_eq])
    (fun _ c hc => by simp [hc.kind]) with hnone | ⟨m, m', hm, hm', hrel⟩
  · exact .inl hnone
  · have hkind := List.find?_some hm
    simp only [decide_eq_true_eq] at hkind
    exact .inr ⟨m, m', hm, hm', hkind.2, hrel⟩

/-- Comments do not come into a heritage clause, so it starts with the same construct. -/
theorem Commented.parent_cases (h : Commented source source' parent n n')
    (hkind : n.kind = .classHeritage) :
    n.namedChildren.head? = none ∧ n'.namedChildren.head? = none ∨
      ∃ m m', n.namedChildren.head? = some m ∧ n'.namedChildren.head? = some m' ∧
        Commented source source' (some .classHeritage) m m' := by
  rw [namedChildren, namedChildren, List.head?_filter, List.head?_filter, ← hkind]
  exact h.find?_cases (fun hm => hm.isNamed_eq) fun hne => absurd hkind hne

theorem Commented.superclass? (h : Commented source source' parent n n') :
    n'.superclass? source' = n.superclass? source := by
  rw [Node.superclass?, Node.superclass?]
  rcases h.heritage_cases with ⟨hnone, hnone'⟩ | ⟨m, m', hm, hm', hkind, hrel⟩
  · rw [hnone, hnone']
    rfl
  simp only [hm, hm', Option.bind_eq_bind, Option.bind_some]
  rcases hrel.parent_cases hkind with ⟨hnone, hnone'⟩ | ⟨s, s', hs, hs', hparent⟩
  · rw [hnone, hnone']
    rfl
  rw [hs, hs', Option.bind_some, Option.bind_some, hparent.kind_eq]
  by_cases hname : s.kind = .identifier
  · rw [if_pos hname, if_pos hname, hparent.text_eq (.inr ⟨rfl, hname⟩)]
  · rw [if_neg hname, if_neg hname]

theorem Commented.ofClass (h : Commented source source' parent n n') :
    (Declaration.ofClass source' n').unplaced = (Declaration.ofClass source n).unplaced := by
  rw [Declaration.ofClass, Declaration.ofClass]
  rcases h.child?_cases .name with ⟨hnone, hnone'⟩ | ⟨m, m', hm, hm', hfield, hrel⟩
  · rw [hnone, hnone', h.kind_eq]
    rfl
  · rw [hm, hm']
    simp only [Declaration.unplaced, hrel.text_eq (.inl hfield), h.superclass?, h.members]

theorem Commented.ofFunction (h : Commented source source' parent n n') :
    (Declaration.ofFunction source' n').unplaced =
      (Declaration.ofFunction source n).unplaced := by
  rw [Declaration.ofFunction, Declaration.ofFunction]
  rcases h.child?_cases .name with ⟨hnone, hnone'⟩ | ⟨m, m', hm, hm', hfield, hrel⟩
  · rw [hnone, hnone', h.kind_eq]
    rfl
  · rw [hm, hm']
    simp only [Declaration.unplaced, hrel.text_eq (.inl hfield), h.kind_eq]

/-- The two nodes declare the same, if anything, but for lines. -/
theorem Commented.declared (h : Commented source source' parent n n') :
    Visit.declared? source' (parent, n') = Visit.declared? source (parent, n) := by
  show (Declaration.ofNode? source' parent n').map Declaration.unplaced =
    (Declaration.ofNode? source parent n).map Declaration.unplaced
  rw [Declaration.ofNode?, Declaration.ofNode?, h.kind_eq]
  have hclass : (some (Declaration.ofClass source' n')).map Declaration.unplaced =
      (some (Declaration.ofClass source n)).map Declaration.unplaced :=
    congrArg some h.ofClass
  have hfunction : (some (Declaration.ofFunction source' n')).map Declaration.unplaced =
      (some (Declaration.ofFunction source n)).map Declaration.unplaced :=
    congrArg some h.ofFunction
  split
  · exact hclass
  · exact hfunction
  · exact hfunction
  · split
    · exact hclass
    · rfl
  · split
    · exact hfunction
    · rfl
  · split
    · exact hfunction
    · rfl
  · rfl

/-! ### Whole trees -/

theorem IsComment.declared {c : Node} (h : c.IsComment) :
    Visit.declared? source (parent, c) = none := by
  rw [Visit.declared?, Declaration.ofNode?, h.kind]
  rfl

theorem IsComment.preorder {c : Node} (h : c.IsComment) : c.preorder = [c] := by
  rw [preorder_eq, h.children, preorderAll]

theorem all_eq (parent : Option Kind) (n : Node) :
    Visit.all parent n = (parent, n) :: Visit.allNamed n.kind n.children := by
  obtain ⟨kind, field, missing, start, stop, children⟩ := n
  rw [Visit.all]

theorem IsComment.all {c : Node} (h : c.IsComment) : Visit.all parent c = [(parent, c)] := by
  rw [all_eq, h.children, Visit.allNamed]

mutual

/-- The two trees have the same declarations, but for lines. -/
theorem Commented.declarations {parent : Option Kind} {n n' : Node} :
    Commented source source' parent n n' →
      (Visit.all parent n').filterMap (Visit.declared? source') =
        (Visit.all parent n).filterMap (Visit.declared? source)
  | .node kind field missing text children => by
    have hself := (Commented.node kind field missing text children).declared
    rw [all_eq, all_eq, List.filterMap_cons, List.filterMap_cons, hself, kind,
      CommentedAll.declarations children]

theorem CommentedAll.declarations {k : Kind} {ns ns' : List Node} :
    CommentedAll source source' k ns ns' →
      (Visit.allNamed k ns').filterMap (Visit.declared? source') =
        (Visit.allNamed k ns).filterMap (Visit.declared? source)
  | .nil => rfl
  | .cons head tail => by
    rw [Visit.allNamed, Visit.allNamed, head.isNamed_eq]
    split
    · rw [List.filterMap_append, List.filterMap_append, Commented.declarations head,
        CommentedAll.declarations tail]
    · exact CommentedAll.declarations tail
  | .comment _ hc tail => by
    -- A comment is visited like every named node, and declares nothing.
    have hnamed : Node.isNamed _ = true := congrArg Kind.isNamed hc.kind
    rw [Visit.allNamed, if_pos hnamed, hc.all, List.singleton_append,
      List.filterMap_cons_none hc.declared, CommentedAll.declarations tail]

end

mutual

/-- The two trees have nodes of the same kinds, but for comments. -/
theorem Commented.kinds {parent : Option Kind} {n n' : Node} :
    Commented source source' parent n n' →
      (n'.preorder.map kind).filter (· ≠ .comment) = (n.preorder.map kind).filter (· ≠ .comment)
  | .node hkind _ _ _ children => by
    rw [preorder_eq, preorder_eq, List.map_cons, List.map_cons, List.filter_cons,
      List.filter_cons, hkind, CommentedAll.kinds children]

theorem CommentedAll.kinds {k : Kind} {ns ns' : List Node} :
    CommentedAll source source' k ns ns' →
      ((preorderAll ns').map kind).filter (· ≠ .comment) =
        ((preorderAll ns).map kind).filter (· ≠ .comment)
  | .nil => rfl
  | .cons head tail => by
    rw [preorderAll, preorderAll, List.map_append, List.map_append, List.filter_append,
      List.filter_append, Commented.kinds head, CommentedAll.kinds tail]
  | .comment _ hc tail => by
    rw [preorderAll, List.map_append, List.filter_append, hc.preorder, List.map_singleton, hc.kind,
      CommentedAll.kinds tail]
    rfl

end

/-- The first markup node is of the same kind. -/
theorem Commented.firstMarkup? (h : Commented source source' parent n n') :
    n'.firstMarkup?.map kind = n.firstMarkup?.map kind := by
  have hkinds : ∀ ns : List Node, (ns.find? (·.kind.isMarkup)).map kind =
      ((ns.map kind).filter (· ≠ .comment)).find? Kind.isMarkup := by
    intro ns
    rw [List.find?_filter, List.find?_map]
    refine congrArg (fun p => (ns.find? p).map kind) (funext fun m => ?_)
    cases hm : m.kind.isMarkup with
    | false => simp [hm]
    | true =>
      have hne : m.kind ≠ .comment := fun hc => by
        rw [hc] at hm
        exact absurd hm (by decide +kernel)
      simp [hm, hne]
  rw [firstMarkup?_eq, firstMarkup?_eq, hkinds, hkinds, h.kinds]

end Node

namespace SyntaxTree

/-- The second tree is the first one with comments put in. -/
structure Commented (t t' : SyntaxTree) : Prop where
  path : t'.path = t.path
  root : Node.Commented t.source.toList t'.source.toList none t.root t'.root

variable {t t' : SyntaxTree}

theorem Commented.declarations (h : t.Commented t') :
    t'.declarations.map Declaration.unplaced = t.declarations.map Declaration.unplaced := by
  rw [SyntaxTree.declarations, SyntaxTree.declarations, List.map_filterMap, List.map_filterMap]
  exact h.root.declarations

theorem Commented.symbols (h : t.Commented t') (options : ExtractOptions) :
    t'.symbols options = t.symbols options := by
  have hunplaced : ∀ ds : List Declaration, ds.flatMap (Declaration.symbols options t.path) =
      (ds.map Declaration.unplaced).flatMap (Declaration.symbols options t.path) := by
    intro ds
    rw [List.flatMap_map]
    exact congrArg (ds.flatMap ·) (funext fun d => (d.symbols_unplaced options t.path).symm)
  rw [symbols_eq_flatMap, symbols_eq_flatMap, h.path, hunplaced, h.declarations, ← hunplaced]

/-- **Comments make no difference.** A tree and the same tree with comments put in, anywhere but in
heritage clauses, have the same symbols in the same order, also one by one; the search for markup
finds something in both or in neither; and both give the same registry of a file, or the same
error. -/
theorem comments_keep_symbols (h : t.Commented t') (options : ExtractOptions) :
    t'.symbols options = t.symbols options ∧
      (∀ n, ((SymbolStream.ofTree t' options).calls n).value =
        ((SymbolStream.ofTree t options).calls n).value) ∧
      (t'.root.firstMarkup? = none ↔ t.root.firstMarkup? = none) ∧
      ∀ policy, FileRegistry.ofSymbols t'.path policy (t'.symbols options) =
        FileRegistry.ofSymbols t.path policy (t.symbols options) := by
  refine ⟨h.symbols options, fun n => ?_, ?_, fun policy => ?_⟩
  · rw [SymbolStream.value_calls, SymbolStream.value_calls, SymbolStream.remaining_ofTree,
      SymbolStream.remaining_ofTree, ← symbols_eq_flatMap, ← symbols_eq_flatMap, h.symbols]
  · rw [← Option.map_eq_none_iff, h.root.firstMarkup?, Option.map_eq_none_iff]
  · rw [h.path, h.symbols]

/-- A class with a comment in front of it, one before its heritage clause, one in its body and one in
a method. -/
theorem comments_keep_symbols_of_class :
    let node (kind : Kind) (start stop : Nat) (children : List Node) : Node :=
      .branch kind ⟨start, 0, start⟩ ⟨stop, 0, stop⟩ children
    let bare : SyntaxTree := ⟨node .program 0 24 [node .classDeclaration 0 24 [
        node (.word .classWord) 0 5 [],
        (node .identifier 6 7 []).as .name,
        node .classHeritage 8 17 [node (.word .extendsWord) 8 15 [], node .identifier 16 17 []],
        (node .classBody 17 24 [
          node (.mark "\x7b") 17 18 [],
          node .methodDefinition 18 23 [
            (node .propertyIdentifier 18 19 []).as .name,
            node .formalParameters 19 21 [node (.mark "(") 19 20 [], node (.mark ")") 20 21 []],
            (node .statementBlock 21 23 [
              node (.mark "\x7b") 21 22 [], node (.mark "\x7d") 22 23 []]).as .body],
          node (.mark "\x7d") 23 24 []]).as .body]],
      "class A extends B\x7bm()\x7b\x7d\x7d", "a.js"⟩
    let annotated : SyntaxTree := ⟨node .program 0 40 [
        node .comment 0 4 [],
        node .classDeclaration 4 40 [
          node (.word .classWord) 4 9 [],
          (node .identifier 10 11 []).as .name,
          node .comment 11 15 [],
          node .classHeritage 16 25 [
            node (.word .extendsWord) 16 23 [], node .identifier 24 25 []],
          (node .classBody 25 40 [
            node (.mark "\x7b") 25 26 [],
            node .comment 26 30 [],
            node .methodDefinition 30 39 [
              (node .propertyIdentifier 30 31 []).as .name,
              node .comment 31 35 [],
              node .formalParameters 35 37 [node (.mark "(") 35 36 [], node (.mark ")") 36 37 []],
              (node .statementBlock 37 39 [
                node (.mark "\x7b") 37 38 [], node (.mark "\x7d") 38 39 []]).as .body],
            node (.mark "\x7d") 39 40 []]).as .body]],
      "/**/class A/**/ extends B\x7b/**/m/**/()\x7b\x7d\x7d", "a.js"⟩
    bare.Commented annotated ∧
      annotated.symbols .standard = bare.symbols .standard ∧
      bare.symbols .standard = [⟨"m", some "A", false, some "B", "a.js"⟩] := by
  intro node bare annotated
  have h : bare.Commented annotated := by
    refine ⟨rfl, .node rfl rfl rfl (by decide) ?_⟩
    repeat' first
      | exact .nil
      | refine .comment (by decide) ⟨rfl, rfl, rfl⟩ ?_
      | refine .cons (.node rfl rfl rfl (by decide) ?_) ?_
  exact ⟨h, (comments_keep_symbols h _).1, by decide +kernel⟩

end SyntaxTree

end Syntax

end SymbolIndex
