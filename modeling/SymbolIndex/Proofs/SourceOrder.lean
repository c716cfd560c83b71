import SymbolIndex.Proofs.JavaScript.Program
import SymbolIndex.Proofs.Site
import SymbolIndex.Proofs.Syntax.Declaration

/-!
# Declarations come in source order

A traversal answers with the declarations in the pre-order of the tree, each with the line on which
its node starts. So the lines go up if those of the definitions do, along the pre-order
(`Node.LinesGoUp`). There are two reasons for which they do:

- the tree is ordered: a node starts no earlier than its parent, and no earlier than what stands in
  the siblings in front of it (`Node.Ordered.pairwise_preorder`);
- the tree is that of an accepted text: the definitions start one after the other, and a place has no
  more lines in front of it than a later one (`Placed.linesGoUp`).

`Traversal.inSourceOrder_take` is the result for both. For a tree that is no text's it would not do to
compare a node with the siblings in front of it alone (`Traversal.not_inSourceOrder_take`).
-/

namespace SymbolIndex.Syntax

namespace Position

variable {p q r : Position}

/-- The place is not behind the other one. -/
def NotAfter (p q : Position) : Prop := p.line < q.line ∨ p.line = q.line ∧ p.column ≤ q.column

instance (p q : Position) : Decidable (p.NotAfter q) := inferInstanceAs (Decidable (_ ∨ _))

theorem NotAfter.refl (p : Position) : p.NotAfter p := .inr ⟨rfl, Nat.le_refl _⟩

theorem NotAfter.trans (h : p.NotAfter q) (h' : q.NotAfter r) : p.NotAfter r := by
  unfold NotAfter at *
  omega

theorem NotAfter.line_le (h : p.NotAfter q) : p.line ≤ q.line := by
  unfold NotAfter at h
  omega

end Position

namespace Node

/-! ### Ordered trees -/

/-- Every child starts no earlier than its parent, and no earlier than anything that stands in the
siblings in front of it. -/
def Ordered (root : Node) : Prop :=
  ∀ n ∈ root.preorder, (∀ c ∈ n.children, n.start.NotAfter c.start) ∧
    n.children.Pairwise fun before c => ∀ m ∈ before.preorder, m.start.NotAfter c.start

instance (root : Node) : Decidable root.Ordered :=
  inferInstanceAs (Decidable (∀ n ∈ root.preorder, _))

/-- Every child starts no earlier than its parent, and no earlier than the siblings in front of it,
whatever stands in these. -/
def StartsInOrder (root : Node) : Prop :=
  ∀ n ∈ root.preorder, (∀ c ∈ n.children, n.start.NotAfter c.start) ∧
    n.children.Pairwise fun before c => before.start.NotAfter c.start

instance (root : Node) : Decidable root.StartsInOrder :=
  inferInstanceAs (Decidable (∀ n ∈ root.preorder, _))

/-- The first node starts no later than the second. -/
def StartsNotAfter (m n : Node) : Prop := m.start.NotAfter n.start

theorem Ordered.part {root n : Node} (h : root.Ordered) (hn : n ∈ root.preorder) : n.Ordered :=
  fun m hm => h m (mem_preorder_trans hm hn)

/-- What the trees are in order after comes before everything in them. -/
theorem notAfter_of_mem_preorderAll {p : Position} {ns : List Node}
    (hns : ∀ n ∈ ns, n.preorder.Pairwise StartsNotAfter) (h : ∀ n ∈ ns, p.NotAfter n.start) :
    ∀ m ∈ preorderAll ns, p.NotAfter m.start := by
  induction ns with
  | nil =>
    rw [preorderAll]
    simp
  | cons n ns ih =>
    rw [List.forall_mem_cons] at hns h
    rw [preorderAll]
    refine List.forall_mem_append.mpr ⟨fun m hm => h.1.trans ?_, ih hns.2 h.2⟩
    have hbelow := hns.1
    rw [preorder_eq, List.pairwise_cons] at hbelow
    rcases mem_preorder_iff.mp hm with rfl | hinside
    · exact .refl _
    · exact hbelow.1 m hinside

mutual

/-- The nodes of an ordered tree start one after the other in pre-order. -/
theorem Ordered.pairwise_preorder : ∀ {root : Node}, root.Ordered →
    root.preorder.Pairwise StartsNotAfter
  | ⟨kind, field, missing, start, stop, children⟩ => by
    intro h
    have hself := h _ (mem_preorder_self _)
    have hchildren : ∀ n ∈ children, n.Ordered :=
      fun n hn => h.part (mem_preorder_of_mem_children hn)
    have hall := pairwise_preorderAll children hchildren hself.2
    rw [preorder, List.pairwise_cons]
    exact ⟨notAfter_of_mem_preorderAll hall.1 hself.1, hall.2⟩

/-- The trees one by one, and all of them one after the other. -/
theorem pairwise_preorderAll : ∀ ns : List Node, (∀ n ∈ ns, n.Ordered) →
    (ns.Pairwise fun before n => ∀ m ∈ before.preorder, m.start.NotAfter n.start) →
      (∀ n ∈ ns, n.preorder.Pairwise StartsNotAfter) ∧
        (preorderAll ns).Pairwise StartsNotAfter
  | [] => by
    intro _ _
    rw [preorderAll]
    exact ⟨by simp, .nil⟩
  | n :: ns => by
    intro hns h
    rw [List.forall_mem_cons] at hns
    rw [List.pairwise_cons] at h
    have hn := hns.1.pairwise_preorder
    obtain ⟨hlater, hall⟩ := pairwise_preorderAll ns hns.2 h.2
    refine ⟨List.forall_mem_cons.mpr ⟨hn, hlater⟩, ?_⟩
    rw [preorderAll]
    -- What stands in the first tree comes before the later siblings, and so before what is in them.
    exact List.pairwise_append.mpr ⟨hn, hall, fun m hm =>
      notAfter_of_mem_preorderAll hlater fun l hl => h.1 l hl m hm⟩

end

/-! ### The lines of definitions -/

/-- Of two definitions the first starts on no later line. -/
def LineLe (m n : Node) : Prop :=
  m.kind.isDefinition = true → n.kind.isDefinition = true → m.start.line ≤ n.start.line

/-- The lines on which the definitions start go up along the pre-order. -/
def LinesGoUp (root : Node) : Prop := root.preorder.Pairwise LineLe

theorem Ordered.linesGoUp {root : Node} (h : root.Ordered) : root.LinesGoUp :=
  h.pairwise_preorder.imp fun {_ _} hmn _ _ => hmn.line_le

end Node

theorem Placed.linesGoUp {source : List Char} {lo hi : Nat} {root : Node}
    (h : Placed source lo hi root.outline) : root.LinesGoUp := by
  have hlines : root.outline.Pairwise fun d e => d.start.line ≤ e.start.line :=
    h.increasing.imp_of_mem fun {d e} hd he hlt =>
      (h.isIn d hd).line_le (h.isIn e he) (Nat.le_of_lt hlt)
  refine (List.pairwise_filterMap.mp hlines).imp fun {m n} hmn hm hn => ?_
  obtain ⟨sort, hsort⟩ := Kind.sort?_of_isDefinition hm
  obtain ⟨sort', hsort'⟩ := Kind.sort?_of_isDefinition hn
  exact hmn _ (Node.definition?_of_sort? hsort) _ (Node.definition?_of_sort? hsort')

/-! ### The lines of declarations -/

/-- The line of a declaration, from one. -/
def Declaration.line : Declaration → Nat
  | .classDeclaration c => c.line
  | .functionDeclaration f => f.line
  | .malformed _ _ line => line

/-- The member as a method. -/
def Member.method? : Member → Option Method
  | .method m => some m
  | .other => none

/-- The lines of the declarations go up from the first to the last, and so do the lines of the
methods in each class. -/
structure InSourceOrder (ds : List Declaration) : Prop where
  declarations : ds.Pairwise (·.line ≤ ·.line)
  methods : ∀ c, .classDeclaration c ∈ ds →
    (c.members.filterMap Member.method?).Pairwise (·.line ≤ ·.line)

theorem InSourceOrder.sublist {ds es : List Declaration} (h : InSourceOrder ds)
    (hsub : es.Sublist ds) : InSourceOrder es where
  declarations := h.declarations.sublist hsub
  methods c hc := h.methods c (hsub.subset hc)

section Lines

variable {source : List Char} {parent : Option Kind} {n : Node}

/-- A declaration has the line on which its node starts. -/
theorem Declaration.line_of_ofNode? {d : Declaration} (h : ofNode? source parent n = some d) :
    d.line = n.lineNumber := by
  rcases ofNode?_cases h with rfl | rfl
  · rw [ofClass]
    split <;> rfl
  · rw [ofFunction]
    split <;> rfl

theorem Method.line_of_ofNode? {m : Method} (h : ofNode? source n = some m) :
    m.line = n.lineNumber := by
  rw [ofNode?] at h
  cases hname : n.child? .name with
  | none =>
    rw [hname] at h
    cases h
  | some name =>
    rw [hname] at h
    cases h
    rfl

/-- The methods of a class have the lines on which their nodes start. -/
theorem Node.LinesGoUp.pairwise_methods {root : Node} (h : root.LinesGoUp)
    (hn : n ∈ root.preorder) :
    ((n.members source).filterMap Member.method?).Pairwise (·.line ≤ ·.line) := by
  have hbelow := n.memberNodes_sublist_preorder.trans (preorder_sublist hn)
  have hmethod : ∀ {node : Node} {m : Method}, (Member.ofNode source node).method? = some m →
      node.kind.isDefinition = true ∧ m.line = node.lineNumber := by
    intro node m hm
    cases hmember : Member.ofNode source node with
    | other =>
      rw [hmember] at hm
      cases hm
    | method m' =>
      rw [hmember] at hm
      cases hm
      obtain ⟨hkind, hm⟩ := Member.ofNode?_of_ofNode hmember
      rw [hkind]
      exact ⟨rfl, Method.line_of_ofNode? hm⟩
  rw [members_eq, List.filterMap_map]
  refine List.pairwise_filterMap.mpr ((h.sublist hbelow).imp fun {k l} hkl a ha b hb => ?_)
  obtain ⟨hk, hline⟩ := hmethod ha
  obtain ⟨hl, hline'⟩ := hmethod hb
  rw [hline, hline']
  exact Nat.succ_le_succ (hkl hk hl)

end Lines

theorem SyntaxTree.inSourceOrder {t : SyntaxTree} (h : t.root.LinesGoUp) :
    InSourceOrder t.declarations where
  declarations := by
    have hvisits := List.pairwise_map.mp (h.sublist (Visit.sublist_preorder none t.root))
    refine List.pairwise_filterMap.mpr (hvisits.imp fun {v w} hvw a ha b hb => ?_)
    rw [Declaration.line_of_ofNode? ha, Declaration.line_of_ofNode? hb]
    exact Nat.succ_le_succ (hvw (Declaration.isDefinition_of_ofNode? ha)
      (Declaration.isDefinition_of_ofNode? hb))
  methods c hc := by
    obtain ⟨⟨parent, n⟩, hv, hc⟩ := List.mem_filterMap.mp hc
    obtain ⟨name, -, -, hmembers⟩ := Declaration.eq_of_ofClass (Declaration.ofClass_of_ofNode? hc)
    rw [hmembers]
    exact h.pairwise_methods (Visit.mem_preorder hv)

namespace Traversal

/-- **Declarations come in source order**, at any depth, be it because the tree is ordered or because
it is that of a text. -/
theorem inSourceOrder_take (t : SyntaxTree) (n : Nat) :
    (t.root.Ordered → InSourceOrder ((ofTree t).take n)) ∧
      ∀ source path, JavaScript.parse source path = .ok t →
        InSourceOrder ((ofTree t).take n) := by
  have htake : t.root.LinesGoUp → InSourceOrder ((ofTree t).take n) := by
    intro h
    rw [take_eq_take_remaining, remaining_ofTree]
    exact (SyntaxTree.inSourceOrder h).sublist (List.take_sublist n _)
  refine ⟨fun h => htake h.linesGoUp, fun source path h => ?_⟩
  obtain ⟨hi, hplaced⟩ := JavaScript.placed_of_parse h
  exact htake hplaced.linesGoUp

/-- A function whose method holds a class, with methods of its own and another class behind it. -/
def nestedDeclarations : String :=
  "function f() \x7b\n  class A \x7b\n    a() \x7b\n      class B \x7b b() {}\n" ++
    "        get c() {} \x7d\n    \x7d\n\n    d() {}\n  \x7d\n\x7d\nclass C {}"

theorem inSourceOrder_take_nestedDeclarations :
    ∃ t, JavaScript.parse nestedDeclarations "test.js" = .ok t ∧ t.root.Ordered ∧
      ((ofTree t).take 4).map Declaration.line = [1, 2, 4, 11] ∧
      ∀ n, InSourceOrder ((ofTree t).take n) := by
  have heval : (JavaScript.parse nestedDeclarations "test.js").toOption.any (fun t =>
      t.root.Ordered && (t.declarations.take 4).map Declaration.line = [1, 2, 4, 11]) = true := by
    decide +kernel
  cases ht : JavaScript.parse nestedDeclarations "test.js" with
  | error e =>
    rw [ht] at heval
    cases heval
  | ok t =>
    rw [ht] at heval
    obtain ⟨hordered, hlines⟩ := Bool.and_eq_true_iff.mp heval
    rw [← remaining_ofTree, ← take_eq_take_remaining] at hlines
    exact ⟨t, rfl, of_decide_eq_true hordered, of_decide_eq_true hlines,
      fun n => (inSourceOrder_take t n).1 (of_decide_eq_true hordered)⟩

/-- Where siblings start one after the other, but the first reaches into what the second covers, the
line of the function inside the first comes before that of the second. -/
theorem not_inSourceOrder_take :
    let function (line : Nat) (children : List Node) : Node :=
      .branch .functionDeclaration ⟨line, line, 0⟩ ⟨9, 9, 0⟩ children
    let t : SyntaxTree := ⟨.branch .program .origin ⟨9, 9, 0⟩
      [function 1 [function 5 []], function 3 []], "", "test.js"⟩
    t.root.StartsInOrder ∧ ((ofTree t).take 3).map Declaration.line = [2, 6, 4] ∧
      ¬InSourceOrder ((ofTree t).take 3) := by
  intro function t
  have hlines : ((ofTree t).take 3).map Declaration.line = [2, 6, 4] := by
    rw [take_eq_take_remaining, remaining_ofTree]
    decide
  refine ⟨by decide, hlines, fun h => ?_⟩
  have hpairwise := List.pairwise_map.mpr h.declarations
  rw [hlines] at hpairwise
  revert hpairwise
  decide

end Traversal

end SymbolIndex.Syntax
