import SymbolIndex.Proofs.JavaScript.Program
import SymbolIndex.Proofs.Site

/-!
# The superclass of a class

A heritage clause consists of `extends`, comments and an expression, so what a class extends is the
last node of the clause (`Node.extended?`). The superclass of its declaration is looked for at the
first construct of the clause, and a comment is a construct, too. As long as there is no comment in
the clause both are the same node; a name behind a comment is lost
(`Syntax.SyntaxTree.superclass_lost_behind_comments`).

That a clause starts with `extends` and has one node behind the comments is what the grammar reads
(`Node.IsHeritage`), and that the comments are no errors is what makes a text accepted.
-/

namespace SymbolIndex.Syntax

namespace Node

/-! ### What a class extends -/

/-- The heritage clause of a class. -/
def heritage? (n : Node) : Option Node := n.children.find? (·.kind = .classHeritage)

/-- The expression that a class extends. -/
def extended? (n : Node) : Option Node := n.heritage?.bind (·.children.getLast?)

/-- What stands between `extends` and the expression. -/
def heritageExtras (n : Node) : List Node := (n.heritage?.elim [] (·.children)).tail.dropLast

/-- The plain name that a class extends, if the expression is one. -/
def writtenSuperclass? (source : List Char) (n : Node) : Option String :=
  n.extended?.bind fun e => if e.kind = .identifier then some (e.text source) else none

variable {source : List Char} {n : Node}

/-- What is found as the heritage clause of a class is made up like one. -/
theorem isHeritage_of_heritage? (h : ClassParts source n.children) {clause : Node}
    (hclause : n.heritage? = some clause) : clause.IsHeritage source := by
  have hkind : clause.kind = .classHeritage := by
    have hfound := (List.find?_eq_some_iff_append.mp hclause).1
    exact of_decide_eq_true hfound
  have hmem : clause ∈ n.children := List.mem_of_find?_eq_some hclause
  -- All other parts of a class are of other kinds.
  have hother : ∀ {k : Kind}, clause.kind = k → k ≠ .classHeritage → clause.IsHeritage source :=
    fun hk hne => absurd (hk.symm.trans hkind) hne
  cases h.classPart_of_mem clause hmem with
  | extra hextra => exact absurd hkind (hextra.kind_ne rfl)
  | decorator hk => exact hother hk (by decide)
  | word hword => exact hother hword.kind (by simp)
  | name hk => exact hother hk (by decide)
  | heritage hheritage => exact hheritage
  | body hk => exact hother hk (by decide)

/-! ### What is found -/

/-- The heritage clause is the same among all children as among those that are constructs. -/
theorem find?_namedChildren_classHeritage (n : Node) :
    n.namedChildren.find? (·.kind = .classHeritage) = n.heritage? := by
  rw [namedChildren, heritage?, List.find?_filter]
  refine congrArg (n.children.find? ·) (funext fun child => ?_)
  by_cases hkind : child.kind = .classHeritage
  · simp [isNamed, hkind, Kind.isNamed]
  · simp [hkind]

/-- The first construct of a heritage clause is its expression only if there are no extras. -/
theorem superclass?_eq (h : ClassParts source n.children) :
    n.superclass? source =
      if n.heritageExtras = [] then n.writtenSuperclass? source else none := by
  rw [superclass?, find?_namedChildren_classHeritage, heritageExtras, writtenSuperclass?, extended?]
  cases hclause : n.heritage? with
  | none => rfl
  | some clause =>
    obtain ⟨word, comments, e, hchildren, hword, hextra⟩ :=
      (isHeritage_of_heritage? h hclause).children
    have hunnamed : word.isNamed = false := by
      rw [isNamed, hword.kind]
      rfl
    simp only [Option.bind_eq_bind, Option.bind_some, Option.elim_some, namedChildren, hchildren,
      List.cons_append, List.tail_cons, List.dropLast_concat, List.filter_cons, hunnamed,
      List.filter_append]
    cases comments with
    | nil =>
      by_cases hkind : e.kind = .identifier
      · have hnamed : e.isNamed = true := by
          rw [isNamed, hkind]
          rfl
        simp [hnamed, hkind]
      · cases e.isNamed <;> simp [hkind]
    | cons comment comments =>
      have hcomment := hextra comment List.mem_cons_self
      have hkind : comment.kind ≠ .identifier := hcomment.kind_ne rfl
      simp [hcomment.isNamed, hkind]

end Node

namespace SyntaxTree

variable {source : String} {path : Path} {t : SyntaxTree}

/-- **A superclass is lost behind a comment.** The heritage clause of a class consists of `extends`,
comments and an expression. If there is no comment, the superclass of the declaration is the
expression as far as that is a plain name; if there is one, the class is taken for one without a
superclass. All symbols of the class have the superclass of the declaration. -/
theorem superclass_lost_behind_comments (h : JavaScript.parse source path = .ok t)
    {parent : Option Kind} {n : Node} {c : ClassDeclaration}
    (hv : (parent, n) ∈ Visit.all none t.root)
    (hc : Declaration.ofNode? t.source.toList parent n = some (.classDeclaration c)) :
    (∀ clause, n.heritage? = some clause → ∃ word comments expression,
      clause.children = word :: comments ++ [expression] ∧
        word.IsWord t.source.toList .extendsWord ∧ n.heritageExtras = comments ∧
        n.extended? = some expression ∧
        ∀ e ∈ comments, e.kind = .comment ∨ e.kind = .htmlComment) ∧
    (n.heritageExtras = [] → c.superclass = n.writtenSuperclass? t.source.toList) ∧
    (n.heritageExtras ≠ [] → c.superclass = none) ∧
    ∀ options, ∀ s ∈ (Declaration.classDeclaration c).symbols options path,
      s.superclass = c.superclass := by
  have hn : n ∈ t.root.preorder := Visit.mem_preorder hv
  have hparts : ClassParts t.source.toList n.children :=
    JavaScript.parts_of_parse h hn .ofClass (Declaration.sort?_of_classDeclaration hc)
  have hsuperclass : c.superclass = n.superclass? t.source.toList :=
    Declaration.superclass_of_ofClass (Declaration.ofClass_of_ofNode? hc)
  rw [hsuperclass, Node.superclass?_eq hparts]
  refine ⟨fun clause hclause => ?_, fun hnone => if_pos hnone, fun hsome => if_neg hsome,
    fun options s hs => ?_⟩
  · obtain ⟨word, comments, e, hchildren, hword, hextra⟩ :=
      (Node.isHeritage_of_heritage? hparts hclause).children
    refine ⟨word, comments, e, hchildren, hword, ?_, ?_, fun comment hcomment => ?_⟩
    · rw [Node.heritageExtras, hclause, Option.elim_some, hchildren]
      simp
    · rw [Node.extended?, hclause, Option.bind_some, hchildren, List.getLast?_concat]
    · -- The text is accepted, so what stands there is no error.
      have hmem : comment ∈ clause.children := by
        rw [hchildren]
        simp [hcomment]
      have hbelow : comment ∈ t.root.preorder :=
        Node.mem_preorder_trans (Node.mem_preorder_of_mem_children hmem)
          (Node.mem_preorder_trans
            (Node.mem_preorder_of_mem_children (List.mem_of_find?_eq_some hclause)) hn)
      have herror := JavaScript.kind_ne_error_of_parse h hbelow
      have hkind := (hextra comment hcomment).kind
      rw [Kind.isExtra.eq_def] at hkind
      split at hkind
      · exact .inl ‹_›
      · exact .inr ‹_›
      · exact absurd ‹_› herror
      · cases hkind
  · obtain ⟨member, -, hmember⟩ := List.mem_filterMap.mp hs
    obtain ⟨m, name, -, -, rfl⟩ := Member.eq_of_symbol? hmember
    rw [← Node.superclass?_eq hparts, ← hsuperclass]
    rfl

/-- A class that extends a plain name, with a comment in front of it. -/
def commentedHeritage : String := "class A extends /* c */ B { m() {} }"

/-- The class of `commentedHeritage` is written with a superclass and declared without one. -/
theorem visited_commentedHeritage :
    ∃ t, JavaScript.parse commentedHeritage "test.js" = .ok t ∧
      ∃ parent n, (parent, n) ∈ Visit.all none t.root ∧
        Declaration.ofNode? t.source.toList parent n = some (.classDeclaration
          ⟨"A", none, [.method ⟨.identifier "m", false, .method, 1⟩], 1⟩) ∧
        n.heritageExtras ≠ [] ∧ n.writtenSuperclass? t.source.toList = some "B" := by
  obtain ⟨t, ht, ⟨parent, n⟩, hv, htest⟩ := JavaScript.exists_visit_of_parse
    commentedHeritage "test.js"
    (fun t v => Declaration.ofNode? t.source.toList v.1 v.2 = some (.classDeclaration
        ⟨"A", none, [.method ⟨.identifier "m", false, .method, 1⟩], 1⟩) &&
      !v.2.heritageExtras.isEmpty && v.2.writtenSuperclass? t.source.toList = some "B")
    (by decide +kernel)
  simp only [Bool.and_eq_true, decide_eq_true_eq, Bool.not_eq_true', List.isEmpty_eq_false_iff]
    at htest
  exact ⟨t, ht, parent, n, hv, htest.1.1, htest.1.2, htest.2⟩

/-- The superclass of `commentedHeritage` is lost behind the comment. -/
theorem superclass_lost_commentedHeritage :
    ∃ t, JavaScript.parse commentedHeritage "test.js" = .ok t ∧
      ∃ parent n c, (parent, n) ∈ Visit.all none t.root ∧
        Declaration.ofNode? t.source.toList parent n = some (.classDeclaration c) ∧
        n.writtenSuperclass? t.source.toList = some "B" ∧ c.superclass = none := by
  obtain ⟨t, ht, parent, n, hv, hc, hextras, hwritten⟩ := visited_commentedHeritage
  exact ⟨t, ht, parent, n, _, hv, hc, hwritten,
    (superclass_lost_behind_comments ht hv hc).2.2.1 hextras⟩

/-- **Not every class that extends a plain name is declared with that superclass.** -/
theorem not_superclass_eq_writtenSuperclass :
    ¬∀ (source : String) (path : Path) (t : SyntaxTree),
      JavaScript.parse source path = .ok t →
        ∀ parent n c, (parent, n) ∈ Visit.all none t.root →
          Declaration.ofNode? t.source.toList parent n = some (.classDeclaration c) →
            c.superclass = n.writtenSuperclass? t.source.toList := by
  intro hclaim
  obtain ⟨t, ht, parent, n, hv, hc, -, hwritten⟩ := visited_commentedHeritage
  have hsuperclass := hclaim commentedHeritage "test.js" t ht parent n _ hv hc
  rw [hwritten] at hsuperclass
  cases hsuperclass

end SyntaxTree

end SymbolIndex.Syntax
