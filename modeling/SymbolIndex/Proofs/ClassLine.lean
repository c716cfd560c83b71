import SymbolIndex.Proofs.JavaScript.Program
import SymbolIndex.Proofs.SourceOrder

/-!
# The line of a class

The line of a class declaration is the one on which its node starts. Whatever is in front of a class
in the text, its node starts with its first decorator, or with the keyword if it has no decorators
(`ClassOpening`). So the line is that of the keyword unless there is a line break between the first
decorator and the keyword (`Syntax.SyntaxTree.class_line_of_first_decorator`).
-/

namespace SymbolIndex.Syntax

namespace Node

/-- The keyword of a class. -/
def classKeyword? (n : Node) : Option Node := n.children.find? (·.kind = .word .classWord)

/-- The decorators of a class, which are in front of its keyword. -/
def classDecorators (n : Node) : List Node :=
  (n.children.takeWhile (·.kind ≠ .word .classWord)).filter (·.kind = .decorator)

variable {source : List Char} {n : Node}

/-- What is found as the keyword of a class is spelled as such. -/
theorem isWord_of_classKeyword? (h : ClassParts source n.children) {w : Node}
    (hw : n.classKeyword? = some w) : w.IsWord source .classWord := by
  have hkind : w.kind = .word .classWord := by
    have hfound := (List.find?_eq_some_iff_append.mp hw).1
    exact of_decide_eq_true hfound
  -- All other parts of a class are of other kinds.
  have hother : ∀ {k : Kind}, w.kind = k → k ≠ .word .classWord → w.IsWord source .classWord :=
    fun hk hne => absurd (hk.symm.trans hkind) hne
  cases h.classPart_of_mem w (List.mem_of_find?_eq_some hw) with
  | extra hextra => exact absurd hkind (hextra.kind_ne rfl)
  | decorator hk => exact hother hk nofun
  | word hword => exact hword
  | name hk => exact hother hk nofun
  | heritage hheritage => exact hother hheritage.kind nofun
  | body hk => exact hother hk nofun

/-- A class without errors starts with its first decorator or else with its keyword. -/
theorem start_of_opening (h : ClassOpening source n.start n.children)
    (herror : ∀ m ∈ n.children, m.kind ≠ .error) {w : Node} (hw : n.classKeyword? = some w) :
    ∃ first, (n.classDecorators ++ [w]).head? = some first ∧ first.start = n.start := by
  obtain ⟨first, rest, hchildren, hstart, hkind⟩ := h.first
  refine ⟨first, ?_, hstart⟩
  rw [classKeyword?, hchildren] at hw
  rw [classDecorators, hchildren]
  rcases hkind with hkind | hkind | hkind
  · rw [List.takeWhile_cons_of_pos (by simp [hkind]), List.filter_cons_of_pos (by simp [hkind])]
    rfl
  · rw [List.find?_cons_of_pos (by simp [hkind])] at hw
    rw [List.takeWhile_cons_of_neg (by simp [hkind])]
    exact hw.symm ▸ rfl
  · exact absurd hkind (herror first (hchildren ▸ List.mem_cons_self))

end Node

namespace SyntaxTree

variable {source : String} {path : Path} {t : SyntaxTree}

/-- **The line of a class is that of its first decorator.** It is the line of the keyword, which
stands in the text as such, if the class has no decorators, whatever else is in front of the keyword
or around the class; and in general exactly if there is no line break between the start of the
first decorator and the keyword. Otherwise it is an earlier line. -/
theorem class_line_of_first_decorator (h : JavaScript.parse source path = .ok t)
    {parent : Option Kind} {n : Node} {c : ClassDeclaration}
    (hv : (parent, n) ∈ Visit.all none t.root)
    (hc : Declaration.ofNode? t.source.toList parent n = some (.classDeclaration c)) :
    ∃ w, n.classKeyword? = some w ∧ w.IsWord t.source.toList .classWord ∧
      w.lineNumber = 1 + (t.source.toList.take w.start.offset).count '\n' ∧
      (n.classDecorators = [] → c.line = w.lineNumber) ∧
      (∀ d, n.classDecorators.head? = some d → c.line = d.lineNumber) ∧
      n.start.offset ≤ w.start.offset ∧ c.line ≤ w.lineNumber ∧
      (c.line = w.lineNumber ↔
        '\n' ∉ (t.source.toList.take w.start.offset).drop n.start.offset) := by
  have hn : n ∈ t.root.preorder := Visit.mem_preorder hv
  have hsort : n.kind.sort? = some .ofClass := Declaration.sort?_of_classDeclaration hc
  have hparts : ClassParts t.source.toList n.children := JavaScript.parts_of_parse h hn .ofClass hsort
  obtain ⟨hin, hopening⟩ := JavaScript.opening_of_parse h hn hsort
  obtain ⟨w, hw, hwin, hle⟩ := hopening.keyword
  have herror : ∀ m ∈ n.children, m.kind ≠ .error := fun m hm =>
    JavaScript.kind_ne_error_of_parse h
      (Node.mem_preorder_trans (Node.mem_preorder_of_mem_children hm) hn)
  obtain ⟨first, hfirst, hstart⟩ := Node.start_of_opening hopening herror hw
  have hline : c.line = n.lineNumber := Declaration.line_of_ofNode? hc
  have hline' : c.line = first.lineNumber := by
    rw [hline, Node.lineNumber, Node.lineNumber, hstart]
  have hbreaks : w.lineNumber =
      c.line + ((t.source.toList.take w.start.offset).drop n.start.offset).count '\n' := by
    rw [hline, Node.lineNumber, Node.lineNumber, hin.line_eq_add hwin hle]
    omega
  refine ⟨w, hw, Node.isWord_of_classKeyword? hparts hw, ?_, fun hnone => ?_, fun d hd => ?_, hle,
    by omega, ?_⟩
  · rw [Node.lineNumber, hwin.line_eq, Nat.add_comm]
  · rw [hnone] at hfirst
    cases hfirst
    exact hline'
  · rw [List.head?_append, hd] at hfirst
    cases hfirst
    exact hline'
  · rw [← List.count_eq_zero]
    omega

/-- A class on the line after its decorator. -/
def decoratedClass : String := "@d\nclass A { m() {} }"

/-- The class of `decoratedClass` is declared on the line of its decorator, the one before that of
its keyword. -/
theorem visited_decoratedClass :
    ∃ t, JavaScript.parse decoratedClass "test.js" = .ok t ∧
      ∃ parent n c, (parent, n) ∈ Visit.all none t.root ∧
        Declaration.ofNode? t.source.toList parent n = some (.classDeclaration c) ∧
        (∃ d, n.classDecorators.head? = some d ∧ d.lineNumber = 1) ∧
        (∃ w, n.classKeyword? = some w ∧ w.lineNumber = 2) ∧ c.line = 1 := by
  obtain ⟨t, ht, ⟨parent, n⟩, hv, htest⟩ := JavaScript.exists_visit_of_parse
    decoratedClass "test.js"
    (fun t v => Declaration.ofNode? t.source.toList v.1 v.2 = some (.classDeclaration
        ⟨"A", none, [.method ⟨.identifier "m", false, .method, 2⟩], 1⟩) &&
      v.2.classDecorators.head?.any (·.lineNumber = 1) &&
      v.2.classKeyword?.any (·.lineNumber = 2))
    (by decide +kernel)
  simp only [Bool.and_eq_true, decide_eq_true_eq, Option.any_eq_true] at htest
  exact ⟨t, ht, parent, n, _, hv, htest.1.1, htest.1.2, htest.2, rfl⟩

/-- The line of the class of `decoratedClass` comes before that of its keyword. -/
theorem class_line_decoratedClass :
    ∃ t, JavaScript.parse decoratedClass "test.js" = .ok t ∧
      ∃ parent n c, (parent, n) ∈ Visit.all none t.root ∧
        Declaration.ofNode? t.source.toList parent n = some (.classDeclaration c) ∧
        ∃ w, n.classKeyword? = some w ∧ c.line < w.lineNumber := by
  obtain ⟨t, ht, parent, n, c, hv, hc, ⟨d, hd, hline⟩, ⟨w, hw, hline'⟩, -⟩ :=
    visited_decoratedClass
  obtain ⟨w', -, -, -, -, hdecorated, -⟩ := class_line_of_first_decorator ht hv hc
  have hearly : c.line = d.lineNumber := hdecorated d hd
  exact ⟨t, ht, parent, n, c, hv, hc, w, hw, by omega⟩

/-- **Not every class is declared on the line of its keyword.** -/
theorem not_class_line_eq_keyword_line :
    ¬∀ (source : String) (path : Path) (t : SyntaxTree),
      JavaScript.parse source path = .ok t →
        ∀ parent n c w, (parent, n) ∈ Visit.all none t.root →
          Declaration.ofNode? t.source.toList parent n = some (.classDeclaration c) →
            n.classKeyword? = some w → c.line = w.lineNumber := by
  intro hclaim
  obtain ⟨t, ht, parent, n, c, hv, hc, -, ⟨w, hw, hline'⟩, hline⟩ := visited_decoratedClass
  have heq := hclaim decoratedClass "test.js" t ht parent n c w hv hc hw
  rw [hline, hline'] at heq
  cases heq

end SyntaxTree

end SymbolIndex.Syntax
