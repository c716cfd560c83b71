import SymbolIndex.Proofs.Syntax.Parts
import SymbolIndex.Syntax.Declaration

/-!
# The definitions in a tree

Functions, classes and methods are what symbols are made from. The outline of a tree lists all of
them in pre-order, each by where it starts and by its children (`Node.outline`). It is less than the
tree: a node may be given another role or be read as a pattern and keeps its outline.

`Placed` is the invariant of outlines that come from a text: the definitions start one after the
other within a stretch of the text, at places of that text (`Position.IsIn`), and each is made of
the parts that the grammar has for it.
Outlines of neighbouring stretches can be put together (`Placed.append`) and taken apart
(`Placed.split`).
-/

namespace SymbolIndex.Syntax

/-! ### Places in a text -/

namespace Position

variable {source : List Char} {p q : Position}

/-- The place is one in the text: its line and column are those that its offset leads to. -/
def IsIn (source : List Char) (p : Position) : Prop :=
  p = (source.take p.offset).foldl advance origin

theorem isIn_origin (source : List Char) : origin.IsIn source := rfl

theorem offset_advance (p : Position) (c : Char) : (p.advance c).offset = p.offset + 1 := by
  rw [advance]
  split <;> rfl

/-- The place behind the next character. -/
theorem IsIn.advance {c : Char} {r : List Char} (h : p.IsIn source)
    (hnext : source.drop p.offset = c :: r) : (p.advance c).IsIn source := by
  have htake : source.take (p.offset + 1) = source.take p.offset ++ [c] := by
    rw [List.take_add, hnext]
    rfl
  rw [IsIn, offset_advance, htake, List.foldl_append, ← show p = _ from h]
  rfl

theorem line_foldl_advance (p : Position) (cs : List Char) :
    (cs.foldl Position.advance p).line = p.line + cs.count '\n' := by
  induction cs generalizing p with
  | nil => rfl
  | cons c cs ih =>
    rw [List.foldl_cons, ih, Position.advance, List.count_cons]
    split
    · rename_i hc
      simp only [hc, beq_self_eq_true, if_true]
      omega
    · rename_i hc
      simp only [beq_iff_eq, hc, if_false, Nat.add_zero]

/-- The line of a place is the number of line breaks in front of it. -/
theorem IsIn.line_eq (h : p.IsIn source) : p.line = (source.take p.offset).count '\n' := by
  have hline : p.line = 0 + (source.take p.offset).count '\n' :=
    (congrArg Position.line h).trans (line_foldl_advance _ _)
  rwa [Nat.zero_add] at hline

/-- From one place to a later one the line goes up by the line breaks between them. -/
theorem IsIn.line_eq_add (h : p.IsIn source) (h' : q.IsIn source) (hle : p.offset ≤ q.offset) :
    q.line = p.line + ((source.take q.offset).drop p.offset).count '\n' := by
  rw [h.line_eq, h'.line_eq, ← List.count_append]
  have htake : source.take p.offset = (source.take q.offset).take p.offset := by
    rw [List.take_take, Nat.min_eq_left hle]
  rw [htake, List.take_append_drop]

/-- There are no fewer lines in front of a later place. -/
theorem IsIn.line_le (h : p.IsIn source) (h' : q.IsIn source) (hle : p.offset ≤ q.offset) :
    p.line ≤ q.line := by
  rw [h.line_eq_add h' hle]
  exact Nat.le_add_right _ _

end Position

/-! ### Outlines -/

namespace Kind

/-- Classes, functions with a body of statements, and methods. -/
def isDefinition : Kind → Bool
  | .classDeclaration | .classExpression | .functionDeclaration | .functionExpression
  | .generatorFunctionDeclaration | .generatorFunction | .methodDefinition => true
  | _ => false

end Kind

theorem Kind.isSome_sort? (k : Kind) : k.sort?.isSome = k.isDefinition := by
  cases k <;> rfl

theorem Kind.sort?_of_isDefinition {k : Kind} (h : k.isDefinition = true) :
    ∃ sort, k.sort? = some sort :=
  Option.isSome_iff_exists.mp (k.isSome_sort?.trans h)

theorem Kind.sort?_eq_none {k : Kind} (h : k.isDefinition = false) : k.sort? = none := by
  rw [← k.isSome_sort?] at h
  exact Option.isSome_eq_false_iff.mp h |> Option.isNone_iff_eq_none.mp

/-- A node of the kind is no class, and the nodes are what it is made of if it is a definition. -/
structure Kind.Fits (source : List Char) (k : Kind) (ns : List Node) : Prop where
  sort?_ne_ofClass : k.sort? ≠ some .ofClass
  parts : k.Parts source ns

/-- What is no definition may be made of anything. -/
theorem Kind.fits_of_not_isDefinition {source : List Char} {k : Kind} {ns : List Node}
    (h : k.isDefinition = false) : k.Fits source ns where
  sort?_ne_ofClass := by
    rw [sort?_eq_none h]
    decide
  parts sort hsort := by
    rw [sort?_eq_none h] at hsort
    cases hsort

theorem Kind.fits_of_named {source : List Char} {k : Kind} {ns : List Node}
    (hk : k.sort? = some .ofFunction) (h : Named source ns) : k.Fits source ns where
  sort?_ne_ofClass := by
    rw [hk]
    decide
  parts sort hsort := by
    rw [hk] at hsort
    cases hsort
    exact h

theorem Kind.fits_methodDefinition {source : List Char} {ns : List Node}
    (h : MethodParts source ns) : Kind.methodDefinition.Fits source ns where
  sort?_ne_ofClass := by decide
  parts := by
    rintro sort ⟨⟩
    exact h

theorem Kind.isDefinition_of_isExtra {k : Kind} (h : k.isExtra = true) :
    k.isDefinition = false := by
  cases k <;> first | rfl | cases h

/-- A definition in a text. -/
structure Definition where
  /-- Where it starts. -/
  start : Position
  sort : DefinitionSort
  /-- Its children. -/
  parts : List Node

/-- What the children of a node of kind `k` that starts at `start` make of it. -/
def Definition.of? (k : Kind) (start : Position) (children : List Node) : Option Definition :=
  k.sort?.map fun sort => ⟨start, sort, children⟩

namespace Node

/-- The definition that a node is. -/
def definition? (n : Node) : Option Definition :=
  Definition.of? n.kind n.start n.children

/-- The definitions in a tree, in pre-order. -/
def outline (n : Node) : List Definition := n.preorder.filterMap definition?

/-- The definitions in several trees, one tree after the other. -/
def outlineAll (ns : List Node) : List Definition := (preorderAll ns).filterMap definition?

theorem preorder_eq (n : Node) : n.preorder = n :: preorderAll n.children := by
  obtain ⟨kind, field, missing, start, stop, children⟩ := n
  rw [preorder]

theorem preorderAll_append (as bs : List Node) :
    preorderAll (as ++ bs) = preorderAll as ++ preorderAll bs := by
  induction as with
  | nil => rw [List.nil_append, preorderAll, List.nil_append]
  | cons a as ih => rw [List.cons_append, preorderAll, preorderAll, ih, List.append_assoc]

@[simp] theorem outlineAll_nil : outlineAll [] = [] := by
  rw [outlineAll, preorderAll, List.filterMap_nil]

@[simp] theorem outlineAll_cons (n : Node) (ns : List Node) :
    outlineAll (n :: ns) = n.outline ++ outlineAll ns := by
  rw [outlineAll, preorderAll, List.filterMap_append, outline, outlineAll]

@[simp] theorem outlineAll_append (as bs : List Node) :
    outlineAll (as ++ bs) = outlineAll as ++ outlineAll bs := by
  rw [outlineAll, preorderAll_append, List.filterMap_append, outlineAll, outlineAll]

/-- The outline of a node: what it is itself, then the definitions below it. -/
theorem outline_eq (n : Node) : n.outline = n.definition?.toList ++ outlineAll n.children := by
  rw [outline, preorder_eq, List.filterMap_cons, outlineAll]
  cases n.definition? with
  | none => rfl
  | some d => rfl

/-- A node that is no definition itself has the definitions of its children. -/
theorem outline_of_not_isDefinition {n : Node} (h : n.kind.isDefinition = false) :
    n.outline = outlineAll n.children := by
  have hself : n.definition? = none := by
    rw [definition?, Definition.of?, Kind.sort?_eq_none h]
    rfl
  rw [outline_eq, hself]
  rfl

theorem outline_branch {k : Kind} (h : k.isDefinition = false) (start stop : Position)
    (ns : List Node) : (branch k start stop ns).outline = outlineAll ns :=
  outline_of_not_isDefinition h

/-- A definition is known by where it starts and by its children. -/
theorem definition?_of_sort? {n : Node} {sort : DefinitionSort} (h : n.kind.sort? = some sort) :
    n.definition? = some ⟨n.start, sort, n.children⟩ := by
  rw [definition?, Definition.of?, h]
  rfl

theorem outline_branch_of_sort? {k : Kind} {sort : DefinitionSort} (h : k.sort? = some sort)
    (start stop : Position) (ns : List Node) :
    (branch k start stop ns).outline = ⟨start, sort, ns⟩ :: outlineAll ns := by
  have hself : (branch k start stop ns).definition? = some ⟨start, sort, ns⟩ :=
    definition?_of_sort? h
  rw [outline_eq, hself]
  rfl

theorem outline_leaf {k : Kind} (h : k.isDefinition = false) (start stop : Position) :
    (leaf k start stop).outline = [] := by
  rw [leaf, outline_branch h, outlineAll_nil]

/-- A role makes no difference. -/
@[simp] theorem outline_as (n : Node) (f : Field) : (n.as f).outline = n.outline := by
  rw [outline_eq, outline_eq]
  rfl

/-- A function or class that is read as a declaration stays what it is. -/
theorem outline_relabel {n : Node} {k : Kind} (h : k.sort? = n.kind.sort?) :
    (n.relabel k).outline = n.outline := by
  rw [outline_eq, outline_eq, definition?, definition?, Definition.of?, Definition.of?]
  simp only [relabel, h]

theorem outlineAll_children_sublist (n : Node) : (outlineAll n.children).Sublist n.outline := by
  rw [outline_eq]
  exact List.sublist_append_right _ _

/-- A node that is read as something that is no definition keeps what is below it. -/
theorem outline_relabel_sublist {k : Kind} (h : k.isDefinition = false) (n : Node) :
    (n.relabel k).outline.Sublist n.outline := by
  rw [outline_eq, definition?, Definition.of?]
  simpa [relabel, Kind.sort?_eq_none h] using outlineAll_children_sublist n

/-! ### Parts of a tree -/

mutual

/-- A node below is there with all that is below it, in one piece. -/
theorem preorder_split {m : Node} :
    ∀ n : Node, m ∈ n.preorder → ∃ before after, n.preorder = before ++ m.preorder ++ after
  | ⟨kind, field, missing, start, stop, children⟩ => by
    intro h
    rw [preorder] at h ⊢
    rcases List.mem_cons.mp h with rfl | h
    · refine ⟨[], [], ?_⟩
      rw [preorder, List.nil_append, List.append_nil]
    · obtain ⟨before, after, hsplit⟩ := preorderAll_split children h
      exact ⟨_ :: before, after, by rw [hsplit]; rfl⟩

theorem preorderAll_split {m : Node} :
    ∀ ns : List Node, m ∈ preorderAll ns →
      ∃ before after, preorderAll ns = before ++ m.preorder ++ after
  | [] => by
    intro h
    rw [preorderAll] at h
    cases h
  | n :: ns => by
    intro h
    rw [preorderAll] at h ⊢
    rcases List.mem_append.mp h with h | h
    · obtain ⟨before, after, hsplit⟩ := preorder_split n h
      exact ⟨before, after ++ preorderAll ns, by rw [hsplit]; simp only [List.append_assoc]⟩
    · obtain ⟨before, after, hsplit⟩ := preorderAll_split ns h
      exact ⟨n.preorder ++ before, after, by rw [hsplit]; simp only [List.append_assoc]⟩

end

end Node

/-! ### Definitions in a stretch of text -/

/-- A class starts where the first of its nodes does, which is a decorator or its keyword, unless an
error is in front of them. The keyword is at a place of the text, and not before that start. -/
structure ClassOpening (source : List Char) (start : Position) (ns : List Node) : Prop where
  first : ∃ n rest, ns = n :: rest ∧ n.start = start ∧
    (n.kind = .decorator ∨ n.kind = .word .classWord ∨ n.kind = .error)
  keyword : ∃ w, ns.find? (·.kind = .word .classWord) = some w ∧ w.start.IsIn source ∧
    start.offset ≤ w.start.offset

/-- The definitions start one after the other between `lo` and `hi`, at places of the text, and each
is made of what a definition of its sort is made of. -/
structure Placed (source : List Char) (lo hi : Nat) (ds : List Definition) : Prop where
  increasing : ds.Pairwise (·.start.offset < ·.start.offset)
  from_lo : ∀ d ∈ ds, lo ≤ d.start.offset
  to_hi : ∀ d ∈ ds, d.start.offset < hi
  isIn : ∀ d ∈ ds, d.start.IsIn source
  parts : ∀ d ∈ ds, d.sort.Parts source d.parts
  opening : ∀ d ∈ ds, d.sort = .ofClass → ClassOpening source d.start d.parts

namespace Placed

variable {source : List Char} {lo mid hi : Nat} {ds es : List Definition}

theorem nil (source : List Char) (lo hi : Nat) : Placed source lo hi [] where
  increasing := .nil
  from_lo := by simp
  to_hi := by simp
  isIn := by simp
  parts := by simp
  opening := by simp

theorem sublist (h : Placed source lo hi ds) (hsub : es.Sublist ds) : Placed source lo hi es where
  increasing := h.increasing.sublist hsub
  from_lo d hd := h.from_lo d (hsub.subset hd)
  to_hi d hd := h.to_hi d (hsub.subset hd)
  isIn d hd := h.isIn d (hsub.subset hd)
  parts d hd := h.parts d (hsub.subset hd)
  opening d hd := h.opening d (hsub.subset hd)

/-- A longer stretch will do as well. -/
theorem mono {lo' hi' : Nat} (h : Placed source lo hi ds) (hlo : lo' ≤ lo) (hhi : hi ≤ hi') :
    Placed source lo' hi' ds where
  increasing := h.increasing
  from_lo d hd := Nat.le_trans hlo (h.from_lo d hd)
  to_hi d hd := Nat.lt_of_lt_of_le (h.to_hi d hd) hhi
  isIn := h.isIn
  parts := h.parts
  opening := h.opening

/-- What stands in one stretch and what stands in a later one. -/
theorem append {mid' : Nat} (h : Placed source lo mid ds) (h' : Placed source mid' hi es)
    (hlo : lo ≤ mid') (hmid : mid ≤ mid') (hhi : mid ≤ hi) : Placed source lo hi (ds ++ es) where
  increasing := by
    refine List.pairwise_append.mpr ⟨h.increasing, h'.increasing, fun d hd e he => ?_⟩
    have hd := h.to_hi d hd
    have he := h'.from_lo e he
    omega
  from_lo d hd := by
    rcases List.mem_append.mp hd with hd | hd
    · exact h.from_lo d hd
    · exact Nat.le_trans hlo (h'.from_lo d hd)
  to_hi d hd := by
    rcases List.mem_append.mp hd with hd | hd
    · exact Nat.lt_of_lt_of_le (h.to_hi d hd) hhi
    · exact h'.to_hi d hd
  isIn d hd := by
    rcases List.mem_append.mp hd with hd | hd
    · exact h.isIn d hd
    · exact h'.isIn d hd
  parts d hd := by
    rcases List.mem_append.mp hd with hd | hd
    · exact h.parts d hd
    · exact h'.parts d hd
  opening d hd := by
    rcases List.mem_append.mp hd with hd | hd
    · exact h.opening d hd
    · exact h'.opening d hd

/-- A definition in front of those inside it. -/
theorem cons {d : Definition} (h : Placed source (d.start.offset + 1) hi ds)
    (hlo : lo ≤ d.start.offset) (hhi : d.start.offset < hi) (hstart : d.start.IsIn source)
    (hparts : d.sort.Parts source d.parts)
    (hopening : d.sort = .ofClass → ClassOpening source d.start d.parts) :
    Placed source lo hi (d :: ds) := by
  have hd : Placed source lo (d.start.offset + 1) [d] :=
    ⟨List.pairwise_singleton _ _, by simpa using hlo, by simp, by simpa using hstart,
      by simpa using hparts, by simpa using hopening⟩
  exact hd.append h (by omega) (Nat.le_refl _) hhi

/-- The stretch is taken apart right after the start of the last definition in front. -/
theorem split (h : Placed source lo hi (ds ++ es)) :
    ∃ mid, lo ≤ mid ∧ mid ≤ max lo hi ∧ Placed source lo (min mid hi) ds ∧
      Placed source mid hi es := by
  have hds := h.sublist (List.sublist_append_left ds es)
  have hes := h.sublist (List.sublist_append_right ds es)
  obtain ⟨hincreasing, -, hlt⟩ := List.pairwise_append.mp h.increasing
  rcases List.eq_nil_or_concat' ds with rfl | ⟨front, d, rfl⟩
  · exact ⟨lo, Nat.le_refl _, Nat.le_max_left _ _, nil source lo _, hes⟩
  · have hd : d ∈ front ++ [d] := List.mem_append_right _ List.mem_cons_self
    have hlo := hds.from_lo d hd
    have hhi := hds.to_hi d hd
    refine ⟨d.start.offset + 1, by omega, by omega, { hds with to_hi := fun e he => ?_ },
      { hes with from_lo := fun e he => hlt d hd e he }⟩
    have hed : e.start.offset ≤ d.start.offset := by
      rcases List.mem_append.mp he with he | he
      · exact Nat.le_of_lt ((List.pairwise_append.mp hincreasing).2.2 e he d List.mem_cons_self)
      · exact Nat.le_of_eq (congrArg (·.start.offset) (List.mem_singleton.mp he))
    omega

/-- A construct starts where its stretch does, and the definitions inside it start later. If it is a
definition itself it must not be empty, and be made of the right parts, and a class must open as
one. -/
theorem branch {k : Kind} {start stop : Position} {ns : List Node}
    (h : Placed source (start.offset + 1) hi (Node.outlineAll ns)) (hlo : lo ≤ start.offset)
    (hhi : k.isDefinition = true → start.offset < hi) (hstart : start.IsIn source)
    (hparts : k.Parts source ns)
    (hopening : k.sort? = some .ofClass → ClassOpening source start ns) :
    Placed source lo hi (Node.branch k start stop ns).outline := by
  cases hk : k.isDefinition with
  | false =>
    rw [Node.outline_branch hk]
    exact h.mono (by omega) (Nat.le_refl _)
  | true =>
    obtain ⟨sort, hsort⟩ := Kind.sort?_of_isDefinition hk
    rw [Node.outline_branch_of_sort? hsort]
    refine h.cons hlo (hhi hk) hstart (hparts sort hsort) ?_
    rintro rfl
    exact hopening hsort

/-- A node of a tree whose definitions are placed is made of the right parts. -/
theorem parts_of_mem {root n : Node} (h : Placed source lo hi root.outline)
    (hn : n ∈ root.preorder) : n.kind.Parts source n.children := by
  intro sort hsort
  exact h.parts _ (List.mem_filterMap.mpr ⟨n, hn, Node.definition?_of_sort? hsort⟩)

/-- A definition in such a tree is at a place of the text. -/
theorem isIn_of_mem {root n : Node} {sort : DefinitionSort} (h : Placed source lo hi root.outline)
    (hn : n ∈ root.preorder) (hsort : n.kind.sort? = some sort) : n.start.IsIn source :=
  h.isIn _ (List.mem_filterMap.mpr ⟨n, hn, Node.definition?_of_sort? hsort⟩)

/-- A class in such a tree opens as one. -/
theorem opening_of_mem {root n : Node} (h : Placed source lo hi root.outline)
    (hn : n ∈ root.preorder) (hsort : n.kind.sort? = some .ofClass) :
    ClassOpening source n.start n.children :=
  h.opening _ (List.mem_filterMap.mpr ⟨n, hn, Node.definition?_of_sort? hsort⟩) rfl

end Placed

end SymbolIndex.Syntax
