import SymbolIndex.Syntax.Declaration

/-!
# Declarations read off nodes

What every declaration has in common that is read off a node of a tree. A method counts as a
constructor for its key alone, so a constructor is never a method without a plain name
(`Declaration.constructorsNamed_of_ofNode?`).
-/

namespace SymbolIndex.Syntax

/-- Accessor words make getters and setters, and never a constructor. -/
theorem MethodKind.foldl_accessor_ne_constructor (children : List Node) {kind : MethodKind}
    (h : kind ≠ .constructor) :
    children.foldl (fun kind child =>
      if child.kind = .word .getWord then .getter
      else if child.kind = .word .setWord then .setter
      else kind) kind ≠ .constructor := by
  induction children generalizing kind with
  | nil => exact h
  | cons child children ih =>
    rw [List.foldl_cons]
    refine ih ?_
    split
    · simp
    · split
      · simp
      · exact h

/-- A constructor has the plain name that makes it one. -/
theorem MethodKind.key_of_ofNode_eq_constructor {n : Node} {key : MemberKey}
    (h : MethodKind.ofNode n key = .constructor) : key = .identifier "constructor" := by
  rw [MethodKind.ofNode] at h
  split at h
  · rename_i hcond
    simp only [Bool.and_eq_true, decide_eq_true_eq] at hcond
    exact hcond.2
  · exact absurd h (foldl_accessor_ne_constructor n.children (by simp))

/-- The constructors among the members of a class have plain names. -/
def ConstructorsNamed (members : List Member) : Prop :=
  ∀ m, .method m ∈ members → m.kind = .constructor → m.simpleName? = some "constructor"

variable {source : List Char}

theorem Method.simpleName?_of_constructor {n : Node} {m : Method}
    (h : Method.ofNode? source n = some m) (hkind : m.kind = .constructor) :
    m.simpleName? = some "constructor" := by
  rw [Method.ofNode?] at h
  cases hname : n.child? .name with
  | none => rw [hname] at h; cases h
  | some name =>
    rw [hname] at h
    cases h
    rw [Method.simpleName?, MethodKind.key_of_ofNode_eq_constructor hkind]

/-- Only a method has a definition to it. -/
theorem Member.ofNode?_of_ofNode {n : Node} {m : Method} (h : Member.ofNode source n = .method m) :
    n.kind = .methodDefinition ∧ Method.ofNode? source n = some m := by
  rw [Member.ofNode] at h
  split at h
  · rename_i hkind
    split at h
    · rename_i hm
      cases h
      exact ⟨hkind, hm⟩
    · cases h
  · cases h

theorem Member.simpleName?_of_constructor {n : Node} {m : Method}
    (h : Member.ofNode source n = .method m) (hkind : m.kind = .constructor) :
    m.simpleName? = some "constructor" :=
  Method.simpleName?_of_constructor (Member.ofNode?_of_ofNode h).2 hkind

theorem Node.constructorsNamed_members (n : Node) : ConstructorsNamed (n.members source) := by
  intro m hm hkind
  rw [Node.members] at hm
  split at hm
  · obtain ⟨child, -, hchild⟩ := List.mem_map.mp hm
    exact Member.simpleName?_of_constructor hchild hkind
  · cases hm

/-- A node declares a class or a function, if anything. -/
theorem Declaration.ofNode?_cases {parent : Option Kind} {n : Node} {d : Declaration}
    (h : Declaration.ofNode? source parent n = some d) :
    d = .ofClass source n ∨ d = .ofFunction source n := by
  rw [Declaration.ofNode?] at h
  split at h
  · exact .inl (Option.some.inj h).symm
  · exact .inr (Option.some.inj h).symm
  · exact .inr (Option.some.inj h).symm
  · split at h
    · exact .inl (Option.some.inj h).symm
    · cases h
  · split at h
    · exact .inr (Option.some.inj h).symm
    · cases h
  · split at h
    · exact .inr (Option.some.inj h).symm
    · cases h
  · cases h

/-- The constructors of a class that a node declares have plain names. -/
theorem Declaration.constructorsNamed_of_ofNode? {parent : Option Kind} {n : Node}
    {c : ClassDeclaration} (h : Declaration.ofNode? source parent n = some (.classDeclaration c)) :
    ConstructorsNamed c.members := by
  rcases ofNode?_cases h with hclass | hfunction
  · rw [Declaration.ofClass] at hclass
    split at hclass
    · cases hclass
      exact n.constructorsNamed_members
    · cases hclass
  · rw [Declaration.ofFunction] at hfunction
    split at hfunction <;> cases hfunction

end SymbolIndex.Syntax
