import SymbolIndex.Syntax.Declaration

/-!
# Declarations one at a time

A `Traversal` finds the declarations of a tree one by one. It keeps the nodes that are still to be
visited, the next one first; a visited node puts its named children in front of the others
(`Traversal.pop?`). Every visit leaves fewer nodes to come, so a search for the next declaration
ends (`Traversal.next`).
-/

namespace SymbolIndex.Syntax

namespace Node

mutual

/-- The number of nodes in a tree. -/
def count : Node → Nat
  | ⟨_, _, _, _, _, children⟩ => countAll children + 1

/-- The number of nodes in several trees. -/
def countAll : List Node → Nat
  | [] => 0
  | n :: ns => n.count + countAll ns

end

theorem count_eq (n : Node) : n.count = countAll n.children + 1 := by
  cases n
  rw [count]

theorem countAll_append (as bs : List Node) : countAll (as ++ bs) = countAll as + countAll bs := by
  induction as with
  | nil => simp [countAll]
  | cons a as ih => simp [countAll, ih, Nat.add_assoc]

theorem countAll_filter_le (p : Node → Bool) (ns : List Node) :
    countAll (ns.filter p) ≤ countAll ns := by
  induction ns with
  | nil => simp
  | cons n ns ih =>
    rw [List.filter_cons]
    split
    · exact Nat.add_le_add_left ih n.count
    · exact Nat.le_trans ih (Nat.le_add_left _ _)

end Node

/-- The part of a tree that is still to be visited. -/
structure Traversal where
  source : List Char
  stack : List Visit

namespace Traversal

/-- The whole tree. -/
def ofTree (t : SyntaxTree) : Traversal := ⟨t.source.toList, [(none, t.root)]⟩

/-- How many nodes may still be visited. -/
def size (t : Traversal) : Nat := Node.countAll (t.stack.map (·.2))

/-- The named children of a node, on their visit. -/
def visits (n : Node) : List Visit := n.namedChildren.map fun c => (some n.kind, c)

/-- The node to be visited next, and the traversal with its named children in its place. -/
def pop? (t : Traversal) : Option (Visit × Traversal) :=
  match t.stack with
  | [] => none
  | v :: rest => some (v, { t with stack := visits v.2 ++ rest })

/-- A visit leaves fewer nodes to come. -/
theorem size_lt_of_pop? {t rest : Traversal} {v : Visit} (h : t.pop? = some (v, rest)) :
    rest.size < t.size := by
  obtain ⟨source, stack⟩ := t
  cases stack with
  | nil => cases h
  | cons w stack =>
    obtain ⟨rfl, rfl⟩ := Prod.mk.inj (Option.some.inj h)
    have hvisits : (visits w.2).map (·.2) = w.2.namedChildren := by
      rw [visits, List.map_map]
      exact List.map_id _
    have hnamed : Node.countAll w.2.namedChildren ≤ Node.countAll w.2.children :=
      Node.countAll_filter_le Node.isNamed w.2.children
    simp only [size, List.map_append, List.map_cons, hvisits, Node.countAll_append, Node.countAll,
      Node.count_eq w.2]
    omega

/-- What a node on its visit declares. -/
def declared? (t : Traversal) (v : Visit) : Option Declaration :=
  Declaration.ofNode? t.source v.1 v.2

/-- Visits nodes up to the first that declares something: the declaration, if there is one, and what
is still to be visited after it. -/
def next (t : Traversal) : Option Declaration × Traversal :=
  match _h : t.pop? with
  | none => (none, t)
  | some (v, rest) => match t.declared? v with
    | some d => (some d, rest)
    | none => rest.next
termination_by t.size
decreasing_by exact size_lt_of_pop? _h

/-- A declaration that is found leaves fewer nodes to come. -/
theorem size_lt_of_next {t rest : Traversal} {d : Declaration} (h : t.next = (some d, rest)) :
    rest.size < t.size := by
  fun_induction next t with
  | case1 t hpop => cases h
  | case2 t v after hpop d' hd =>
    cases h
    exact size_lt_of_pop? hpop
  | case3 t v after hpop hd ih => exact Nat.lt_trans (ih h) (size_lt_of_pop? hpop)

/-- The next `n` declarations, or all if there are fewer. -/
def take : Nat → Traversal → List Declaration
  | 0, _ => []
  | n + 1, t => match t.next with
    | (none, _) => []
    | (some d, rest) => d :: take n rest

end Traversal

end SymbolIndex.Syntax
