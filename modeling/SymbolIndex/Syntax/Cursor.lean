import SymbolIndex.Syntax.Node

/-!
# Places in a tree

A `TreeCursor` is at a node of a tree and knows the way back to the root. It moves to the first
child, to the next sibling and to the parent. From a node it goes on to its first child, or else to
the next sibling of the node or of the nearest node above that has one (`TreeCursor.next?`), so it
comes by every node that is still to come (`TreeCursor.upcoming`), each once, and a search from
there ends (`TreeCursor.find?`).
-/

namespace SymbolIndex.Syntax

/-- A node of a tree, and where it is. -/
structure TreeCursor where
  node : Node
  /-- The siblings after the node. -/
  later : List Node
  /-- The nodes above, the parent first, each with the siblings after it. -/
  above : List (Node × List Node)

namespace TreeCursor

/-- The root of a tree, which has neither parent nor siblings. -/
def ofRoot (root : Node) : TreeCursor := ⟨root, [], []⟩

/-- The first child. -/
def firstChild? (c : TreeCursor) : Option TreeCursor :=
  match c.node.children with
  | [] => none
  | n :: ns => some ⟨n, ns, (c.node, c.later) :: c.above⟩

/-- The next sibling. -/
def nextSibling? (c : TreeCursor) : Option TreeCursor :=
  match c.later with
  | [] => none
  | n :: ns => some ⟨n, ns, c.above⟩

/-- The parent. -/
def parent? (c : TreeCursor) : Option TreeCursor :=
  match c.above with
  | [] => none
  | (n, ns) :: above => some ⟨n, ns, above⟩

theorem length_above_of_parent? {c p : TreeCursor} (h : c.parent? = some p) :
    p.above.length < c.above.length := by
  obtain ⟨node, later, above⟩ := c
  cases above with
  | nil => cases h
  | cons frame above =>
    cases h
    exact Nat.lt_succ_self _

/-- The next sibling, or that of the nearest node above that has one. -/
def leave? (c : TreeCursor) : Option TreeCursor :=
  match c.nextSibling? with
  | some s => some s
  | none => match _h : c.parent? with
    | some p => p.leave?
    | none => none
termination_by c.above.length
decreasing_by exact length_above_of_parent? _h

/-- The first child, or else the node after all that is below this one. -/
def next? (c : TreeCursor) : Option TreeCursor :=
  match c.firstChild? with
  | some d => some d
  | none => c.leave?

/-! ### The nodes to come -/

/-- The nodes that come after those below the cursor. -/
def following (c : TreeCursor) : List Node :=
  Node.preorderAll c.later ++ c.above.flatMap fun (_, later) => Node.preorderAll later

/-- The nodes from the cursor on, each before its children. -/
def upcoming (c : TreeCursor) : List Node := c.node.preorder ++ c.following

theorem upcoming_eq_cons (c : TreeCursor) :
    c.upcoming = c.node :: (Node.preorderAll c.node.children ++ c.following) := by
  obtain ⟨⟨kind, field, missing, start, stop, children⟩, later, above⟩ := c
  rw [upcoming, Node.preorder]
  rfl

/-- Leaving a node leads to the first of the nodes that follow. -/
theorem following_eq_of_leave? (c : TreeCursor) :
    c.following = c.leave?.elim [] upcoming := by
  obtain ⟨node, later, above⟩ := c
  induction above generalizing node later with
  | nil =>
    rw [leave?]
    cases later with
    | nil => rfl
    | cons n ns => exact List.append_assoc n.preorder (Node.preorderAll ns) _
  | cons frame above ih =>
    obtain ⟨parent, siblings⟩ := frame
    rw [leave?]
    cases later with
    | nil => exact ih parent siblings
    | cons n ns => exact List.append_assoc n.preorder (Node.preorderAll ns) _

/-- The cursor goes on to the first of the nodes to come after its own. -/
theorem upcoming_eq_of_next? (c : TreeCursor) :
    c.upcoming = c.node :: c.next?.elim [] upcoming := by
  rw [upcoming_eq_cons]
  obtain ⟨⟨kind, field, missing, start, stop, children⟩, later, above⟩ := c
  cases children with
  | nil => exact congrArg _ (following_eq_of_leave? _)
  | cons n ns =>
    refine congrArg _ ?_
    show n.preorder ++ Node.preorderAll ns ++ (Node.preorderAll later ++ _) = _
    rw [List.append_assoc]
    rfl

theorem length_upcoming_of_next? {c d : TreeCursor} (h : c.next? = some d) :
    d.upcoming.length < c.upcoming.length := by
  rw [upcoming_eq_of_next? c, h]
  exact Nat.lt_succ_self _

/-- The first node from the cursor on that has the property `p`. -/
def find? (p : Node → Bool) (c : TreeCursor) : Option Node :=
  if p c.node then some c.node
  else match _h : c.next? with
    | some d => d.find? p
    | none => none
termination_by c.upcoming.length
decreasing_by exact length_upcoming_of_next? _h

end TreeCursor

end SymbolIndex.Syntax
