import SymbolIndex.Syntax.Traversal

/-!
# A traversal visits a tree in pre-order

A `Traversal` is suspended between two calls of `next`, with the nodes that are still to be visited
on its stack. What it will visit is therefore a function of the stack alone (`Traversal.upcoming`):
the trees on the stack, one after the other, each in recursive pre-order. A visit takes exactly the
first of these nodes off and changes nothing about the others (`upcoming_of_pop?`), which is the
invariant that everything here rests on.

- `Traversal.upcoming_eq_visited_append`: a call visits the first of the upcoming nodes and leaves
  the others for later calls.
- `Traversal.next_fst_eq_head?`: a call answers with the first of the remaining declarations.
- `Traversal.calls_refine_preorder`: the calls on a whole tree answer with its declarations, one by
  one, and with none after the last; on the way every named node is visited once.
-/

namespace SymbolIndex.Syntax

/-! ### Recursive pre-order -/

theorem Visit.allNamed_eq_flatMap (parent : Kind) (ns : List Node) :
    allNamed parent ns = (ns.filter Node.isNamed).flatMap (all (some parent)) := by
  induction ns with
  | nil => rw [allNamed]; rfl
  | cons n ns ih =>
    rw [allNamed, List.filter_cons]
    by_cases hn : n.isNamed
    · rw [if_pos hn, if_pos hn, List.flatMap_cons, ih]
    · rw [if_neg hn, if_neg hn, ih]

/-- The pre-order of a node: the node, then its named children from left to right, each with the
nodes below it. -/
theorem Visit.all_eq_cons (parent : Option Kind) (n : Node) :
    all parent n = (parent, n) :: (Traversal.visits n).flatMap fun v => all v.1 v.2 := by
  obtain ⟨kind, field, missing, start, stop, children⟩ := n
  rw [all, allNamed_eq_flatMap, Traversal.visits, List.flatMap_map]
  rfl

namespace Traversal

/-! ### One visit -/

/-- The nodes that are still to be visited, in order. -/
def upcoming (t : Traversal) : List Visit := t.stack.flatMap fun v => Visit.all v.1 v.2

/-- The declarations that are still to be found, in order. -/
def remaining (t : Traversal) : List Declaration := t.upcoming.filterMap t.declared?

theorem upcoming_of_pop?_eq_none {t : Traversal} (h : t.pop? = none) : t.upcoming = [] := by
  obtain ⟨source, stack⟩ := t
  cases stack with
  | nil => rfl
  | cons v stack => cases h

/-- A visit takes the first upcoming node and keeps the others. -/
theorem upcoming_of_pop? {t rest : Traversal} {v : Visit} (h : t.pop? = some (v, rest)) :
    t.upcoming = v :: rest.upcoming := by
  obtain ⟨source, stack⟩ := t
  cases stack with
  | nil => cases h
  | cons w stack =>
    obtain ⟨rfl, rfl⟩ := Prod.mk.inj (Option.some.inj h)
    -- The children stand in front of the rest of the stack, which is where pre-order has them.
    show (w :: stack).flatMap (fun v => Visit.all v.1 v.2)
      = w :: (visits w.2 ++ stack).flatMap fun v => Visit.all v.1 v.2
    rw [List.flatMap_cons, Visit.all_eq_cons, List.flatMap_append, List.cons_append]

/-- The source stays, so what a node declares does not depend on when it is visited. -/
theorem declared?_of_pop? {t rest : Traversal} {v : Visit} (h : t.pop? = some (v, rest)) :
    rest.declared? = t.declared? := by
  obtain ⟨source, stack⟩ := t
  cases stack with
  | nil => cases h
  | cons w stack =>
    obtain ⟨rfl, rfl⟩ := Prod.mk.inj (Option.some.inj h)
    rfl

/-! ### One call -/

/-- The nodes that a call of `next` visits, in order. -/
def visited (t : Traversal) : List Visit :=
  match _h : t.pop? with
  | none => []
  | some (v, rest) => match t.declared? v with
    | some _ => [v]
    | none => v :: rest.visited
termination_by t.size
decreasing_by exact size_lt_of_pop? _h

/-- The visits of a call, with the node that is visited first split off. -/
theorem visited_eq (t : Traversal) :
    t.visited = match t.pop? with
      | none => []
      | some (v, rest) => match t.declared? v with
        | some _ => [v]
        | none => v :: rest.visited := by
  rw [visited]
  split
  · rename_i hpop
    rw [hpop]
  · rename_i v rest hpop
    rw [hpop]

theorem declared?_next (t : Traversal) : t.next.2.declared? = t.declared? := by
  fun_induction next t with
  | case1 t hpop => rfl
  | case2 t v rest hpop d hd => exact declared?_of_pop? hpop
  | case3 t v rest hpop hd ih => exact ih.trans (declared?_of_pop? hpop)

/-- A call visits the first of the upcoming nodes and leaves the others to later calls. -/
theorem upcoming_eq_visited_append (t : Traversal) :
    t.upcoming = t.visited ++ t.next.2.upcoming := by
  fun_induction next t with
  | case1 t hpop =>
    rw [visited_eq, hpop]
    rfl
  | case2 t v rest hpop d hd =>
    rw [upcoming_of_pop? hpop, visited_eq, hpop]
    simp only [hd, List.cons_append, List.nil_append]
  | case3 t v rest hpop hd ih =>
    rw [upcoming_of_pop? hpop, visited_eq, hpop]
    simp only [hd, List.cons_append, ih]

/-- Of the nodes that a call visits only the one it answers with declares something. -/
theorem filterMap_visited (t : Traversal) : t.visited.filterMap t.declared? = t.next.1.toList := by
  fun_induction next t with
  | case1 t hpop =>
    rw [visited_eq, hpop]
    rfl
  | case2 t v rest hpop d hd =>
    rw [visited_eq, hpop]
    simp only [hd]
    rw [List.filterMap_cons_some hd]
    rfl
  | case3 t v rest hpop hd ih =>
    rw [visited_eq, hpop]
    simp only [hd]
    rw [List.filterMap_cons_none hd, ← declared?_of_pop? hpop]
    exact ih

/-- A call finds the first of the remaining declarations. -/
theorem remaining_eq_append (t : Traversal) :
    t.remaining = t.next.1.toList ++ t.next.2.remaining := by
  rw [remaining, upcoming_eq_visited_append, List.filterMap_append, filterMap_visited, remaining,
    declared?_next]

/-- A call without an answer has visited all there is. -/
theorem upcoming_next_of_none {t : Traversal} (h : t.next.1 = none) : t.next.2.upcoming = [] := by
  fun_induction next t with
  | case1 t hpop => exact upcoming_of_pop?_eq_none hpop
  | case2 t v rest hpop d hd => cases h
  | case3 t v rest hpop hd ih => exact ih h

theorem remaining_next_of_none {t : Traversal} (h : t.next.1 = none) : t.next.2.remaining = [] := by
  rw [remaining, upcoming_next_of_none h]
  rfl

/-- A call answers with the first of the remaining declarations, if there is one, and leaves the
others. -/
theorem next_fst_eq_head? (t : Traversal) : t.next.1 = t.remaining.head? := by
  rw [remaining_eq_append]
  cases h : t.next.1 with
  | none => rw [remaining_next_of_none h]; rfl
  | some d => rfl

theorem remaining_next (t : Traversal) : t.next.2.remaining = t.remaining.tail := by
  rw [remaining_eq_append t]
  cases h : t.next.1 with
  | none => rw [remaining_next_of_none h]; rfl
  | some d => rfl

theorem remaining_of_next_eq_some {t rest : Traversal} {d : Declaration}
    (h : t.next = (some d, rest)) : t.remaining = d :: rest.remaining := by
  rw [remaining_eq_append, h]
  rfl

theorem remaining_of_next_eq_none {t rest : Traversal} (h : t.next = (none, rest)) :
    t.remaining = [] ∧ rest.remaining = [] := by
  have hrest : rest.remaining = [] := by
    have := remaining_next_of_none (t := t) (by rw [h])
    rwa [h] at this
  rw [remaining_eq_append, h]
  exact ⟨hrest, hrest⟩

/-! ### Many calls -/

/-- The answers to the next `n` calls of `next`. -/
def calls : Nat → Traversal → List (Option Declaration)
  | 0, _ => []
  | n + 1, t => t.next.1 :: calls n t.next.2

/-- The nodes that the next `n` calls of `next` visit, in order. -/
def visitedIn : Nat → Traversal → List Visit
  | 0, _ => []
  | n + 1, t => t.visited ++ visitedIn n t.next.2

/-- Reading a list place by place, past its end if need be, is reading its head and then its
tail. -/
theorem map_getElem?_range_succ {α : Type} (l : List α) (n : Nat) :
    (List.range (n + 1)).map (fun i => l[i]?) =
      l.head? :: (List.range n).map fun i => l.tail[i]? := by
  rw [List.range_succ_eq_map, List.map_cons, List.map_map, List.head?_eq_getElem?]
  refine congrArg _ (List.map_congr_left fun i _ => ?_)
  rw [List.getElem?_tail]
  rfl

/-- The calls answer with the remaining declarations one by one, and with none after the last. -/
theorem calls_eq_map_range (n : Nat) (t : Traversal) :
    t.calls n = (List.range n).map fun i => t.remaining[i]? := by
  induction n generalizing t with
  | zero => rfl
  | succ n ih => rw [calls, ih, map_getElem?_range_succ, next_fst_eq_head?, remaining_next]

theorem take_eq_take_remaining (n : Nat) (t : Traversal) : t.take n = t.remaining.take n := by
  induction n generalizing t with
  | zero => rfl
  | succ n ih =>
    rw [take]
    split
    · rename_i rest h
      rw [(remaining_of_next_eq_none h).1, List.take_nil]
    · rename_i d rest h
      rw [remaining_of_next_eq_some h, List.take_succ_cons, ih]

/-- The calls visit the first of the upcoming nodes. -/
theorem visitedIn_prefix (n : Nat) (t : Traversal) : t.visitedIn n <+: t.upcoming := by
  induction n generalizing t with
  | zero => exact List.nil_prefix
  | succ n ih =>
    rw [visitedIn, upcoming_eq_visited_append]
    exact (List.prefix_append_right_inj t.visited).mpr (ih t.next.2)

/-- Once a call is left without an answer, every upcoming node has been visited. -/
theorem visitedIn_eq_upcoming {n : Nat} {t : Traversal} (h : t.remaining.length < n) :
    t.visitedIn n = t.upcoming := by
  induction n generalizing t with
  | zero => cases h
  | succ n ih =>
    rw [visitedIn, upcoming_eq_visited_append]
    refine congrArg _ ?_
    cases hanswer : t.next.1 with
    | none =>
      -- Nothing is left, so later calls have nothing to visit.
      have hprefix := visitedIn_prefix n t.next.2
      rw [upcoming_next_of_none hanswer] at hprefix ⊢
      exact List.prefix_nil.mp hprefix
    | some d =>
      refine ih ?_
      rw [remaining_eq_append, hanswer] at h
      simpa using h

/-! ### A whole tree -/

theorem upcoming_ofTree (t : SyntaxTree) : (ofTree t).upcoming = Visit.all none t.root := by
  show [(none, t.root)].flatMap (fun v : Visit => Visit.all v.1 v.2) = _
  rw [List.flatMap_cons, List.flatMap_nil, List.append_nil]

theorem remaining_ofTree (t : SyntaxTree) : (ofTree t).remaining = t.declarations := by
  rw [remaining, upcoming_ofTree]
  rfl

/-- **A traversal refines recursive pre-order**: the calls on a tree answer with the declarations
that its named nodes make in pre-order, one by one and none after the last, and they visit these
nodes in that order, none of them twice, until all are visited. -/
theorem calls_refine_preorder (t : SyntaxTree) (n : Nat) :
    (ofTree t).calls n = (List.range n).map (fun i => t.declarations[i]?) ∧
      (ofTree t).take n = t.declarations.take n ∧
      (ofTree t).visitedIn n <+: Visit.all none t.root ∧
      (t.declarations.length < n → (ofTree t).visitedIn n = Visit.all none t.root) := by
  refine ⟨?_, ?_, ?_, fun hn => ?_⟩
  · rw [calls_eq_map_range, remaining_ofTree]
  · rw [take_eq_take_remaining, remaining_ofTree]
  · rw [← upcoming_ofTree]
    exact visitedIn_prefix n (ofTree t)
  · rw [← upcoming_ofTree]
    exact visitedIn_eq_upcoming (by rwa [remaining_ofTree])

end Traversal

end SymbolIndex.Syntax
