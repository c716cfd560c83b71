import Mathlib.Data.List.Lex
import Mathlib.Logic.Function.Iterate
import SymbolIndex.Proofs.Syntax.Fault

/-!
# A search moves a cursor through its tree

A search with a cursor is a machine of two alternating loops (`Search.step`): at a node that it has
come to it looks whether that is the one, and if not, goes on to the first child; from a node that
it is done with it goes on to the next sibling, or else is done with the parent as well. It does not
remember where it has been. Still it ends, since each step lowers the sum of twice the number of the
nodes to come and the number of the nodes above (`Search.Steps.size`).

What a step keeps carries over to a whole run: the cursor is on its tree (`Search.Steps.isOn`), the
answer is the first of the nodes to come (`Search.Steps.answer`), and the nodes that are looked at
are those up to the answer (`Search.Steps.route`). That no node is looked at twice is read off the
places of the nodes, that is, the numbers of the children on the way to them: in pre-order they
increase lexicographically (`Search.pairwise_visits`).
-/

namespace SymbolIndex.Syntax

/-! ### Places in a tree -/

/-- The node that is reached by the numbers of children. -/
def Node.at? : List Nat → Node → Option Node
  | [], n => some n
  | i :: place, n => n.children[i]?.bind (at? place)

theorem Node.at?_concat (place : List Nat) (i : Nat) (n : Node) :
    n.at? (place ++ [i]) = (n.at? place).bind (·.children[i]?) := by
  induction place generalizing n with
  | nil =>
    show n.children[i]?.bind some = n.children[i]?
    exact Option.bind_fun_some _
  | cons j place ih =>
    rw [List.cons_append, at?, at?, Option.bind_assoc]
    exact congrArg _ (funext ih)

namespace TreeCursor

/-- The numbers of the children on the way to a node, given the siblings after it and what is above
it. -/
def placeUnder : List Node → List (Node × List Node) → List Nat
  | _, [] => []
  | later, (parent, siblings) :: above =>
    placeUnder siblings above ++ [parent.children.length - later.length - 1]

/-- The numbers of the children on the way from the root to the node. -/
def place (c : TreeCursor) : List Nat := placeUnder c.later c.above

/-- The cursor is at a node of the tree, and knows the way back. -/
inductive IsOn (root : Node) : TreeCursor → Prop
  | root : IsOn root (ofRoot root)
  | child {c : TreeCursor} {before later : List Node} {n : Node} (hc : IsOn root c)
      (hchildren : c.node.children = before ++ n :: later) :
      IsOn root ⟨n, later, (c.node, c.later) :: c.above⟩

variable {root : Node} {c d : TreeCursor}

theorem place_child {before later : List Node} {n : Node}
    (hchildren : c.node.children = before ++ n :: later) :
    place ⟨n, later, (c.node, c.later) :: c.above⟩ = c.place ++ [before.length] := by
  have hnumber : c.node.children.length - later.length - 1 = before.length := by
    rw [hchildren, List.length_append, List.length_cons]
    omega
  rw [← hnumber]
  rfl

/-- What is at the place of the cursor is its node. -/
theorem IsOn.at? (h : c.IsOn root) : root.at? c.place = some c.node := by
  induction h with
  | root => rfl
  | child hc hchildren ih =>
    rw [place_child hchildren, Node.at?_concat, ih, Option.bind_some, hchildren,
      List.getElem?_append_right (Nat.le_refl _), Nat.sub_self]
    rfl

/-! ### The three moves

Each of them stays in the tree. Going down leads to the next of the nodes to come, and so does
going to the next sibling from a node that is done with; going up passes by no node. -/

theorem firstChild?_eq_some (hmove : c.firstChild? = some d) :
    ∃ n later, c.node.children = n :: later ∧ d = ⟨n, later, (c.node, c.later) :: c.above⟩ := by
  obtain ⟨⟨kind, field, missing, start, stop, children⟩, later, above⟩ := c
  cases children with
  | nil => cases hmove
  | cons n ns =>
    cases hmove
    exact ⟨n, ns, rfl, rfl⟩

theorem IsOn.firstChild (h : c.IsOn root) (hmove : c.firstChild? = some d) :
    d.IsOn root ∧ d.place = c.place ++ [0] := by
  obtain ⟨n, later, hchildren, rfl⟩ := firstChild?_eq_some hmove
  have hchildren' : c.node.children = [] ++ n :: later := hchildren
  exact ⟨.child h hchildren', place_child hchildren'⟩

theorem IsOn.nextSibling (h : c.IsOn root) (hmove : c.nextSibling? = some d) :
    d.IsOn root ∧ ∃ place i, c.place = place ++ [i] ∧ d.place = place ++ [i + 1] := by
  cases h with
  | root => cases hmove
  | child hc hchildren =>
    rename_i c before later n
    cases later with
    | nil => cases hmove
    | cons m later =>
      cases hmove
      have hchildren' : c.node.children = (before ++ [n]) ++ m :: later := by
        rw [hchildren, List.append_assoc]
        rfl
      refine ⟨.child hc hchildren', c.place, before.length, place_child hchildren, ?_⟩
      rw [place_child hchildren', List.length_append]
      rfl

theorem IsOn.parent (h : c.IsOn root) (hmove : c.parent? = some d) :
    d.IsOn root ∧ ∃ i, c.place = d.place ++ [i] := by
  cases h with
  | root => cases hmove
  | child hc hchildren =>
    cases hmove
    exact ⟨hc, _, rfl⟩

theorem upcoming_of_firstChild (hmove : c.firstChild? = some d) :
    c.upcoming = c.node :: d.upcoming ∧ d.above.length = c.above.length + 1 := by
  obtain ⟨n, later, hchildren, rfl⟩ := firstChild?_eq_some hmove
  refine ⟨?_, rfl⟩
  rw [upcoming_eq_cons, hchildren, Node.preorderAll, List.append_assoc]
  rfl

theorem upcoming_of_childless (hmove : c.firstChild? = none) :
    c.upcoming = c.node :: c.following := by
  obtain ⟨⟨kind, field, missing, start, stop, children⟩, later, above⟩ := c
  cases children with
  | nil => rw [upcoming_eq_cons]; rfl
  | cons n ns => cases hmove

theorem following_of_nextSibling (hmove : c.nextSibling? = some d) :
    c.following = d.upcoming ∧ d.above.length = c.above.length := by
  obtain ⟨node, later, above⟩ := c
  cases later with
  | nil => cases hmove
  | cons n ns =>
    cases hmove
    exact ⟨List.append_assoc n.preorder (Node.preorderAll ns) _, rfl⟩

theorem following_of_parent (hlast : c.nextSibling? = none) (hmove : c.parent? = some d) :
    c.following = d.following ∧ c.above.length = d.above.length + 1 := by
  obtain ⟨node, later, above⟩ := c
  cases later with
  | cons n ns => cases hlast
  | nil =>
    cases above with
    | nil => cases hmove
    | cons frame above =>
      cases hmove
      exact ⟨rfl, rfl⟩

theorem following_of_parentless (hlast : c.nextSibling? = none) (hmove : c.parent? = none) :
    c.following = [] ∧ c.above = [] := by
  obtain ⟨node, later, above⟩ := c
  cases later with
  | cons n ns => cases hlast
  | nil =>
    cases above with
    | nil => exact ⟨rfl, rfl⟩
    | cons frame above => cases hmove

end TreeCursor

/-! ### The search as a machine -/

/-- What a search with a cursor does next. -/
inductive Search where
  /-- It looks at the node that it has come to. -/
  | arrive (c : TreeCursor)
  /-- It goes on from a node that it is done with, and with all below it. -/
  | leave (c : TreeCursor)
  /-- It has ended. -/
  | done (found : Option Node)

namespace Search

variable {root : Node} {p : Node → Bool}

/-- One step of the search for a node with the property `p`. -/
def step (p : Node → Bool) : Search → Search
  | arrive c =>
    if p c.node then done (some c.node)
    else match c.firstChild? with
      | some d => arrive d
      | none => leave c
  | leave c =>
    match c.nextSibling? with
    | some d => arrive d
    | none => match c.parent? with
      | some d => leave d
      | none => done none
  | done found => done found

/-- What a step can do, with the conditions under which it does so. -/
inductive Steps (p : Node → Bool) : Search → Search → Prop
  | found {c : TreeCursor} (hp : p c.node) : Steps p (arrive c) (done (some c.node))
  | down {c d : TreeCursor} (hp : ¬ p c.node) (hmove : c.firstChild? = some d) :
      Steps p (arrive c) (arrive d)
  | stay {c : TreeCursor} (hp : ¬ p c.node) (hmove : c.firstChild? = none) :
      Steps p (arrive c) (leave c)
  | across {c d : TreeCursor} (hmove : c.nextSibling? = some d) : Steps p (leave c) (arrive d)
  | up {c d : TreeCursor} (hlast : c.nextSibling? = none) (hmove : c.parent? = some d) :
      Steps p (leave c) (leave d)
  | finish {c : TreeCursor} (hlast : c.nextSibling? = none) (hmove : c.parent? = none) :
      Steps p (leave c) (done none)
  | rest (found : Option Node) : Steps p (done found) (done found)

theorem steps_step (p : Node → Bool) (s : Search) : Steps p s (s.step p) := by
  cases s with
  | arrive c =>
    rw [step]
    split
    · rename_i hp
      exact .found hp
    · rename_i hp
      split
      · rename_i hmove
        exact .down hp hmove
      · rename_i hmove
        exact .stay hp hmove
  | leave c =>
    rw [step]
    split
    · rename_i hmove
      exact .across hmove
    · rename_i hlast
      split
      · rename_i hmove
        exact .up hlast hmove
      · rename_i hmove
        exact .finish hlast hmove
  | done found => exact .rest found

/-! ### It ends -/

/-- A bound on the number of steps that are left. -/
def size : Search → Nat
  | arrive c => 2 * c.upcoming.length + c.above.length
  | leave c => 1 + 2 * c.following.length + c.above.length
  | done _ => 0

theorem Steps.size {s s' : Search} (h : Steps p s s') : s'.size ≤ s.size - 1 := by
  cases h with
  | found => exact Nat.zero_le _
  | down hp hmove =>
    obtain ⟨hupcoming, habove⟩ := TreeCursor.upcoming_of_firstChild hmove
    simp only [Search.size, hupcoming, habove, List.length_cons]
    omega
  | stay hp hmove =>
    simp only [Search.size, TreeCursor.upcoming_of_childless hmove, List.length_cons]
    omega
  | across hmove =>
    obtain ⟨hfollowing, habove⟩ := TreeCursor.following_of_nextSibling hmove
    simp only [Search.size, hfollowing, habove]
    omega
  | up hlast hmove =>
    obtain ⟨hfollowing, habove⟩ := TreeCursor.following_of_parent hlast hmove
    simp only [Search.size, hfollowing, habove]
    omega
  | finish => exact Nat.zero_le _
  | rest => exact Nat.zero_le _

theorem size_iterate (p : Node → Bool) (k : Nat) (s : Search) :
    ((step p)^[k] s).size ≤ s.size - k := by
  induction k generalizing s with
  | zero => exact Nat.le_refl _
  | succ k ih =>
    have hstep := (steps_step p s).size
    have hrun := ih (s.step p)
    rw [Function.iterate_succ_apply]
    omega

/-- Only a search that has ended has nothing left to do. -/
theorem exists_done_of_size_eq_zero {s : Search} (h : s.size = 0) : ∃ found, s = done found := by
  cases s with
  | arrive c =>
    rw [size, TreeCursor.upcoming_eq_cons, List.length_cons] at h
    omega
  | leave c =>
    rw [size] at h
    omega
  | done found => exact ⟨found, rfl⟩

/-! ### It stays in its tree -/

/-- The cursor of the search is on the tree. -/
def IsOn (root : Node) : Search → Prop
  | arrive c => c.IsOn root
  | leave c => c.IsOn root
  | done _ => True

theorem Steps.isOn {s s' : Search} (h : Steps p s s') (hs : s.IsOn root) : s'.IsOn root := by
  cases h with
  | found => trivial
  | down hp hmove => exact (TreeCursor.IsOn.firstChild hs hmove).1
  | stay => exact hs
  | across hmove => exact (TreeCursor.IsOn.nextSibling hs hmove).1
  | up hlast hmove => exact (TreeCursor.IsOn.parent hs hmove).1
  | finish => trivial
  | rest => trivial

theorem isOn_iterate {s : Search} (hs : s.IsOn root) (k : Nat) : ((step p)^[k] s).IsOn root := by
  induction k with
  | zero => exact hs
  | succ k ih =>
    rw [Function.iterate_succ_apply']
    exact (steps_step p _).isOn ih

/-! ### It finds the first node -/

/-- What the search will have found: the first of the nodes that it has not looked at. -/
def answer (p : Node → Bool) : Search → Option Node
  | arrive c => c.upcoming.find? p
  | leave c => c.following.find? p
  | done found => found

theorem Steps.answer {s s' : Search} (h : Steps p s s') : s'.answer p = s.answer p := by
  cases h with
  | found hp =>
    simp only [Search.answer]
    rw [TreeCursor.upcoming_eq_cons, List.find?_cons_of_pos hp]
  | down hp hmove =>
    simp only [Search.answer]
    rw [(TreeCursor.upcoming_of_firstChild hmove).1, List.find?_cons_of_neg hp]
  | stay hp hmove =>
    simp only [Search.answer]
    rw [TreeCursor.upcoming_of_childless hmove, List.find?_cons_of_neg hp]
  | across hmove =>
    simp only [Search.answer]
    rw [(TreeCursor.following_of_nextSibling hmove).1]
  | up hlast hmove =>
    simp only [Search.answer]
    rw [(TreeCursor.following_of_parent hlast hmove).1]
  | finish hlast hmove =>
    simp only [Search.answer]
    rw [(TreeCursor.following_of_parentless hlast hmove).1, List.find?_nil]
  | rest => rfl

theorem answer_iterate (p : Node → Bool) (k : Nat) (s : Search) :
    ((step p)^[k] s).answer p = s.answer p := by
  induction k with
  | zero => rfl
  | succ k ih => rw [Function.iterate_succ_apply', (steps_step p _).answer, ih]

/-- A search that is given enough steps has ended with its answer. -/
theorem iterate_eq_done {s : Search} {k : Nat} (h : s.size ≤ k) :
    (step p)^[k] s = done (s.answer p) := by
  have hsize := size_iterate p k s
  obtain ⟨found, hfound⟩ := exists_done_of_size_eq_zero (s := (step p)^[k] s) (by omega)
  have hanswer := answer_iterate p k s
  rw [hfound] at hanswer
  rw [hfound, ← hanswer]
  rfl

/-! ### What it looks at -/

/-- The place at which the search looks. -/
def lookedAt : Search → List TreeCursor
  | arrive c => [c]
  | leave _ => []
  | done _ => []

/-- The places at which the search looks in the first `k` steps. -/
def visits (p : Node → Bool) : Nat → Search → List TreeCursor
  | 0, _ => []
  | k + 1, s => s.lookedAt ++ visits p k (s.step p)

theorem eq_arrive_of_mem_lookedAt {s : Search} {c : TreeCursor} (h : c ∈ s.lookedAt) :
    s = arrive c := by
  cases s with
  | arrive d => rw [List.mem_singleton.mp h]
  | leave d => cases h
  | done found => cases h

theorem isOn_of_mem_visits {s : Search} (hs : s.IsOn root) {k : Nat} {c : TreeCursor}
    (hc : c ∈ visits p k s) : c.IsOn root := by
  induction k generalizing s with
  | zero => cases hc
  | succ k ih =>
    rcases List.mem_append.mp hc with hc | hc
    · cases eq_arrive_of_mem_lookedAt hc
      exact hs
    · exact ih ((steps_step p s).isOn hs) hc

/-- The nodes up to the first that has the property `p`, and this one. -/
def upTo (p : Node → Bool) (ns : List Node) : List Node :=
  ns.takeWhile (!p ·) ++ (ns.find? p).toList

theorem upTo_cons_of_pos {n : Node} (hp : p n) (ns : List Node) : upTo p (n :: ns) = [n] := by
  rw [upTo, List.find?_cons_of_pos hp, List.takeWhile_cons_of_neg (by simpa using hp)]
  rfl

theorem upTo_cons_of_neg {n : Node} (hp : ¬ p n) (ns : List Node) :
    upTo p (n :: ns) = n :: upTo p ns := by
  rw [upTo, List.find?_cons_of_neg hp, List.takeWhile_cons_of_pos (by simpa using hp)]
  rfl

theorem upTo_isPrefix (p : Node → Bool) (ns : List Node) : upTo p ns <+: ns := by
  induction ns with
  | nil => exact List.prefix_refl _
  | cons n ns ih =>
    by_cases hp : p n
    · rw [upTo_cons_of_pos hp]
      exact List.prefix_append [n] ns
    · rw [upTo_cons_of_neg hp]
      exact List.cons_prefix_cons.mpr ⟨rfl, ih⟩

/-- The nodes that the search will have looked at. -/
def route (p : Node → Bool) : Search → List Node
  | arrive c => upTo p c.upcoming
  | leave c => upTo p c.following
  | done _ => []

theorem Steps.route {s s' : Search} (h : Steps p s s') :
    s.route p = s.lookedAt.map (·.node) ++ s'.route p := by
  cases h with
  | found hp =>
    simp only [Search.route]
    rw [TreeCursor.upcoming_eq_cons, upTo_cons_of_pos hp]
    rfl
  | down hp hmove =>
    simp only [Search.route]
    rw [(TreeCursor.upcoming_of_firstChild hmove).1, upTo_cons_of_neg hp]
    rfl
  | stay hp hmove =>
    simp only [Search.route]
    rw [TreeCursor.upcoming_of_childless hmove, upTo_cons_of_neg hp]
    rfl
  | across hmove =>
    simp only [Search.route]
    rw [(TreeCursor.following_of_nextSibling hmove).1]
    rfl
  | up hlast hmove =>
    simp only [Search.route]
    rw [(TreeCursor.following_of_parent hlast hmove).1]
    rfl
  | finish hlast hmove =>
    simp only [Search.route]
    rw [(TreeCursor.following_of_parentless hlast hmove).1]
    rfl
  | rest => rfl

theorem route_eq_visits (p : Node → Bool) (k : Nat) (s : Search) :
    s.route p = (visits p k s).map (·.node) ++ ((step p)^[k] s).route p := by
  induction k generalizing s with
  | zero => rfl
  | succ k ih =>
    rw [(steps_step p s).route, ih (s.step p), visits, List.map_append, List.append_assoc,
      Function.iterate_succ_apply]

/-! ### It looks at no node twice -/

/-- The search may still come to the place `q`: it is not before the place at which the search
looks, or it is behind all that is below the node that the search is done with. -/
def IsAhead (q : List Nat) : Search → Prop
  | arrive c => c.place ≤ q
  | leave c => ∀ below, c.place ++ below < q
  | done _ => False

theorem Steps.place_lt {c : TreeCursor} {s : Search} {q : List Nat} (h : Steps p (arrive c) s)
    (hc : c.IsOn root) (hq : s.IsAhead q) : c.place < q := by
  cases h with
  | found => cases hq
  | down hp hmove =>
    have hbelow : c.place < c.place ++ [0] := by
      have happend : c.place ++ [] < c.place ++ [0] := List.append_left_lt (List.nil_lt_cons 0 [])
      rwa [List.append_nil] at happend
    exact lt_of_lt_of_le hbelow ((hc.firstChild hmove).2 ▸ hq)
  | stay => exact List.append_nil c.place ▸ hq []

theorem Steps.below_lt {c : TreeCursor} {s : Search} {q : List Nat} (h : Steps p (leave c) s)
    (hc : c.IsOn root) (hq : s.IsAhead q) (below : List Nat) : c.place ++ below < q := by
  cases h with
  | across hmove =>
    obtain ⟨-, place, i, hplace, hnext⟩ := hc.nextSibling hmove
    have hnumber : i :: below < [i + 1] :=
      List.cons_lt_cons_iff.mpr (.inl (Nat.lt_succ_self i))
    have hbelow : c.place ++ below < place ++ [i + 1] := by
      rw [hplace, List.append_assoc]
      exact List.append_left_lt hnumber
    exact lt_of_lt_of_le hbelow (hnext ▸ hq)
  | up hlast hmove =>
    obtain ⟨-, i, hplace⟩ := hc.parent hmove
    rw [hplace, List.append_assoc]
    exact hq _
  | finish => cases hq

theorem Steps.isAhead {s s' : Search} {q : List Nat} (h : Steps p s s') (hs : s.IsOn root)
    (hq : s'.IsAhead q) : s.IsAhead q := by
  cases s with
  | arrive c => exact (h.place_lt hs hq).le
  | leave c => exact h.below_lt hs hq
  | done found =>
    cases h
    exact hq

theorem isAhead_of_mem_visits {s : Search} (hs : s.IsOn root) {k : Nat} {c : TreeCursor}
    (hc : c ∈ visits p k s) : s.IsAhead c.place := by
  induction k generalizing s with
  | zero => cases hc
  | succ k ih =>
    have hstep := steps_step p s
    rcases List.mem_append.mp hc with hc | hc
    · cases eq_arrive_of_mem_lookedAt hc
      exact le_refl _
    · exact hstep.isAhead hs (ih (hstep.isOn hs) hc)

/-- The places at which the search looks increase, that is, they are in pre-order. -/
theorem pairwise_visits {s : Search} (hs : s.IsOn root) (k : Nat) :
    (visits p k s).Pairwise fun c d => c.place < d.place := by
  induction k generalizing s with
  | zero => exact .nil
  | succ k ih =>
    have hstep := steps_step p s
    have hon := hstep.isOn hs
    cases s with
    | arrive c =>
      exact .cons (fun d hd => hstep.place_lt hs (isAhead_of_mem_visits hon hd)) (ih hon)
    | leave c => exact ih hon
    | done found => exact ih hon

end Search

/-! ### The search for markup -/

open Search in
/-- **A search for markup with a cursor ends, in its tree, at the first markup node in pre-order.**
However many steps it makes, its cursor is on the tree from whose root it started, and the nodes
that it has looked at are the first nodes of the tree in pre-order, with the places of their cursors
increasing, so that no node is looked at twice. After two steps for each node of the tree it has
ended, and has looked at exactly the nodes up to the first of markup, or at all if there is none.
Its answer, which is that of `Node.firstMarkup?`, is the first node whose kind starts with `jsx_`,
and there is none only if no node of the tree is of such a kind. -/
theorem Node.firstMarkup?_by_cursor (root : Node) :
    let markup : Node → Bool := (·.kind.isMarkup)
    let start := arrive (.ofRoot root)
    let steps := 2 * root.preorder.length
    (∀ k, ((step markup)^[k] start).IsOn root ∧
      (visits markup k start).map (·.node) <+: root.preorder ∧
      (∀ c ∈ visits markup k start, root.at? c.place = some c.node) ∧
      (visits markup k start).Pairwise fun c d => c.place < d.place) ∧
    (∀ k, (step markup)^[steps + k] start = done root.firstMarkup? ∧
      (visits markup (steps + k) start).map (·.node) = upTo markup root.preorder) ∧
    (∀ n, root.firstMarkup? = some n ↔
      n.IsFirst (fun m => "jsx_".toList.isPrefixOf m.kind.label.toList) root.preorder) ∧
    (root.firstMarkup? = none ↔
      ∀ n ∈ root.preorder, ¬ "jsx_".toList <+: n.kind.label.toList) := by
  intro markup start steps
  have hupcoming : (TreeCursor.ofRoot root).upcoming = root.preorder := List.append_nil _
  have hon : start.IsOn root := .root
  have hsize : start.size = steps := by
    show 2 * (TreeCursor.ofRoot root).upcoming.length + 0 = _
    rw [hupcoming]
    rfl
  have hanswer : start.answer markup = root.firstMarkup? := by
    rw [firstMarkup?_eq]
    exact congrArg _ hupcoming
  have hvisits (k : Nat) : upTo markup root.preorder =
      (visits markup k start).map (·.node) ++ ((step markup)^[k] start).route markup := by
    rw [← route_eq_visits, ← hupcoming]
    rfl
  have hend (k : Nat) : (step markup)^[steps + k] start = done root.firstMarkup? := by
    rw [iterate_eq_done (hsize.trans_le (Nat.le_add_right _ _)), hanswer]
  refine ⟨fun k => ⟨isOn_iterate hon k, ?_, ?_, pairwise_visits hon k⟩, fun k => ?_,
    fun n => ?_, ?_⟩
  · exact (hvisits k ▸ List.prefix_append _ _).trans (upTo_isPrefix markup root.preorder)
  · exact fun c hc => (isOn_of_mem_visits hon hc).at?
  · refine ⟨hend k, ?_⟩
    rw [hvisits (steps + k), hend k]
    exact (List.append_nil _).symm
  · rw [firstMarkup?_eq]
    exact find?_eq_some_iff_isFirst
  · rw [firstMarkup?_eq, List.find?_eq_none]
    simp only [Kind.isMarkup, List.isPrefixOf_iff_prefix]

end SymbolIndex.Syntax
