import SymbolIndex.Syntax.Fault

/-!
# Trees that are accepted and trees that are refused

An accepted tree carries the path under which its text is known, and a refusal names that path and a
place in the text. Which place that is depends on two searches that are built differently: the one
for faults leaves out every tree that is flagged as free of them, the one for markup moves a cursor.
Both are plain searches in pre-order:

- `TreeCursor.find?_eq`: a cursor comes by the nodes to come in pre-order, so it finds the first.
- `Node.firstFault?_eq`: the trees that are left out have no fault in them, and a tree that is not
  left out has one, so the search never has to fall back on a node that is not at fault itself.
- `SyntaxTree.ofRoot_reports_first_flaw`: the tree is accepted if no node is at fault or markup, and
  otherwise refused at the first node at fault, or at the first markup node if none is.
-/

namespace SymbolIndex.Syntax

/-! ### Searches in pre-order -/

/-- A search from a cursor on finds the first of the nodes to come. -/
theorem TreeCursor.find?_eq (p : Node → Bool) (c : TreeCursor) :
    c.find? p = c.upcoming.find? p := by
  fun_induction find? p c with
  | case1 c hp => rw [upcoming_eq_of_next?, List.find?_cons_of_pos hp]
  | case2 c hp d hnext ih =>
    rw [upcoming_eq_of_next?, List.find?_cons_of_neg hp, hnext]
    exact ih
  | case3 c hp hnext =>
    rw [upcoming_eq_of_next?, List.find?_cons_of_neg hp, hnext]
    rfl

namespace Node

theorem firstMarkup?_eq (n : Node) : n.firstMarkup? = n.preorder.find? (·.kind.isMarkup) := by
  rw [firstMarkup?, TreeCursor.find?_eq]
  -- Nothing follows the root of a tree.
  show (n.preorder ++ []).find? _ = _
  rw [List.append_nil]

mutual

/-- The search for faults finds the first faulty node, although it leaves out parts of the tree. -/
theorem firstFault?_eq : ∀ n : Node, n.firstFault? = n.preorder.find? isFault
  | ⟨kind, field, missing, start, stop, children⟩ => by
    rw [firstFault?, preorder]
    by_cases hself : isFault ⟨kind, field, missing, start, stop, children⟩
    · rw [if_pos hself, List.find?_cons_of_pos hself]
    rw [if_neg hself, List.find?_cons_of_neg hself]
    -- A fault that is not the node itself is below it, and the flag tells whether there is one.
    rw [hasFault, preorder, List.any_cons, Bool.eq_false_iff.mpr hself, Bool.false_or]
    by_cases hbelow : (preorderAll children).any isFault
    · obtain ⟨m, hm⟩ := Option.isSome_iff_exists.mp
        (List.find?_isSome.mpr (List.any_eq_true.mp hbelow))
      rw [if_pos hbelow, firstFaultOf?_eq children, hm]
      rfl
    · rw [if_neg hbelow]
      refine (List.find?_eq_none.mpr fun m hm hfault => hbelow ?_).symm
      exact List.any_eq_true.mpr ⟨m, hm, hfault⟩

theorem firstFaultOf?_eq : ∀ ns : List Node, firstFaultOf? ns = (preorderAll ns).find? isFault
  | [] => by
    rw [firstFaultOf?, preorderAll]
    rfl
  | n :: ns => by
    rw [firstFaultOf?, preorderAll, List.find?_append, firstFault?_eq n, firstFaultOf?_eq ns]

end

/-- The node `n` is the first of the nodes that has the property `p`. -/
def IsFirst (p : Node → Bool) (ns : List Node) (n : Node) : Prop :=
  p n ∧ ∃ before after, ns = before ++ n :: after ∧ ∀ m ∈ before, ¬ p m

theorem find?_eq_some_iff_isFirst {p : Node → Bool} {ns : List Node} {n : Node} :
    ns.find? p = some n ↔ IsFirst p ns n := by
  rw [List.find?_eq_some_iff_append, IsFirst]
  simp only [Bool.not_eq_true', Bool.not_eq_true]

end Node

namespace SyntaxTree

variable {root : Node} {source : String} {path : Path}

/-! ### Accepted trees -/

/-- An accepted tree is what was given. -/
theorem eq_of_ofRoot {t : SyntaxTree} (h : ofRoot root source path = .ok t) :
    t = ⟨root, source, path⟩ := by
  rw [ofRoot] at h
  split at h
  · cases h
  · split at h
    · cases h
    · cases h
      rfl

theorem path_of_ofRoot {t : SyntaxTree} (h : ofRoot root source path = .ok t) : t.path = path := by
  rw [eq_of_ofRoot h]

theorem error_of_ofRoot {e : Error} (h : ofRoot root source path = .error e) :
    ∃ line column detail, e = .parse path line column detail := by
  rw [ofRoot] at h
  split at h
  · cases h
    exact ⟨_, _, _, rfl⟩
  · split at h
    · cases h
      exact ⟨_, _, _, rfl⟩
    · cases h

/-- No node of an accepted tree is at fault. -/
theorem not_isFault_of_ofRoot {t : SyntaxTree} (h : ofRoot root source path = .ok t) :
    ∀ n ∈ t.root.preorder, ¬ n.isFault := by
  rw [eq_of_ofRoot h]
  rw [ofRoot, Node.firstFault?_eq] at h
  split at h
  · cases h
  · rename_i hnone
    exact List.find?_eq_none.mp hnone

/-! ### What decides -/

theorem ofRoot_of_fault {n : Node} (h : n.IsFirst Node.isFault root.preorder) :
    ofRoot root source path = .error (reportAt path n (n.describeFault source.toList)) := by
  rw [ofRoot, Node.firstFault?_eq, Node.find?_eq_some_iff_isFirst.mpr h]

theorem ofRoot_of_markup {n : Node} (hfault : ∀ m ∈ root.preorder, ¬ m.isFault)
    (h : n.IsFirst (·.kind.isMarkup) root.preorder) :
    ofRoot root source path =
      .error (reportAt path n ("JSX is not supported (`" ++ n.kind.label ++ "`)")) := by
  rw [ofRoot, Node.firstFault?_eq, List.find?_eq_none.mpr hfault, Node.firstMarkup?_eq,
    Node.find?_eq_some_iff_isFirst.mpr h]

theorem ofRoot_of_flawless (hfault : ∀ m ∈ root.preorder, ¬ m.isFault)
    (hmarkup : ∀ m ∈ root.preorder, ¬ m.kind.isMarkup) :
    ofRoot root source path = .ok ⟨root, source, path⟩ := by
  rw [ofRoot, Node.firstFault?_eq, List.find?_eq_none.mpr hfault, Node.firstMarkup?_eq,
    List.find?_eq_none.mpr hmarkup]

/-- There is a first node at fault, or else a first markup node, or else no flaw. -/
theorem flaw_cases (root : Node) :
    (∃ n : Node, n.IsFirst Node.isFault root.preorder) ∨
      (∀ m ∈ root.preorder, ¬ m.isFault) ∧
        ((∃ n : Node, n.IsFirst (·.kind.isMarkup) root.preorder) ∨
          ∀ m ∈ root.preorder, ¬ m.kind.isMarkup) := by
  cases hfault : root.preorder.find? Node.isFault with
  | some n => exact .inl ⟨n, Node.find?_eq_some_iff_isFirst.mp hfault⟩
  | none =>
    refine .inr ⟨List.find?_eq_none.mp hfault, ?_⟩
    cases hmarkup : root.preorder.find? (·.kind.isMarkup) with
    | some n => exact .inl ⟨n, Node.find?_eq_some_iff_isFirst.mp hmarkup⟩
    | none => exact .inr (List.find?_eq_none.mp hmarkup)

/-- **A tree is accepted as it is, or refused at its first flaw.** It is accepted, with its text and
path unchanged, exactly if none of its nodes is at fault and none is markup. If some node is at
fault, the report is about the first of them in pre-order, wherever there is markup; and about the
first markup node if there is markup and no fault. -/
theorem ofRoot_reports_first_flaw (root : Node) (source : String) (path : Path) :
    (∀ t, ofRoot root source path = .ok t ↔
      t = ⟨root, source, path⟩ ∧ ∀ n ∈ root.preorder, ¬ n.isFault ∧ ¬ n.kind.isMarkup) ∧
    ∀ e, ofRoot root source path = .error e ↔
      (∃ n : Node, n.IsFirst Node.isFault root.preorder ∧
        e = .parse path (n.start.line + 1) (n.start.column + 1)
          (n.describeFault source.toList)) ∨
      (∀ m ∈ root.preorder, ¬ m.isFault) ∧
        ∃ n : Node, n.IsFirst (·.kind.isMarkup) root.preorder ∧
          e = .parse path (n.start.line + 1) (n.start.column + 1)
            ("JSX is not supported (`" ++ n.kind.label ++ "`)") := by
  refine ⟨fun t => ⟨fun h => ⟨eq_of_ofRoot h, ?_⟩, ?_⟩, fun e => ⟨fun h => ?_, ?_⟩⟩
  · rcases flaw_cases root with ⟨n, hn⟩ | ⟨hfault, ⟨n, hn⟩ | hmarkup⟩
    · rw [ofRoot_of_fault hn] at h
      cases h
    · rw [ofRoot_of_markup hfault hn] at h
      cases h
    · exact fun n hn => ⟨hfault n hn, hmarkup n hn⟩
  · rintro ⟨rfl, hflawless⟩
    exact ofRoot_of_flawless (fun n hn => (hflawless n hn).1) fun n hn => (hflawless n hn).2
  · rcases flaw_cases root with ⟨n, hn⟩ | ⟨hfault, ⟨n, hn⟩ | hmarkup⟩
    · rw [ofRoot_of_fault hn] at h
      exact .inl ⟨n, hn, (Except.error.inj h).symm⟩
    · rw [ofRoot_of_markup hfault hn] at h
      exact .inr ⟨hfault, n, hn, (Except.error.inj h).symm⟩
    · rw [ofRoot_of_flawless hfault hmarkup] at h
      cases h
  · rintro (⟨n, hn, rfl⟩ | ⟨hfault, n, hn, rfl⟩)
    · exact ofRoot_of_fault hn
    · exact ofRoot_of_markup hfault hn

end SyntaxTree

end SymbolIndex.Syntax
