import SymbolIndex.JavaScript.Parse
import SymbolIndex.Proofs.JavaScript.Statement
import SymbolIndex.Proofs.Syntax.Fault

/-!
# Every text places its definitions

The invariant of readers holds at every depth of the grammar (`Grammar.placing_upTo`). So the syntax
tree of a text has its definitions in the order in which they start, no two of them at one place,
and each is made of the parts that the grammar has for it. This is so for faulty texts too: an error
is no definition.
-/

namespace SymbolIndex.JavaScript

open Syntax Lexical Reader

namespace Grammar

/-! ### All depths -/

/-- One level further out the readers place definitions as well, if those inside do. -/
theorem Placing.deepen {inner : Grammar} (h : inner.Placing) : inner.deepen.Placing where
  expression := h.wholeExpression
  operand := h.unary
  braced := h.object
  construction := h.newExpression
  statement := h.anyStatement
  markup := h.element

/-- The readers place definitions at every depth, by induction on the number of levels. -/
theorem placing_upTo (n : Nat) : (upTo n).Placing := by
  induction n with
  | zero => exact placing_empty
  | succ n ih => exact ih.deepen

/-! ### Whole texts -/

theorem after_shellLine : After 0 0 [] shellLine := by
  refine .read after_extras fun before => ?_
  refine .look .rest fun cs => ?_
  split
  · exact .read (after_leaf rfl _) fun n => .pure (by simp)
  · exact .pure (by simp)

/-- Statements read one after the other place their definitions, as long as each of them does. -/
theorem after_statementsBy {step : Reader (Option Node)} (hstep : After 0 0 [] step)
    (found : List Node) : After 0 0 (outline found) (statementsBy step found) := by
  refine .loop rfl fun found => ?_
  refine .read after_extras fun before => ?_
  refine .look .rest fun cs => ?_
  split
  · exact .pure (by simp)
  · refine .read hstep fun s? => ?_
    cases s? with
    | some s => exact .pure (by simp)
    | none => exact .pure (by simp)

variable {inner : Grammar} (h : inner.Placing)
include h

/-- A program is no definition and holds those of its statements. -/
theorem Placing.program : After 0 0 [] inner.program := by
  have hstatement : After 0 0 [] (some <$> inner.anyStatement false) :=
    .map (h.anyStatement _) fun n => by simp
  refine .bind (.bind after_shellLine (after_statementsBy hstatement)) fun ns => ?_
  refine .look .get fun c => .pure ?_
  rw [outline_node, program.whole, Node.outline_branch rfl]
  exact List.Sublist.refl _

theorem Placing.intactStatements : After 0 0 [] inner.intactStatements :=
  .bind after_shellLine (after_statementsBy
    (.orElse (.map (h.anyStatement _) fun n => by simp) (.pure (by simp))))

end Grammar

variable {source : List Char}

/-- What a reader answers that has the whole text before it. -/
theorem placed_of_start {α : Type} [Outlined α] {p : Reader α} {repair : Repair} {a : α}
    {c : Cursor} (hp : After 0 0 [] p) (h : p (.start source repair) = .ok (a, c)) :
    ∃ hi, Placed source 0 hi (outline a) := by
  obtain ⟨-, -, hplaced⟩ :=
    hp source 0 _ a c (Cursor.at_start _ _) (Nat.zero_le _) (.nil _ _ _) h
  exact ⟨_, hplaced⟩

/-- A text that is read to its end has its definitions in their places. -/
theorem placed_readProgram {repair : Repair} {n : Node} (h : readProgram repair source = .ok n) :
    ∃ hi, Placed source 0 hi n.outline := by
  obtain ⟨⟨m, c⟩, hm, hn⟩ := except_bind_eq_ok h
  cases hn
  exact placed_of_start (Grammar.placing_upTo _).program hm

/-! ### Faulty texts -/

theorem outline_remainder (source : List Char) (before : List Node) (c : Cursor) :
    (remainder source before c).outline = [] :=
  Node.outline_leaf rfl _ _

/-- A text of which only the statements in front can be read has the definitions of those, since
what is left of it is an error. -/
theorem placed_brokenProgram (source : List Char) :
    ∃ hi, Placed source 0 hi (brokenProgram source).outline := by
  rw [brokenProgram]
  split
  · rename_i ns c hns
    obtain ⟨hi, hplaced⟩ := placed_of_start (Grammar.placing_upTo _).intactStatements hns
    refine ⟨hi, ?_⟩
    rw [Grammar.program.whole, Node.outline_branch rfl]
    simpa [outline_remainder] using hplaced
  · exact ⟨0, by rw [outline_remainder]; exact .nil _ _ _⟩

/-- Taking the cheaper of two readings keeps the definitions in their places. -/
theorem placed_cheapest {n : Node} (h : ∃ hi, Placed source 0 hi n.outline) :
    ∃ hi, Placed source 0 hi (cheapest source n).outline := by
  rw [cheapest]
  split
  · split
    · exact placed_brokenProgram source
    · refine ⟨0, ?_⟩
      rw [Grammar.program.whole, Node.outline_branch rfl, Node.outlineAll_cons,
        Node.outline_leaf rfl]
      exact .nil _ _ _
  · exact h

theorem placed_unfinishedProgram (source : List Char) :
    ∃ hi, Placed source 0 hi (unfinishedProgram source).outline := by
  rw [unfinishedProgram]
  split
  · rename_i n hn
    exact placed_cheapest (placed_readProgram hn)
  · split
    · rename_i n hn
      exact placed_readProgram hn
    · exact placed_brokenProgram source

/-- A faulty text has its definitions in their places, in whichever way it is repaired. -/
theorem placed_faultyProgram (source : List Char) (offset : Nat) :
    ∃ hi, Placed source 0 hi (faultyProgram source offset).outline := by
  rw [faultyProgram]
  split
  · cases hread : (strayTokens source offset).findSome? fun repair =>
      (readProgram repair source).toOption with
    | none => exact placed_brokenProgram source
    | some n =>
      obtain ⟨repair, -, hn⟩ := List.exists_of_findSome?_eq_some hread
      cases hok : readProgram repair source with
      | error reach =>
        rw [hok] at hn
        cases hn
      | ok m =>
        rw [hok] at hn
        cases hn
        exact placed_readProgram hok
  · exact placed_unfinishedProgram source

/-- **The definitions of a text start one after the other, and are made of what the grammar has for
them.** -/
theorem placed_programOf (source : List Char) :
    ∃ hi, Placed source 0 hi (programOf source).outline := by
  rw [programOf]
  split
  · rename_i n hn
    exact placed_readProgram hn
  · exact placed_faultyProgram source _

section Accepted

variable {source : String} {path : Path} {t : SyntaxTree}

/-- The definitions of an accepted text are in their places. -/
theorem placed_of_parse (h : parse source path = .ok t) :
    ∃ hi, Placed t.source.toList 0 hi t.root.outline := by
  rw [SyntaxTree.eq_of_ofRoot h]
  exact placed_programOf _

/-- The definitions of an accepted text are made of what the grammar has for them. -/
theorem parts_of_parse (h : parse source path = .ok t) {n : Node} (hn : n ∈ t.root.preorder) :
    n.kind.Parts t.source.toList n.children := by
  obtain ⟨hi, hplaced⟩ := placed_of_parse h
  exact hplaced.parts_of_mem hn

/-- A class of an accepted text opens with a decorator or with its keyword, unless an error is in
front of it. -/
theorem opening_of_parse (h : parse source path = .ok t) {n : Node} (hn : n ∈ t.root.preorder)
    (hsort : n.kind.sort? = some .ofClass) :
    n.start.IsIn t.source.toList ∧ ClassOpening t.source.toList n.start n.children := by
  obtain ⟨hi, hplaced⟩ := placed_of_parse h
  exact ⟨hplaced.isIn_of_mem hn hsort, hplaced.opening_of_mem hn hsort⟩

/-- There is no error in an accepted text. -/
theorem kind_ne_error_of_parse (h : parse source path = .ok t) {n : Node}
    (hn : n ∈ t.root.preorder) : n.kind ≠ .error := by
  intro herror
  have hfault : n.isFault = true := by
    rw [Node.isFault, herror]
    rfl
  exact SyntaxTree.not_isFault_of_ofRoot h n hn hfault

/-- A node is found in the tree of a text by evaluation. -/
theorem exists_visit_of_parse (source : String) (path : Path) (test : SyntaxTree → Visit → Bool)
    (h : (parse source path).toOption.any (fun t => (Visit.all none t.root).any (test t)) = true) :
    ∃ t, parse source path = .ok t ∧ ∃ v ∈ Visit.all none t.root, test t v = true := by
  cases hparse : parse source path with
  | error e =>
    rw [hparse] at h
    cases h
  | ok t =>
    rw [hparse] at h
    exact ⟨t, rfl, List.any_eq_true.mp h⟩

end Accepted

end SymbolIndex.JavaScript
