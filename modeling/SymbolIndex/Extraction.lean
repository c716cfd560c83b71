import SymbolIndex.Log
import SymbolIndex.Syntax.Traversal

/-!
# Extraction of symbols

Every function declaration gives a symbol, and so does every method of a class declaration whose
key is a plain or private name. `SyntaxTree.findings` is all that is found in a tree, in order;
a `SymbolStream` finds the same one symbol at a time, and looks no further into the tree than it
must.
-/

namespace SymbolIndex

open Syntax

/-- Which declarations become symbols. -/
structure ExtractOptions where
  /-- Constructors are methods like others. -/
  includeConstructors : Bool
  deriving DecidableEq, Repr

/-- The options in force where none are chosen. -/
def ExtractOptions.standard : ExtractOptions := ⟨true⟩

/-- Something found in a tree. -/
inductive Finding where
  | symbol (s : Symbol)
  /-- A declaration that gives no symbol, and why. -/
  | skipped (e : Event)
  deriving DecidableEq, Repr

namespace Finding

/-- The symbol found. -/
def symbol? : Finding → Option Symbol
  | symbol s => some s
  | skipped _ => none

/-- The event to tell. -/
def event? : Finding → Option Event
  | symbol _ => none
  | skipped e => some e

variable (options : ExtractOptions) (path : Path)

/-- Whether a method is left out because of what it is for. -/
def isExcluded (m : Method) : Bool := m.kind = .constructor && !options.includeConstructors

/-- What a member of the class `c` gives: nothing if it is no method or left out. -/
def ofMember? (c : ClassDeclaration) : Member → Option Finding
  | .other => none
  | .method m =>
    if isExcluded options m then none
    else match m.simpleName? with
      | some name => some (.symbol (.method name c.name m.isStatic c.superclass path))
      | none => some (.skipped (.memberSkipped m.key c.name path m.line))

/-- What a declaration gives. A class first tells what it leaves out. -/
def ofDeclaration : Declaration → List Finding
  | .functionDeclaration f => [.symbol (.function f.name path)]
  | .classDeclaration c =>
    let found := c.members.filterMap (ofMember? options path c)
    found.filter (·.event?.isSome) ++ found.filter (·.symbol?.isSome)
  | .malformed kind nameless line => [.skipped (.declarationSkipped kind nameless path line)]

end Finding

namespace Syntax.SyntaxTree

/-- All that is found in a tree, in order. -/
def findings (t : SyntaxTree) (options : ExtractOptions) : List Finding :=
  t.declarations.flatMap (Finding.ofDeclaration options t.path)

/-- The symbols of a tree, in order. -/
def symbols (t : SyntaxTree) (options : ExtractOptions) : List Symbol :=
  (t.findings options).filterMap Finding.symbol?

end Syntax.SyntaxTree

/-! ### One symbol at a time -/

/-- The symbols of a tree that are still to be found. -/
structure SymbolStream where
  traversal : Traversal
  path : Path
  options : ExtractOptions
  /-- Symbols that are found already and not handed out. -/
  pending : List Symbol

namespace SymbolStream

/-- The symbols of a tree. -/
def ofTree (t : SyntaxTree) (options : ExtractOptions) : SymbolStream :=
  ⟨.ofTree t, t.path, options, []⟩

/-- Puts what a member of the class `c` gives behind the pending symbols, or tells why it gives
none. -/
def queueMember (c : ClassDeclaration) (s : SymbolStream) : Member → Logged SymbolStream
  | .other => pure s
  | .method m =>
    if Finding.isExcluded s.options m then pure s
    else match m.simpleName? with
      | some name =>
        pure { s with
          pending := s.pending ++ [.method name c.name m.isStatic c.superclass s.path] }
      | none => ⟨s, [.memberSkipped m.key c.name s.path m.line]⟩

/-- Puts the methods of a class behind the pending symbols. -/
def queueMethods (s : SymbolStream) (c : ClassDeclaration) : Logged SymbolStream :=
  c.members.foldlM (queueMember c) s

/-- Queueing looks into the class and no further into the tree. -/
theorem queueMember_traversal (c : ClassDeclaration) (s : SymbolStream) (m : Member) :
    (queueMember c s m).value.traversal = s.traversal := by
  cases m with
  | other => rfl
  | method m =>
    rw [queueMember]
    split
    · rfl
    · split <;> rfl

theorem queueMethods_traversal (s : SymbolStream) (c : ClassDeclaration) :
    (s.queueMethods c).value.traversal = s.traversal := by
  rw [queueMethods]
  generalize c.members = members
  induction members generalizing s with
  | nil => rfl
  | cons m members ih =>
    exact (ih (queueMember c s m).value).trans (queueMember_traversal c s m)

/-- The next symbol, if there is one, what is still to be found after it, and what is told on the
way. Pending symbols come first; then one declaration after the other is looked into. -/
def next (s : SymbolStream) : Logged (Option Symbol × SymbolStream) :=
  match s.pending with
  | found :: rest => pure (some found, { s with pending := rest })
  | [] => match _h : s.traversal.next with
    | (none, t) => pure (none, { s with traversal := t })
    | (some (.functionDeclaration f), t) =>
      pure (some (.function f.name s.path), { s with traversal := t })
    | (some (.classDeclaration c), t) =>
      let queued := queueMethods { s with traversal := t } c
      let later := next queued.value
      ⟨later.value, queued.events ++ later.events⟩
    | (some (.malformed kind nameless line), t) =>
      let later := next { s with traversal := t }
      ⟨later.value, .declarationSkipped kind nameless s.path line :: later.events⟩
termination_by s.traversal.size
decreasing_by
  · rw [queueMethods_traversal]
    exact Traversal.size_lt_of_next _h
  · exact Traversal.size_lt_of_next _h

/-- The next `n` symbols, or all if there are fewer. -/
def take : Nat → SymbolStream → Logged (List Symbol)
  | 0, _ => pure []
  | n + 1, s => do
    match ← s.next with
    | (none, _) => pure []
    | (some found, rest) => do
      let others ← take n rest
      pure (found :: others)

end SymbolStream

end SymbolIndex
