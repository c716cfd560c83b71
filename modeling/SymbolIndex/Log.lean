import SymbolIndex.Error
import SymbolIndex.Symbol
import SymbolIndex.Syntax.Declaration
import SymbolIndex.Text.Quoted

/-!
# The log

What happens on the way to a result is told as a list of events, in order. `Logged` is a result
together with the events that led to it.
-/

namespace SymbolIndex

open Syntax Text

/-- How much an event matters. -/
inductive Level where
  | debug
  | info
  | warn
  deriving DecidableEq, Repr

/-- The name of a level. -/
def Level.display : Level → String
  | debug => "DEBUG"
  | info => "INFO"
  | warn => "WARN"

/-- Which of two declarations with one key is kept. -/
inductive Kept where
  | first
  | later
  deriving DecidableEq, Repr

/-- How much there is in a directory. -/
structure Totals where
  /-- Source files found. -/
  scanned : Nat
  /-- Source files whose symbols are in the registry. -/
  indexed : Nat
  /-- Source files that could not be indexed. -/
  failed : Nat
  /-- Symbols in the registry. -/
  symbols : Nat
  deriving DecidableEq, Repr

/-- Something that is worth telling. -/
inductive Event where
  /-- A method whose key is no plain name gives no symbol. -/
  | memberSkipped (key : MemberKey) (owner : String) (path : Path) (line : Nat)
  /-- A declaration without a name gives no symbol. -/
  | declarationSkipped (kind : Kind) (nameless : Nameless) (path : Path) (line : Nat)
  /-- A key is declared again. -/
  | redeclared (key : Key) (path : Path) (kept : Kept)
  /-- A directory entry cannot be visited. -/
  | entryFailed (error : Error)
  /-- A source file cannot be indexed. -/
  | fileSkipped (path : Path) (error : Error)
  /-- A directory is indexed. -/
  | indexed (root : Path) (totals : Totals) (keys : Nat)
  deriving DecidableEq, Repr

/-- A tree on one line: its path and the kind of its root. -/
def Syntax.SyntaxTree.summary (t : SyntaxTree) : String :=
  "SyntaxTree \x7b path: " ++ quoted t.path.display ++ ", root: " ++ quoted t.root.kind.label
    ++ " \x7d"

namespace Event

/-- How much the event matters. -/
def level : Event → Level
  | memberSkipped .. | declarationSkipped .. | redeclared .. => .debug
  | entryFailed _ | fileSkipped .. => .warn
  | indexed .. => .info

/-- A member key with its form, as the log shows it. -/
def showKey : MemberKey → String
  | .identifier text => "Identifier(" ++ quoted text ++ ")"
  | .privateName text => "Private(" ++ quoted text ++ ")"
  | .literal text => "Literal(" ++ quoted text ++ ")"
  | .computed text => "Computed(" ++ quoted text ++ ")"

/-- The wording of an event. -/
def message : Event → String
  | memberSkipped key owner path line =>
    "Skipping " ++ showKey key ++ " member of " ++ owner ++ " at " ++ path.display ++ ":"
      ++ toString line
  | declarationSkipped kind nameless path line =>
    "Skipping " ++ kind.label ++ " at " ++ path.display ++ ":" ++ toString line ++ ": "
      ++ nameless.reason
  | redeclared key path kept =>
    key ++ " redeclared in " ++ path.display ++ ", keeping the "
      ++ (match kept with
        | .first => "first"
        | .later => "later")
      ++ " declaration"
  | entryFailed error => error.message
  | fileSkipped path error => "Skipping " ++ path.display ++ ": " ++ error.message
  | indexed root totals keys =>
    "Indexed " ++ root.display ++ ": " ++ toString totals.scanned ++ " scanned, "
      ++ toString totals.indexed ++ " indexed, " ++ toString totals.failed ++ " failed, "
      ++ toString totals.symbols ++ " symbols, " ++ toString keys ++ " keys"

/-- The line of the log that tells the event. -/
def line (e : Event) : String := e.level.display ++ " " ++ e.message

end Event

/-- A result and the events that led to it. -/
structure Logged (α : Type) where
  value : α
  events : List Event

namespace Logged

variable {α β : Type}

/-- Uses a result for the next, and puts the events of both in a row. -/
def andThen (a : Logged α) (f : α → Logged β) : Logged β :=
  let b := f a.value
  ⟨b.value, a.events ++ b.events⟩

instance : Monad Logged where
  pure a := ⟨a, []⟩
  bind := andThen

end Logged

/-- A result that may fail, and the events up to there. -/
abbrev Attempt := ExceptT Error Logged

namespace Attempt

variable {α : Type}

/-- Tells an event. -/
def tell (e : Event) : Attempt Unit := ExceptT.mk ⟨.ok (), [e]⟩

/-- A result without events. -/
def ofExcept (r : Except Error α) : Attempt α := ExceptT.mk ⟨r, []⟩

/-- What came of it. -/
def result (a : Attempt α) : Except Error α := a.run.value

/-- The events up to the result. -/
def events (a : Attempt α) : List Event := a.run.events

end Attempt

end SymbolIndex
