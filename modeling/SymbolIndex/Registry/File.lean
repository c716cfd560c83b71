import SymbolIndex.Extraction
import SymbolIndex.JavaScript.Parse
import SymbolIndex.Policy
import SymbolIndex.Registry.Entries

/-!
# The registry of a file

A `FileRegistry` holds the symbols of one file, one for each key. `ofSymbols` makes one from a list
of symbols under a collision policy, `ofSource` from a source text.
-/

namespace SymbolIndex

open Syntax

/-- The symbols of a file by their keys. -/
structure FileRegistry where
  path : Path
  entries : List (Key × Symbol)
  deriving DecidableEq, Repr

namespace FileRegistry

/-- The registry of a file without symbols. -/
def empty (path : Path) : FileRegistry := ⟨path, []⟩

/-- The symbol at a key. -/
def get? (r : FileRegistry) (k : Key) : Option Symbol := Entries.get? k r.entries

/-- Whether a symbol has the key. -/
def contains (r : FileRegistry) (k : Key) : Bool := (r.get? k).isSome

/-- The number of symbols. -/
def size (r : FileRegistry) : Nat := r.entries.length

/-- Whether there is no symbol. -/
def isEmpty (r : FileRegistry) : Bool := r.entries.isEmpty

/-- The keys, in order. -/
def keys (r : FileRegistry) : List Key := r.entries.map (·.1)

/-- Puts a symbol at its key. -/
def insert (r : FileRegistry) (s : Symbol) : FileRegistry :=
  { r with entries := Entries.insert s.key s r.entries }

/-- Adds a symbol as the policy says. -/
def add (policy : CollisionPolicy) (r : FileRegistry) (s : Symbol) : Attempt FileRegistry :=
  if r.contains s.key then
    match policy with
    | .lastWins => do
      Attempt.tell (.redeclared s.key r.path .later)
      pure (r.insert s)
    | .firstWins => do
      Attempt.tell (.redeclared s.key r.path .first)
      pure r
    | .reject => throw (.duplicateSymbol r.path s.key)
  else pure (r.insert s)

/-- Adds what is found in a tree. -/
def addFinding (policy : CollisionPolicy) (r : FileRegistry) : Finding → Attempt FileRegistry
  | .symbol s => r.add policy s
  | .skipped e => do
    Attempt.tell e
    pure r

/-- The registry of a file in which `found` is found, in this order. -/
def ofFindings (path : Path) (policy : CollisionPolicy) (found : List Finding) :
    Attempt FileRegistry :=
  found.foldlM (addFinding policy) (empty path)

/-- The registry of a file that declares the symbols, in this order. -/
def ofSymbols (path : Path) (policy : CollisionPolicy) (symbols : List Symbol) :
    Attempt FileRegistry :=
  ofFindings path policy (symbols.map .symbol)

/-- The registry of a source text. -/
def ofSource (source : String) (path : Path) (options : ExtractOptions)
    (policy : CollisionPolicy) : Attempt FileRegistry := do
  let tree ← Attempt.ofExcept (JavaScript.parse source path)
  ofFindings path policy (tree.findings options)

end FileRegistry

end SymbolIndex
