import SymbolIndex.Registry.File

/-!
# The registry of many files

A `CombinedRegistry` holds all symbols of a collection of files: for each key, the symbols that the
files have there, in the order in which the files were merged.
-/

namespace SymbolIndex

/-- The symbols of many files by their keys. -/
structure CombinedRegistry where
  entries : List (Key × List Symbol)
  deriving DecidableEq, Repr

namespace CombinedRegistry

/-- The registry of no file. -/
def empty : CombinedRegistry := ⟨[]⟩

/-- The symbols at a key. -/
def get? (c : CombinedRegistry) (k : Key) : Option (List Symbol) := Entries.get? k c.entries

/-- Whether a symbol has the key. -/
def contains (c : CombinedRegistry) (k : Key) : Bool := (c.get? k).isSome

/-- The number of keys. -/
def size (c : CombinedRegistry) : Nat := c.entries.length

/-- Whether there is no key. -/
def isEmpty (c : CombinedRegistry) : Bool := c.entries.isEmpty

/-- The keys, in order. -/
def keys (c : CombinedRegistry) : List Key := c.entries.map (·.1)

/-- The number of symbols at all keys. -/
def symbolCount (c : CombinedRegistry) : Nat := c.entries.foldr (fun e n => e.2.length + n) 0

/-- Adds a symbol after those that its key has. -/
def push (c : CombinedRegistry) (k : Key) (s : Symbol) : CombinedRegistry :=
  ⟨Entries.alter k (fun old => old.getD [] ++ [s]) c.entries⟩

/-- Adds the symbols of a file. -/
def merge (c : CombinedRegistry) (f : FileRegistry) : CombinedRegistry :=
  f.entries.foldl (fun c (k, s) => c.push k s) c

/-- Adds the symbols of several files, one file after the other. -/
def extend (c : CombinedRegistry) (fs : List FileRegistry) : CombinedRegistry := fs.foldl merge c

/-- The registry of several files. -/
def ofFiles (fs : List FileRegistry) : CombinedRegistry := empty.extend fs

/-- The lines for the symbols of a key. -/
def displayEntry (k : Key) (symbols : List Symbol) : String :=
  k ++ " (" ++ toString symbols.length ++ ")\n"
    ++ String.join (symbols.map fun s => "  " ++ s.display ++ "\n")

/-- The registry as text: each key with the number of its symbols, and the symbols below it. -/
def display (c : CombinedRegistry) : String :=
  String.join (c.entries.map fun (k, symbols) => displayEntry k symbols)

end CombinedRegistry

end SymbolIndex
