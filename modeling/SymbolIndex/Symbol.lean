import SymbolIndex.Path

/-!
# Symbols

A symbol is a function or a method that a source file declares. Symbols are known by their key: the
name of the class they belong to, or `Global`, a dot and their own name. Several files may declare
symbols with one key.
-/

namespace SymbolIndex

/-- The name under which symbols are looked up. Keys are ordered by their characters. -/
abbrev Key := String

/-- What stands in a key in place of a class, for symbols without one. -/
def globalScope : String := "Global"

/-- The key of the name `name` in the class `owner`, or in no class. -/
def Key.qualify (owner : Option String) (name : String) : Key :=
  owner.getD globalScope ++ "." ++ name

/-- A declared function or method. -/
structure Symbol where
  name : String
  /-- The class it belongs to. -/
  owner : Option String
  isStatic : Bool
  /-- The superclass of its class, if that is given by a plain name. -/
  superclass : Option String
  /-- The file that declares it. -/
  path : Path
  deriving DecidableEq, Repr

namespace Symbol

/-- A function, which belongs to no class. -/
def function (name : String) (path : Path) : Symbol := ⟨name, none, false, none, path⟩

/-- A method of the class `owner`. -/
def method (name owner : String) (isStatic : Bool) (superclass : Option String) (path : Path) :
    Symbol :=
  ⟨name, some owner, isStatic, superclass, path⟩

/-- Whether the symbol belongs to no class. -/
def isGlobal (s : Symbol) : Bool := s.owner.isNone

/-- The key of the symbol. -/
def key (s : Symbol) : Key := .qualify s.owner s.name

/-- The symbol on one line: what it is, and where it is declared. -/
def display (s : Symbol) : String :=
  (match s.owner with
    | some owner =>
      (if s.isStatic then "static " else "") ++ owner ++ "." ++ s.name
        ++ match s.superclass with
          | some parent => " extends " ++ parent
          | none => ""
    | none => "function " ++ s.name)
  ++ " (" ++ s.path.display ++ ")"

end Symbol

end SymbolIndex
