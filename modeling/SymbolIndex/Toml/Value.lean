/-!
# TOML values

The values of a TOML document. Each one knows which characters of the document it was written in, so
that a report can point at it. A table also knows how it came about, because that decides whether
later parts of the document may add to it.
-/

namespace SymbolIndex

/-- A range of characters. -/
structure Span where
  start : Nat
  stop : Nat
  deriving DecidableEq, Repr

namespace Toml

/-- How a table came about. -/
inductive TableForm where
  /-- Braces inside a value. -/
  | inline
  /-- A header of its own. -/
  | header
  /-- A step on the way to another header. -/
  | implied
  /-- A step of a dotted key. -/
  | dotted
  deriving DecidableEq, Repr

/-- Whether a dotted key may add to the table. -/
def TableForm.isOpen : TableForm → Bool
  | .implied | .dotted => true
  | .inline | .header => false

/-- A value without parts. -/
inductive Scalar where
  | string (s : String)
  | integer (n : Int)
  /-- A number with a point or an exponent, without the marks between its digits. -/
  | float (literal : String)
  | boolean (b : Bool)
  | datetime
  deriving DecidableEq, Repr

end Toml

/-- A TOML value. -/
inductive Toml where
  | scalar (span : Span) (value : Toml.Scalar)
  | array (span : Span) (elements : List Toml)
  /-- The tables with one header in double brackets. -/
  | tables (span : Span) (elements : List Toml)
  | table (span : Span) (form : Toml.TableForm) (entries : List (String × Toml))
  deriving Repr

namespace Toml

/-- Where a value is written. -/
def span : Toml → Span
  | scalar s _ | array s _ | tables s _ | table s _ _ => s

/-- The entries of a table by their names. -/
abbrev Entries := List (String × Toml)

/-- The value of a name. -/
def lookup (name : String) : Entries → Option Toml
  | [] => none
  | (n, v) :: r => if n = name then some v else lookup name r

/-- The entries with the value of a name replaced; a new name comes last. -/
def assign (name : String) (v : Toml) : Entries → Entries
  | [] => [(name, v)]
  | (n, w) :: r => if n = name then (n, v) :: r else (n, w) :: assign name v r

/-- The entries without a name. -/
def without (name : String) (entries : Entries) : Entries := entries.filter (·.1 ≠ name)

/-- What a value is called when it stands where a table should. -/
def typeName : Toml → String
  | scalar _ (.string _) => "string"
  | scalar _ (.integer _) => "integer"
  | scalar _ (.float _) => "float"
  | scalar _ (.boolean _) => "boolean"
  | scalar _ .datetime => "datetime"
  | array .. => "array"
  | tables .. => "array of tables"
  | table _ .inline _ => "inline table"
  | table .. => "table"

end Toml

end SymbolIndex
