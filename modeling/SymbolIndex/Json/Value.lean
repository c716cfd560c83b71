/-!
# JSON values

The values that JSON texts stand for. Objects keep their members in order, and a name may occur more
than once. Numbers are kept as they are written.

A string literal may escape one half of a surrogate pair without the other. Such a literal is well
formed but stands for no text: as a value it is `Json.brokenString`, as the name of a member `none`.
-/

namespace SymbolIndex

/-- A JSON value. -/
inductive Json where
  | null
  | bool (b : Bool)
  | number (literal : String)
  | string (s : String)
  | brokenString
  | array (elements : List Json)
  | object (members : List (Option String × Json))
  deriving Repr

end SymbolIndex
