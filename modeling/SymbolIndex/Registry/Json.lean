import SymbolIndex.Json.Printer
import SymbolIndex.Json.Reader
import SymbolIndex.Registry.Combined

/-!
# Registries and symbols as JSON

A symbol is an object with five members, `class_name` and `super_class` being `null` where there is
no class. A registry is an object with the list of its symbols at each key. A path that is not text
has no JSON form.

Reading a symbol is generous: members may come in any order, other members do not matter, a missing
class is none, and the five values may also come as an array.
-/

namespace SymbolIndex

open Text

namespace Json

/-- A string, or `null`. -/
def ofOption (s : Option String) : Json := s.elim .null .string

/-- The string of a value. -/
def string? : Json → Option String
  | string s => some s
  | _ => none

/-- The string of a value that may be `null`. -/
def optionalString? : Json → Option (Option String)
  | null => some none
  | string s => some (some s)
  | _ => none

/-- The truth value of a value. -/
def bool? : Json → Option Bool
  | bool b => some b
  | _ => none

end Json

namespace Symbol

/-- The symbol as JSON, if its path is text. -/
def toJson? (s : Symbol) : Option Json := do
  let path ← Utf8.decode? s.path.bytes
  pure (.object [(some "method_name", .string s.name), (some "class_name", .ofOption s.owner),
    (some "is_static", .bool s.isStatic), (some "super_class", .ofOption s.superclass),
    (some "source_path", .string path)])

/-- The symbol with the given five values. -/
def ofValues? (name owner isStatic superclass path : Json) : Option Symbol := do
  pure ⟨← name.string?, ← owner.optionalString?, ← isStatic.bool?, ← superclass.optionalString?,
    .ofString (← path.string?)⟩

/-- The only member of a name; more than one is a failure, none is the value `missing`. -/
def member? (members : List (Option String × Json)) (name : String) (missing : Option Json) :
    Option Json :=
  match members.filter (·.1 = some name) with
  | [] => missing
  | [(_, v)] => some v
  | _ => none

/-- Reads a symbol off a JSON value. -/
def ofJson? : Json → Option Symbol
  | .array [name, owner, isStatic, superclass, path] =>
    ofValues? name owner isStatic superclass path
  | .object members => do
    if members.any (·.1.isNone) then none
    let name ← member? members "method_name" none
    let owner ← member? members "class_name" (some .null)
    let isStatic ← member? members "is_static" none
    let superclass ← member? members "super_class" (some .null)
    let path ← member? members "source_path" none
    ofValues? name owner isStatic superclass path
  | _ => none

/-- Reads a symbol off a JSON text. -/
def parse? (text : String) : Option Symbol := (Json.parse? text).bind ofJson?

end Symbol

namespace CombinedRegistry

/-- The member for the symbols of a key. -/
def entryJson? (k : Key) (symbols : List Symbol) : Option (Option String × Json) := do
  pure (some k, .array (← symbols.mapM Symbol.toJson?))

/-- The registry as JSON, if all paths are text. -/
def toJson? (c : CombinedRegistry) : Option Json := do
  pure (.object (← c.entries.mapM fun (k, symbols) => entryJson? k symbols))

end CombinedRegistry

end SymbolIndex
