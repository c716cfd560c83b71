import SymbolIndex.Config.Settings
import SymbolIndex.Toml.Document
import SymbolIndex.Toml.Printer

/-!
# Settings as TOML

Settings are written as two tables with one entry for each setting. Reading them is generous: a
setting that is not there has its standard value, other names do not matter, a group of settings may
be an array of their values, and a policy may be the only name of a table.
-/

namespace SymbolIndex

open Text

namespace Toml

/-- What a value is when something else is asked for. -/
def describe : Toml → String
  | scalar _ (.string s) => "string " ++ quoted s
  | scalar _ (.integer n) => "integer `" ++ toString n ++ "`"
  | scalar _ (.float f) => "floating point `" ++ showFloat f ++ "`"
  | scalar _ (.boolean b) => "boolean `" ++ printBool b ++ "`"
  | scalar _ .datetime => "map"
  | array .. | tables .. => "sequence"
  | table .. => "map"

/-- Says that something else is asked for. -/
def mismatch {α : Type} (v : Toml) (expected : String) : Except Fault α :=
  .error ⟨v.span, "invalid type: " ++ v.describe ++ ", expected " ++ expected⟩

/-- The text of a value. -/
def asString : Toml → Except Fault String
  | scalar _ (.string s) => .ok s
  | v => v.mismatch "a string"

/-- The truth value of a value. -/
def asBool : Toml → Except Fault Bool
  | scalar _ (.boolean b) => .ok b
  | v => v.mismatch "a boolean"

/-- The texts of a value. -/
def asStrings : Toml → Except Fault (List String)
  | array _ vs | tables _ vs => vs.mapM asString
  | v => v.mismatch "a sequence"

end Toml

open Toml

/-! ### Policies -/

namespace CollisionPolicy

/-- The policy with a name in data files. -/
def ofTag (span : Span) (tag : String) : Except Fault CollisionPolicy :=
  match all.find? (·.tag = tag) with
  | some p => .ok p
  | none => .error ⟨span, "unknown variant `" ++ tag ++ "`, expected one of "
      ++ ", ".intercalate (all.map fun p => "`" ++ p.tag ++ "`")⟩

/-- Checks that the value beside the name of a policy says nothing. -/
def checkEmpty : Toml → Except Fault Unit
  | .table span _ entries =>
    if entries.isEmpty then .ok () else .error ⟨span, "expected empty table"⟩
  | .array span vs | .tables span vs =>
    if vs.isEmpty then .ok () else .error ⟨span, "expected empty array"⟩
  | v => .error ⟨v.span, "expected table, found " ++ v.typeName⟩

/-- Reads a policy. -/
def ofToml : Toml → Except Fault CollisionPolicy
  | .scalar span (.string s) => ofTag span s
  | .table span _ entries => match entries with
    | [] => .error ⟨span, "wanted exactly 1 element, found 0 elements"⟩
    | [(tag, v)] => do
      let p ← ofTag span tag
      checkEmpty v
      pure p
    | _ => .error ⟨span, "wanted exactly 1 element, more than 1 element"⟩
  | v => .error ⟨v.span, "wanted string or table"⟩

end CollisionPolicy

/-! ### Groups of settings -/

/-- Reads a group of settings: `fields` are its names in order, `assign` takes the value of one, and
`name` is what the group is called. A date is a group without settings. -/
def readGroup {α : Type} (name : String) (fields : List String)
    (assign : α → String → Toml → Except Fault α) (standard : α) : Toml → Except Fault α
  | .table _ _ entries =>
    entries.foldlM (fun a (n, v) => if fields.contains n then assign a n v else .ok a) standard
  | .array _ vs | .tables _ vs =>
    (fields.zip vs).foldlM (fun a (n, v) => assign a n v) standard
  | .scalar _ .datetime => .ok standard
  | v => v.mismatch ("struct " ++ name)

namespace ScanSettings

/-- The names of the settings. -/
def fields : List String :=
  ["suffix", "ignore_dirs", "respect_gitignore", "include_hidden", "follow_links"]

/-- Takes the value of a setting. -/
def assign (s : ScanSettings) (name : String) (v : Toml) : Except Fault ScanSettings :=
  match name with
  | "suffix" => do pure { s with suffix := ← v.asString }
  | "ignore_dirs" => do pure { s with ignoreDirs := ← v.asStrings }
  | "respect_gitignore" => do pure { s with respectGitignore := ← v.asBool }
  | "include_hidden" => do pure { s with includeHidden := ← v.asBool }
  | "follow_links" => do pure { s with followLinks := ← v.asBool }
  | _ => .ok s

/-- Reads the settings. -/
def ofToml (v : Toml) : Except Fault ScanSettings :=
  readGroup "ScanConfig" fields assign .standard v

/-- The lines that hold the settings. -/
def lines (s : ScanSettings) : List String :=
  ["suffix = " ++ printString s.suffix,
    "ignore_dirs = " ++ printList s.ignoreDirs,
    "respect_gitignore = " ++ printBool s.respectGitignore,
    "include_hidden = " ++ printBool s.includeHidden,
    "follow_links = " ++ printBool s.followLinks]

end ScanSettings

namespace ExtractSettings

/-- The names of the settings. -/
def fields : List String := ["include_constructors", "collision_policy"]

/-- Takes the value of a setting. -/
def assign (s : ExtractSettings) (name : String) (v : Toml) : Except Fault ExtractSettings :=
  match name with
  | "include_constructors" => do pure { s with includeConstructors := ← v.asBool }
  | "collision_policy" => do pure { s with collisionPolicy := ← CollisionPolicy.ofToml v }
  | _ => .ok s

/-- Reads the settings. -/
def ofToml (v : Toml) : Except Fault ExtractSettings :=
  readGroup "ExtractConfig" fields assign .standard v

/-- The lines that hold the settings. -/
def lines (s : ExtractSettings) : List String :=
  ["include_constructors = " ++ printBool s.includeConstructors,
    "collision_policy = " ++ printString s.collisionPolicy.tag]

end ExtractSettings

namespace Settings

/-- Takes the value of a group of settings. -/
def assign (s : Settings) (name : String) (v : Toml) : Except Fault Settings :=
  match name with
  | "scan" => do pure { s with scan := ← ScanSettings.ofToml v }
  | "extract" => do pure { s with extract := ← ExtractSettings.ofToml v }
  | _ => .ok s

/-- Reads settings off the entries of a document. -/
def ofEntries (entries : Toml.Entries) : Except Fault Settings :=
  entries.foldlM (fun s (n, v) => s.assign n v) .standard

/-- Reads settings off a text. -/
def parse (text : String) : Except Fault Settings := do
  ofEntries (← Toml.parse text.toList)

/-- The settings as a TOML document. -/
def toToml (s : Settings) : String :=
  String.join ((["[scan]"] ++ s.scan.lines ++ ["", "[extract]"] ++ s.extract.lines).map (· ++ "\n"))

end Settings

end SymbolIndex
