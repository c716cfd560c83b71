import SymbolIndex.Extraction
import SymbolIndex.Policy

/-!
# Settings

What can be configured: which files are scanned, and which symbols are taken from them.
-/

namespace SymbolIndex

/-- Which files are scanned. -/
structure ScanSettings where
  /-- The ending of the names of source files. -/
  suffix : String
  /-- Names of directories that are not entered. -/
  ignoreDirs : List String
  /-- Whether ignore files are obeyed. -/
  respectGitignore : Bool
  /-- Whether names that start with a dot are visited. -/
  includeHidden : Bool
  /-- Whether symbolic links are followed. -/
  followLinks : Bool
  deriving DecidableEq, Repr

/-- Which symbols are taken. -/
structure ExtractSettings where
  includeConstructors : Bool
  collisionPolicy : CollisionPolicy
  deriving DecidableEq, Repr

/-- All settings. -/
structure Settings where
  scan : ScanSettings
  extract : ExtractSettings
  deriving DecidableEq, Repr

/-- The settings for scanning where none are chosen. -/
def ScanSettings.standard : ScanSettings := ⟨".js", [], false, true, true⟩

/-- The settings for extraction where none are chosen. -/
def ExtractSettings.standard : ExtractSettings := ⟨true, .standard⟩

/-- The settings where none are chosen. -/
def Settings.standard : Settings := ⟨.standard, .standard⟩

/-- The options for extraction. -/
def ExtractSettings.options (s : ExtractSettings) : ExtractOptions := ⟨s.includeConstructors⟩

end SymbolIndex
