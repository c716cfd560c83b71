import SymbolIndex.Config.Toml
import SymbolIndex.FileSystem

/-!
# Configuration files

Settings are kept in a TOML file, by default in the home directory. A file that is not there stands
for the standard settings only where no particular file was asked for.
-/

namespace SymbolIndex.Settings

open Text

/-- Where settings are kept by default. -/
def defaultPath (home : Path) : Path := (home.join ".methodref").join "config.toml"

/-- The settings in a text, known by its path. -/
def ofText (path : Path) (text : String) : Except Error Settings :=
  match parse text with
  | .ok s => .ok s
  | .error f => .error (.config (path.display ++ ": " ++ f.report text.toList))

/-- Loads settings from a file. -/
def load (fs : FileSystem) (path : Path) : Except Error Settings :=
  match fs.read path with
  | .error cause => .error (.io path cause)
  | .ok bytes => match Utf8.decode? bytes with
    | none => .error (.io path .invalidText)
    | some text => ofText path text

/-- Loads settings from the default file, if it is there. -/
def loadDefault (fs : FileSystem) (home : Path) : Except Error Settings :=
  if fs.pathExists (defaultPath home) then load fs (defaultPath home) else .ok .standard

/-- Saves settings in a file, and makes the directories above it. The file system is what became of
it, whether that was possible or not. -/
def save (disk : Disk) (fs : FileSystem) (path : Path) (s : Settings) :
    Except Error Unit × FileSystem :=
  let above : Except Error Unit × FileSystem := match path.parent? with
    | none => (.ok (), fs)
    | some parent => match fs.makeDirectories disk parent with
      | (.ok _, fs) => (.ok (), fs)
      | (.error cause, fs) => (.error (.io parent cause), fs)
  match above with
  | (.error e, fs) => (.error e, fs)
  | (.ok _, fs) => match fs.write disk path (Utf8.encode s.toToml) with
    | (.ok _, fs) => (.ok (), fs)
    | (.error cause, fs) => (.error (.io path cause), fs)

end SymbolIndex.Settings
