import SymbolIndex.FileSystem
import SymbolIndex.Ignore.Rule

/-!
# Ignore levels

Every directory may have ignore files, which are about everything below it. When a directory is
visited, the levels are its own ignore files and those of the directories above, nearest first. There
are three kinds of ignore files; a stronger kind decides before a weaker one, whatever the level, and
within a kind the nearest level decides (`IgnoreLevel.verdict?`).
-/

namespace SymbolIndex

/-- A kind of ignore files, the strongest first. -/
inductive IgnoreKind where
  | general
  | repository
  | exclude
  deriving DecidableEq, Repr

namespace IgnoreKind

/-- All kinds, the strongest first. -/
def all : List IgnoreKind := [general, repository, exclude]

/-- Where files of the kind are, relative to the directory they are about. -/
def path : IgnoreKind → Path
  | general => ".ignore"
  | repository => ".gitignore"
  | exclude => ".git/info/exclude"

end IgnoreKind

/-- The ignore files of a directory. -/
structure IgnoreLevel where
  /-- The names on the way from that directory to the one being visited. -/
  trail : List Name
  general : List Rule
  repository : List Rule
  exclude : List Rule
  deriving Repr

namespace IgnoreLevel

/-- The rules in an ignore file, and its faults with the path of the file. A file that is not there
or cannot be opened has no rules. -/
def readRules (fs : FileSystem) (path : Path) : List Rule × List (Path × RuleFault) :=
  match fs.stat path with
  | .ok (.file (.ok bytes)) =>
    let (rules, faults) := Rule.ofBytes bytes
    if faults.length = 1 && faults.all RuleFault.isUnreadable then (rules, [])
    else (rules, faults.map (path, ·))
  | _ => ([], [])

/-- The level of a directory. -/
def ofDirectory (fs : FileSystem) (place : Location) (trail : List Name) : IgnoreLevel :=
  let rules (kind : IgnoreKind) := (readRules fs (place.path.join kind.path)).1
  ⟨trail, rules .general, rules .repository, rules .exclude⟩

/-- The rules of a kind. -/
def rules (l : IgnoreLevel) : IgnoreKind → List Rule
  | .general => l.general
  | .repository => l.repository
  | .exclude => l.exclude

/-- The faults in the ignore files of a directory. -/
def faults (fs : FileSystem) (place : Location) : List (Path × RuleFault) :=
  IgnoreKind.all.flatMap fun kind => (readRules fs (place.path.join kind.path)).2

/-- The level seen from a directory further down. -/
def descend (name : Name) (l : IgnoreLevel) : IgnoreLevel := { l with trail := l.trail ++ [name] }

/-- The path of an entry of the directory being visited, relative to the directory of the level. -/
def relative (l : IgnoreLevel) (name : Name) : List UInt8 :=
  [Path.slash].intercalate (l.trail ++ [name])

/-- What the levels say about an entry of the directory being visited. -/
def verdict? (levels : List IgnoreLevel) (name : Name) (isDirectory : Bool) : Option Verdict :=
  IgnoreKind.all.findSome? fun kind => levels.findSome? fun l =>
    Rule.verdict? (l.rules kind) (l.relative name) isDirectory

/-- The directories above a place, from the root on. -/
def placesAbove (place : Location) : List Location :=
  (List.range place.length).map place.take

/-- The levels of the directories above a place, nearest first. -/
def above (fs : FileSystem) (place : Location) : List IgnoreLevel :=
  (placesAbove place).reverse.map fun l => ofDirectory fs l (place.drop l.length)

/-- The faults in the ignore files of the directories above a place. -/
def faultsAbove (fs : FileSystem) (place : Location) : List (Path × RuleFault) :=
  (placesAbove place).flatMap (faults fs)

end IgnoreLevel

end SymbolIndex
