import SymbolIndex.Config.Settings
import SymbolIndex.Ignore.Level

/-!
# Source files in a directory

A directory is walked depth first, entries in the order in which the file system has them. The result
lists the source files and what cannot be visited (`FileSystem.visits`).

Links are followed if the settings say so. Three things can then go wrong: a link leads nowhere, to a
directory that cannot be opened, or to one that is being visited already. All are told before any
filter has its say. After that an entry is left out if an ignore file says so, or if it is hidden,
hidden entries are not wanted and no ignore file keeps it; and a directory is left out if its name is
among those to ignore. A directory that is not left out is told of if it cannot be listed.
-/

namespace SymbolIndex

open Text

/-- Why something cannot be visited. -/
inductive WalkFault where
  | unreachable (path : Path) (cause : IoCause)
  /-- A link to a directory that cannot be opened, of which the path is not told. -/
  | unopened (cause : IoCause)
  /-- A link to a directory that is being visited. -/
  | loop (link ancestor : Path)
  /-- Lines of ignore files above the root that make no rules. -/
  | badRules (faults : List (Path × RuleFault))
  deriving DecidableEq, Repr

namespace WalkFault

/-- The wording of a fault. -/
def reason : WalkFault → String
  | unreachable path cause =>
    path.display ++ ": IO error for operation on " ++ path.display ++ ": " ++ cause.message
  | unopened cause => cause.message
  | loop link ancestor =>
    "File system loop found: " ++ link.display ++ " points to an ancestor " ++ ancestor.display
  | badRules faults =>
    "\n".intercalate (faults.map fun (path, f) => path.display ++ ": " ++ f.message)

/-- The fault as an error. -/
def error (f : WalkFault) : Error := .walk f.reason

end WalkFault

/-- What a walk comes by: a source file, or something that cannot be visited. -/
abbrev Visit := Except WalkFault Path

/-- A directory that is being visited. -/
structure Station where
  /-- The path that led there. -/
  path : Path
  place : Location
  /-- The directories on the way, this one first: where they are and the paths that led there. -/
  ancestors : List (Location × Path)
  /-- The ignore files that matter, nearest first. -/
  levels : List IgnoreLevel
  deriving Repr

/-- What an entry is for a walk. -/
inductive Visited where
  | file
  | directory (place : Location)
  /-- A link that is not followed, or a device. -/
  | other
  deriving DecidableEq, Repr

namespace Station

variable (fs : FileSystem) (scan : ScanSettings)

/-- The path of an entry. -/
def entryPath (d : Station) (name : Name) : Path := d.path.join ⟨name⟩

/-- What a link is, when links are followed. -/
def follow (d : Station) (name : Name) : Except WalkFault Visited :=
  let path := d.entryPath name
  match fs.locate path with
  | .error cause => .error (.unreachable path cause)
  | .ok place => match fs.entry? place with
    | none => .error (.unreachable path .notFound)
    | some (.directory _) => match d.ancestors.find? (·.1 = place) with
      | some (_, ancestor) => .error (.loop path ancestor)
      | none => .ok (.directory place)
    | some (.closed cause) => .error (.unopened cause)
    | some (.file _) => .ok .file
    | some _ => .ok .other

/-- What an entry is. -/
def visit (d : Station) (name : Name) : Entry → Except WalkFault Visited
  | .file _ => .ok .file
  | .directory _ | .closed _ => .ok (.directory (d.place ++ [name]))
  | .link _ => if scan.followLinks then d.follow fs name else .ok .other
  | .device => .ok .other

/-- Whether a name is hidden. -/
def isHidden (name : Name) : Bool := name.head? = some Path.dot

/-- Whether ignore files or the filter for hidden entries leave an entry out. -/
def isLeftOut (d : Station) (name : Name) (isDirectory : Bool) : Bool :=
  match IgnoreLevel.verdict? d.levels name isDirectory with
  | some .ignored => true
  | some .kept => false
  | none => !scan.includeHidden && isHidden name

/-- Whether a directory is left out for its name. -/
def isIgnoredName (name : Name) : Bool := scan.ignoreDirs.any (Utf8.encode · = name)

/-- The directory of an entry. -/
def enter (d : Station) (name : Name) (place : Location) : Station where
  path := d.entryPath name
  place := place
  ancestors := (place, d.entryPath name) :: d.ancestors
  levels := if scan.respectGitignore then
      IgnoreLevel.ofDirectory fs place [] :: d.levels.map (·.descend name)
    else []

/-- The entries of the directory. -/
def entries (d : Station) : List (Name × Entry) := ((fs.entry? d.place).bind Entry.entries?).getD []

/-- What there is to tell if the directory cannot be listed. -/
def unlisted (d : Station) : List Visit :=
  match fs.entry? d.place with
  | some (.closed cause) => [.error (.unreachable d.path cause)]
  | _ => []

/-- What a walk comes by at an entry; `inside` walks a directory. -/
def walkEntry (inside : Station → List Visit) (d : Station) (name : Name) (e : Entry) :
    List Visit :=
  match d.visit fs scan name e with
  | .error f => [.error f]
  | .ok .other => []
  | .ok .file =>
    let path := d.entryPath name
    if d.isLeftOut scan name false || !path.hasSuffix scan.suffix then [] else [.ok path]
  | .ok (.directory place) =>
    if d.isLeftOut scan name true || isIgnoredName scan name then []
    else inside (d.enter fs scan name place)

/-- Walks a directory, at most `depth` directories deep. -/
def walk : (depth : Nat) → Station → List Visit
  | 0, _ => []
  | depth + 1, d =>
    d.unlisted fs ++
      (d.entries fs).flatMap fun (name, e) => d.walkEntry fs scan (walk depth) name e

/-- The root of a walk. -/
def ofRoot (root : Path) (place : Location) : Station where
  path := root
  place := place
  ancestors := [(place, root)]
  levels := if scan.respectGitignore then
      IgnoreLevel.ofDirectory fs place [] :: IgnoreLevel.above fs place
    else []

end Station

/-- How deep a walk can lead. Every link that is followed leads to a directory that is not being
visited, so there are no more of them on the way than directories, and as many directories at most
between two of them. -/
def FileSystem.walkDepth (fs : FileSystem) : Nat := (fs.root.count + 1) * (fs.root.count + 1)

/-- The place of a directory. -/
def FileSystem.locateDirectory (fs : FileSystem) (root : Path) : Except Error Location :=
  match fs.locate root with
  | .error cause => .error (.io root cause)
  | .ok place => match fs.entry? place with
    | none => .error (.io root .notFound)
    | some e => if e.isDirectory then .ok place else .error (.io root .rootNotDirectory)

/-- Whether a walk takes the path for the standard input and not for a directory: it is a dash. -/
def Path.isStandardInput (p : Path) : Bool := p.components = [.name [0x2d]]

/-- What a walk through a directory comes by. There is nothing to walk in the standard input. -/
def FileSystem.visits (fs : FileSystem) (scan : ScanSettings) (root : Path) :
    Except Error (List Visit) := do
  let place ← fs.locateDirectory root
  let faults := if scan.respectGitignore then IgnoreLevel.faultsAbove fs place else []
  let before : List Visit := if faults.isEmpty then [] else [.error (.badRules faults)]
  pure (if root.isStandardInput then []
    else before ++ Station.walk fs scan fs.walkDepth (.ofRoot fs scan root place))

end SymbolIndex
