import SymbolIndex.Error

/-!
# File systems

A file system is a tree of directories, files and symbolic links, with a working directory. Names are
bytes. A path is followed step by step; links on the way are replaced by their targets, at most forty
of them (`FileSystem.resolve`). Reading and changing files fails for the reasons a system gives.

Some of these reasons lie in the tree: there are files and directories that cannot be opened. Others
lie in the `Disk`, which may refuse to make an entry, or run out of room while a file is written. A
change that fails midway leaves behind what was made of it until then.
-/

namespace SymbolIndex

/-- The name of a directory entry. -/
abbrev Name := List UInt8

/-- What a file holds: its bytes, or why it cannot be opened. -/
abbrev Contents := Except IoCause (List UInt8)

instance : Coe (List UInt8) Contents := ⟨.ok⟩

/-- An entry of a directory. -/
inductive Entry where
  | file (contents : Contents)
  | directory (entries : List (Name × Entry))
  | link (target : Path)
  /-- A directory that can be neither listed nor entered. -/
  | closed (cause : IoCause)
  /-- A device such as the null device: whatever is written to it is lost, and it reads as empty. -/
  | device
  deriving Repr

/-- A place in a file system: the names on the way from the root, none of them a link. -/
abbrev Location := List Name

/-- The path of a place from the root. -/
def Location.path (l : Location) : Path :=
  l.foldl (fun p name => p.join ⟨name⟩) ⟨[Path.slash]⟩

namespace Entry

/-- The entries of a directory that can be listed. -/
def entries? : Entry → Option (List (Name × Entry))
  | directory es => some es
  | _ => none

/-- Whether the entry is a directory. -/
def isDirectory : Entry → Bool
  | directory _ | closed _ => true
  | _ => false

/-- The entry of a name. -/
def child? (name : Name) : List (Name × Entry) → Option Entry
  | [] => none
  | (n, e) :: r => if n = name then some e else child? name r

/-- The entries with the entry of a name replaced; a new name comes last. -/
def setChild (name : Name) (e : Entry) : List (Name × Entry) → List (Name × Entry)
  | [] => [(name, e)]
  | (n, old) :: r => if n = name then (n, e) :: r else (n, old) :: setChild name e r

/-- The entry at a place below. -/
def at? : Location → Entry → Option Entry
  | [], e => some e
  | n :: l, e => do at? l (← child? n (← e.entries?))

/-- Replaces the entry at a place below; nothing changes if the way there does not exist. -/
def setAt (new : Entry) : Location → Entry → Entry
  | [], _ => new
  | [n], directory es => directory (setChild n new es)
  | n :: l, directory es => match child? n es with
    | some e => directory (setChild n (setAt new l e) es)
    | none => directory es
  | _ :: _, e => e

/-- Removes the entry at a place below. -/
def removeAt : Location → Entry → Entry
  | [], e => e
  | [n], directory es => directory (es.filter (·.1 ≠ n))
  | n :: l, directory es => match child? n es with
    | some e => directory (setChild n (removeAt l e) es)
    | none => directory es
  | _ :: _, e => e

mutual

/-- The number of entries in a tree. -/
def count : Entry → Nat
  | directory es => countAll es + 1
  | file _ | link _ | closed _ | device => 1

/-- The number of entries in the trees of a directory. -/
def countAll : List (Name × Entry) → Nat
  | [] => 0
  | (_, e) :: r => e.count + countAll r

end

end Entry

/-- A file system with a working directory. -/
structure FileSystem where
  root : Entry
  workingDirectory : Location
  deriving Repr

/-- A step of a path. -/
inductive Step where
  /-- Into the entry of a name. -/
  | into (name : Name)
  | up
  /-- To where one is, which has to be a directory. -/
  | stay
  /-- A slash at the end of the path. -/
  | slash
  deriving DecidableEq, Repr

/-- The steps of a path. -/
def Path.steps (p : Path) : List Step :=
  let segments := Path.segments p.bytes
  let inner := segments.dropLast.filter (!·.isEmpty) |>.map step
  match segments.getLast? with
  | some [] => if inner.isEmpty then [] else inner ++ [.slash]
  | some s => inner ++ [step s]
  | none => inner
where
  /-- The step for a segment. -/
  step (s : List UInt8) : Step :=
    if s = [Path.dot] then .stay else if s = [Path.dot, Path.dot] then .up else .into s

/-- Where a path leads. -/
inductive Target where
  | existing (place : Location)
  /-- A name that its directory does not have; `slashed` if the path goes on with a slash. -/
  | absent (directory : Location) (name : Name) (slashed : Bool)
  deriving DecidableEq, Repr

namespace FileSystem

variable (fs : FileSystem)

/-- The entry at a place. -/
def entry? (l : Location) : Option Entry := Entry.at? l fs.root

/-- Follows steps from a place. `onLink` goes on from the directory of a link, with the steps of its
target put in front. -/
def follow (followLast : Bool) (onLink : Location → List Step → Except IoCause Target) :
    Location → List Step → Except IoCause Target
  | here, [] => .ok (.existing here)
  | here, s :: rest => match fs.entry? here with
    | some (.closed cause) =>
      if s = .slash then follow followLast onLink here rest else .error cause
    | some (.directory es) => match s with
      | .stay | .slash => follow followLast onLink here rest
      | .up => follow followLast onLink here.dropLast rest
      | .into name => match Entry.child? name es with
        | none =>
          if rest = [] then .ok (.absent here name false)
          else if rest = [.slash] then .ok (.absent here name true)
          else .error .notFound
        | some (.link target) =>
          if rest.isEmpty && !followLast then .ok (.existing (here ++ [name]))
          else if target.bytes.isEmpty then .error .notFound
          else onLink (if target.isAbsolute then [] else here) (target.steps ++ rest)
        | some _ => follow followLast onLink (here ++ [name]) rest
    | _ => .error .notDirectory

/-- Follows steps through at most `links` links. -/
def followThrough (followLast : Bool) :
    (links : Nat) → Location → List Step → Except IoCause Target
  | 0 => fs.follow followLast fun _ _ => .error .tooManyLinks
  | n + 1 => fs.follow followLast (followThrough followLast n)

/-- How many links may be on the way. -/
def linkLimit : Nat := 40

/-- Where a path leads; a link at its end is followed if `followLast` says so. -/
def resolve (followLast : Bool) (p : Path) : Except IoCause Target :=
  if p.bytes.isEmpty then .error .notFound
  else
    fs.followThrough followLast linkLimit (if p.isAbsolute then [] else fs.workingDirectory) p.steps

/-- The place a path leads to. -/
def locate (p : Path) : Except IoCause Location := do
  match ← fs.resolve true p with
  | .existing l => .ok l
  | .absent .. => .error .notFound

/-- The entry a path leads to. -/
def stat (p : Path) : Except IoCause Entry := do
  match fs.entry? (← fs.locate p) with
  | some e => .ok e
  | none => .error .notFound

/-- Whether a path leads to something. -/
def pathExists (p : Path) : Bool := (fs.stat p).toOption.isSome

/-- Whether a path leads to a directory. -/
def isDirectory (p : Path) : Bool := (fs.stat p).toOption.any Entry.isDirectory

/-- The bytes of the file a path leads to. -/
def read (p : Path) : Except IoCause (List UInt8) := do
  match ← fs.stat p with
  | .file contents => contents
  | .device => .ok []
  | .closed cause => .error cause
  | _ => .error .isDirectory

end FileSystem

/-! ### Disks -/

/-- The end of the room for a file: how many bytes it can hold, and why it can hold no more. -/
structure Limit where
  room : Nat
  cause : IoCause
  deriving DecidableEq, Repr

/-- What becomes of changes to the entries at the places of a file system. -/
structure Disk where
  /-- Why no entry can be made or opened for writing, if that is so. -/
  refusal? : Location → Option IoCause
  /-- How much room there is for a file, if there is an end to it. -/
  limit? : Location → Option Limit

namespace Disk

/-- A disk that refuses nothing and has room for everything. -/
def ample : Disk := ⟨fun _ => none, fun _ => none⟩

/-- Writes bytes to an empty file: the answer, and the bytes that are in the file then. -/
def store (disk : Disk) (l : Location) (bytes : List UInt8) :
    Except IoCause Unit × List UInt8 :=
  match disk.limit? l with
  | none => (.ok (), bytes)
  | some limit =>
    if limit.room < bytes.length then (.error limit.cause, bytes.take limit.room)
    else (.ok (), bytes)

/-- Makes an entry at a place, if the disk allows it. -/
def allow (disk : Disk) (l : Location) : Except IoCause Location :=
  match disk.refusal? l with
  | some cause => .error cause
  | none => .ok l

end Disk

namespace FileSystem

variable (fs : FileSystem)

/-! ### Changes -/

/-- Puts an entry at a place. -/
def set (l : Location) (e : Entry) : FileSystem := { fs with root := Entry.setAt e l fs.root }

/-- Makes a directory. -/
def makeDirectory (disk : Disk) (p : Path) : Except IoCause FileSystem := do
  match ← fs.resolve false p with
  | .existing _ => .error .exists
  | .absent d name _ => pure (fs.set (← disk.allow (d ++ [name])) (.directory []))

/-- Makes a link. -/
def makeLink (disk : Disk) (p target : Path) : Except IoCause FileSystem := do
  match ← fs.resolve false p with
  | .existing _ => .error .exists
  | .absent d name _ => pure (fs.set (← disk.allow (d ++ [name])) (.link target))

/-- The place of the file that is opened to be written at a path, which may be a new one; none, if the
path leads to a device. -/
def openFile (disk : Disk) (p : Path) : Except IoCause (Option Location) := do
  match ← fs.resolve true p with
  | .existing l => match fs.entry? l with
    | some (.file (.ok _)) => some <$> disk.allow l
    | some (.file (.error cause)) => .error cause
    | some .device => .ok none
    | _ => .error .isDirectory
  | .absent d name slashed =>
    if slashed then .error .isDirectory else some <$> disk.allow (d ++ [name])

/-- Gives a file its bytes; a file that is not there is made. A file that is there loses its bytes as
soon as it is opened, so if there is not enough room it is left with the first of the new ones. -/
def write (disk : Disk) (p : Path) (bytes : List UInt8) : Except IoCause Unit × FileSystem :=
  match fs.openFile disk p with
  | .error cause => (.error cause, fs)
  | .ok none => (.ok (), fs)
  | .ok (some l) =>
    let (result, stored) := disk.store l bytes
    (result, fs.set l (.file (.ok stored)))

/-- Makes a directory, or leaves one that is there. -/
def ensureDirectory (disk : Disk) (p : Path) : Except IoCause FileSystem :=
  match fs.makeDirectory disk p with
  | .ok fs => .ok fs
  | .error cause => if fs.isDirectory p then .ok fs else .error cause

/-- Makes a directory and those above it that are missing, at most `fuel` of them. The file system is
what was made of it, whether that was possible or not. -/
def makeDirectoriesUpTo (disk : Disk) :
    (fuel : Nat) → FileSystem → Path → Except IoCause Unit × FileSystem
  | 0, fs, _ => (.error .notFound, fs)
  | fuel + 1, fs, p =>
    if p.bytes.isEmpty then (.ok (), fs)
    else match fs.makeDirectory disk p with
      | .ok fs => (.ok (), fs)
      | .error .notFound => match p.parent? with
        | none => (.error (.other "failed to create whole tree"), fs)
        | some above => match makeDirectoriesUpTo disk fuel fs above with
          | (.error cause, fs) => (.error cause, fs)
          | (.ok _, fs) => match fs.ensureDirectory disk p with
            | .ok fs => (.ok (), fs)
            | .error cause => (.error cause, fs)
      | .error cause => (if fs.isDirectory p then .ok () else .error cause, fs)

/-- Makes a directory and those above it that are missing. -/
def makeDirectories (disk : Disk) (p : Path) : Except IoCause Unit × FileSystem :=
  makeDirectoriesUpTo disk (p.bytes.length + 2) fs p

/-- Removes what a path leads to, a link at its end and not its target. -/
def remove (p : Path) : Except IoCause FileSystem := do
  match ← fs.resolve false p with
  | .existing l => .ok { fs with root := Entry.removeAt l fs.root }
  | .absent .. => .error .notFound

end FileSystem

end SymbolIndex
