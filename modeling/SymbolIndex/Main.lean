import SymbolIndex.CommandLine.Outcome

/-!
# The command

The command reads the parts of the disk that a run may look at into a `FileSystem`, runs the command
line on it and prints the outcome. Files whose contents do not matter are read as empty ones.
-/

namespace SymbolIndex.CommandLine

open Text

/-- The place of an absolute path without links. -/
def placeOf (path : String) : Location :=
  (Path.ofString path).components.filterMap fun
    | .name s => some s
    | _ => none

/-- Puts an entry at a place, and makes the directories above it. -/
def putAt (fs : FileSystem) (place : Location) (e : Entry) : FileSystem :=
  ((fs.makeDirectories .ample (Location.path place.dropLast)).2).set place e

/-- Whether the contents of a file matter to a run: source files, the configuration and ignore
files. -/
def isRead (suffix : String) (config : Path) (name : String) : Bool :=
  name.endsWith suffix || config.fileName? = some (Utf8.encode name)
    || [".ignore", ".gitignore", "exclude"].contains name

/-- The cause of a failed operation on the disk, in the words of the system. -/
def causeOf : IO.Error → IoCause
  | .permissionDenied _ code details | .resourceExhausted _ code details
  | .invalidArgument _ code details | .inappropriateType _ code details
  | .noSuchThing _ code details | .hardwareFault code details | .otherError code details =>
    .other (details ++ " (os error " ++ toString code ++ ")")
  | e => .other e.toString

/-- Reads an entry of the disk with everything below it. The targets of links are noted in `targets`.
What cannot be opened is kept with its cause; an entry that is gone by now is left out. -/
partial def readEntry (isRead : String → Bool) (targets : IO.Ref (List String))
    (e : IO.FS.DirEntry) : IO (Option Entry) := do
  try
    match (← e.path.symlinkMetadata).type with
    | .dir =>
      try
        let children ← (← e.path.readDir).toList.mapM fun c => do
          pure ((← readEntry isRead targets c).map fun child => (Utf8.encode c.fileName, child))
        pure (some (.directory (children.filterMap id)))
      catch failure => pure (some (.closed (causeOf failure)))
    | .file =>
      if isRead e.fileName then
        try pure (some (.file (← IO.FS.readBinFile e.path).data.toList))
        catch failure => pure (some (.file (.error (causeOf failure))))
      else pure (some (.file (.ok [])))
    | .symlink =>
      try
        let target ← IO.FS.realPath e.path
        targets.modify (target.toString :: ·)
        pure (some (.link (.ofString target.toString)))
      catch _ => pure (some (.link ⟨[]⟩))
    | .other => pure (some .device)
  catch _ => pure none

/-- Reads a path of the disk with everything below it and everything that links lead to. The paths in
`done` are read already. -/
partial def readAll (isRead : String → Bool) (fs : FileSystem) (done : List String) :
    List String → IO FileSystem
  | [] => pure fs
  | path :: rest => do
    if done.any fun d => (placeOf d).isPrefixOf (placeOf path) then
      readAll isRead fs done rest
    else
      let targets ← IO.mkRef []
      let name := (Path.ofString path).fileName?.elim "" Utf8.decodeLossy
      let above := (Path.ofString path).parent?.elim "/" Path.display
      match ← readEntry isRead targets ⟨above, name⟩ with
      | some e =>
        readAll isRead (putAt fs (placeOf path) e) (path :: done) ((← targets.get) ++ rest)
      | none => readAll isRead fs (path :: done) rest

/-- Reads the links on the way to an absolute path. -/
def readWay (fs : FileSystem) (path : String) : IO FileSystem := do
  let mut fs := fs
  let mut above := "/"
  for name in path.splitOn "/" do
    if name ≠ "" then
      let e : IO.FS.DirEntry := ⟨above, name⟩
      try
        if (← e.path.symlinkMetadata).type == .symlink then
          let place := placeOf (← IO.FS.realPath above).toString
          fs := putAt fs (place ++ [Utf8.encode name])
            (.link (.ofString (← IO.FS.realPath e.path).toString))
      catch _ => pure ()
      above := e.path.toString
  pure fs

/-- Reads what an absolute path leads to, if there is anything. -/
def readPath (isRead : String → Bool) (fs : FileSystem) (path : String) : IO FileSystem := do
  let fs ← readWay fs path
  try
    readAll isRead fs [] [(← IO.FS.realPath path).toString]
  catch _ => pure fs

/-- Reads the parts of the disk that a run may look at. -/
def snapshot (cwd home : String) (a : Arguments) : IO FileSystem := do
  let absolute (p : Path) : String := ((Path.ofString cwd).join p).display
  let empty : FileSystem := ⟨.directory [], placeOf cwd⟩
  let fs := (empty.makeDirectories .ample cwd).2
  let config : Path := a.config.elim (Settings.defaultPath home) Path.ofString
  let fs ← readPath (fun _ => true) fs (absolute config)
  match a.path, a.settings fs home with
  | some path, .ok s =>
    let root := absolute path
    let fs ← readPath (isRead s.scan.suffix config) fs root
    let place := (fs.locate root).toOption.getD []
    (IgnoreLevel.placesAbove place).foldlM (fun fs l => IgnoreKind.all.foldlM (fun fs kind =>
      readPath (fun _ => true) fs ((Location.path l).join kind.path).display) fs) fs
  | _, _ => pure fs

/-- Runs the command. -/
def command (args : List String) : IO UInt32 := do
  let cwd := (← IO.FS.realPath (← IO.currentDir)).toString
  let home := (← IO.getEnv "HOME").getD "."
  let fs ← match Arguments.parse args with
    | .ok a => snapshot cwd home a
    | .error _ => pure ⟨.directory [], []⟩
  let o := run fs home args
  for e in o.log do
    IO.eprintln e.line
  IO.print o.stdout
  IO.eprint o.stderr
  pure o.code.toUInt32

end SymbolIndex.CommandLine

/-- The entry point. -/
def main (args : List String) : IO UInt32 := SymbolIndex.CommandLine.command args
