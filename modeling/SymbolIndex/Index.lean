import SymbolIndex.Config.File
import SymbolIndex.Registry.Combined
import SymbolIndex.Walk

/-!
# Indexing a directory

Every source file in a directory is read and its symbols are registered; the registries of the files
are merged in the order of the walk. What goes wrong with a file, or on the way to it, is a failure
and not an error: only the root itself can make indexing fail.
-/

namespace SymbolIndex

open Text

/-- A file that could not be indexed, or the root of the walk when there is no such file. -/
structure Failure where
  path : Path
  error : Error
  deriving DecidableEq, Repr

/-- The symbols in a directory. -/
structure DirectoryIndex where
  registry : CombinedRegistry
  failures : List Failure
  totals : Totals
  deriving Repr

namespace DirectoryIndex

/-- Nothing. -/
def empty : DirectoryIndex := ⟨.empty, [], ⟨0, 0, 0, 0⟩⟩

/-- Whether anything failed. -/
def hasFailures (d : DirectoryIndex) : Bool := !d.failures.isEmpty

/-- Notes that something cannot be visited; the root stands in for a path that the error does not
have. -/
def addFault (root : Path) (d : DirectoryIndex) (f : WalkFault) : DirectoryIndex :=
  { d with failures := d.failures ++ [⟨f.error.path?.getD root, f.error⟩] }

/-- Adds a source file: its registry, or why there is none. -/
def addFile (path : Path) (d : DirectoryIndex) : Except Error FileRegistry → DirectoryIndex
  | .ok r =>
    { d with
      registry := d.registry.merge r
      totals := { d.totals with
        scanned := d.totals.scanned + 1
        indexed := d.totals.indexed + 1
        symbols := d.totals.symbols + r.size } }
  | .error e =>
    { d with
      failures := d.failures ++ [⟨path, e⟩]
      totals := { d.totals with
        scanned := d.totals.scanned + 1
        failed := d.totals.failed + 1 } }

end DirectoryIndex

namespace FileSystem

variable (fs : FileSystem)

/-- Registers the symbols of a file. -/
def indexFile (settings : ExtractSettings) (path : Path) : Attempt FileRegistry := do
  match fs.read path with
  | .error cause => throw (.io path cause)
  | .ok bytes =>
    FileRegistry.ofSource (Utf8.decodeLossy bytes) path settings.options settings.collisionPolicy

/-- Adds what a walk came by to an index. -/
def addVisit (settings : ExtractSettings) (root : Path) (d : DirectoryIndex) :
    Visit → Logged DirectoryIndex
  | .error f => ⟨d.addFault root f, [.entryFailed f.error]⟩
  | .ok path =>
    let a := fs.indexFile settings path
    let skipped := match a.result with
      | .ok _ => []
      | .error e => [.fileSkipped path e]
    ⟨d.addFile path a.result, a.events ++ skipped⟩

/-- The index of what a walk came by. -/
def indexVisits (settings : ExtractSettings) (root : Path) (visits : List Visit) :
    Logged DirectoryIndex :=
  visits.foldlM (fs.addVisit settings root) .empty

/-- Indexes the source files in a directory. -/
def indexDirectory (settings : Settings) (root : Path) : Attempt DirectoryIndex := do
  let visits ← Attempt.ofExcept (fs.visits settings.scan root)
  let d ← ExceptT.lift (fs.indexVisits settings.extract root visits)
  Attempt.tell (.indexed root d.totals d.registry.size)
  pure d

/-- Puts a source file that a walk came by behind those that are listed. -/
def listVisit (paths : List Path) : Visit → Attempt (List Path)
  | .ok path => pure (paths ++ [path])
  | .error f => do
    Attempt.tell (.entryFailed f.error)
    pure paths

/-- The source files in a directory. -/
def sourceFiles (scan : ScanSettings) (root : Path) : Attempt (List Path) := do
  let visits ← Attempt.ofExcept (fs.visits scan root)
  visits.foldlM listVisit []

end FileSystem

end SymbolIndex
