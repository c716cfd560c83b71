import SymbolIndex.CommandLine.Arguments
import SymbolIndex.Index
import SymbolIndex.Registry.Json

/-!
# Running a command line

A command line is run on a file system. The outcome is what a user sees: the exit code, both outputs
and the events of the log. The registry goes to the standard output, as lines or as JSON; failures
and totals go to the standard error output.
-/

namespace SymbolIndex.CommandLine

/-- What comes of a command line. -/
structure Outcome where
  code : Nat
  stdout : String
  /-- The standard error output without the log. -/
  stderr : String
  /-- The events that are logged. -/
  log : List Event
  deriving Repr

/-! ### Errors -/

/-- A text with a mark in front, and with the lines after the first indented by `indent`. -/
def hang (mark indent text : String) : String :=
  mark ++ ("\n" ++ indent).intercalate (text.splitOn "\n")

/-- The causes of an error, one below the other; they are numbered if there are several. -/
def showCauses : List String → String
  | [] => ""
  | [cause] => "\n\nCaused by:\n" ++ hang "    " "    " cause
  | causes => "\n\nCaused by:" ++ String.join (causes.zipIdx.map fun (cause, i) =>
      "\n" ++ hang ("    " ++ toString i ++ ": ") "       " cause)

/-- The report of an error and its causes. -/
def showError (message : String) (causes : List String) : String :=
  "Error: " ++ message ++ showCauses causes ++ "\n"

/-- The cause of an error. -/
def causesOf (e : Error) : List String := (e.cause?.map IoCause.message).toList

/-! ### Settings -/

namespace Arguments

/-- The settings with what the command line says about them. -/
def override (a : Arguments) (s : Settings) : Settings where
  scan := { s.scan with
    suffix := a.suffix.getD s.scan.suffix
    ignoreDirs := s.scan.ignoreDirs ++ a.ignoreDirs }
  extract :=
    { includeConstructors := s.extract.includeConstructors && !a.noConstructors
      collisionPolicy := a.collision.getD s.extract.collisionPolicy }

/-- The settings for a command line. -/
def settings (fs : FileSystem) (home : Path) (a : Arguments) : Except Error Settings := do
  let s ← match a.config with
    | some path => Settings.load fs path
    | none => Settings.loadDefault fs home
  pure (a.override s)

/-- Whether an event is logged. -/
def logs (a : Arguments) (e : Event) : Bool := a.verbose || e.level ≠ .debug

end Arguments

/-! ### Output -/

/-- The report on failures and totals. -/
def report (d : DirectoryIndex) : String :=
  String.join (d.failures.map fun f => "  " ++ f.path.display ++ ": " ++ f.error.message ++ "\n")
    ++ toString d.totals.scanned ++ " files scanned, " ++ toString d.totals.indexed ++ " indexed, "
    ++ toString d.totals.failed ++ " failed, " ++ toString d.totals.symbols ++ " symbols\n"

/-- The registry as it is printed; as JSON, only if all paths are text. -/
def print? (json : Bool) (c : CombinedRegistry) : Option String :=
  if json then c.toJson?.map (·.pretty ++ "\n") else some c.display

/-- Indexes a directory and prints its registry. -/
def index (fs : FileSystem) (settings : Settings) (json : Bool) (root : Path) : Outcome :=
  let a := fs.indexDirectory settings root
  match a.result with
  | .error e => ⟨1, "", showError ("Error parsing files in " ++ root.display)
      (e.message :: causesOf e), a.events⟩
  | .ok d => match print? json d.registry with
    | some text => ⟨0, text, report d, a.events⟩
    | none => ⟨1, "", showError "path contains invalid UTF-8 characters" [], a.events⟩

/-- Does what the arguments ask for. -/
def Arguments.run (fs : FileSystem) (home : Path) (a : Arguments) : Outcome :=
  match a.path with
  | none => ⟨1, "", "Please provide a directory path.\n", []⟩
  | some path => match a.settings fs home with
    | .error e => ⟨1, "", showError e.message (causesOf e), []⟩
    | .ok settings =>
      let o := index fs settings a.json (fs.workingDirectory.path.join path)
      { o with log := o.log.filter a.logs }

/-- Runs a command line. -/
def run (fs : FileSystem) (home : Path) (args : List String) : Outcome :=
  match Arguments.parse args with
  | .error .help => ⟨0, helpText, "", []⟩
  | .error .version => ⟨0, versionText, "", []⟩
  | .error (.fault f) => ⟨2, "", f.report, []⟩
  | .ok a => a.run fs home

end SymbolIndex.CommandLine
