import SymbolIndex.Policy

/-!
# Command line arguments

The command line has one operand, the directory to scan, and options in any order around it. Arguments
are read from left to right. An option waits for its value, which is taken only when the next argument
shows where the value ends; so an argument that nobody knows is refused before a value that is wrong.
-/

namespace SymbolIndex.CommandLine

/-- What a command line asks for. -/
structure Arguments where
  path : Option String
  json : Bool
  config : Option String
  suffix : Option String
  collision : Option CollisionPolicy
  noConstructors : Bool
  ignoreDirs : List String
  verbose : Bool
  deriving DecidableEq, Repr

/-- The arguments of an empty command line. -/
def Arguments.empty : Arguments := ⟨none, false, none, none, none, false, [], false⟩

/-- An option without a value. -/
inductive Switch where
  | json
  | noConstructors
  | verbose
  | help
  | version
  deriving DecidableEq, Repr

/-- Something that takes a value. -/
inductive Slot where
  /-- The directory to scan, which has no name. -/
  | path
  | config
  | suffix
  | collision
  | ignoreDir
  deriving DecidableEq, Repr

/-- How messages show a switch. -/
def Switch.display : Switch → String
  | json => "--json"
  | noConstructors => "--no-constructors"
  | verbose => "--verbose"
  | help => "--help"
  | version => "--version"

/-- How messages show a slot. -/
def Slot.display : Slot → String
  | path => "[PATH]"
  | config => "--config <CONFIG>"
  | suffix => "--suffix <SUFFIX>"
  | collision => "--collision <COLLISION>"
  | ignoreDir => "--ignore-dir <IGNORE_DIRS>"

/-- Why a command line is refused. -/
inductive Fault where
  /-- An argument that nobody knows, or a second operand. -/
  | unexpected (argument : String)
  /-- A value for a switch. -/
  | unexpectedValue (value : String) (switch : Switch)
  | missingValue (slot : Slot)
  | repeatedSwitch (switch : Switch)
  | repeatedSlot (slot : Slot)
  | invalidValue (value : String) (slot : Slot) (error : Error)
  deriving DecidableEq, Repr

/-- The wording of a fault. -/
def Fault.message : Fault → String
  | unexpected a => "unexpected argument '" ++ a ++ "' found"
  | unexpectedValue v s =>
    "unexpected value '" ++ v ++ "' for '" ++ s.display ++ "' found; no more were expected"
  | missingValue s => "a value is required for '" ++ s.display ++ "' but none was supplied"
  | repeatedSwitch s => "the argument '" ++ s.display ++ "' cannot be used multiple times"
  | repeatedSlot s => "the argument '" ++ s.display ++ "' cannot be used multiple times"
  | invalidValue v s e => "invalid value '" ++ v ++ "' for '" ++ s.display ++ "': " ++ e.message

/-- What else a command line may lead to. -/
inductive Stop where
  | help
  | version
  | fault (f : Fault)
  deriving DecidableEq, Repr

/-- What a long name stands for. -/
def longOption? : String → Option (Switch ⊕ Slot)
  | "json" => some (.inl .json)
  | "no-constructors" => some (.inl .noConstructors)
  | "verbose" => some (.inl .verbose)
  | "help" => some (.inl .help)
  | "version" => some (.inl .version)
  | "config" => some (.inr .config)
  | "suffix" => some (.inr .suffix)
  | "collision" => some (.inr .collision)
  | "ignore-dir" => some (.inr .ignoreDir)
  | _ => none

/-- What a short name stands for. -/
def shortOption? : Char → Option (Switch ⊕ Slot)
  | 'v' => some (.inl .verbose)
  | 'h' => some (.inl .help)
  | 'V' => some (.inl .version)
  | 'c' => some (.inr .config)
  | _ => none

/-! ### Values -/

namespace Arguments

/-- Turns a switch on. -/
def turnOn (a : Arguments) : Switch → Except Stop Arguments
  | .json => if a.json then repeated .json else .ok { a with json := true }
  | .noConstructors =>
    if a.noConstructors then repeated .noConstructors else .ok { a with noConstructors := true }
  | .verbose => if a.verbose then repeated .verbose else .ok { a with verbose := true }
  | .help => .error .help
  | .version => .error .version
where
  /-- Refuses a switch that is on. -/
  repeated (s : Switch) : Except Stop Arguments := .error (.fault (.repeatedSwitch s))

/-- Whether a slot that takes one value has it. -/
def isFull (a : Arguments) : Slot → Bool
  | .path => a.path.isSome
  | .config => a.config.isSome
  | .suffix => a.suffix.isSome
  | .collision => a.collision.isSome
  | .ignoreDir => false

/-- Gives a slot its value. A path is not empty. -/
def assign (a : Arguments) (slot : Slot) (value : String) : Except Fault Arguments :=
  if a.isFull slot then .error (.repeatedSlot slot)
  else match slot with
    | .path => if value.isEmpty then .error (.missingValue .path)
      else .ok { a with path := some value }
    | .config => if value.isEmpty then .error (.missingValue .config)
      else .ok { a with config := some value }
    | .suffix => .ok { a with suffix := some value }
    | .collision => match CollisionPolicy.ofText value with
      | .ok p => .ok { a with collision := some p }
      | .error e => .error (.invalidValue value .collision e)
    | .ignoreDir => .ok { a with ignoreDirs := a.ignoreDirs ++ [value] }

end Arguments

/-! ### Reading -/

/-- What is known of a command line that is being read. -/
structure Reading where
  arguments : Arguments
  /-- A slot that is not assigned yet, and its value if that is there. -/
  pending : Option (Slot × Option String)
  /-- Whether the operand was seen. -/
  hasPath : Bool

namespace Reading

/-- Assigns what is pending. -/
def settle (r : Reading) : Except Stop Arguments :=
  match r.pending with
  | none => .ok r.arguments
  | some (slot, none) => .error (.fault (.missingValue slot))
  | some (slot, some v) => match r.arguments.assign slot v with
    | .ok a => .ok a
    | .error f => .error (.fault f)

/-- Reads a switch. -/
def turnOn (r : Reading) (s : Switch) : Except Stop Reading := do
  pure { r with arguments := ← (← r.settle).turnOn s, pending := none }

/-- Reads an option whose value comes next. -/
def await (r : Reading) (slot : Slot) : Except Stop Reading := do
  pure { r with arguments := ← r.settle, pending := some (slot, none) }

/-- Reads an option with its value. -/
def take (r : Reading) (slot : Slot) (value : String) : Except Stop Reading := do
  let r := { r with arguments := ← r.settle, pending := some (slot, some value) }
  pure { r with arguments := ← r.settle, pending := none }

/-- Reads an operand. -/
def operand (r : Reading) (value : String) : Except Stop Reading :=
  if r.hasPath then .error (.fault (.unexpected value))
  else do pure ⟨← r.settle, some (.path, some value), true⟩

/-- Reads an argument that is no option: the value that is awaited, or an operand. -/
def plain (r : Reading) (value : String) : Except Stop Reading :=
  match r.pending with
  | some (slot, none) => .ok { r with pending := some (slot, some value) }
  | _ => r.operand value

/-- Reads an argument after two dashes. -/
def long (r : Reading) (body : List Char) : Except Stop Reading :=
  let name := String.ofList (body.takeWhile (· ≠ '='))
  let value : Option String := match body.dropWhile (· ≠ '=') with
    | [] => none
    | _ :: v => some (String.ofList v)
  match longOption? name, value with
  | none, _ => .error (.fault (.unexpected ("--" ++ name)))
  | some (.inl s), none => r.turnOn s
  | some (.inl s), some v => .error (.fault (.unexpectedValue v s))
  | some (.inr slot), none => r.await slot
  | some (.inr slot), some v => r.take slot v

/-- Reads the short names after a dash. A value may follow its name at once, or after an equals
sign. -/
def short (r : Reading) : List Char → Except Stop Reading
  | [] => .ok r
  | c :: cs => match shortOption? c with
    | none => .error (.fault (.unexpected ("-" ++ String.singleton c)))
    | some (.inl s) => do short (← r.turnOn s) cs
    | some (.inr slot) => match cs with
      | [] => r.await slot
      | '=' :: v => r.take slot (String.ofList v)
      | v => r.take slot (String.ofList v)

/-- Reads an argument before two dashes on their own. -/
def argument (r : Reading) (a : String) : Except Stop Reading :=
  match a.toList with
  | '-' :: '-' :: body => r.long body
  | '-' :: c :: cs => r.short (c :: cs)
  | _ => r.plain a

/-- Reads arguments; after two dashes on their own all are operands. -/
def all (r : Reading) : List String → Except Stop Reading
  | [] => .ok r
  | "--" :: operands => operands.foldlM operand r
  | a :: rest => do all (← r.argument a) rest

end Reading

/-- Reads a command line. -/
def Arguments.parse (args : List String) : Except Stop Arguments := do
  (← Reading.all ⟨.empty, none, false⟩ args).settle

/-! ### Texts -/

/-- How the command is used. -/
def usage : String := "Usage: method-ref [OPTIONS] [PATH]"

/-- The answer to a request for help. -/
def helpText : String := String.join (List.map (· ++ "\n") [
  "List the functions and class methods declared in a JavaScript source tree",
  "",
  usage,
  "",
  "Arguments:",
  "  [PATH]  Directory to scan",
  "",
  "Options:",
  "      --json                      Print the registry as JSON",
  "  -c, --config <CONFIG>           Config file (defaults to ~/.methodref/config.toml)",
  "      --suffix <SUFFIX>           Source file suffix, e.g. \".mjs\"",
  "      --collision <COLLISION>     Duplicate key handling within a file: last-wins, first-wins, "
    ++ "reject",
  "      --no-constructors           Leave class constructors out of the registry",
  "      --ignore-dir <IGNORE_DIRS>  Directory name to skip (repeatable)",
  "  -v, --verbose                   Enable debug logging",
  "  -h, --help                      Print help",
  "  -V, --version                   Print version"])

/-- The answer to a request for the version. -/
def versionText : String := "method-ref 0.1.0\n"

/-- Whether a fault is in the form of the command line and not in a value. -/
def Fault.isUsage : Fault → Bool
  | missingValue _ | invalidValue .. => false
  | _ => true

/-- The report of a fault. -/
def Fault.report (f : Fault) : String :=
  "error: " ++ f.message ++ "\n\n" ++ (if f.isUsage then usage ++ "\n\n" else "")
    ++ "For more information, try '--help'.\n"

end SymbolIndex.CommandLine
