import SymbolIndex.Toml.Value

/-!
# Faults of TOML texts

What is wrong with a text that is no TOML document, or not the document that was asked for, and how
it is reported: with the line, a mark under the characters in question and a reason.
-/

namespace SymbolIndex.Toml

/-- Why a name cannot be given a value. -/
inductive Clash where
  /-- The name has one. The tables around it are listed where they are known. -/
  | duplicate (name : String) (around : Option (List String))
  /-- A step of a dotted key is no table. -/
  | notTable (path : List String) (actual : String)
  deriving DecidableEq, Repr

/-- The wording of a clash. -/
def Clash.message : Clash → String
  | duplicate name none => "duplicate key `" ++ name ++ "`"
  | duplicate name (some []) => "duplicate key `" ++ name ++ "` in document root"
  | duplicate name (some path) =>
    "duplicate key `" ++ name ++ "` in table `" ++ ".".intercalate path ++ "`"
  | notTable path actual =>
    "dotted key `" ++ ".".intercalate path ++ "` attempted to extend non-table type (" ++ actual
      ++ ")"

/-- What is wrong at a place of a text: the construct that is not well formed there, what could
stand there instead, and a further reason. -/
structure Reason where
  construct : Option String
  expected : List String
  cause : Option String
  deriving DecidableEq, Repr

namespace Reason

/-- No reason in particular. -/
def blank : Reason := ⟨none, [], none⟩

/-- The construct `name` is not well formed. -/
def invalid (name : String) : Reason := ⟨some name, [], none⟩

/-- One of `what` should come here. -/
def expecting (what : List String) : Reason := ⟨none, what, none⟩

/-- The construct `name` is not well formed, one of `what` should come here. -/
def invalidExpecting (name : String) (what : List String) : Reason := ⟨some name, what, none⟩

/-- The construct `name`, if it is one, is not well formed for the reason `cause`. -/
def because (name : Option String) (cause : String) : Reason := ⟨name, [], some cause⟩

/-- The wording of a reason, on one line for each of its parts. -/
def message (r : Reason) : String :=
  let construct := match r.construct with
    | some name => ["invalid " ++ name]
    | none => []
  let expected := if r.expected.isEmpty then [] else ["expected " ++ ", ".intercalate r.expected]
  let cause := match r.cause with
    | some text => [text]
    | none => []
  "\n".intercalate (construct ++ expected ++ cause)

end Reason

/-- A fault: where it is, and what is wrong. -/
structure Fault where
  span : Span
  message : String
  deriving DecidableEq, Repr

namespace Fault

/-- The line and the column of a place, both from zero. A place beyond the text is on the line of
the last character. -/
def place (text : List Char) (offset : Nat) : Nat × Nat :=
  match text.length with
  | 0 => (0, offset)
  | last + 1 =>
    let inside := min offset last
    let before := text.take inside
    let column := (before.reverse.takeWhile (· ≠ '\n')).length
    (before.count '\n', column + (offset - inside))

/-- The lines of a text. -/
def lines : List Char → List (List Char)
  | [] => [[]]
  | c :: r =>
    if c = '\n' then [] :: lines r
    else match lines r with
      | [] => [[c]]
      | l :: ls => (c :: l) :: ls

/-- The report of a fault in a text. -/
def report (text : List Char) (f : Fault) : String :=
  let (line, column) := place text f.span.start
  let number := toString (line + 1)
  let content := (lines text).getD line []
  let margin := String.ofList (List.replicate (number.length + 1) ' ') ++ "|"
  let marks := max 1 (min (f.span.stop - f.span.start) (content.length - column))
  "TOML parse error at line " ++ number ++ ", column " ++ toString (column + 1) ++ "\n"
    ++ margin ++ "\n"
    ++ number ++ " | " ++ String.ofList content ++ "\n"
    ++ margin ++ String.ofList (List.replicate (column + 1) ' ')
    ++ String.ofList (List.replicate marks '^') ++ "\n"
    ++ f.message ++ "\n"

end Fault

end SymbolIndex.Toml
