import SymbolIndex.Text.Quoted

/-!
# Printing TOML

How texts and lists of texts are written in a TOML document. There are four forms of a string, one
line or several, with escapes or as it stands, and a text takes the first that needs no escape; if
there is none it is written with escapes.
-/

namespace SymbolIndex.Toml

open Text

/-- Control characters other than the tab. -/
def isControl (c : Char) : Bool := (c.toNat < 0x20 && c ≠ '\t') || c.toNat = 0x7f

/-- Whether three of the characters `q` come in a row. -/
def hasTriple (q : Char) : List Char → Bool
  | a :: b :: c :: r => (a = q && b = q && c = q) || hasTriple q (b :: c :: r)
  | _ => false

/-- The form of a string. -/
inductive StringForm where
  | basic
  | literal
  | multilineBasic
  | multilineLiteral
  deriving DecidableEq, Repr

/-- The form a text takes. -/
def StringForm.of (cs : List Char) : StringForm :=
  let oneLine := !cs.any isControl
  let lines := !cs.any fun c => isControl c && c ≠ '\n'
  if oneLine && !cs.contains '\\' && !cs.contains '"' then .basic
  else if oneLine && !cs.contains '\'' then .literal
  else if lines && !cs.contains '\\' && !hasTriple '"' cs then .multilineBasic
  else if lines && !hasTriple '\'' cs then .multilineLiteral
  else if cs.contains '\n' then .multilineBasic
  else .basic

/-- A character by its code, with four digits. -/
def codeEscape (c : Char) : String :=
  let ds := (hexDigits c.toNat).toUpper
  "\\u" ++ String.ofList (List.replicate (4 - ds.length) '0') ++ ds

/-- A character in a string with escapes. Quotes are seen to elsewhere. -/
def escapedChar (c : Char) : String :=
  if c = '\t' then "\\t" else if c = '\x08' then "\\b" else if c = '\x0c' then "\\f"
  else if c = '\n' then "\\n" else if c = '\r' then "\\r" else if c = '\\' then "\\\\"
  else if isControl c then codeEscape c
  else String.singleton c

/-- The characters of a string with escapes on one line. -/
def escapedLine (cs : List Char) : String :=
  String.join (cs.map fun c => if c = '"' then "\\\"" else escapedChar c)

/-- The characters of a string with escapes over several lines, after `run` quotes in a row. Every
third quote of a row is escaped. -/
def escapedLines : (run : Nat) → List Char → String
  | _, [] => ""
  | run, c :: r =>
    if c = '"' then
      if run = 2 then "\\\"" ++ escapedLines 0 r else "\"" ++ escapedLines (run + 1) r
    else if c = '\n' then "\n" ++ escapedLines 0 r
    else escapedChar c ++ escapedLines 0 r

/-- A text as a string. A text with several lines starts on a line of its own. -/
def printString (s : String) : String :=
  let cs := s.toList
  let start := if cs.contains '\n' then "\n" else ""
  match StringForm.of cs with
  | .basic => "\"" ++ escapedLine cs ++ "\""
  | .literal => "'" ++ s ++ "'"
  | .multilineBasic => "\"\"\"" ++ start ++ escapedLines 0 cs ++ "\"\"\""
  | .multilineLiteral => "'''" ++ start ++ s ++ "'''"

/-- A list of texts: on one line if there is at most one, else one on each line. -/
def printList : List String → String
  | [] => "[]"
  | [s] => "[" ++ printString s ++ "]"
  | ss => "[\n" ++ String.join (ss.map fun s => "    " ++ printString s ++ ",\n") ++ "]"

/-- A truth value. -/
def printBool (b : Bool) : String := if b then "true" else "false"

end SymbolIndex.Toml
