import SymbolIndex.Json.Value
import SymbolIndex.Text.Quoted

/-!
# Printing JSON

Two forms: `Json.compact` on one line without spaces, and `Json.pretty` with one element or member on
each line, indented by two spaces for each level.
-/

namespace SymbolIndex.Json

open Text

/-- A control character as four hexadecimal digits. -/
def codeEscape (c : Char) : String :=
  let ds := hexDigits c.toNat
  "\\u" ++ String.ofList (List.replicate (4 - ds.length) '0') ++ ds

/-- A character inside a string literal. -/
def printChar (c : Char) : String :=
  if c = '"' then "\\\"" else if c = '\\' then "\\\\"
  else if c = '\x08' then "\\b" else if c = '\x0c' then "\\f"
  else if c = '\n' then "\\n" else if c = '\r' then "\\r" else if c = '\t' then "\\t"
  else if c.toNat < 0x20 then codeEscape c
  else String.singleton c

/-- A string literal. -/
def printString (s : String) : String :=
  "\"" ++ String.join (s.toList.map printChar) ++ "\""

/-- A literal for a string that stands for no text. -/
def printBroken : String := "\"\\ud800\""

/-- The name of a member. -/
def printName (name : Option String) : String := name.elim printBroken printString

mutual

/-- The value on one line. -/
def compact : Json → String
  | null => "null"
  | bool b => if b then "true" else "false"
  | number n => n
  | string s => printString s
  | brokenString => printBroken
  | array vs => "[" ++ ",".intercalate (compactAll vs) ++ "]"
  | object ms => "\x7b" ++ ",".intercalate (compactMembers ms) ++ "\x7d"

/-- The values, each on one line. -/
def compactAll : List Json → List String
  | [] => []
  | v :: vs => v.compact :: compactAll vs

/-- The members, each on one line. -/
def compactMembers : List (Option String × Json) → List String
  | [] => []
  | (name, v) :: ms => (printName name ++ ":" ++ v.compact) :: compactMembers ms

end

/-- The start of a line at the level `depth`. -/
def newline (depth : Nat) : String := "\n" ++ String.ofList (List.replicate (2 * depth) ' ')

/-- Items between brackets, one on a line; nothing between them if there are none. -/
def block (opening closing : String) (depth : Nat) (items : List String) : String :=
  if items.isEmpty then opening ++ closing
  else
    opening ++ newline (depth + 1) ++ ("," ++ newline (depth + 1)).intercalate items
      ++ newline depth ++ closing

mutual

/-- The value at the level `depth`, over several lines. -/
def prettyAt (depth : Nat) : Json → String
  | array vs => block "[" "]" depth (prettyAll (depth + 1) vs)
  | object ms => block "\x7b" "\x7d" depth (prettyMembers (depth + 1) ms)
  | null => "null"
  | bool b => if b then "true" else "false"
  | number n => n
  | string s => printString s
  | brokenString => printBroken

/-- The values at the level `depth`. -/
def prettyAll (depth : Nat) : List Json → List String
  | [] => []
  | v :: vs => v.prettyAt depth :: prettyAll depth vs

/-- The members at the level `depth`. -/
def prettyMembers (depth : Nat) : List (Option String × Json) → List String
  | [] => []
  | (name, v) :: ms => (printName name ++ ": " ++ v.prettyAt depth) :: prettyMembers depth ms

end

/-- The value over several lines. -/
def pretty (v : Json) : String := v.prettyAt 0

end SymbolIndex.Json
