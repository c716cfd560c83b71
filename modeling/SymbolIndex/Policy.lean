import SymbolIndex.Error

/-!
# Collision policies

A file may declare several symbols with one key. A policy says which of them a registry keeps.
-/

namespace SymbolIndex

/-- What becomes of a second symbol with the same key in one file. -/
inductive CollisionPolicy where
  /-- It takes the place of the first. -/
  | lastWins
  /-- It is dropped. -/
  | firstWins
  /-- The file is refused. -/
  | reject
  deriving DecidableEq, Repr, Inhabited

namespace CollisionPolicy

/-- The policy in force where none is chosen. -/
def standard : CollisionPolicy := .lastWins

/-- How a policy is shown. -/
def display : CollisionPolicy → String
  | lastWins => "last-wins"
  | firstWins => "first-wins"
  | reject => "reject"

/-- The name of a policy in data files. -/
def tag : CollisionPolicy → String
  | lastWins => "last_wins"
  | firstWins => "first_wins"
  | reject => "reject"

/-- All policies. -/
def all : List CollisionPolicy := [lastWins, firstWins, reject]

/-- A letter or mark of a policy's name in its plain form. Of all characters only the capital
letters of ASCII have a lower case among the letters of the names. -/
def plainChar (c : Char) : Char := if c = '_' then '-' else c.toLower

/-- The policy a user asks for. Case does not matter, and an underscore is as good as a dash. -/
def ofText (text : String) : Except Error CollisionPolicy :=
  match String.ofList (text.toList.map plainChar) with
  | "last-wins" | "last" => .ok lastWins
  | "first-wins" | "first" => .ok firstWins
  | "reject" | "error" => .ok reject
  | _ => .error (.config ("unknown collision policy: " ++ text))

end CollisionPolicy

end SymbolIndex
