import SymbolIndex.Text.Invisible

/-!
# Quoted texts

A text between double quotes, as reports show it. Quotes and backslashes follow a backslash, line
feed, carriage return, tab and the zero character have short escapes, and other characters that
could not be seen are given by their code point in hexadecimal.
-/

namespace SymbolIndex.Text

/-- The digits of a number in hexadecimal. -/
def hexDigits (n : Nat) : String := String.ofList (Nat.toDigits 16 n)

/-- A character inside quotes. -/
def quotedChar (c : Char) : String :=
  if c = '"' then "\\\"" else if c = '\\' then "\\\\"
  else if c = '\n' then "\\n" else if c = '\r' then "\\r" else if c = '\t' then "\\t"
  else if c.toNat = 0 then "\\0"
  else if c.toNat < 0x20 || c.toNat = 0x7f || (0x80 ≤ c.toNat && isInvisible c) then
    "\\u\x7b" ++ hexDigits c.toNat ++ "\x7d"
  else String.singleton c

/-- The text in quotes. -/
def quoted (s : String) : String := "\"" ++ String.join (s.toList.map quotedChar) ++ "\""

end SymbolIndex.Text
