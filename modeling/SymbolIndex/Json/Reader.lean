import SymbolIndex.Json.Value

/-!
# Reading JSON

`Json.parse?` reads a text that is one JSON value, with white space around it or without. The
readers of the parts take them off the front of the characters and answer with what is left.
-/

namespace SymbolIndex.Json

/-- White space between tokens. -/
def isSpace (c : Char) : Bool := c = ' ' || c = '\t' || c = '\n' || c = '\r'

/-- The characters from the next token on. -/
def skipSpace (cs : List Char) : List Char := cs.dropWhile isSpace

/-! ### Strings -/

/-- The value of a hexadecimal digit. -/
def hexValue? (c : Char) : Option Nat :=
  if '0' ≤ c && c ≤ '9' then some (c.toNat - '0'.toNat)
  else if 'a' ≤ c && c ≤ 'f' then some (c.toNat - 'a'.toNat + 10)
  else if 'A' ≤ c && c ≤ 'F' then some (c.toNat - 'A'.toNat + 10)
  else none

/-- The character that a letter after a backslash stands for. -/
def escape? : Char → Option Char
  | '"' => some '"'
  | '\\' => some '\\'
  | '/' => some '/'
  | 'b' => some '\x08'
  | 'f' => some '\x0c'
  | 'n' => some '\n'
  | 'r' => some '\r'
  | 't' => some '\t'
  | _ => none

/-- Reads a string literal after its opening quote: the code points and halves of surrogate pairs it
is made of. -/
def units : List Char → Option (List Nat × List Char)
  | [] => none
  | '"' :: r => some ([], r)
  | '\\' :: 'u' :: a :: b :: c :: d :: r => do
    let a ← hexValue? a
    let b ← hexValue? b
    let c ← hexValue? c
    let d ← hexValue? d
    let (us, rest) ← units r
    pure ((((a * 16 + b) * 16 + c) * 16 + d) :: us, rest)
  | '\\' :: c :: r => do
    let c ← escape? c
    let (us, rest) ← units r
    pure (c.toNat :: us, rest)
  | c :: r =>
    if c.toNat < 0x20 || c = '\\' then none
    else do
      let (us, rest) ← units r
      pure (c.toNat :: us, rest)

/-- The first half of a surrogate pair. -/
def isHighHalf (n : Nat) : Bool := 0xd800 ≤ n && n < 0xdc00

/-- The second half of a surrogate pair. -/
def isLowHalf (n : Nat) : Bool := 0xdc00 ≤ n && n < 0xe000

/-- The text made of code points and surrogate pairs, if no half is alone. -/
def assemble : List Nat → Option (List Char)
  | [] => some []
  | [n] => if isHighHalf n || isLowHalf n then none else some [Char.ofNat n]
  | n :: m :: r =>
    if isLowHalf n then none
    else if isHighHalf n then
      if isLowHalf m then
        (assemble r).map (Char.ofNat (0x10000 + (n - 0xd800) * 0x400 + (m - 0xdc00)) :: ·)
      else none
    else (assemble (m :: r)).map (Char.ofNat n :: ·)

/-- Reads a string literal after its opening quote. -/
def literal? (cs : List Char) : Option (Option String × List Char) := do
  let (us, rest) ← units cs
  pure ((assemble us).map String.ofList, rest)

/-! ### Numbers -/

/-- Reads at least one digit. -/
def digits? (cs : List Char) : Option (List Char × List Char) :=
  let ds := cs.takeWhile Char.isDigit
  if ds.isEmpty then none else some (ds, cs.dropWhile Char.isDigit)

/-- Reads the part of a number before the point: no digit follows a leading zero. -/
def integer? (cs : List Char) : Option (List Char × List Char) :=
  match cs with
  | '0' :: r => if r.head?.any Char.isDigit then none else some (['0'], r)
  | cs => digits? cs

/-- Reads a point and digits, or nothing. -/
def fraction? : List Char → Option (List Char × List Char)
  | '.' :: r => (digits? r).map fun (ds, rest) => ('.' :: ds, rest)
  | cs => some ([], cs)

/-- Reads an exponent, or nothing. -/
def exponent? : List Char → Option (List Char × List Char)
  | c :: r =>
    if c = 'e' || c = 'E' then
      match r with
      | '+' :: r => (digits? r).map fun (ds, rest) => (c :: '+' :: ds, rest)
      | '-' :: r => (digits? r).map fun (ds, rest) => (c :: '-' :: ds, rest)
      | r => (digits? r).map fun (ds, rest) => (c :: ds, rest)
    else some ([], c :: r)
  | [] => some ([], [])

/-- Reads a number. -/
def number? (cs : List Char) : Option (String × List Char) := do
  let (sign, r) := match cs with
    | '-' :: r => (['-'], r)
    | r => ([], r)
  let (whole, r) ← integer? r
  let (part, r) ← fraction? r
  let (power, r) ← exponent? r
  pure (String.ofList (sign ++ whole ++ part ++ power), r)

/-! ### Values -/

mutual

/-- Reads a value nested less than `fuel` deep. -/
def value? : (fuel : Nat) → List Char → Option (Json × List Char)
  | 0, _ => none
  | fuel + 1, cs => match skipSpace cs with
    | 'n' :: 'u' :: 'l' :: 'l' :: r => some (.null, r)
    | 't' :: 'r' :: 'u' :: 'e' :: r => some (.bool true, r)
    | 'f' :: 'a' :: 'l' :: 's' :: 'e' :: r => some (.bool false, r)
    | '"' :: r => do
      let (s, rest) ← literal? r
      pure (s.elim .brokenString .string, rest)
    | '[' :: r => match skipSpace r with
      | ']' :: r => some (.array [], r)
      | r => do
        let (vs, rest) ← elements? fuel r
        pure (.array vs, rest)
    | '{' :: r => match skipSpace r with
      | '}' :: r => some (.object [], r)
      | r => do
        let (ms, rest) ← members? fuel r
        pure (.object ms, rest)
    | r => (number? r).map fun (n, rest) => (.number n, rest)

/-- Reads the elements of an array up to the closing bracket. -/
def elements? : (fuel : Nat) → List Char → Option (List Json × List Char)
  | 0, _ => none
  | fuel + 1, cs => do
    let (v, r) ← value? fuel cs
    match skipSpace r with
    | ',' :: r => do
      let (vs, rest) ← elements? fuel r
      pure (v :: vs, rest)
    | ']' :: rest => pure ([v], rest)
    | _ => none

/-- Reads the members of an object up to the closing brace. -/
def members? : (fuel : Nat) → List Char → Option (List (Option String × Json) × List Char)
  | 0, _ => none
  | fuel + 1, cs => match skipSpace cs with
    | '"' :: r => do
      let (name, r) ← literal? r
      match skipSpace r with
      | ':' :: r => do
        let (v, r) ← value? fuel r
        match skipSpace r with
        | ',' :: r => do
          let (ms, rest) ← members? fuel r
          pure ((name, v) :: ms, rest)
        | '}' :: rest => pure ([(name, v)], rest)
        | _ => none
      | _ => none
    | _ => none

end

/-- The value of a JSON text. -/
def parse? (text : String) : Option Json := do
  let (v, rest) ← value? (2 * text.toList.length + 2) text.toList
  if (skipSpace rest).isEmpty then some v else none

end SymbolIndex.Json
