import SymbolIndex.Toml.Fault

/-!
# Reading parts of TOML texts

A `Reader` takes parts off the front of a text and stops at the first fault. This module has the
readers that know nothing of values: blanks, line ends, comments, strings and keys.
-/

namespace SymbolIndex.Toml

/-- The characters still to be read, and how many were read before. -/
structure Cursor where
  rest : List Char
  offset : Nat

/-- A fault that is not worded yet. -/
structure Stop where
  offset : Nat
  reason : Reason

/-- Reads something off the front of a text. -/
abbrev Reader := StateT Cursor (Except Stop)

namespace Reader

variable {α : Type}

/-- The characters still to be read. -/
def rest : Reader (List Char) := fun c => .ok (c.rest, c)

/-- The number of characters read. -/
def offset : Reader Nat := fun c => .ok (c.offset, c)

/-- Stops here. -/
def stop (reason : Reason) : Reader α := fun c => .error ⟨c.offset, reason⟩

/-- Stops at an earlier place. -/
def stopAt (offset : Nat) (reason : Reason) : Reader α := fun _ => .error ⟨offset, reason⟩

/-- Passes over `n` characters. -/
def skip (n : Nat) : Reader Unit := fun c => .ok ((), ⟨c.rest.drop n, c.offset + n⟩)

/-- Takes the characters up to the first that is not in the class `p`. -/
def takeWhile (p : Char → Bool) : Reader (List Char) := fun c =>
  let taken := c.rest.takeWhile p
  .ok (taken, ⟨c.rest.dropWhile p, c.offset + taken.length⟩)

/-- Passes over the character `ch`, or stops. -/
def expect (ch : Char) (reason : Reason) : Reader Unit := do
  match ← rest with
  | c :: _ => if c = ch then skip 1 else stop reason
  | [] => stop reason

/-- Repeats `step` until it answers `.inl`, at most `fuel` times. -/
def loop (step : α → Reader (α ⊕ α)) : (fuel : Nat) → α → Reader α
  | 0, _ => stop .blank
  | fuel + 1, a => do
    match ← step a with
    | .inl b => pure b
    | .inr b => loop step fuel b

/-- Repeats `step` until it answers `.inl`. Every round but the last reads something, so the length
of the text bounds the rounds. -/
def repeatUntil (step : α → Reader (α ⊕ α)) (a : α) : Reader α := fun c =>
  loop step (c.rest.length + 1) a c

end Reader

open Reader

/-! ### Blanks, comments and line ends -/

/-- A space or a tab. -/
def isBlank (c : Char) : Bool := c = ' ' || c = '\t'

/-- Passes over blanks. -/
def blanks : Reader Unit := do let _ ← takeWhile isBlank

/-- Characters that texts may contain as they are: none that control something, but the tab. -/
def isPlain (c : Char) : Bool := c = '\t' || (0x20 ≤ c.toNat && c.toNat ≠ 0x7f)

/-- The length of the line end at the front. -/
def newlineLength : List Char → Nat
  | '\n' :: _ => 1
  | '\r' :: '\n' :: _ => 2
  | _ => 0

/-- Passes over a comment, if there is one. -/
def comment : Reader Unit := do
  match ← rest with
  | '#' :: _ => do let _ ← takeWhile isPlain
  | _ => pure ()

/-- Passes over the end of a line, which may be the end of the text. -/
def lineEnd (reason : Reason) : Reader Unit := do
  match ← rest with
  | [] => pure ()
  | cs =>
    let n := newlineLength cs
    if n = 0 then stop reason else skip n

/-- What may follow a header or a value on its line. -/
def afterLine : Reason := .expecting ["newline", "`#`"]

/-- Passes over what may follow a header or a value on its line. -/
def lineTrailing : Reader Unit := do
  blanks
  comment
  lineEnd afterLine

/-- Passes over blanks and a comment, and over the line end behind them, if there is one. -/
def gapRound (_ : Unit) : Reader (Unit ⊕ Unit) := do
  blanks
  comment
  let n := newlineLength (← rest)
  if n = 0 then pure (.inl ()) else do
    skip n
    pure (.inr ())

/-- Passes over blanks, comments and line ends. -/
def gap : Reader Unit := repeatUntil gapRound ()

/-! ### Strings -/

/-- The value of a hexadecimal digit. -/
def hexValue? (c : Char) : Option Nat :=
  if '0' ≤ c && c ≤ '9' then some (c.toNat - '0'.toNat)
  else if 'a' ≤ c && c ≤ 'f' then some (c.toNat - 'a'.toNat + 10)
  else if 'A' ≤ c && c ≤ 'F' then some (c.toNat - 'A'.toNat + 10)
  else none

/-- The number written in hexadecimal digits. -/
def hexNumber? : List Char → Option Nat :=
  List.foldlM (fun n c => (hexValue? c).map (n * 16 + ·)) 0

/-- Whether a number is the code of a character. -/
def isCharCode (n : Nat) : Bool := n < 0xd800 || (0xe000 ≤ n && n < 0x110000)

/-- Reads the `n` digits of a character given by its code. -/
def codePoint (n : Nat) (name : String) : Reader Char := do
  let ds := (← rest).take n
  match if ds.length = n then hexNumber? ds else none with
  | none => stop (.invalid name)
  | some code =>
    if isCharCode code then do
      skip n
      pure (Char.ofNat code)
    else stop (.because (some name) "value is out of range")

/-- Reads what follows a backslash. -/
def escape : Reader Char := do
  match ← rest with
  | 'b' :: _ => do skip 1; pure '\x08'
  | 'f' :: _ => do skip 1; pure '\x0c'
  | 'n' :: _ => do skip 1; pure '\n'
  | 'r' :: _ => do skip 1; pure '\r'
  | 't' :: _ => do skip 1; pure '\t'
  | '\\' :: _ => do skip 1; pure '\\'
  | '"' :: _ => do skip 1; pure '"'
  | 'u' :: _ => do skip 1; codePoint 4 "unicode 4-digit hex code"
  | 'U' :: _ => do skip 1; codePoint 8 "unicode 8-digit hex code"
  | _ => do
    skip 1
    stop (.invalidExpecting "escape sequence"
      ["`b`", "`f`", "`n`", "`r`", "`t`", "`u`", "`U`", "`\\`", "`\"`"])

/-- Reads a character of a string in double quotes, or the quote at its end. -/
def basicRound (found : List Char) : Reader (List Char ⊕ List Char) := do
  match ← rest with
  | '"' :: _ => do skip 1; pure (.inl found)
  | '\\' :: _ => do skip 1; pure (.inr (found ++ [← escape]))
  | c :: _ =>
    if isPlain c then do
      skip 1
      pure (.inr (found ++ [c]))
    else stop (.invalid "basic string")
  | [] => stop (.invalid "basic string")

/-- Reads a string in double quotes, on one line. -/
def basicString : Reader String := do
  expect '"' (.invalid "basic string")
  let cs ← repeatUntil basicRound []
  pure (String.ofList cs)

/-- Reads a string in single quotes, on one line. -/
def literalString : Reader String := do
  expect '\'' (.invalid "literal string")
  let cs ← takeWhile fun c => isPlain c && c ≠ '\''
  expect '\'' (.invalid "literal string")
  pure (String.ofList cs)

/-- Passes over a line end that follows the opening quotes. -/
def openingLine : Reader Unit := do skip (newlineLength (← rest))

/-- How many of the quotes `q` stand at the front. -/
def quoteCount (q : Char) (cs : List Char) : Nat := (cs.takeWhile (· = q)).length

/-- Reads the quotes at the front of a string over several lines: up to two belong to the text, three
end it, and up to two of the text may stand right before those. The answer tells whether the string
is at its end. -/
def quotes (q : Char) : Reader (List Char × Bool) := do
  let n := quoteCount q (← rest)
  if n < 3 then do
    skip n
    pure (List.replicate n q, false)
  else do
    let own := min 2 (n - 3)
    skip (own + 3)
    pure (List.replicate own q, true)

/-- Whether a backslash at the front stands before the end of its line. -/
def joinsLines (cs : List Char) : Bool := newlineLength (cs.dropWhile isBlank) ≠ 0

/-- A blank, or part of a line end. -/
def isLineSpace (c : Char) : Bool := isBlank c || c = '\n' || c = '\r'

/-- Reads some quotes of a string over several lines, or those at its end. -/
def quotesRound (q : Char) (found : List Char) : Reader (List Char ⊕ List Char) := do
  let (own, ends) ← quotes q
  if ends then pure (.inl (found ++ own)) else pure (.inr (found ++ own))

/-- Reads a character of a string over several lines that stands for itself, or a line end. -/
def plainRound (reason : Reason) (found : List Char) : Reader (List Char ⊕ List Char) := do
  match ← rest with
  | c :: r =>
    let n := newlineLength (c :: r)
    if n ≠ 0 then do
      skip n
      pure (.inr (found ++ ['\n']))
    else if isPlain c then do
      skip 1
      pure (.inr (found ++ [c]))
    else stop reason
  | [] => stop reason

/-- Reads a piece of a string in three double quotes. -/
def multilineRound (found : List Char) : Reader (List Char ⊕ List Char) := do
  match ← rest with
  | '"' :: _ => quotesRound '"' found
  | '\\' :: r => do
    if joinsLines r then do
      skip 1
      let _ ← takeWhile isLineSpace
      pure (.inr found)
    else do
      skip 1
      pure (.inr (found ++ [← escape]))
  | _ => plainRound (.invalid "multiline basic string") found

/-- Reads a string in three double quotes. -/
def multilineString : Reader String := do
  skip 3
  openingLine
  let cs ← repeatUntil multilineRound []
  pure (String.ofList cs)

/-- Reads a piece of a string in three single quotes. -/
def multilineLiteralRound (found : List Char) : Reader (List Char ⊕ List Char) := do
  match ← rest with
  | '\'' :: _ => quotesRound '\'' found
  | _ => plainRound (.invalid "multiline literal string") found

/-- Reads a string in three single quotes. -/
def multilineLiteral : Reader String := do
  skip 3
  openingLine
  let cs ← repeatUntil multilineLiteralRound []
  pure (String.ofList cs)

/-- Reads a string of any form. -/
def string : Reader String := do
  match ← rest with
  | '"' :: '"' :: '"' :: _ => multilineString
  | '"' :: _ => basicString
  | '\'' :: '\'' :: '\'' :: _ => multilineLiteral
  | _ => literalString

/-! ### Keys -/

/-- Characters of a key without quotes. -/
def isBareChar (c : Char) : Bool :=
  c.isAlpha || c.isDigit || c = '-' || c = '_'

/-- A step of a key, and where it is written. -/
structure KeyPart where
  name : String
  span : Span

/-- Reads a step of a key, if there is one here. -/
def keyPart? : Reader (Option KeyPart) := do
  let start ← offset
  match ← rest with
  | '"' :: _ => do
    let s ← basicString
    pure (some ⟨s, ⟨start, ← offset⟩⟩)
  | '\'' :: _ => do
    let s ← literalString
    pure (some ⟨s, ⟨start, ← offset⟩⟩)
  | _ => do
    let cs ← takeWhile isBareChar
    if cs.isEmpty then pure none else pure (some ⟨String.ofList cs, ⟨start, ← offset⟩⟩)

/-- Whether a step of a key starts with the character. -/
def startsKey : List Char → Bool
  | c :: _ => c = '"' || c = '\'' || isBareChar c
  | [] => false

/-- How many steps a key may have at most, and how deep values may nest. -/
def depthLimit : Nat := 80

/-- Reads a dot and the step of a key behind it, if they are there. -/
def keyRound (found : List KeyPart) : Reader (List KeyPart ⊕ List KeyPart) := do
  match ← rest with
  | '.' :: r =>
    if startsKey (r.dropWhile isBlank) then do
      skip 1
      blanks
      match ← keyPart? with
      | some k => do
        blanks
        pure (.inr (found ++ [k]))
      | none => pure (.inl found)
    else pure (.inl found)
  | _ => pure (.inl found)

/-- Reads a key: one or more steps with dots between them, the first of them alone. A dot that no
step follows is left. -/
def key (construct : Option String) : Reader (KeyPart × List KeyPart) := do
  let start ← offset
  blanks
  match ← keyPart? with
  | none => stop (.invalid "key")
  | some first =>
    blanks
    let others ← repeatUntil keyRound []
    if depthLimit ≤ others.length + 1 then
      stopAt start (.because construct "recursion limit exceeded")
    else pure (first, others)

end SymbolIndex.Toml
