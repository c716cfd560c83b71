import SymbolIndex.Toml.Number
import SymbolIndex.Toml.Table

/-!
# TOML documents

`Toml.parse` reads a text as a TOML document: its entries, or the first fault of the text.
-/

namespace SymbolIndex.Toml

open Reader

/-! ### Values -/

/-- Stops at `offset` if a change is not possible. -/
def allow {α : Type} (offset : Nat) (construct : Option String) : Except Clash α → Reader α
  | .ok a => pure a
  | .error clash => stopAt offset (.because construct clash.message)

/-- What a value that is no string, number, array or table should have been. -/
def notValue : Reason := .invalidExpecting "string" ["`\"`", "`'`"]

/-- Reads a word that is a value. -/
def word (text : String) (v : Scalar) : Reader Scalar := do
  if text.toList.isPrefixOf (← rest) then do
    skip text.length
    pure v
  else stop notValue

/-- Reads a value without parts. -/
def scalarValue : Reader Scalar := do
  match ← rest with
  | [] => stop .blank
  | c :: _ =>
    if c = '"' || c = '\'' then .string <$> string
    else if c = '+' || c = '-' || c.isDigit then number
    else if c = '_' then stop (.invalidExpecting "integer" ["leading digit"])
    else if c = '.' then stop (.invalidExpecting "floating-point number" ["leading digit"])
    else if c = 't' then word "true" (.boolean true)
    else if c = 'f' then word "false" (.boolean false)
    else if c = 'i' then word "inf" (.float "inf")
    else if c = 'n' then word "nan" (.float "nan")
    else stop notValue

/-- Whether a value can start with the character. -/
def startsValue (c : Char) : Bool :=
  c = '"' || c = '\'' || c = '[' || c = '{' || c = '+' || c = '-' || c.isDigit || c = '_'
    || c = '.' || c = 't' || c = 'f' || c = 'i' || c = 'n'

/-- What follows a key that gets a value. -/
def afterKey : Reason := .expecting ["`.`", "`=`"]

/-- The last step of a key, and the steps before it. -/
def splitKey (first : KeyPart) (others : List KeyPart) : List KeyPart × KeyPart :=
  match others.getLast? with
  | some last => (first :: others.dropLast, last)
  | none => ([], first)

/-- Reads an element of an array with `element`, and the comma or the bracket behind it. -/
def elementRound (element : Reader Toml) (found : List Toml) : Reader (List Toml ⊕ List Toml) := do
  gap
  match ← rest with
  | ']' :: _ => do skip 1; pure (.inl found)
  | c :: _ =>
    if startsValue c then do
      let v ← element
      gap
      match ← rest with
      | ',' :: _ => do skip 1; pure (.inr (found ++ [v]))
      | ']' :: _ => do skip 1; pure (.inl (found ++ [v]))
      | _ => stop (.invalidExpecting "array" ["`]`"])
    else stop (.invalidExpecting "array" ["`]`"])
  | [] => stop (.invalidExpecting "array" ["`]`"])

/-- Reads the elements of an array up to its closing bracket, each with `element`. -/
def arrayElements (element : Reader Toml) : Reader (List Toml) :=
  repeatUntil (elementRound element) []

/-- Reads the entries of a table in braces up to its closing brace, their values with `element`. -/
def inlineEntries (element : Reader Toml) : Reader Entries := do
  let start ← offset
  let close : Reason := .invalidExpecting "inline table" ["`\x7d`"]
  let pairs ← repeatUntil (fun found => do
    blanks
    if startsKey (← rest) then do
      let (first, others) ← key (some "inline table")
      expect '=' afterKey
      blanks
      let v ← element
      blanks
      let found := found ++ [(splitKey first others, v)]
      match ← rest with
      | ',' :: r =>
        if startsKey (r.dropWhile isBlank) then do
          skip 1
          pure (.inr found)
        else pure (.inl found)
      | _ => pure (.inl found)
    else pure (.inl found)) []
  let entries ← allow start (some "inline table") (pairs.foldlM (fun entries ((path, name), v) =>
    define none path name v .inline entries) [])
  expect '}' close
  pure entries

/-- Reads a value that nests less than `fuel` deep. -/
def value : (fuel : Nat) → Reader Toml
  | 0 => stop (.because none "recursion limit exceeded")
  | fuel + 1 => do
    let start ← offset
    match ← rest with
    | '[' :: _ => do
      if fuel = 0 then stop (.because none "recursion limit exceeded")
      skip 1
      let vs ← arrayElements (value fuel)
      pure (.array ⟨start, ← offset⟩ vs)
    | '{' :: _ => do
      if fuel = 0 then stop (.because none "recursion limit exceeded")
      skip 1
      let entries ← inlineEntries (value fuel)
      pure (.table ⟨start, ← offset⟩ .inline entries)
    | _ => do
      let v ← scalarValue
      pure (.scalar ⟨start, ← offset⟩ v)

/-! ### Lines -/

/-- A document as far as it is read: its entries, and the path of the table that is open. -/
structure Draft where
  entries : Entries
  path : List String

/-- Reads a line that gives a key its value. -/
def entryLine (d : Draft) : Reader Draft := do
  let start ← offset
  let (first, others) ← key none
  expect '=' afterKey
  blanks
  let v ← value depthLimit
  lineTrailing
  let (path, name) := splitKey first others
  let entries ← allow start none
    (changeOpen v.span.stop (define (some d.path) path name v) d.path d.entries)
  pure { d with entries }

/-- Reads a header. -/
def headerLine (d : Draft) : Reader Draft := do
  let start ← offset
  let label := "table header"
  match ← rest with
  | ['['] => stop (.invalid label)
  | '[' :: '[' :: _ => do
    skip 2
    let (path, name) ← headerKey
    match ← rest with
    | ']' :: ']' :: _ => skip 2
    | _ => stop (.invalidExpecting label ["`.`", "`]]`"])
    let span := ⟨start, ← offset⟩
    lineTrailing
    let entries ← allow start (some label) (openTables path name span d.entries)
    pure ⟨entries, path.map (·.name) ++ [name.name]⟩
  | _ => do
    skip 1
    let (path, name) ← headerKey
    expect ']' (.invalidExpecting label ["`.`", "`]`"])
    let span := ⟨start, ← offset⟩
    lineTrailing
    let entries ← allow start (some label) (openTable path name span d.entries)
    pure ⟨entries, path.map (·.name) ++ [name.name]⟩
where
  /-- The key of a header. -/
  headerKey : Reader (List KeyPart × KeyPart) := do
    let (first, others) ← key (some "table header")
    pure (splitKey first others)

/-- Reads a line, or the end of the text. -/
def lineRound (d : Draft) : Reader (Draft ⊕ Draft) := do
  blanks
  match ← rest with
  | [] => pure (.inl d)
  | '#' :: _ => do
    comment
    lineEnd .blank
    pure (.inr d)
  | '[' :: _ => do pure (.inr (← headerLine d))
  | cs =>
    let n := newlineLength cs
    if n ≠ 0 then do
      skip n
      pure (.inr d)
    else if cs.head? = some '\r' then stop .blank
    else do pure (.inr (← entryLine d))

/-- Reads the lines of a document. -/
def lines : Reader Entries := do
  let d ← repeatUntil lineRound ⟨[], []⟩
  pure d.entries

/-- The document that a text is, or its first fault. A byte order mark in front does not count. -/
def parse (text : List Char) : Except Fault Entries :=
  let start : Cursor := match text with
    | '\ufeff' :: r => ⟨r, 1⟩
    | cs => ⟨cs, 0⟩
  match lines start with
  | .ok (entries, _) => .ok entries
  | .error s =>
    .error ⟨⟨s.offset, if s.offset < text.length then s.offset + 1 else s.offset⟩,
      s.reason.message⟩

end SymbolIndex.Toml
