import SymbolIndex.Text.Binary64
import SymbolIndex.Toml.Reader

/-!
# Numbers and dates in TOML texts

Integers of 64 bits in four bases, numbers with a point or an exponent, dates and times. An underscore
may stand between two digits.
-/

namespace SymbolIndex.Toml

open Reader Text

/-- A digit of a base up to sixteen. -/
def isDigitOf (base : Nat) (c : Char) : Bool := (hexValue? c).any (· < base)

/-- Reads digits with single underscores between them. The first digit must be there. -/
def digitGroup (base : Nat) (reason : Reason) : Reader (List Char) := do
  let first ← takeWhile (isDigitOf base)
  if first.isEmpty then stop reason
  else repeatUntil (fun found => do
    match ← rest with
    | '_' :: _ => do
      skip 1
      let more ← takeWhile (isDigitOf base)
      if more.isEmpty then stop ⟨some "integer", ["digit"], none⟩ else pure (.inr (found ++ more))
    | _ => pure (.inl found)) first

/-- The number written in the digits of a base. -/
def numberOf (base : Nat) (cs : List Char) : Nat :=
  cs.foldl (fun n c => n * base + (hexValue? c).getD 0) 0

/-- Whether a number has 64 bits. -/
def isInteger64 (n : Int) : Bool := -0x8000000000000000 ≤ n && n < 0x8000000000000000

/-! ### Dates and times -/

/-- Reads a number of exactly `n` digits between two bounds. -/
def field (n lo hi : Nat) : Reader Nat := do
  let ds := (← rest).take n
  if ds.length = n && ds.all Char.isDigit then
    let v := numberOf 10 ds
    if lo ≤ v && v ≤ hi then do
      skip n
      pure v
    else stop (.because (some "date-time") "value is out of range")
  else stop (.invalid "date-time")

/-- The number of days in a month. -/
def daysIn (year month : Nat) : Nat :=
  if month = 2 then
    if year % 4 = 0 && (year % 100 ≠ 0 || year % 400 = 0) then 29 else 28
  else if month = 4 || month = 6 || month = 9 || month = 11 then 30 else 31

/-- Reads a date. -/
def date : Reader Unit := do
  let bad := Reason.invalid "date-time"
  let year ← field 4 0 9999
  expect '-' bad
  let month ← field 2 1 12
  expect '-' bad
  let _ ← field 2 1 (daysIn year month)

/-- Reads a time of the day. -/
def time : Reader Unit := do
  let bad := Reason.invalid "date-time"
  let _ ← field 2 0 23
  expect ':' bad
  let _ ← field 2 0 59
  expect ':' bad
  let _ ← field 2 0 60
  match ← rest with
  | '.' :: c :: _ =>
    if c.isDigit then do
      skip 1
      let _ ← takeWhile Char.isDigit
  | _ => pure ()

/-- Reads the difference to universal time, if it is given. -/
def timeZone : Reader Unit := do
  match ← rest with
  | 'Z' :: _ => skip 1
  | 'z' :: _ => skip 1
  | c :: _ =>
    if c = '+' || c = '-' then do
      skip 1
      let _ ← field 2 0 23
      expect ':' (.invalid "date-time")
      let _ ← field 2 0 59
  | [] => pure ()

/-- Whether a time of the day starts here. -/
def startsTime : List Char → Bool
  | a :: b :: ':' :: _ => a.isDigit && b.isDigit
  | _ => false

/-- Whether a date starts here. -/
def startsDate : List Char → Bool
  | a :: b :: c :: d :: '-' :: _ => a.isDigit && b.isDigit && c.isDigit && d.isDigit
  | _ => false

/-- Reads a date with a time or without. -/
def dateTime : Reader Unit := do
  date
  match ← rest with
  | c :: r =>
    if (c = 'T' || c = 't' || c = ' ') && startsTime r then do
      skip 1
      time
      timeZone
  | [] => pure ()

/-! ### Numbers -/

/-- Reads the sign of a number. -/
def sign : Reader (List Char) := do
  match ← rest with
  | '+' :: _ => do skip 1; pure ['+']
  | '-' :: _ => do skip 1; pure ['-']
  | _ => pure []

/-- Reads a decimal integer: a zero stands alone. -/
def decimal : Reader (List Char) := do
  match ← rest with
  | '0' :: _ => do skip 1; pure ['0']
  | _ => digitGroup 10 (.invalid "integer")

/-- Reads an exponent, if there is one. -/
def exponent : Reader (List Char) := do
  match ← rest with
  | c :: _ =>
    if c = 'e' || c = 'E' then do
      skip 1
      let s ← sign
      let ds ← digitGroup 10 (.invalid "floating-point number")
      pure ('e' :: s ++ ds)
    else pure []
  | [] => pure []

/-- The digits of a number with a point and an exponent: all digits, and a power of ten. -/
def digitsAndPower (literal : List Char) : Nat × Int :=
  let cs := literal.filter (fun c => c ≠ '+' && c ≠ '-')
  let body := cs.takeWhile (· ≠ 'e')
  let whole := body.takeWhile (· ≠ '.')
  let part := (body.dropWhile (· ≠ '.')).drop 1
  let power := ((literal.dropWhile (· ≠ 'e')).drop 1)
  let size : Int := numberOf 10 (power.filter Char.isDigit)
  let size := if power.head? = some '-' then -size else size
  (numberOf 10 (whole ++ part), size - part.length)

/-- Whether a number with a point is too large to be held. Numbers with more than four digits in
their exponent are decided by its sign. -/
def overflows (literal : List Char) : Bool :=
  let (digits, power) := digitsAndPower literal
  if digits = 0 || power < -20000 then false
  else if 20000 < power then true
  else (Binary64.ofDecimal digits power).isNone

/-- Reads an integer in the base that a prefix of two characters gives. -/
def based (base : Nat) : Reader Scalar := do
  skip 2
  let start ← offset
  let ds ← digitGroup base (.invalid "integer")
  let n : Int := numberOf base ds
  if isInteger64 n then pure (.integer n)
  else stopAt start (.because none "number too large to fit in target type")

/-- Reads `inf` or `nan` after a sign. -/
def special (signed : List Char) : Reader Scalar := do
  match ← rest with
  | 'i' :: 'n' :: 'f' :: _ => do skip 3; pure (.float (String.ofList (signed ++ ['i', 'n', 'f'])))
  | 'n' :: 'a' :: 'n' :: _ => do skip 3; pure (.float (String.ofList (signed ++ ['n', 'a', 'n'])))
  | _ => stop (.invalid "integer")

/-- Reads a number that starts with a sign or a decimal digit. -/
def decimalNumber : Reader Scalar := do
  let start ← offset
  let s ← sign
  match ← rest with
  | 'i' :: _ => special s
  | 'n' :: _ => special s
  | _ =>
    let whole ← decimal
    let part ← match ← rest with
      | '.' :: _ => do
        skip 1
        let ds ← digitGroup 10 (.invalidExpecting "floating-point number" ["digit"])
        pure ('.' :: ds)
      | _ => pure []
    let power ← exponent
    if part.isEmpty && power.isEmpty then
      let n : Int := numberOf 10 whole
      let n := if s = ['-'] then -n else n
      if isInteger64 n then pure (.integer n)
      else stopAt start (.because none (if n < 0 then "number too small to fit in target type"
        else "number too large to fit in target type"))
    else
      let literal := s ++ whole ++ part ++ power
      if overflows literal && s ≠ ['-'] then stopAt start (.invalid "floating-point number")
      else pure (.float (String.ofList literal))

/-- Reads a number, a date or a time. -/
def number : Reader Scalar := do
  match ← rest with
  | '0' :: 'x' :: _ => based 16
  | '0' :: 'o' :: _ => based 8
  | '0' :: 'b' :: _ => based 2
  | cs =>
    if startsDate cs then do
      dateTime
      pure .datetime
    else if startsTime cs then do
      time
      pure .datetime
    else decimalNumber

/-- How a number with a point is shown. -/
def showFloat (literal : String) : String :=
  let cs := literal.toList
  let minus := if cs.head? = some '-' then "-" else ""
  let body := cs.filter (fun c => c ≠ '+' && c ≠ '-')
  if body = ['n', 'a', 'n'] then "NaN"
  else if body = ['i', 'n', 'f'] || overflows cs then minus ++ "inf"
  else
    let (digits, power) := digitsAndPower cs
    if digits = 0 || power < -20000 then minus ++ "0.0"
    else match Binary64.ofDecimal digits power with
      | some x => minus ++ (if x.mantissa = 0 then "0.0" else x.display)
      | none => minus ++ "inf"

end SymbolIndex.Toml
