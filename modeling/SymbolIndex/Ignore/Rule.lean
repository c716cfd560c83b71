import SymbolIndex.Error
import SymbolIndex.Ignore.Glob
import SymbolIndex.Text.Space

/-!
# Ignore rules

An ignore file holds one rule a line. A rule is a pattern for paths relative to the directory of the
file; it says that what matches is ignored, or, after an exclamation mark, that it is kept. A pattern
with a slash in it matches from that directory on, any other at every depth. Of the rules that apply,
the last one decides (`Rule.verdict?`). A line that is no pattern is a fault and makes no rule.
-/

namespace SymbolIndex

open Text

/-- What rules say about an entry. -/
inductive Verdict where
  | ignored
  | kept
  deriving DecidableEq, Repr

/-- A rule of an ignore file. -/
structure Rule where
  glob : Glob
  verdict : Verdict
  /-- Whether the rule is about directories only. -/
  onlyDirectories : Bool
  deriving Repr

/-- A line of an ignore file that makes no rule, by its number. -/
inductive RuleFault where
  | pattern (line : Nat) (text : String) (fault : Glob.Fault)
  | unreadable (line : Nat) (cause : IoCause)
  deriving DecidableEq, Repr

namespace RuleFault

/-- The wording of a fault. -/
def message : RuleFault → String
  | pattern line text fault =>
    "line " ++ toString line ++ ": error parsing glob '" ++ text ++ "': " ++ fault.message
  | unreadable line cause => "line " ++ toString line ++ ": " ++ cause.message

/-- Whether the line could not be read at all. -/
def isUnreadable : RuleFault → Bool
  | unreadable .. => true
  | pattern .. => false

end RuleFault

namespace Rule

/-- Whether the rule is about an entry. -/
def applies (r : Rule) (path : List UInt8) (isDirectory : Bool) : Bool :=
  (isDirectory || !r.onlyDirectories) && r.glob.isMatch path

/-- What the rules of a file say about an entry: the last one that applies decides. -/
def verdict? (rules : List Rule) (path : List UInt8) (isDirectory : Bool) : Option Verdict :=
  (rules.reverse.find? (·.applies path isDirectory)).map Rule.verdict

/-! ### Reading -/

/-- A line without the white space at its end, unless that is escaped. -/
def trimLine (line : List Char) : List Char :=
  if ['\\', ' '].isSuffixOf line then line else trimEnd line

/-- What a line says, whether its pattern starts with a slash, and the pattern after it. -/
def openLine : List Char → Verdict × Bool × List Char
  | '\\' :: '!' :: r => (.ignored, false, '!' :: r)
  | '\\' :: '#' :: r => (.ignored, false, '#' :: r)
  | '!' :: '/' :: r => (.kept, true, r)
  | '!' :: r => (.kept, false, r)
  | '/' :: r => (.ignored, true, r)
  | line => (.ignored, false, line)

/-- Whether a pattern ends in a slash, and the pattern before it. -/
def closeLine (body : List Char) : Bool × List Char :=
  if body.getLast? = some '/' then
    let body := body.dropLast
    (true, if body.getLast? = some '\\' then body.dropLast else body)
  else (false, body)

/-- A pattern as it is matched: without a slash it may match at every depth, and two stars at its end
do not match the directory before them. -/
def anchor (startsWithSlash : Bool) (body : List Char) : List Char :=
  let body := if startsWithSlash || body.contains '/' || body = ['*', '*'] then body
    else ['*', '*', '/'] ++ body
  if ['/', '*', '*'].isSuffixOf body then body ++ ['/', '*'] else body

/-- Reads a line, which need not hold a rule. -/
def ofLine (number : Nat) (line : List Char) : Except RuleFault (Option Rule) :=
  if line.head? = some '#' || (trimLine line).isEmpty then .ok none
  else
    let (verdict, startsWithSlash, body) := openLine (trimLine line)
    let (onlyDirectories, body) := closeLine body
    match Glob.parse (anchor startsWithSlash body) with
    | .ok glob => .ok (some ⟨glob, verdict, onlyDirectories⟩)
    | .error f => .error (.pattern number (String.ofList (trimLine line)) f)

/-- The lines of a file, without their ends. `line` is the line up to here, in reverse. -/
def splitLines (line : List UInt8) : List UInt8 → List (List UInt8)
  | [] => if line.isEmpty then [] else [line.reverse]
  | b :: r =>
    if b = 0x0a then (if line.head? = some 0x0d then line.tail else line).reverse :: splitLines [] r
    else splitLines (b :: line) r

/-- Reads lines, the first of which has the number `number`. The first line that is no text ends the
file. -/
def ofLines (number : Nat) : List (List UInt8) → List Rule × List RuleFault
  | [] => ([], [])
  | line :: lines => match Utf8.decode? line with
    | none => ([], [.unreadable number .invalidText])
    | some text =>
      let text := if number = 1 then text.toList.dropWhile (· = '\ufeff') else text.toList
      let (rules, faults) := ofLines (number + 1) lines
      match ofLine number text with
      | .ok none => (rules, faults)
      | .ok (some r) => (r :: rules, faults)
      | .error f => (rules, f :: faults)

/-- The rules of an ignore file, and the faults in it. -/
def ofBytes (bytes : List UInt8) : List Rule × List RuleFault := ofLines 1 (splitLines [] bytes)

end Rule

end SymbolIndex
