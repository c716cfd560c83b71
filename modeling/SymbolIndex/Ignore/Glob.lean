import SymbolIndex.Path

/-!
# Glob patterns

A pattern for relative paths, with `?`, `*`, `**`, character classes and alternatives in braces. A
pattern is read as a list of tokens, each of which takes bytes from the front of a path: `Glob.rests`
lists what may be left, and a path matches if nothing may be left.

`?` and `*` take no slash. Two stars are special only where they are a whole component of the
pattern; elsewhere they are just two stars.
-/

namespace SymbolIndex

open Text

/-- A part of a pattern. -/
inductive Glob.Token where
  /-- These bytes. -/
  | literal (bytes : List UInt8)
  /-- A byte other than a slash. -/
  | any
  /-- Any number of bytes other than slashes. -/
  | star
  /-- Nothing, or everything up to a slash: two stars at the start. -/
  | leading
  /-- A slash and everything after it: two stars at the end. -/
  | trailing
  /-- A slash, or everything between two slashes, and these: two stars in the middle. -/
  | inner
  /-- A byte in one of the ranges, or in none of them if `negated`. -/
  | oneOf (negated : Bool) (ranges : List (UInt8 × UInt8))
  /-- One of the branches; without branches, nothing. -/
  | alternatives (branches : List (List Glob.Token))
  deriving Repr

/-- A pattern. -/
abbrev Glob := List Glob.Token

/-- Why a text is no pattern. -/
inductive Glob.Fault where
  | unclosedClass
  | reversedRange (first last : Char)
  | unopenedAlternatives
  | unclosedAlternatives
  | danglingEscape
  deriving DecidableEq, Repr

/-- The wording of a fault. -/
def Glob.Fault.message : Glob.Fault → String
  | unclosedClass => "unclosed character class; missing ']'"
  | reversedRange a b =>
    "invalid range; '" ++ String.singleton a ++ "' > '" ++ String.singleton b ++ "'"
  | unopenedAlternatives =>
    "unopened alternate group; missing '\x7b' (maybe escape '\x7d' with '[\x7d]'?)"
  | unclosedAlternatives =>
    "unclosed alternate group; missing '\x7d' (maybe escape '\x7b' with '[\x7b]'?)"
  | danglingEscape => "dangling '\\'"

namespace Glob

/-! ### Matching -/

/-- What may be left after bytes other than slashes. -/
def afterStar : List UInt8 → List (List UInt8)
  | [] => [[]]
  | b :: r => (b :: r) :: if b = Path.slash then [] else afterStar r

/-- What is left after each of the slashes. -/
def afterSlashes : List UInt8 → List (List UInt8)
  | [] => []
  | b :: r => if b = Path.slash then r :: afterSlashes r else afterSlashes r

/-- What may be left after any bytes. -/
def afterAll : List UInt8 → List (List UInt8)
  | [] => [[]]
  | b :: r => (b :: r) :: afterAll r

/-- What is left after a slash. -/
def afterSlash? : List UInt8 → Option (List UInt8)
  | [] => none
  | b :: r => if b = Path.slash then some r else none

mutual

/-- What may be left of a path after a token. -/
def Token.rests (path : List UInt8) : Token → List (List UInt8)
  | .literal bytes => if bytes.isPrefixOf path then [path.drop bytes.length] else []
  | .any => match path with
    | [] => []
    | b :: r => if b = Path.slash then [] else [r]
  | .star => afterStar path
  | .leading => path :: afterSlashes path
  | .trailing => match afterSlash? path with
    | none => []
    | some r => afterAll r
  | .inner => match afterSlash? path with
    | none => []
    | some r => r :: afterSlashes r
  | .oneOf negated ranges => match path with
    | [] => []
    | b :: r => if ranges.any (fun (lo, hi) => lo ≤ b && b ≤ hi) = negated then [] else [r]
  | .alternatives branches => if branches.isEmpty then [path] else restsOfAny path branches

/-- What may be left of a path after a pattern. -/
def rests (path : List UInt8) : List Token → List (List UInt8)
  | [] => [path]
  | t :: ts => (t.rests path).eraseDups.flatMap fun left => rests left ts

/-- What may be left of a path after one of several patterns. -/
def restsOfAny (path : List UInt8) : List (List Token) → List (List UInt8)
  | [] => []
  | b :: bs => rests path b ++ restsOfAny path bs

end

/-- Whether a path matches a pattern. Two stars alone match every path. -/
def isMatch (g : Glob) (path : List UInt8) : Bool :=
  match g with
  | [.leading] => true
  | _ => (rests path g).any (·.isEmpty)

/-! ### Reading -/

/-- A pattern that is being read, with its tokens in reverse. -/
structure Draft where
  /-- The branch that is being read. -/
  branch : List Token
  /-- For each open brace the branches that are complete, and the branch in which it stands. -/
  groups : List (List (List Token) × List Token)

namespace Draft

/-- Appends a token. -/
def push (d : Draft) (t : Token) : Draft := { d with branch := t :: d.branch }

/-- Puts two stars in the place of the slash before them, unless stars are there that already take as
much. -/
def joinStars (d : Draft) (t : Token) : Draft :=
  match d.branch with
  | .leading :: _ | .trailing :: _ => d
  | b => { d with branch := t :: b.tail }

/-- Opens a brace. -/
def openGroup (d : Draft) : Draft := ⟨[], ([], d.branch) :: d.groups⟩

/-- Starts the next branch; outside of braces a comma is a comma. -/
def comma (d : Draft) : Draft :=
  match d.groups with
  | [] => d.push (.literal (String.utf8EncodeChar ','))
  | (done, outer) :: gs => ⟨[], (d.branch :: done, outer) :: gs⟩

/-- Whether a branch takes nothing. -/
def isBlank (branch : List Token) : Bool :=
  branch.all fun
    | .alternatives bs => bs.isEmpty
    | _ => false

/-- Closes a brace. Branches that take nothing do not count. -/
def closeGroup (d : Draft) : Except Fault Draft :=
  match d.groups with
  | [] => .error .unopenedAlternatives
  | (done, outer) :: gs =>
    let branches := ((d.branch :: done).reverse.filter (!isBlank ·)).map List.reverse
    .ok ⟨.alternatives branches :: outer, gs⟩

end Draft

/-- Reads two stars, which stand after the character `before`. The result has the last character that
was read and what is left. -/
def readStars (d : Draft) (before : Option Char) (rest : List Char) :
    Draft × Char × List Char :=
  let plain := ((d.push .star).push .star, '*', rest)
  let inGroup := !d.groups.isEmpty
  if d.branch.isEmpty then
    match rest with
    | [] => (d.push .leading, '*', [])
    | '/' :: r => (d.push .leading, '/', r)
    | _ => plain
  else if before ≠ some '/' && !(inGroup && (before = some ',' || before = some '{')) then plain
  else match rest with
    | [] => (d.joinStars .trailing, '*', [])
    | '/' :: r => (d.joinStars .inner, '/', r)
    | c :: _ => if inGroup && (c = ',' || c = '}') then (d.joinStars .trailing, '*', rest) else plain

/-- Ends the range that starts at the last character of a class. -/
def endRange (ranges : List (Char × Char)) (c : Char) : Except Fault (List (Char × Char)) :=
  match ranges with
  | [] => .ok [(c, c)]
  | (a, _) :: rs => if c < a then .error (.reversedRange a c) else .ok ((a, c) :: rs)

/-- Reads the ranges of a class up to its closing bracket; the result has them in reverse. -/
def readRanges (isFirst inRange : Bool) (ranges : List (Char × Char)) :
    List Char → Except Fault (List (Char × Char) × List Char)
  | [] => .error .unclosedClass
  | c :: r =>
    if c = ']' && !isFirst then .ok (if inRange then ('-', '-') :: ranges else ranges, r)
    else if inRange then
      match endRange ranges c with
      | .error f => .error f
      | .ok ranges => readRanges false false ranges r
    else if c = '-' && !isFirst then readRanges false true ranges r
    else readRanges false false ((c, c) :: ranges) r

/-- The bytes of a range of characters, as ranges: the last byte of its first character up to the
first byte of its last, and the other bytes of both. -/
def byteRanges : Char × Char → List (UInt8 × UInt8)
  | (a, b) =>
    let as := String.utf8EncodeChar a
    let bs := String.utf8EncodeChar b
    if a = b then as.map fun x => (x, x)
    else as.dropLast.map (fun x => (x, x)) ++ as.getLast?.toList.zip bs.head?.toList
      ++ bs.tail.map (fun x => (x, x))

/-- Reads a class after its opening bracket. -/
def readClass (cs : List Char) : Except Fault (Token × List Char) :=
  let (negated, body) := match cs with
    | '!' :: r | '^' :: r => (true, r)
    | _ => (false, cs)
  match readRanges true false [] body with
  | .error f => .error f
  | .ok (ranges, rest) => .ok (.oneOf negated (ranges.reverse.flatMap byteRanges), rest)

/-- Reads a pattern, at most `fuel` parts of it; `before` is the character before. -/
def readFrom : (fuel : Nat) → Draft → (before : Option Char) → List Char → Except Fault Draft
  | 0, d, _, _ => .ok d
  | _, d, _, [] => .ok d
  | fuel + 1, d, before, c :: r => match c with
    | '?' => readFrom fuel (d.push .any) (some c) r
    | '*' => match r with
      | '*' :: r =>
        let (d, last, r) := readStars d before r
        readFrom fuel d (some last) r
      | _ => readFrom fuel (d.push .star) (some c) r
    | '[' => do
      let (t, r) ← readClass r
      readFrom fuel (d.push t) (some ']') r
    | '{' => readFrom fuel d.openGroup (some c) r
    | '}' => do readFrom fuel (← d.closeGroup) (some c) r
    | ',' => readFrom fuel d.comma (some c) r
    | '\\' => match r with
      | [] => .error .danglingEscape
      | e :: r => readFrom fuel (d.push (.literal (String.utf8EncodeChar e))) (some e) r
    | c => readFrom fuel (d.push (.literal (String.utf8EncodeChar c))) (some c) r

/-- Reads a pattern. -/
def parse (cs : List Char) : Except Fault Glob :=
  match readFrom cs.length ⟨[], []⟩ none cs with
  | .error f => .error f
  | .ok d => if d.groups.isEmpty then .ok d.branch.reverse else .error .unclosedAlternatives

end Glob

end SymbolIndex
