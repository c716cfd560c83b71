/-!
# Characters and words of JavaScript

The lexical rules that need no grammar: which characters separate tokens, what a name, a number and
a comment look like, and where a line break may stand for a semicolon.

All rules look at the characters that are still to be read. A rule that recognises a token answers
with its length, and with `0` when the token is not there.
-/

namespace SymbolIndex.JavaScript.Lexical

/-! ### Character classes -/

/-- Space, tab, line feed, vertical tab, form feed and carriage return. -/
def isBlank (c : Char) : Bool := c = ' ' || ('\t' ≤ c && c ≤ '\r')

/-- The space separators of Unicode. -/
def isSpaceSeparator (c : Char) : Bool :=
  c = ' ' || c = '\u00a0' || c = '\u1680' || ('\u2000' ≤ c && c ≤ '\u200a') || c = '\u202f'
    || c = '\u205f' || c = '\u3000'

/-- Characters that may stand between any two tokens. -/
def isSeparator (c : Char) : Bool :=
  isBlank c || isSpaceSeparator c || c = '\ufeff' || c = '\u2028' || c = '\u2029'
    || c = '\u2060' || c = '\u200b'

/-- The characters that end a line: a carriage return alone does not. -/
def isLineEnd (c : Char) : Bool := c = '\n' || c = '\u2028' || c = '\u2029'

/-- The character whose code is zero. It ends what comments and semicolon rules look at. -/
def isNul (c : Char) : Bool := c.toNat = 0

/-- An ASCII digit. -/
def isDigit (c : Char) : Bool := '0' ≤ c && c ≤ '9'

/-- A hexadecimal digit. -/
def isHexDigit (c : Char) : Bool :=
  isDigit c || ('a' ≤ c && c ≤ 'f') || ('A' ≤ c && c ≤ 'F')

/-- An ASCII letter. -/
def isLetter (c : Char) : Bool := ('a' ≤ c && c ≤ 'z') || ('A' ≤ c && c ≤ 'Z')

/-- The marks of ASCII that no name contains. -/
def isPunctuation (c : Char) : Bool :=
  ('!' ≤ c && c ≤ '#') || ('%' ≤ c && c ≤ '/') || (':' ≤ c && c ≤ '@') || ('[' ≤ c && c ≤ '^')
    || c = '`' || ('{' ≤ c && c ≤ '~')

/-- The characters names are made of: all but control characters, separators and marks. Digits
count, but no name starts with one. -/
def isNameChar (c : Char) : Bool := !(c.toNat < 0x20) && !isSeparator c && !isPunctuation c

/-! ### Names -/

/-- After a backslash: the rest of a Unicode escape `uXXXX` or `u{X…}`. -/
def unicodeEscapeTail : List Char → Nat
  | 'u' :: '{' :: r =>
    let digits := r.takeWhile isHexDigit
    match r.drop digits.length with
    | '}' :: _ => if digits.isEmpty then 0 else digits.length + 3
    | _ => 0
  | 'u' :: a :: b :: c :: d :: _ =>
    if isHexDigit a && isHexDigit b && isHexDigit c && isHexDigit d then 5 else 0
  | _ => 0

/-- The length of the longest run of name characters and Unicode escapes, after `skip` characters
that belong to it already. -/
def nameRun : (skip : Nat) → List Char → Nat
  | _, [] => 0
  | k + 1, _ :: r => nameRun k r + 1
  | 0, c :: r =>
    if isNameChar c then nameRun 0 r + 1
    else if c = '\\' then
      match unicodeEscapeTail r with
      | 0 => 0
      | k + 1 => nameRun (k + 1) r + 1
    else 0

/-- The length of the name at the start of the text. -/
def nameLength : List Char → Nat
  | [] => 0
  | c :: r => if isDigit c then 0 else nameRun 0 (c :: r)

/-- The name at the start of the text, empty when there is none. -/
def nameAt (cs : List Char) : List Char := cs.take (nameLength cs)

/-- The length of a private name, `#` and a name. -/
def privateNameLength : List Char → Nat
  | '#' :: r => match nameLength r with
    | 0 => 0
    | n + 1 => n + 2
  | _ => 0

/-! ### Numbers -/

/-- The rest of a run of digits in which single underscores may separate two digits. -/
def digitTail (digit : Char → Bool) : List Char → Nat
  | [] => 0
  | '_' :: c :: r => if digit c then digitTail digit r + 2 else 0
  | c :: r => if digit c then digitTail digit r + 1 else 0

/-- A run of digits in which single underscores may separate two digits. -/
def digitRun (digit : Char → Bool) : List Char → Nat
  | [] => 0
  | c :: r => if digit c then digitTail digit r + 1 else 0

/-- An exponent: `e`, a sign or none, digits. -/
def exponentLength : List Char → Nat
  | c :: r =>
    if c = 'e' || c = 'E' then
      let sign := match r with
        | '+' :: _ => 1
        | '-' :: _ => 1
        | _ => 0
      match digitRun isDigit (r.drop sign) with
      | 0 => 0
      | n + 1 => n + 2 + sign
    else 0
  | [] => 0

/-- The integer part of a decimal number: `0`, or digits of which the first that is not a leading
zero is not zero either. -/
def integerLength : List Char → Nat
  | '0' :: c :: r => if '1' ≤ c && c ≤ '9' then digitTail isDigit r + 2 else 1
  | ['0'] => 1
  | c :: r => if '1' ≤ c && c ≤ '9' then digitTail isDigit r + 1 else 0
  | [] => 0

/-- A number with a decimal point or an exponent. -/
def fractionLength (cs : List Char) : Nat :=
  let int := integerLength cs
  match cs.drop int with
  | '.' :: r =>
    let frac := digitRun isDigit r
    if int = 0 && frac = 0 then 0
    else int + 1 + frac + exponentLength (r.drop frac)
  | r =>
    if int = 0 then 0
    else match exponentLength r with
      | 0 => 0
      | e + 1 => int + e + 1

/-- A number with a base: `0x`, `0b` or `0o` and digits. -/
def basedLength : List Char → Nat
  | '0' :: x :: r =>
    let digits :=
      if x = 'x' || x = 'X' then digitRun isHexDigit r
      else if x = 'b' || x = 'B' then digitRun (fun c => c = '0' || c = '1') r
      else if x = 'o' || x = 'O' then digitRun (fun c => '0' ≤ c && c ≤ '7') r
      else 0
    if digits = 0 then 0 else digits + 2
  | _ => 0

/-- A whole number with the mark `n` of a big integer, if the mark is there. -/
def withBigMark (cs : List Char) (n : Nat) : Nat :=
  match n, cs.drop n with
  | 0, _ => 0
  | n + 1, 'n' :: _ => n + 2
  | n + 1, _ => n + 1

/-- The length of the longest number at the start of the text. -/
def numberLength (cs : List Char) : Nat :=
  max (fractionLength cs)
    (max (withBigMark cs (digitRun isDigit cs)) (withBigMark cs (basedLength cs)))

/-! ### Comments -/

/-- The rest of a block comment up to its end mark, when the comment ends at all; `star` says that
the character before was a star. -/
def blockCommentTail : (star : Bool) → List Char → Option Nat
  | _, [] => none
  | true, '/' :: _ => some 1
  | _, c :: r => (blockCommentTail (c = '*') r).map (· + 1)

/-- The length of the comment at the start of the text. A block comment without end is none. -/
def commentLength : List Char → Nat
  | '/' :: '/' :: r =>
    (r.takeWhile fun c => !isLineEnd c && c ≠ '\r').length + 2
  | '/' :: '*' :: r => match blockCommentTail false r with
    | some n => n + 2
    | none => 0
  | _ => 0

/-- The length of an HTML-style comment: from `<!--` or `-->` to the end of the line. -/
def htmlCommentLength : List Char → Nat
  | '<' :: '!' :: '-' :: '-' :: r => (r.takeWhile inside).length + 4
  | '-' :: '-' :: '>' :: r => (r.takeWhile inside).length + 3
  | _ => 0
where
  inside (c : Char) : Bool := !isLineEnd c && !isNul c

/-! ### Line breaks as semicolons -/

/-- How a stretch of blanks and comments ends. -/
inductive Gap where
  /-- At a slash that opens no comment. -/
  | slash
  /-- Right after a block comment without a line break. -/
  | sameLine
  /-- Anywhere else. -/
  | open
  deriving DecidableEq, Repr

/-- Where the reading of blanks and comments stands. -/
inductive GapState where
  | blanks
  | slash
  | line
  /-- In a block comment, after a star or not. -/
  | block (star : Bool)

/-- Reads blanks and comments. With `whole` the stretch is read to its end, otherwise only up to
the end of a block comment; `broken` tells whether a block comment held a line break. -/
def gap (whole : Bool) : GapState → (broken : Bool) → List Char → Gap × List Char
  | .slash, _, [] => (.slash, [])
  | _, _, [] => (.open, [])
  | .blanks, b, c :: r =>
    if isBlank c then gap whole .blanks b r
    else if c = '/' then gap whole .slash b r
    else (.open, c :: r)
  | .slash, b, c :: r =>
    if c = '/' then gap whole .line b r
    else if c = '*' then gap whole (.block false) b r
    else (.slash, c :: r)
  | .line, b, c :: r =>
    if c = '\n' then gap whole .blanks b r
    else if isLineEnd c || isNul c then (.open, c :: r)
    else gap whole .line b r
  | .block star, b, c :: r =>
    if star && c = '/' then
      if whole || r.head? = some '/' then gap whole .blanks b r
      else (if b then .open else .sameLine, r)
    else if isNul c then (.open, c :: r)
    else gap whole (.block (c = '*')) (b || isLineEnd c) r

/-- After a line break, blanks and comments: whether the text that follows starts a new statement.
It does not when it can only go on with the one before. -/
def startsStatement : List Char → Bool
  | '.' :: r => r.head?.any isDigit
  | '+' :: r => r.head? = some '+'
  | '-' :: r => r.head? = some '-'
  | '!' :: r => r.head? ≠ some '='
  | 'i' :: 'n' :: r =>
    if !r.head?.any isLetter then false
    else if "stanceof".toList.isPrefixOf r then (r.drop 8).head?.any isLetter
    else true
  | c :: _ => !"`,:;*%><=[(?^|&/".toList.contains c
  | [] => true

/-- One character of the line a statement may end on: an answer, or the rest to look at. -/
def lineStep : List Char → Bool ⊕ List Char
  | [] => .inl false
  | c :: r =>
    if c = '}' then .inl true
    else if isLineEnd c then
      match gap true .blanks false r with
      | (.slash, _) => .inl false
      | (_, cs) => .inl (startsStatement cs)
    else if isBlank c then .inr r
    else .inl false

/-- Whether a semicolon may be left out, looking at no more than `fuel` characters of the line. -/
def semicolonOnLine (afterOperand : Bool) : (fuel : Nat) → List Char → Bool
  | 0, _ => false
  | _, [] => true
  | fuel + 1, c :: r =>
    if isNul c then true
    else
      let step :=
        if c = '/' then
          match gap false .blanks false (c :: r) with
          | (.slash, _) => .inl false
          | (.open, cs) =>
            if !afterOperand && cs.head? ≠ some ',' && cs.head? ≠ some '=' then .inl true
            else lineStep cs
          | (.sameLine, cs) => lineStep cs
        else lineStep (c :: r)
      match step with
      | .inl answer => answer
      | .inr cs => semicolonOnLine afterOperand fuel cs

/-- Whether a semicolon may be left out before the text `cs`. It may before a closing brace, at the
end of the text, and at a line break unless the next line goes on with the statement. After an
operand (`afterOperand`) a comment by itself never ends the statement; elsewhere a comment that
reaches over a line break does. -/
def semicolonBefore (afterOperand : Bool) (cs : List Char) : Bool :=
  semicolonOnLine afterOperand (cs.length + 1) cs

end SymbolIndex.JavaScript.Lexical
