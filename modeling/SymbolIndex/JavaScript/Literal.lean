import SymbolIndex.JavaScript.Reader

/-!
# Literals

Strings, regular expressions and numbers: the operands that contain no other construct.

Inside a string the text is taken as it stands, up to the end of the line. A line break ends the
text of the string but not the string: separators and comments may follow before the closing quote.
-/

namespace SymbolIndex.JavaScript

open Syntax Lexical

namespace Lexical

/-- The length of the escape sequence that starts with the backslash at the front. -/
def escapeLength : List Char → Nat
  | '\\' :: c :: r =>
    if '0' ≤ c && c ≤ '7' then
      ((r.take 2).takeWhile fun d => '0' ≤ d && d ≤ '7').length + 2
    else if c = 'x' then
      match r with
      | a :: b :: _ => if isHexDigit a && isHexDigit b then 4 else 0
      | _ => 0
    else if c = 'u' then
      match unicodeEscapeTail (c :: r) with
      | 0 => 0
      | n + 1 => n + 2
    else if (c = '\r' || c = '?') && r.head?.any isLineEnd then 3
    else 2
  | _ => 0

/-- After an opening bracket: the rest of a character class, when it is closed on the line. -/
def classTail : List Char → Option Nat
  | [] => none
  | ']' :: _ => some 1
  | '\n' :: _ => none
  | ['\\'] => none
  | '\\' :: c :: r => if c = '\n' then none else (classTail r).map (· + 2)
  | _ :: r => (classTail r).map (· + 1)

/-- The length of the body of a regular expression, after `skip` characters that belong to it
already. It ends before a slash that stands in no character class and before the line end. -/
def regexBody : (skip : Nat) → List Char → Nat
  | _, [] => 0
  | k + 1, _ :: r => regexBody k r + 1
  | 0, c :: r =>
    if c = '[' then
      match classTail r with
      | some k => regexBody k r + 1
      | none => 0
    else if c = '\\' then
      match r with
      | d :: _ => if d = '\n' then 0 else regexBody 1 r + 1
      | [] => 0
    else if c = '/' || c = '\n' then 0
    else regexBody 0 r + 1

end Lexical

namespace Reader

/-- Reads the comment at the current place. -/
def comment : Reader Node := do
  let n := commentLength (← rest)
  guard (n ≠ 0)
  leaf .comment n

/-- Reads the number at the current place. -/
def number : Reader Node := do
  let n := numberLength (← rest)
  guard (n ≠ 0)
  leaf .number n

/-- One round inside a string that is closed by `quote`. -/
def stringRound (quote : Char) (found : List Node) : Reader (List Node ⊕ List Node) := do
  let close := do
    let n ← mark (String.singleton quote)
    pure (.inl (found ++ [n]))
  match ← rest with
  | [] => stuck
  | c :: r =>
    if c = quote then close
    else if c = '\\' then do
      let n := escapeLength (c :: r)
      guard (n ≠ 0)
      let e ← leaf .escapeSequence n
      pure (.inr (found ++ [e]))
    else if c = '\r' || c = '\n' then do
      separators
      (do let n ← comment; pure (.inr (found ++ [n]))) <|> close
    else do
      let run := (c :: r).takeWhile fun d => d ≠ quote && d ≠ '\\' && d ≠ '\r' && d ≠ '\n'
      let f ← leaf .stringFragment run.length
      pure (.inr (found ++ [f]))

/-- Reads a string in double or single quotes. -/
def string : Reader Node := construct .string do
  match ← rest with
  | '"' :: _ => loop (stringRound '"') [← mark "\""]
  | '\'' :: _ => loop (stringRound '\'') [← mark "'"]
  | _ => stuck

/-- Reads the body of a regular expression. Comments may stand in front of it. -/
def regexPattern : Reader (List Node) :=
  loop (fun found => do
    let comments ← optional do
      separators
      pure [← comment]
    match comments with
    | [] =>
      let n := regexBody 0 (← rest)
      guard (n ≠ 0)
      let body ← leaf .regexPattern n
      pure (.inl (found ++ [body]))
    | cs => pure (.inr (found ++ cs))) []

/-- Reads a regular expression with its flags. -/
def regex : Reader Node := construct .regex do
  let opening ← mark "/"
  let body ← regexPattern
  let closing ← mark "/"
  let flags := ((← rest).takeWhile fun c => 'a' ≤ c && c ≤ 'z').length
  let flags ← if flags = 0 then pure [] else do pure [← leaf .regexFlags flags]
  pure (opening :: body ++ closing :: flags)

end Reader

end SymbolIndex.JavaScript
