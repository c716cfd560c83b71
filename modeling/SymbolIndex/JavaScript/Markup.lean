import SymbolIndex.JavaScript.Member

/-!
# Markup elements

Elements in angle brackets with attributes, texts, braces around expressions and nested elements.
The names of an opening and its closing tag need not agree.
-/

namespace SymbolIndex.JavaScript

open Syntax Lexical Reader

namespace Lexical

/-- The length of a tag name with a hyphen in it. -/
def hyphenatedLength : List Char → Nat
  | [] => 0
  | c :: r =>
    if isLetter c || c = '_' || c = '$' then
      let first := r.takeWhile plain
      match r.drop first.length with
      | '-' :: r => first.length + 2 + (r.takeWhile fun c => plain c || c = '-').length
      | _ => 0
    else 0
where
  plain (c : Char) : Bool := isLetter c || isDigit c || c = '_' || c = '$'

/-- The length of a character reference such as `&amp;` or `&#x20;`. -/
def referenceLength : List Char → Nat
  | '&' :: '#' :: x :: r =>
    if x = 'x' || x = 'X' then closed 3 1 6 (r.takeWhile isHexDigit).length r
    else closed 2 1 5 ((x :: r).takeWhile isDigit).length (x :: r)
  | '&' :: r => closed 1 1 30 (r.takeWhile isLetter).length r
  | _ => 0
where
  /-- A reference with `n` characters between its start and the semicolon. -/
  closed (before least most n : Nat) (r : List Char) : Nat :=
    if least ≤ n && n ≤ most && (r.drop n).head? = some ';' then before + n + 1 else 0

/-- The length of the text between two references in an attribute value quoted by `quote`: an
ampersand belongs to it, with the character after it, unless a reference could start there. -/
def attributeText (quote : Char) : List Char → Nat
  | [] => 0
  | ['&'] => 0
  | '&' :: c :: r => if c = '#' || isLetter c then 0 else attributeText quote r + 2
  | c :: r => if c = quote then 0 else attributeText quote r + 1

/-- The run of text inside an element. -/
def markupRun (cs : List Char) : List Char :=
  cs.takeWhile fun c =>
    c ≠ '<' && c ≠ '>' && c ≠ '{' && c ≠ '}' && c ≠ '&' && !isNul c

/-- Whether a run of text is more than line breaks and the indentation after them. -/
def isMarkupText : (afterBreak : Bool) → List Char → Bool
  | _, [] => false
  | afterBreak, c :: r =>
    if c = '\n' then isMarkupText true r
    else if afterBreak && isBlank c then isMarkupText true r
    else true

end Lexical

namespace Grammar

variable (inner : Grammar)

/-- Reads a name without dots in a tag. -/
def tagWord (k : Kind) : Reader Node := do
  let cs ← rest
  let hyphenated := hyphenatedLength cs
  if nameLength cs < hyphenated then leaf k hyphenated else name k

/-- Reads the name of an element: a word, a path of words or a word in a namespace. -/
def tagName : Reader Node := do
  let first ← tagWord .identifier
  if ← follows ":" then
    extend .jsxNamespaceName first do
      let colon ← markPart ":"
      let second ← part (tagWord .identifier)
      pure (colon ++ second)
  else
    loop (fun n => do
      if ← follows "." then
        let m ← extend .memberExpression n do
          let dot ← markPart "."
          let property ← part (name .propertyIdentifier)
          pure (dot ++ property)
        pure (.inr m)
      else pure (.inl n)) first

/-- Reads braces around an expression, several of them, a spread or nothing. -/
def embedded : Reader Node := construct .jsxExpression do
  let o ← mark "\x7b"
  let before ← extras
  match ← rest with
  | '}' :: _ =>
    let c ← mark "\x7d"
    pure (o :: before ++ [c])
  | '.' :: '.' :: '.' :: _ =>
    let s ← inner.spread false
    guard s.isExpression
    let c ← markPart "\x7d"
    pure (o :: before ++ s.node :: c)
  | _ =>
    let first ← inner.expression .enclosed
    guard first.isExpression
    let ns ← loop (fun found => do
      if ← follows "," then
        let comma ← markPart ","
        let before ← extras
        let e ← inner.expression .enclosed
        guard e.isExpression
        pure (.inr (found ++ comma ++ before ++ [e.node]))
      else pure (.inl found)) [first.node]
    let c ← markPart "\x7d"
    pure (o :: before ++ ns ++ c)

/-- Reads a quoted attribute value. -/
def attributeString : Reader Node := construct .string do
  match ← rest with
  | [] => stuck
  | quote :: _ =>
    let delimiter := String.singleton quote
    let o ← mark delimiter
    loop (fun found => do
      let cs ← rest
      match cs with
      | [] => stuck
      | c :: _ =>
        let n := attributeText quote cs
        if n ≠ 0 then
          let f ← leaf .stringFragment n
          pure (.inr (found ++ [f]))
        else if c = quote then
          let q ← mark delimiter
          pure (.inl (found ++ [q]))
        else
          let n := referenceLength cs
          guard (n ≠ 0)
          let r ← leaf .htmlCharacterReference n
          pure (.inr (found ++ [r]))) [o]

/-- Reads an attribute. -/
def tagAttribute : Reader Node := construct .jsxAttribute do
  let first ← tagWord .propertyIdentifier
  let name ← if ← follows ":" then
      extend .jsxNamespaceName first do
        let colon ← markPart ":"
        let second ← part (tagWord .identifier)
        pure (colon ++ second)
    else pure first
  if ← follows "=" then
    let equals ← markPart "="
    let before ← extras
    let value ← match ← rest with
      | '"' :: _ => attributeString
      | '\'' :: _ => attributeString
      | '{' :: _ => inner.embedded
      | _ => inner.markup
    pure (name :: equals ++ before ++ [value])
  else pure [name]

/-- Reads a tag from its opening bracket on; the answer tells whether it closes itself. -/
def tag : Reader Node := build do
  let o ← mark "<"
  if ← follows ">" then
    let c ← markPart ">"
    pure (.jsxOpeningElement, o :: c)
  else
    let name ← partAs .name tagName
    let attributes ← loop (fun found => do
      let before ← extras
      match ← rest with
      | '{' :: _ => pure (.inr (found ++ before ++ [← inner.embedded]))
      | '/' :: _ => pure (.inl (found ++ before))
      | '>' :: _ => pure (.inl (found ++ before))
      | _ => pure (.inr (found ++ before ++ [← inner.tagAttribute]))) []
    if ← follows "/>" then
      let c ← mark "/>"
      pure (.jsxSelfClosingElement, o :: name ++ attributes ++ [c])
    else
      let c ← mark ">"
      pure (.jsxOpeningElement, o :: name ++ attributes ++ [c])

/-- Reads a closing tag. -/
def closingTag : Reader Node := construct .jsxClosingElement do
  let o ← mark "</"
  let name ← if ← follows ">" then pure [] else partAs .name tagName
  let c ← markPart ">"
  pure (o :: name ++ c)

/-- Reads what stands between the tags of an element, and its closing tag. -/
def markupContent : Reader (List Node) :=
  loop (fun found => do
    let run := markupRun (← rest)
    if isMarkupText false run then
      let t ← leaf .jsxText run.length
      pure (.inr (found ++ [t]))
    else
      separators
      match ← rest with
      | '<' :: '!' :: r =>
        let n := htmlCommentLength ('<' :: '!' :: r)
        guard (n ≠ 0)
        pure (.inr (found ++ [← leaf .htmlComment n]))
      | '<' :: '/' :: _ => pure (.inl (found ++ [← closingTag]))
      | '<' :: _ => pure (.inr (found ++ [← inner.markup]))
      | '{' :: _ => pure (.inr (found ++ [← inner.embedded]))
      | cs =>
        let n := referenceLength cs
        guard (n ≠ 0)
        pure (.inr (found ++ [← leaf .htmlCharacterReference n]))) []

/-- Reads a markup element. -/
def element : Reader Node := do
  let opening ← inner.tag
  if opening.kind = .jsxSelfClosingElement then pure opening
  else extend .jsxElement opening inner.markupContent

end Grammar

end SymbolIndex.JavaScript
