import SymbolIndex.JavaScript.Program

/-!
# Texts that are not well formed

A faulty text has a syntax tree too; a node in it tells what is wrong and where. There are three
ways to get that tree:

- tokens that are missing at the end of the text are supplied, which leaves nodes for missing
  tokens, or a last clause that cannot be finished is passed over, which leaves an error;
- the token that has no place is passed over, or else the token in front of it, which leaves an
  error of one token;
- the statements in front of the faulty one are kept, and everything from there on is one error.

The last way is always open. It is also taken where it costs less than to supply what is missing:
`Node.supplyCost` and `Node.errorCost` say what the two cost.
-/

namespace SymbolIndex.Syntax.Node

/-! ### What a repair costs -/

/-- Whether the node covers a missing token. -/
def isUnfinished (n : Node) : Bool := n.preorder.any (·.missing)

/-- What it costs to supply the missing tokens. -/
def supplyCost (n : Node) : Nat := 610 * n.preorder.countP (·.missing)

mutual

/-- The number of pieces a construct leaves when its missing tokens are taken away: what is
finished is one piece, what is not falls apart, comments and the first line do not count. -/
def pieces : Node → Nat
  | n@⟨kind, _, missing, _, _, children⟩ =>
    if missing || [.comment, .htmlComment, .hashBangLine].contains kind then 0
    else if n.isUnfinished then piecesOfAll children
    else 1

/-- The number of pieces that several constructs leave. -/
def piecesOfAll : List Node → Nat
  | [] => 0
  | n :: ns => n.pieces + piecesOfAll ns

end

/-- What it costs to take an unfinished construct for an error. -/
def errorCost (source : List Char) (n : Node) : Nat :=
  500 + 100 * n.pieces + (n.text source).utf8ByteSize + 30 * (n.stop.line - n.start.line)

end SymbolIndex.Syntax.Node

namespace SymbolIndex.JavaScript

open Syntax Lexical

namespace Lexical

/-- Marks that are a token wherever they stand. -/
def isPlainMark (c : Char) : Bool :=
  c = '(' || c = ')' || c = '[' || c = ']' || c = '{' || c = '}' || c = ',' || c = ';' || c = ':'
    || c = '@' || c = '~'

/-- The length of an operator. -/
def operatorLength (cs : List Char) : Nat :=
  match assigningOperator? cs, binaryOperator? cs with
  | some text, _ => text.length
  | _, some op => op.length
  | _, _ =>
    (["=>", "=", "?.", "?", "...", "."].find? (·.toList.isPrefixOf cs)).elim 0 String.length

/-- The length of a token that can be passed over. -/
def strayLength : List Char → Nat
  | [] => 0
  | c :: r =>
    if isPlainMark c then 1
    else max (max (nameLength (c :: r)) (numberLength (c :: r))) (operatorLength (c :: r))

/-- The length of a token that can be passed over, at the end of a text given backwards. -/
def strayLengthBefore : List Char → Nat
  | [] => 0
  | c :: r => if isPlainMark c then 1 else ((c :: r).takeWhile isNameChar).length

/-- Whether a statement can start with the character `c`, or a token does that is at fault on its
own. Text that starts otherwise is at fault from the end of the last token on. -/
def startsToken (c : Char) : Bool :=
  isPlainMark c || isNameChar c || c = '"' || c = '\'' || c = '`' || c = '/' || c = '+' || c = '-'
    || c = '!' || c = '<' || c = '#'

end Lexical

/-- The place `n` characters into a text. -/
def positionAt (source : List Char) (n : Nat) : Position :=
  (source.take n).foldl Position.advance .origin

/-- The place right after the last token of a text. -/
def endOfTokens (source : List Char) : Position :=
  positionAt source (source.reverse.dropWhile isSeparator).length

/-- The error that covers the text from the cursor to the last token, `before` being the nodes in
front of it. -/
def remainder (source : List Char) (before : List Node) (c : Cursor) : Node :=
  let start := match c.rest with
    | ch :: _ => if startsToken ch then c.pos else (before.getLast?.map (·.stop)).getD .origin
    | [] => c.pos
  let stop := endOfTokens source
  .leaf .error start (if start.offset < stop.offset then stop else start)

/-- The tree of a text whose last part is one error. -/
def brokenProgram (source : List Char) : Node :=
  match (grammarFor source).intactStatements (.start source .none) with
  | .ok (ns, c) =>
    Grammar.program.whole (ns ++ [remainder source ns c]) (positionAt source source.length)
  | .error _ => remainder source [] (.start source .none)

/-- The tree of the text with what is missing at its end supplied, `n`, unless it costs less to take
the whole text for one error. What stands in front of the first statement is kept then, if no
statement is finished. -/
def cheapest (source : List Char) (n : Node) : Node :=
  if n.errorCost source < n.supplyCost then
    if (n.children.takeWhile (!·.isUnfinished)).all (·.pieces = 0) then brokenProgram source
    else Grammar.program.whole [.leaf .error n.start (endOfTokens source)] n.stop
  else n

/-- The tree of a text whose fault is that it ends too early. -/
def unfinishedProgram (source : List Char) : Node :=
  match readProgram (.supply false) source with
  | .ok n => cheapest source n
  | .error _ => match readProgram (.supply true) source with
    | .ok n => n
    | .error _ => brokenProgram source

/-- What to pass over in a text, `offset` being where the furthest token without a place starts. -/
def strayTokens (source : List Char) (offset : Nat) : List Repair :=
  let before := (source.take offset).reverse.dropWhile isSeparator
  let previous := strayLengthBefore before
  skipAt offset (strayLength (source.drop offset)) ++ skipAt (before.length - previous) previous
where
  /-- Passing over the `length` characters at `offset`, if there are any. -/
  skipAt (offset length : Nat) : List Repair :=
    if length = 0 then [] else [.skip offset length]

/-- The tree of a faulty text, `offset` being where the furthest token without a place starts. -/
def faultyProgram (source : List Char) (offset : Nat) : Node :=
  if offset < source.length then
    ((strayTokens source offset).findSome? fun repair => (readProgram repair source).toOption).getD
      (brokenProgram source)
  else unfinishedProgram source

/-- The syntax tree of a text. -/
def programOf (source : List Char) : Node :=
  match readProgram .none source with
  | .ok n => n
  | .error offset => faultyProgram source offset

end SymbolIndex.JavaScript
