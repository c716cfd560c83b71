import SymbolIndex.Error
import SymbolIndex.Syntax.Cursor
import SymbolIndex.Syntax.Declaration
import SymbolIndex.Text.Space

/-!
# Faults of a syntax tree

A tree is faulty if any of its nodes is an error or stands for a missing token. Faults are looked
for before markup, which is well formed but not supported: `SyntaxTree.ofRoot` accepts a tree that
has neither, and otherwise reports the first fault, or else the first markup node, in the order in
which nodes start.
-/

namespace SymbolIndex.Syntax

open Text

namespace Node

/-- Whether the node itself is at fault. -/
def isFault (n : Node) : Bool := n.kind = .error || n.missing

/-- Whether there is a fault in the tree. Every node of a tree carries this as a flag. -/
def hasFault (n : Node) : Bool := n.preorder.any isFault

mutual

/-- The first faulty node. A tree without a fault is not searched; should a tree with a fault have
no faulty node, its root stands in for one. -/
def firstFault? : Node → Option Node
  | n@⟨_, _, _, _, _, children⟩ =>
    if n.isFault then some n
    else if n.hasFault then (firstFaultOf? children).or (some n)
    else none

/-- The first faulty node of several trees. -/
def firstFaultOf? : List Node → Option Node
  | [] => none
  | n :: ns => n.firstFault?.or (firstFaultOf? ns)

end

/-- The first markup node. -/
def firstMarkup? (n : Node) : Option Node := (TreeCursor.ofRoot n).find? (·.kind.isMarkup)

/-- How many characters of the source a report quotes at most. -/
def quoteLength : Nat := 40

/-- What is wrong at a faulty node: the token it misses, or the first line of its text. Dots after a
quote say that something is left out, that is, that the quote has fewer bytes than the line. -/
def describeFault (source : List Char) (n : Node) : String :=
  if n.missing then "missing `" ++ n.kind.label ++ "`"
  else
    let line := trim (firstLine (n.chars source))
    if line.isEmpty then "unexpected end of input"
    else
      let quote := String.ofList (line.take quoteLength)
      if quote.utf8ByteSize < (String.ofList line).utf8ByteSize then "unexpected `" ++ quote ++ "...`"
      else "unexpected `" ++ quote ++ "`"

end Node

namespace SyntaxTree

/-- The report that something is wrong at the node `n`. -/
def reportAt (path : Path) (n : Node) (detail : String) : Error :=
  .parse path (n.start.line + 1) (n.start.column + 1) detail

/-- The tree of a source text, if it is free of faults and of markup. -/
def ofRoot (root : Node) (source : String) (path : Path) : Except Error SyntaxTree :=
  match root.firstFault? with
  | some n => .error (reportAt path n (n.describeFault source.toList))
  | none => match root.firstMarkup? with
    | some n => .error (reportAt path n ("JSX is not supported (`" ++ n.kind.label ++ "`)"))
    | none => .ok ⟨root, source, path⟩

end SyntaxTree

end SymbolIndex.Syntax
