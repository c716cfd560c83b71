import SymbolIndex.Syntax.Kind

/-!
# Syntax nodes

A `Node` is a piece of source text with a `Kind` and, in order, the nodes it is made of. Its text
is not stored: it is the part of the source between the positions `start` and `stop`, so the same
tree serves every question about the text (`Node.text`).

- `Node.preorder`: a node and everything below it, each node before its children.
- `Node.namedChildren`, `Node.child?`: the children that are constructs, the child in a given role.
-/

namespace SymbolIndex.Syntax

/-- A place in a source text. Lines end at line feeds only, and a column counts the bytes of the
UTF-8 encoding since the start of the line; both count from zero, and so does `offset`, the number
of characters before the place. -/
structure Position where
  offset : Nat
  line : Nat
  column : Nat
  deriving DecidableEq, Repr

namespace Position

/-- The start of a text. -/
def origin : Position := ⟨0, 0, 0⟩

/-- The place just after the character `c`. -/
def advance (p : Position) (c : Char) : Position :=
  if c = '\n' then ⟨p.offset + 1, p.line + 1, 0⟩
  else ⟨p.offset + 1, p.line, p.column + c.utf8Size⟩

end Position

/-- The roles by which a construct finds one of its children. -/
inductive Field where
  | name
  | body
  deriving DecidableEq, Repr

/-- A node of a syntax tree. -/
structure Node where
  kind : Kind
  /-- The role the node plays in its parent. -/
  field : Option Field
  /-- Whether the node stands for a token that the source lacks. -/
  missing : Bool
  start : Position
  stop : Position
  children : List Node
  deriving Repr

namespace Node

/-- A node that covers `children`. -/
def branch (kind : Kind) (start stop : Position) (children : List Node) : Node :=
  ⟨kind, none, false, start, stop, children⟩

/-- A node without children. -/
def leaf (kind : Kind) (start stop : Position) : Node := branch kind start stop []

/-- The node in the role `f` of its parent. -/
def as (n : Node) (f : Field) : Node := { n with field := some f }

/-- The same piece of source, read as a construct of another kind. -/
def relabel (n : Node) (k : Kind) : Node := { n with kind := k }

/-- Whether the node is a construct, not a word or a mark. -/
def isNamed (n : Node) : Bool := n.kind.isNamed

/-- The text of the node in the source it was read from. -/
def chars (source : List Char) (n : Node) : List Char :=
  (source.drop n.start.offset).take (n.stop.offset - n.start.offset)

/-- The text of the node in the source it was read from. -/
def text (source : List Char) (n : Node) : String := String.ofList (n.chars source)

/-- The children that are constructs. -/
def namedChildren (n : Node) : List Node := n.children.filter isNamed

/-- The first child in the role `f`. -/
def child? (n : Node) (f : Field) : Option Node := n.children.find? (·.field = some f)

mutual

/-- The node and all nodes below it, each before its children. -/
def preorder : Node → List Node
  | n@⟨_, _, _, _, _, children⟩ => n :: preorderAll children

/-- The nodes of several trees, one tree after the other. -/
def preorderAll : List Node → List Node
  | [] => []
  | n :: ns => n.preorder ++ preorderAll ns

end

end Node

end SymbolIndex.Syntax
