import SymbolIndex.Path
import SymbolIndex.Syntax.Node

/-!
# Declarations in a syntax tree

The view of a syntax tree that symbols are made from: classes with their members, functions, and
declarations that lack a name.

- `Declaration.ofNode?`: what a single node declares, given the kind of its parent.
- `Visit.all`: the named nodes of a tree, each before the nodes inside it.
- `SyntaxTree.declarations`: all declarations of a source text, in that order.
-/

namespace SymbolIndex.Syntax

/-- The key of a class member, with its text as written. -/
inductive MemberKey where
  /-- A plain name. -/
  | identifier (text : String)
  /-- A private name, with its `#`. -/
  | privateName (text : String)
  /-- A string or a number. -/
  | literal (text : String)
  /-- An expression in brackets. -/
  | computed (text : String)
  deriving DecidableEq, Repr

/-- What a method is called for. -/
inductive MethodKind where
  | method
  | constructor
  | getter
  | setter
  deriving DecidableEq, Repr

/-- A method of a class. -/
structure Method where
  key : MemberKey
  isStatic : Bool
  kind : MethodKind
  /-- The line it starts on, from one. -/
  line : Nat
  deriving DecidableEq, Repr

/-- The name under which a method is known; keys that are literals or computed give none. -/
def Method.simpleName? (m : Method) : Option String :=
  match m.key with
  | .identifier name | .privateName name => some name
  | .literal _ | .computed _ => none

/-- A member of a class. -/
inductive Member where
  | method (m : Method)
  /-- A field, a static block, anything else that is no method. -/
  | other
  deriving DecidableEq, Repr

/-- A class with a name. -/
structure ClassDeclaration where
  name : String
  /-- The superclass, if it is given by a plain name. -/
  superclass : Option String
  members : List Member
  line : Nat
  deriving DecidableEq, Repr

/-- A function with a name. -/
structure FunctionDeclaration where
  name : String
  isGenerator : Bool
  line : Nat
  deriving DecidableEq, Repr

/-- What a declaration without a name lacks it for. -/
inductive Nameless where
  | classDeclaration
  | functionDeclaration
  deriving DecidableEq, Repr

/-- Why a declaration without a name is of no use. -/
def Nameless.reason : Nameless → String
  | .classDeclaration => "class declaration without a name"
  | .functionDeclaration => "function declaration without a name"

/-- A declaration found in a syntax tree. -/
inductive Declaration where
  | classDeclaration (c : ClassDeclaration)
  | functionDeclaration (f : FunctionDeclaration)
  | malformed (kind : Kind) (nameless : Nameless) (line : Nat)
  deriving DecidableEq, Repr

/-! ### Reading a declaration off a node -/

variable (source : List Char)

/-- The line a node starts on, from one. -/
def Node.lineNumber (n : Node) : Nat := n.start.line + 1

/-- The key given by the name node of a method. -/
def MemberKey.ofNode (n : Node) : MemberKey :=
  let text := n.text source
  match n.kind with
  | .propertyIdentifier => .identifier text
  | .privatePropertyIdentifier => .privateName text
  | .string | .number => .literal text
  | _ => .computed text

/-- Whether a method node has the keyword `k` as a modifier. -/
def Node.hasModifier (n : Node) (k : Keyword) : Bool := n.children.any (·.kind = .word k)

/-- What a method node is called for: the last accessor word counts, and a constructor is a method
of that name that is neither static nor an accessor. -/
def MethodKind.ofNode (n : Node) (key : MemberKey) : MethodKind :=
  let accessor := n.children.foldl (fun kind child =>
    if child.kind = .word .getWord then .getter
    else if child.kind = .word .setWord then .setter
    else kind) MethodKind.method
  if accessor = .method && !n.hasModifier .staticWord && key = .identifier "constructor" then
    .constructor
  else accessor

/-- The method a node defines. -/
def Method.ofNode? (n : Node) : Option Method := do
  let name ← n.child? .name
  let key := MemberKey.ofNode source name
  pure ⟨key, n.hasModifier .staticWord, .ofNode n key, n.lineNumber⟩

/-- The member given by a named child of a class body. -/
def Member.ofNode (n : Node) : Member :=
  if n.kind = .methodDefinition then
    match Method.ofNode? source n with
    | some m => .method m
    | none => .other
  else .other

/-- The members of a class node. Comments are none. -/
def Node.members (n : Node) : List Member :=
  match n.child? .body with
  | some body => (body.namedChildren.filter (·.kind ≠ .comment)).map (Member.ofNode source)
  | none => []

/-- The superclass of a class node: the first named node of the first heritage clause, if it is a
plain name. -/
def Node.superclass? (n : Node) : Option String := do
  let heritage ← n.namedChildren.find? (·.kind = .classHeritage)
  let parent ← heritage.namedChildren.head?
  if parent.kind = .identifier then some (parent.text source) else none

/-- The declaration given by a class node. -/
def Declaration.ofClass (n : Node) : Declaration :=
  match n.child? .name with
  | some name =>
    .classDeclaration ⟨name.text source, n.superclass? source, n.members source, n.lineNumber⟩
  | none => .malformed n.kind .classDeclaration n.lineNumber

/-- Whether a kind of function makes generators. -/
def Kind.isGenerator : Kind → Bool
  | .generatorFunctionDeclaration | .generatorFunction => true
  | _ => false

/-- The declaration given by a function node. -/
def Declaration.ofFunction (n : Node) : Declaration :=
  match n.child? .name with
  | some name => .functionDeclaration ⟨name.text source, n.kind.isGenerator, n.lineNumber⟩
  | none => .malformed n.kind .functionDeclaration n.lineNumber

/-- What a node declares, `parent` being the kind of the node around it. Functions and classes that
are expressions declare something only as the value of an export. -/
def Declaration.ofNode? (parent : Option Kind) (n : Node) : Option Declaration :=
  let exported := parent = some .exportStatement
  match n.kind with
  | .classDeclaration => some (.ofClass source n)
  | .functionDeclaration | .generatorFunctionDeclaration => some (.ofFunction source n)
  | .classExpression => if exported then some (.ofClass source n) else none
  | .functionExpression | .generatorFunction =>
    if exported then some (.ofFunction source n) else none
  | _ => none

/-! ### All declarations of a tree -/

/-- A node on its visit: the node and the kind of its parent. -/
abbrev Visit := Option Kind × Node

namespace Visit

mutual

/-- A node and the named nodes below it, each before the nodes inside it. -/
def all (parent : Option Kind) : Node → List Visit
  | n@⟨kind, _, _, _, _, children⟩ => (parent, n) :: allNamed kind children

/-- The named ones of several nodes with one parent, and the named nodes below them. -/
def allNamed (parent : Kind) : List Node → List Visit
  | [] => []
  | n :: ns => if n.isNamed then all (some parent) n ++ allNamed parent ns else allNamed parent ns

end

end Visit

/-- A source text and its syntax tree. -/
structure SyntaxTree where
  root : Node
  /-- The text the tree was read from. -/
  source : String
  /-- The path under which the text is known. -/
  path : Path

namespace SyntaxTree

/-- All declarations, in the order in which they start; those inside a class or function follow
it. -/
def declarations (t : SyntaxTree) : List Declaration :=
  (Visit.all none t.root).filterMap fun (parent, n) =>
    Declaration.ofNode? t.source.toList parent n

end SyntaxTree

end SymbolIndex.Syntax
