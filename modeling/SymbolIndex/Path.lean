import SymbolIndex.Text.Utf8

/-!
# Paths

A path is a string of bytes, which need not be text. A slash separates its components; empty
components do not count, and neither does a dot, unless it comes first.

- `Path.components`, `Path.fileName?`: the parts of a path and the name it ends in.
- `Path.join`: a path taken relative to another.
- `Path.parent?`: the path without its last component.
- `Path.hasSuffix`: whether the name a path ends in is text with a given ending.
-/

namespace SymbolIndex

open Text

/-- A path of the file system. -/
structure Path where
  bytes : List UInt8
  deriving DecidableEq, Repr

/-- A component of a path. -/
inductive Component where
  | root
  | current
  | parent
  | name (bytes : List UInt8)
  deriving DecidableEq, Repr

namespace Path

/-- The byte that separates components. -/
def slash : UInt8 := 0x2f

/-- The path written as `s`. -/
def ofString (s : String) : Path := ⟨Utf8.encode s⟩

instance : Coe String Path := ⟨ofString⟩

/-- The path as text, with replacement characters where it is not well formed. -/
def display (p : Path) : String := Utf8.decodeLossy p.bytes

/-- Whether the path starts at the root. -/
def isAbsolute (p : Path) : Bool := p.bytes.head? = some slash

/-- The bytes between the slashes, empty ones included. -/
def segments : List UInt8 → List (List UInt8)
  | [] => [[]]
  | b :: r =>
    if b = slash then [] :: segments r
    else match segments r with
      | [] => [[b]]
      | s :: ss => (b :: s) :: ss

/-- The component a segment stands for, if any. -/
def component? : List UInt8 → Option Component
  | [] => none
  | [0x2e] => none
  | [0x2e, 0x2e] => some .parent
  | s => some (.name s)

/-- The components of the path. -/
def components (p : Path) : List Component :=
  let start : List Component := if p.isAbsolute then [.root]
    else match segments p.bytes with
      | [0x2e] :: _ => [.current]
      | _ => []
  start ++ (segments p.bytes).filterMap component?

/-- The name the path ends in. -/
def fileName? (p : Path) : Option (List UInt8) :=
  match p.components.getLast? with
  | some (.name s) => some s
  | _ => none

/-- The path `q` seen from `p`: an absolute path stays what it is, any other is appended, after a
slash unless `p` is empty or ends in one. -/
def join (p q : Path) : Path :=
  if q.isAbsolute then q
  else if p.bytes.isEmpty || p.bytes.getLast? = some slash then ⟨p.bytes ++ q.bytes⟩
  else ⟨p.bytes ++ slash :: q.bytes⟩

/-- The byte that a component for the current directory is made of. -/
def dot : UInt8 := 0x2e

/-- Bytes in reverse, without what counts for nothing at the end of a path. -/
def trimReversed : List UInt8 → List UInt8
  | [] => []
  | b :: r =>
    if b = slash then trimReversed r
    else if b = dot && r.head? = some slash then trimReversed r
    else b :: r

/-- The path without its last component; the root and the empty path have none. -/
def parent? (p : Path) : Option Path :=
  match p.components.getLast? with
  | none => none
  | some .root => none
  | some _ =>
    let before := trimReversed ((trimReversed p.bytes.reverse).dropWhile (· ≠ slash))
    some ⟨if p.isAbsolute && before.isEmpty then [slash] else before.reverse⟩

/-- Whether the name the path ends in is text that ends in `suffix`. -/
def hasSuffix (p : Path) (suffix : String) : Bool :=
  match p.fileName?.bind Utf8.decode? with
  | some name => suffix.toList.isSuffixOf name.toList
  | none => false

end Path

end SymbolIndex
