import SymbolIndex.JavaScript.Lexical
import SymbolIndex.Syntax.Node

/-!
# Reading a source text

A `Reader` takes nodes off the front of a source text. Its state is a `Cursor`; when it gets stuck
it answers with the offset of the furthest token it could not make use of, so that a report can
point at the place where the text went wrong rather than at the start of the construct.

Blanks and comments may stand between any two tokens. They are read by `extras`, always *before*
the token or construct that follows them, so that a construct starts with its first token and the
comments in front of it belong to the construct around it.

The state also holds a `Repair`: the one liberty a reading may take with a text that has a fault.
-/

namespace SymbolIndex.JavaScript

open Syntax Lexical

/-- A liberty taken with a faulty text. -/
inductive Repair where
  /-- None: the text is read as it stands. -/
  | none
  /-- The `length` characters at `offset` are passed over as an error. -/
  | skip (offset length : Nat)
  /-- Tokens that are missing at the end of the text are supplied. With `clauses`, a last clause that
  a statement can do without is passed over if it cannot be finished. -/
  | supply (clauses : Bool)
  deriving DecidableEq, Repr

/-- The state of a reading. -/
structure Cursor where
  /-- The characters still to be read. -/
  rest : List Char
  /-- Where they start. -/
  pos : Position
  /-- Where the last token ended. -/
  last : Position
  /-- Whether an HTML-style comment may start here. -/
  html : Bool
  /-- The offset of the furthest token that was looked at in vain. -/
  reach : Nat
  repair : Repair
  /-- The length of the whole text, which bounds every repetition. -/
  size : Nat

namespace Cursor

/-- The start of a text. -/
def start (source : List Char) (repair : Repair) : Cursor :=
  ⟨source, .origin, .origin, true, 0, repair, source.length⟩

/-- The cursor `n` characters further. -/
def advance : Nat → Cursor → Cursor
  | 0, c => c
  | n + 1, c => match c.rest with
    | [] => c
    | ch :: r => advance n { c with rest := r, pos := c.pos.advance ch }

end Cursor

/-- Reads a value off the front of a text, or gets stuck at an offset. -/
abbrev Reader := StateT Cursor (Except Nat)

namespace Reader

variable {α : Type}

/-- Gets stuck at the current place. -/
def stuck : Reader α := fun c => .error (max c.reach c.pos.offset)

/-- Goes on only if `b` holds. -/
def guard (b : Bool) : Reader Unit := if b then pure () else stuck

/-- Reads with `p`, or with `q` from the same place if `p` gets stuck. -/
def orElse (p : Reader α) (q : Unit → Reader α) : Reader α := fun c =>
  match p c with
  | .ok r => .ok r
  | .error reach => q () { c with reach := max c.reach reach }

instance : OrElse (Reader α) := ⟨orElse⟩

/-- The characters still to be read. -/
def rest : Reader (List Char) := fun c => .ok (c.rest, c)

/-- Looks ahead: the answer of `p`, without reading anything. -/
def peek (p : Reader α) : Reader α := fun c =>
  match p c with
  | .ok (a, c') => .ok (a, { c with reach := c'.reach })
  | .error reach => .error reach

/-- Whether `p` can read here; reads nothing. -/
def succeeds (p : Reader α) : Reader Bool := (do let _ ← peek p; pure true) <|> pure false

/-- Repeats `step`, which answers with what it read and whether to go on, at most `fuel` times. -/
def loopUpTo (step : α → Reader (α ⊕ α)) : (fuel : Nat) → α → Reader α
  | 0, _ => stuck
  | fuel + 1, a => do
    match ← step a with
    | .inl b => pure b
    | .inr b => loopUpTo step fuel b

/-- Repeats `step` from `a` until it answers `.inl`. Every round but the last reads something, so
the length of the text bounds the rounds. -/
def loop (step : α → Reader (α ⊕ α)) (a : α) : Reader α := fun c =>
  loopUpTo step (c.size + 2) a c

/-! ### Tokens -/

/-- Reads the next `n` characters as a node without children. -/
def leaf (k : Kind) (n : Nat) : Reader Node := fun c =>
  let c' := c.advance n
  .ok (.leaf k c.pos c'.pos, { c' with last := c'.pos, html := true })

/-- Says that no HTML-style comment may start here. -/
def noHtml : Reader Unit := fun c => .ok ((), { c with html := false })

/-- Says that an HTML-style comment may start here. -/
def mayHtml : Reader Unit := fun c => .ok ((), { c with html := true })

/-- Reads the mark `text`. -/
def mark (text : String) : Reader Node := do
  let cs ← rest
  guard (text.toList.isPrefixOf cs)
  leaf (.mark text) text.toList.length

/-- The name at the current place, empty when there is none. -/
def word : Reader (List Char) := do pure (nameAt (← rest))

/-- The keyword at the current place. -/
def keyword? : Reader (Option Keyword) := do pure (Keyword.ofChars? (← word))

/-- Reads the name at the current place as a node of kind `k`. -/
def name (k : Kind) : Reader Node := do
  let n := nameLength (← rest)
  guard (n ≠ 0)
  leaf k n

/-- Reads the keyword `k`. -/
def keyword (k : Keyword) : Reader Node := do
  guard ((← keyword?) = some k)
  leaf (.word k) (nameLength (← rest))

/-! ### Between tokens -/

/-- The node that stands between tokens here, if there is one: a comment, or what the repair passes
over. -/
def extra? : Reader (Option Node) := fun c =>
  match c.repair with
  | .skip offset length =>
    if c.pos.offset = offset then
      let c' := c.advance length
      .ok (some (.leaf .error c.pos c'.pos), { c' with last := c'.pos })
    else comment c
  | _ => comment c
where
  /-- The comment at the current place. -/
  comment (c : Cursor) : Except Nat (Option Node × Cursor) :=
    let html := if c.html then htmlCommentLength c.rest else 0
    if html ≠ 0 then
      let c' := c.advance html
      .ok (some (.leaf .htmlComment c.pos c'.pos), c')
    else
      match commentLength c.rest with
      | 0 => .ok (none, c)
      | n + 1 =>
        let c' := c.advance (n + 1)
        .ok (some (.leaf .comment c.pos c'.pos), c')

/-- Passes over the separators at the current place. -/
def separators : Reader Unit := fun c =>
  .ok ((), c.advance (c.rest.takeWhile isSeparator).length)

/-- Reads separators and comments up to the next token. -/
def extras : Reader (List Node) :=
  loop (fun found => do
    separators
    match ← extra? with
    | some n => pure (.inr (found ++ [n]))
    | none => pure (.inl found)) []

/-! ### Where a statement may end -/

/-- Whether a semicolon may be left out before the next token: at the current place, or after one
of the comments in front of that token, but not after text that is passed over. -/
def endsHere (afterOperand : Bool) : Reader Bool := peek <|
  loop (fun _ => do
    if semicolonBefore afterOperand (← rest) then pure (.inl true)
    else
      separators
      match ← extra? with
      | some n => if n.kind = .error then pure (.inl false) else pure (.inr false)
      | none => pure (.inl false)) false

/-- Reads the end of a statement: a semicolon, or a place where it may be left out. -/
def terminator (afterOperand : Bool) : Reader (List Node) :=
  loop (fun found => do
    if semicolonBefore afterOperand (← rest) && !(found.any (·.kind = .error)) then
      mayHtml
      pure (.inl found)
    else
      separators
      match ← extra? with
      | some n => pure (.inr (found ++ [n]))
      | none =>
        let n ← mark ";"
        pure (.inl (found ++ [n]))) []

/-! ### Parts of a construct -/

/-- Reads what `p` reads after the extras in front of it. -/
def part (p : Reader Node) : Reader (List Node) := do
  let before ← extras
  let n ← p
  pure (before ++ [n])

/-- Like `part`, with the node in the role `f`. -/
def partAs (f : Field) (p : Reader Node) : Reader (List Node) := part ((·.as f) <$> p)

/-- Reads the mark `text` after extras. -/
def markPart (text : String) : Reader (List Node) := part (mark text)

/-- Reads the keyword `k` after extras. -/
def keywordPart (k : Keyword) : Reader (List Node) := part (keyword k)

/-- Reads `p` if it can, and nothing otherwise. -/
def optional (p : Reader (List Node)) : Reader (List Node) := p <|> pure []

/-- A construct of kind `k` made of what `p` reads. -/
def construct (k : Kind) (p : Reader (List Node)) : Reader Node := fun c =>
  match p c with
  | .ok (ns, c') => .ok (.branch k c.pos c'.last ns, c')
  | .error reach => .error reach

/-- A construct of kind `k` whose first part `first` is read already. -/
def extend (k : Kind) (first : Node) (p : Reader (List Node)) : Reader Node := fun c =>
  match p c with
  | .ok (ns, c') => .ok (.branch k first.start c'.last (first :: ns), c')
  | .error reach => .error reach

/-! ### Repairs at the end of the text -/

/-- Supplies the mark `text`, which is missing at the end of the text behind the nodes `found`, if
the repair says so. -/
def supply (text : String) (found : List Node) : Reader Node := fun c =>
  match c.rest, c.repair, found.getLast? with
  | [], .supply _, some n => .ok (⟨.mark text, none, true, n.stop, n.stop, []⟩, c)
  | _, _, _ => stuck c

/-- Passes over the rest of the text if the repair says so for clauses. -/
def passOver : Reader Node := fun c =>
  match c.repair with
  | .supply true =>
    let length := (c.rest.reverse.dropWhile isSeparator).length
    let c' := c.advance length
    .ok (.leaf .error c.pos c'.pos, { c' with last := c'.pos })
  | _ => stuck c

/-- The characters from the next token on. -/
def ahead : Reader (List Char) := peek do
  let _ ← extras
  rest

/-- Whether the next token starts with the characters `text`. -/
def follows (text : String) : Reader Bool := do pure (text.toList.isPrefixOf (← ahead))

/-- The keyword that comes next. -/
def nextKeyword? : Reader (Option Keyword) := do pure (Keyword.ofChars? (nameAt (← ahead)))

end Reader

end SymbolIndex.JavaScript
