import SymbolIndex.JavaScript.Grammar

/-!
# Lists, blocks and functions

Lists of elements between brackets, blocks of statements, parameter lists and functions. A list is
read once, whatever it turns out to be: `validParameters` says when its elements can be parameters,
`validArguments` when they can be arguments.
-/

namespace SymbolIndex.JavaScript

open Syntax Lexical Reader

namespace Reader

/-- The node that `p` reads, of the kind that `p` decides on. -/
def build (p : Reader (Kind × List Node)) : Reader Node := fun c =>
  match p c with
  | .ok ((k, ns), c') => .ok (.branch k c.pos c'.last ns, c')
  | .error reach => .error reach

/-- Reads elements separated by commas up to the mark `close`. An element may be left out, which
gives `none`; so does the end of the list right after a comma. The reader of an element is told
whether it is the `first` one. -/
def elements (close : String) (element : (first : Bool) → Reader Operand) :
    Reader (List Node × List (Option Operand)) :=
  loop (fun (nodes, items) => do
    let before ← extras
    let cs ← rest
    if close.toList.isPrefixOf cs then
      let n ← mark close
      pure (.inl (nodes ++ before ++ [n], items ++ [none]))
    else if cs.head? = some ',' then
      let n ← mark ","
      pure (.inr (nodes ++ before ++ [n], items ++ [none]))
    else
      let o ← element items.isEmpty
      let found := nodes ++ before ++ [o.node]
      let after ← extras
      (do let n ← mark ","; pure (.inr (found ++ after ++ [n], items ++ [some o])))
        <|> (do let n ← mark close; pure (.inl (found ++ after ++ [n], items ++ [some o]))))
    ([], [])

/-- Reads the closing brace behind the nodes `found`. One that is missing at the end of the text
may be supplied if the construct is `closable`. -/
def closeBrace (closable : Bool) (found : List Node) : Reader Node :=
  mark "\x7d" <|> (do guard closable; supply "\x7d" found)

/-- Whether a closing brace comes next, or the end of the text. -/
def atCloseBrace : Reader Bool := do
  match ← rest with
  | [] => pure true
  | c :: _ => pure (c = '}')

end Reader

/-- Elements that can be arguments or array elements: each one given is an expression. -/
def validArguments (items : List (Option Operand)) : Bool :=
  items.all fun
    | some o => o.isExpression
    | none => true

/-- Elements that can be parameters: each one is given and an element of a pattern, except that a
comma may follow the last. -/
def validParameters : List (Option Operand) → Bool
  | [] => true
  | [none] => true
  | [some o] => o.isElement
  | [some o, none] => o.isElement
  | none :: _ => false
  | some o :: items => o.isElement && validParameters items

namespace Grammar

variable (inner : Grammar)

/-- Reads `...` and an expression. `withDefault` says whether it may carry a default value where
it is read as a pattern. -/
def spread (withDefault : Bool) : Reader Operand := fun c => do
  let ((mark, before, o), c') ← (do
    let m ← mark "..."
    let before ← extras
    let o ← inner.expression .enclosed
    pure (m, before, o) : Reader _) c
  let n := Node.branch .spreadElement c.pos c'.last (mark :: before ++ [o.node])
  pure (⟨n, o.isExpression, false, if withDefault then o.isElement else o.isTarget, false⟩, c')

/-- An element of a list: a spread or an expression. -/
def listElement : Reader Operand := do
  match ← rest with
  | '.' :: '.' :: '.' :: _ => inner.spread true
  | _ => inner.expression .enclosed

/-- Reads arguments in parentheses. -/
def arguments : Reader Node := construct .arguments do
  let o ← mark "("
  let (ns, items) ← elements ")" fun _ => inner.listElement
  guard (validArguments items)
  pure (o :: ns)

/-- Reads parameters in parentheses. -/
def parameters : Reader Node := construct .formalParameters do
  let o ← mark "("
  let (ns, items) ← elements ")" fun _ => inner.listElement
  guard (validParameters items)
  pure (o :: asPatterns ns)

/-- Reads statements up to a closing brace. -/
def statements : Reader (List Node) :=
  loop (fun found => do
    let before ← extras
    if ← atCloseBrace then pure (.inl (found ++ before))
    else
      let s ← inner.statement false
      pure (.inr (found ++ before ++ [s]))) []

/-- Reads a block of statements in braces. -/
def block (closable : Bool) : Reader Node := construct .statementBlock do
  let o ← mark "\x7b"
  let body ← inner.statements
  let c ← closeBrace closable (o :: body)
  noHtml
  pure (o :: body ++ [c])

/-- Reads a function from the word `async` or `function` on. Its name may be any word. -/
def function : Reader Node := build do
  let async ← optional (part (keyword .asyncWord))
  let function ← keywordPart .functionWord
  let star ← optional (markPart "*")
  let name ← optional (partAs .name (name .identifier))
  let parameters ← part inner.parameters
  mayHtml
  let body ← partAs .body (inner.block true)
  let kind := if star.isEmpty then .functionExpression else .generatorFunction
  pure (kind, async ++ function ++ star ++ name ++ parameters ++ body)

end Grammar

end SymbolIndex.JavaScript
