import SymbolIndex.JavaScript.Statement

/-!
# Whole source texts

`Grammar.upTo n` can read constructs nested `n` levels deep. A construct one level further in
starts at least one token later, so the length of the text is depth enough.
-/

namespace SymbolIndex.JavaScript

open Syntax Lexical Reader

namespace Grammar

/-- The grammar one level deeper than `inner`. -/
def deepen (inner : Grammar) : Grammar where
  expression := inner.wholeExpression
  operand := inner.unary
  braced := inner.object
  construction := inner.newExpression
  statement := inner.anyStatement
  markup := inner.element

/-- The grammar of all constructs nested at most `n` levels deep. -/
def upTo : Nat → Grammar
  | 0 => .empty
  | n + 1 => (upTo n).deepen

/-- Reads the first line of a text if it is meant for the shell. -/
def shellLine : Reader (List Node) := do
  let before ← extras
  match ← rest with
  | '#' :: '!' :: r => do
    let n ← leaf .hashBangLine ((r.takeWhile (· ≠ '\n')).length + 2)
    pure (before ++ [n])
  | _ => pure before

/-- Reads statements as long as `step` can read one. -/
def statementsBy (step : Reader (Option Node)) (found : List Node) : Reader (List Node) :=
  loop (fun found => do
    let found := found ++ (← extras)
    match ← rest with
    | [] => pure (.inl found)
    | _ => match ← step with
      | some s => pure (.inr (found ++ [s]))
      | none => pure (.inl found)) found

/-- Reads a whole text: a first line for the shell, if there is one, and statements. -/
def program (inner : Grammar) : Reader Node := do
  let ns ← shellLine >>= statementsBy (some <$> inner.anyStatement false)
  pure (whole ns (← get).pos)
where
  /-- The text made of the nodes `ns`, which ends at `stop`. -/
  whole (ns : List Node) (stop : Position) : Node :=
    .branch .program ((ns.head?.map (·.start)).getD stop) stop ns

/-- Reads the statements in front of the first one that is at fault. -/
def intactStatements (inner : Grammar) : Reader (List Node) :=
  shellLine >>= statementsBy ((some <$> inner.anyStatement false) <|> pure none)

end Grammar

/-- A grammar deep enough for the text. -/
def grammarFor (source : List Char) : Grammar := .upTo (2 * source.length + 4)

/-- Reads the source text under the repair `repair`: a syntax tree, or the offset of the furthest
token that has no place. -/
def readProgram (repair : Repair) (source : List Char) : Except Nat Node :=
  (grammarFor source).program.run' (.start source repair)

end SymbolIndex.JavaScript
