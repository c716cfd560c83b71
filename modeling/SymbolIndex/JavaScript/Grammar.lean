import SymbolIndex.JavaScript.Literal

/-!
# Operands and the nesting of the grammar

Expressions contain functions, functions contain statements, statements contain expressions. The
readers of the single constructs are therefore written against a `Grammar`, a record of the readers
for the constructs one level further in; `Grammar` values of every depth are made from one another
when all constructs are known.

Some texts can be read as an expression and as a pattern, and only what follows them decides:
`[a, b]` before `=`, `(a, b)` before `=>`. An `Operand` is such a reading together with the roles
it can still play.
-/

namespace SymbolIndex.JavaScript

open Syntax

/-- A reading of a piece of an expression, with the roles it can play. -/
structure Operand where
  node : Node
  /-- It may stand as an expression. -/
  isExpression : Bool
  /-- It may be the target of a binding: a name, a member, a destructuring pattern. -/
  isTarget : Bool
  /-- It may be an element of a pattern: a target, with a default value or without. -/
  isElement : Bool
  /-- It is an operand that a template may be attached to. -/
  isPrimary : Bool

namespace Operand

/-- An operand that can only be a value. -/
def value (n : Node) : Operand := ⟨n, true, false, false, true⟩

/-- An operand that is a value or a target. -/
def target (n : Node) : Operand := ⟨n, true, true, true, true⟩

/-- A composed expression. -/
def composed (n : Node) : Operand := ⟨n, true, false, false, false⟩

end Operand

/-- Where an expression stands. -/
structure Context where
  /-- A statement may end after it. -/
  endsStatement : Bool
  /-- The operator `in` does not belong to it. -/
  withoutIn : Bool

namespace Context

/-- Inside brackets of any form. -/
def enclosed : Context := ⟨false, false⟩

/-- At the end of a statement. -/
def last : Context := ⟨true, false⟩

end Context

/-- The readers for the constructs one level further in. Each of them starts at the first token of
the construct. -/
structure Grammar where
  /-- An expression, up to a comma. -/
  expression : Context → Reader Operand
  /-- An operand with its prefixes and suffixes, or an assignment to one. -/
  operand : Context → Reader Operand
  /-- An object literal or pattern. It is `ambiguous` where a statement may start as well. -/
  braced : (ambiguous : Bool) → Reader Operand
  /-- What follows `new`, with the arguments. -/
  construction : Context → Reader Operand
  /-- A statement. `beforeWhile` says that it is the body of `do`, or the end of that body, so that
  no other statement can follow. -/
  statement : (beforeWhile : Bool) → Reader Node
  /-- A markup element. -/
  markup : Reader Node

namespace Grammar

/-- The grammar without any construct. -/
def empty : Grammar where
  expression _ := .stuck
  operand _ := .stuck
  braced _ := .stuck
  construction _ := .stuck
  statement _ := .stuck
  markup := .stuck

end Grammar

/-! ### Expressions read as patterns -/

mutual

/-- A node that was read as part of an expression, as the pattern it turned out to be. -/
def asPattern : Node → Node
  | ⟨.object, f, m, s, e, cs⟩ => ⟨.objectPattern, f, m, s, e, asPatterns cs⟩
  | ⟨.array, f, m, s, e, cs⟩ => ⟨.arrayPattern, f, m, s, e, asPatterns cs⟩
  | ⟨.spreadElement, f, m, s, e, cs⟩ => ⟨.restPattern, f, m, s, e, asPatterns cs⟩
  | ⟨.pair, f, m, s, e, cs⟩ => ⟨.pairPattern, f, m, s, e, lastAsPattern cs⟩
  | ⟨.assignmentExpression, f, m, s, e, cs⟩ => ⟨.assignmentPattern, f, m, s, e, cs⟩
  | ⟨.shorthandPropertyIdentifier, f, m, s, e, cs⟩ =>
    ⟨.shorthandPropertyIdentifierPattern, f, m, s, e, cs⟩
  | n => n

/-- All of the nodes as patterns. -/
def asPatterns : List Node → List Node
  | [] => []
  | n :: ns => asPattern n :: asPatterns ns

/-- The last of the nodes as a pattern. -/
def lastAsPattern : List Node → List Node
  | [] => []
  | [n] => [asPattern n]
  | n :: m :: ns => n :: lastAsPattern (m :: ns)

end

/-! ### What the next token is -/

namespace Lexical

/-- Words that are names although they have a meaning elsewhere. -/
def isReservedName : Keyword → Bool
  | .getWord | .setWord | .asyncWord | .staticWord | .exportWord | .letWord => true
  | _ => false

/-- Words that start an expression and are no names there. -/
def startsExpression : Keyword → Bool
  | .awaitWord | .yieldWord | .typeofWord | .voidWord | .deleteWord | .newWord | .importWord
  | .classWord | .functionWord | .thisWord | .superWord | .trueWord | .falseWord | .nullWord
  | .undefinedWord => true
  | _ => false

/-- Words that start a statement and are no names there. -/
def startsStatementWord : Keyword → Bool
  | .varWord | .constWord | .ifWord | .switchWord | .forWord | .whileWord | .doWord | .tryWord
  | .withWord | .breakWord | .continueWord | .debuggerWord | .returnWord | .throwWord => true
  | _ => false

/-- Whether a property name starts here. -/
def startsPropertyName : List Char → Bool
  | [] => false
  | c :: r => c = '"' || c = '\'' || c = '[' || nameLength (c :: r) ≠ 0
    || numberLength (c :: r) ≠ 0 || privateNameLength (c :: r) ≠ 0

end Lexical

end SymbolIndex.JavaScript
