import SymbolIndex.JavaScript.Function

/-!
# Members of objects and classes

Property names, methods with their modifiers, object literals, classes.

The words `static`, `async`, `get` and `set` are modifiers only in front of something they can
modify; elsewhere they are ordinary member names. In a class a line break after such a word makes
it the name of a field. The words `static get` with nothing but blanks up to a line break are a
token of their own.

An object literal that stands where a statement may stand is *ambiguous*: until its first property
is read it could be a block, and a word that starts a statement or an expression is taken as such.
-/

namespace SymbolIndex.JavaScript

open Syntax Lexical Reader

namespace Lexical

/-- The length of `static get` followed by blanks up to a line break, the last one of the run. -/
def staticGetLength : List Char → Nat
  | 's' :: 't' :: 'a' :: 't' :: 'i' :: 'c' :: r =>
    let gap := (r.takeWhile isBlank).length
    match r.drop gap with
    | 'g' :: 'e' :: 't' :: r =>
      let run := r.takeWhile isBlank
      match run.reverse.dropWhile (· ≠ '\n') with
      | [] => 0
      | upToBreak => if gap = 0 then 0 else upToBreak.length + gap + 9
    | _ => 0
  | _ => 0

end Lexical

namespace Grammar

variable (inner : Grammar)

/-- Reads an expression in brackets as a property name. -/
def computedName : Reader Node := construct .computedPropertyName do
  let o ← mark "["
  let before ← extras
  let e ← inner.expression .enclosed
  guard e.isExpression
  let c ← markPart "]"
  pure (o :: before ++ e.node :: c)

/-- Reads a property name. -/
def propertyName : Reader Node := do
  match ← rest with
  | '[' :: _ => inner.computedName
  | '"' :: _ => string
  | '\'' :: _ => string
  | '#' :: r => leaf .privatePropertyIdentifier (privateNameLength ('#' :: r))
  | cs => if numberLength cs ≠ 0 then number else name .propertyIdentifier

/-- Reads the word `k` as a modifier: something to modify follows, in a class (`inClass`) without
a line break that would make the word a field. -/
def modifier (inClass : Bool) (beforeStar : Bool) (k : Keyword) : Reader (List Node) := do
  let w ← keywordPart k
  if inClass then
    noHtml
    guard !(← endsHere false)
  let cs ← ahead
  guard (startsPropertyName cs || (beforeStar && cs.head? = some '*'))
  pure w

/-- Reads `static`, or the token `static get` up to a line break. -/
def staticModifier (inClass : Bool) : Reader (List Node) := do
  let before ← extras
  match staticGetLength (← rest) with
  | 0 => do pure (before ++ (← modifier inClass true .staticWord))
  | n + 1 => do pure (before ++ [← leaf (.mark "static get") (n + 1)])

/-- Reads the modifiers of a member. -/
def modifiers (inClass : Bool) : Reader (List Node) := do
  let static ← optional (staticModifier inClass)
  let async ← optional (modifier inClass true .asyncWord)
  let accessor ← optional (modifier inClass false .getWord <|> modifier inClass false .setWord
    <|> markPart "*")
  pure (static ++ async ++ accessor)

/-- Reads a decorator: `@`, a name with members, arguments or none. -/
def decorator : Reader Node := construct .decorator do
  let at_ ← mark "@"
  let before ← extras
  let first ← name .identifier
  let path ← loop (fun n => do
    if ← follows "." then do
      let m ← extend .memberExpression n do
        let dot ← markPart "."
        let property ← part (name .propertyIdentifier)
        pure (dot ++ property)
      pure (.inr m)
    else pure (.inl n)) first
  let called ← (extend .callExpression path (part inner.arguments)) <|> pure path
  pure (at_ :: before ++ [called])

/-- Reads decorators. -/
def decorators : Reader (List Node) :=
  loop (fun found => do
    if ← follows "@" then
      let d ← part inner.decorator
      pure (.inr (found ++ d))
    else pure (.inl found)) []

/-- Reads parameters and body of a method whose beginning `head` is read. -/
def methodRest (head : List Node) : Reader (List Node) := do
  let parameters ← part inner.parameters
  mayHtml
  let body ← partAs .body (inner.block false)
  pure (head ++ parameters ++ body)

/-! ### Objects -/

/-- Reads the value of a property, after the colon. In a pattern it may be a rest element. -/
def propertyValue : Reader Operand := do
  match ← rest with
  | '.' :: '.' :: '.' :: _ => do
    let o ← inner.spread true
    pure { o with isExpression := false }
  | _ => inner.expression .enclosed

/-- An operand of kind `k` that consists of the nodes read by `p`, in the roles `p` decides on. -/
def propertyOperand (p : Reader (Kind × List Node × Bool × Bool)) : Reader Operand := fun c =>
  match p c with
  | .ok ((k, ns, isExpression, isElement), c') =>
    .ok (⟨.branch k c.pos c'.last ns, isExpression, false, isElement, false⟩, c')
  | .error reach => .error reach

/-- Where the default value of a property stands. The default of the first property of an ambiguous
object literal may as well be the right side of an assignment in the first statement of a block. -/
def defaultContext (first : Bool) : Context := if first then .last else .enclosed

/-- Ends the default value of a property: that of a first property must not end a statement. -/
def checkDefault (first : Bool) : Reader Unit := do
  if first then guard !(← endsHere true)

/-- Reads a destructuring pattern with a default value. -/
def destructuringDefault (first : Bool) : Reader Operand := propertyOperand do
  let children ← match ← rest with
    | '{' :: _ => do
      let target ← inner.braced first
      guard target.isTarget
      guard ((← ahead).head? = some '=' && !(← follows "==") && !(← follows "=>"))
      let equals ← markPart "="
      let before ← extras
      let v ← inner.expression (defaultContext first)
      guard v.isExpression
      pure (asPattern target.node :: equals ++ before ++ [v.node])
    | _ => do
      let target ← inner.operand (defaultContext first)
      guard (target.node.kind = .assignmentExpression && target.isElement)
      pure target.node.children
  checkDefault first
  pure (.objectAssignmentPattern, children, false, true)

/-- Reads a property that starts with its name or with modifiers. -/
def namedProperty (first : Bool) : Reader Operand := propertyOperand do
  let decorators ← inner.decorators
  let modifiers ← modifiers false
  let before ← extras
  let key ← inner.propertyName
  let head := decorators ++ modifiers ++ before
  let cs ← ahead
  if !head.isEmpty || cs.head? = some '(' then
    pure (.methodDefinition, ← inner.methodRest (head ++ [key.as .name]), true, false)
  else if cs.head? = some ':' then
    let colon ← markPart ":"
    let before ← extras
    let v ← inner.propertyValue
    pure (.pair, key :: colon ++ before ++ [v.node], v.isExpression, v.isElement)
  else
    guard (key.kind = .propertyIdentifier)
    if cs.head? = some '=' then
      let equals ← markPart "="
      let before ← extras
      let v ← inner.expression (defaultContext first)
      guard v.isExpression
      checkDefault first
      let key := key.relabel .shorthandPropertyIdentifierPattern
      pure (.objectAssignmentPattern, key :: equals ++ before ++ [v.node], false, true)
    else pure (.shorthandPropertyIdentifier, [], true, true)

/-- Reads a property of an object literal; `first` says that it is the first one of an ambiguous
literal. -/
def property (first : Bool) : Reader Operand := do
  match ← rest with
  | '.' :: '.' :: '.' :: _ => inner.spread false
  | '{' :: _ => inner.destructuringDefault first
  | '[' :: _ => inner.namedProperty first <|> inner.destructuringDefault first
  | _ => inner.namedProperty first

/-- The first word of an ambiguous object literal: it must not start a statement or an expression,
and it must not be a statement itself. -/
def checkFirstWord : Reader Unit := do
  match ← word with
  | [] => pure ()
  | w =>
    let k := Keyword.ofChars? w
    guard !(k.any fun k => startsExpression k || startsStatementWord k)
    peek do
      let _ ← leaf .identifier w.length
      noHtml
      guard !(← endsHere true)
      let cs ← ahead
      guard (cs.head? ≠ some ',' && cs.head? ≠ some '}')
      if k.any isReservedName then
        let next := Keyword.ofChars? (nameAt cs)
        guard (next ≠ some .inWord && next ≠ some .instanceofWord)
        guard !(k = some .asyncWord && next = some .functionWord)

/-- Reads an object literal. -/
def object (ambiguous : Bool) : Reader Operand := fun c => do
  let ((ns, items), c') ← (do
    let o ← mark "\x7b"
    if ambiguous then
      let _ ← peek (do let _ ← extras; checkFirstWord)
    let (ns, items) ← elements "\x7d" fun first => inner.property (ambiguous && first)
    pure (o :: ns, items) : Reader _) c
  let isExpression := validArguments items
  let isElement := items.all fun
    | some o => o.isElement
    | none => true
  let n := Node.branch .object c.pos c'.last ns
  if isExpression || isElement then
    pure (⟨n, isExpression, isElement, isElement, true⟩, c')
  else stuck c'

/-! ### Classes -/

/-- Reads a block that is run when the class is made. -/
def staticBlock : Reader Node := construct .classStaticBlock do
  let w ← keyword .staticWord
  let body ← partAs .body (inner.block false)
  pure (w :: body)

/-- Reads a field or a method. -/
def member : Reader (List Node) := do
  let field ← build do
    let decorators ← inner.decorators
    let modifiers ← modifiers true
    let before ← extras
    let key ← inner.propertyName
    noHtml
    let head := decorators ++ modifiers ++ before
    let words := modifiers.filter (·.kind ≠ .comment)
    let mayBeField := words.all (·.kind = .word .staticWord)
    let ends ← if mayBeField then endsHere false else pure false
    if !ends && ((← follows "(") || !mayBeField) then
      pure (.methodDefinition, ← inner.methodRest (head ++ [key.as .name]))
    else if !ends && (← follows "=") then
      let equals ← markPart "="
      let before ← extras
      let v ← inner.expression .last
      guard v.isExpression
      pure (.fieldDefinition, head ++ key :: equals ++ before ++ [v.node])
    else pure (.fieldDefinition, head ++ [key])
  if field.kind = .methodDefinition then pure [field]
  else
    let initialized := field.children.any (·.kind = .mark "=")
    pure (field :: (← terminator initialized))

/-- Reads the members of a class in braces. -/
def classBody : Reader Node := construct .classBody do
  let o ← mark "\x7b"
  let body ← loop (fun found => do
    let before ← extras
    let found := found ++ before
    if ← atCloseBrace then pure (.inl found)
    else if ← follows ";" then
      let n ← mark ";"
      pure (.inr (found ++ [n]))
    else
      let ms ← (do pure [← inner.staticBlock]) <|> inner.member
      pure (.inr (found ++ ms))) []
  let c ← closeBrace true (o :: body)
  noHtml
  pure (o :: body ++ [c])

/-- Reads `extends` and an expression. -/
def heritage : Reader Node := construct .classHeritage do
  let w ← keyword .extendsWord
  let before ← extras
  let e ← inner.expression .enclosed
  guard e.isExpression
  pure (w :: before ++ [e.node])

/-- Reads a class from its decorators on. Its name may be any word, but for `extends` where the name
may be left out. -/
def classDefinition (named : Bool) : Reader Node := construct .classExpression do
  let decorators ← inner.decorators
  let w ← keywordPart .classWord
  let name ← if named then partAs .name (name .identifier)
    else if (← nextKeyword?) = some .extendsWord then pure []
    else optional (partAs .name (name .identifier))
  let heritage ← optional (do
    guard ((← nextKeyword?) = some .extendsWord)
    part inner.heritage)
  let body ← partAs .body inner.classBody
  pure (decorators ++ w ++ name ++ heritage ++ body)

/-- Reads a class with a name or without. -/
def classExpression : Reader Node := inner.classDefinition false

end Grammar

end SymbolIndex.JavaScript
