import SymbolIndex.JavaScript.Markup

/-!
# Expressions

An expression is a chain of operands joined by binary operators, possibly the condition of a
conditional expression. An operand is a primary expression with its suffixes (members, calls,
templates, increments), possibly the left side of an assignment, possibly behind prefix operators.

- `Grammar.primary`: literals, names, brackets, functions, classes and the like.
- `Grammar.suffixes`: what may be attached to an operand.
- `Grammar.unary`: operands with prefixes.
- `Grammar.wholeExpression`: chains of operands.

The right side of an assignment, the body of an arrow function and the operand of `yield` take all
that follows, so no operator is left for the operand they belong to.
-/

namespace SymbolIndex.JavaScript

open Syntax Lexical Reader

/-! ### Operators -/

/-- A binary operator: how it is written, how tightly it binds, to which side it groups. -/
structure BinaryOperator where
  kind : Kind
  length : Nat
  level : Nat
  groupsRight : Bool

namespace Lexical

/-- The operator `text` of a level. -/
def operator (text : String) (level : Nat) : BinaryOperator :=
  ⟨.mark text, text.toList.length, level, false⟩

/-- The binary operator at the start of the text, the longest one. Increments are none. -/
def binaryOperator? : List Char → Option BinaryOperator
  | '*' :: '*' :: _ => some ⟨.mark "**", 2, 12, true⟩
  | '*' :: _ => some (operator "*" 11)
  | '/' :: _ => some (operator "/" 11)
  | '%' :: _ => some (operator "%" 11)
  | '+' :: '+' :: _ => none
  | '-' :: '-' :: _ => none
  | '+' :: _ => some (operator "+" 10)
  | '-' :: _ => some (operator "-" 10)
  | '>' :: '>' :: '>' :: _ => some (operator ">>>" 9)
  | '>' :: '>' :: _ => some (operator ">>" 9)
  | '<' :: '<' :: _ => some (operator "<<" 9)
  | '>' :: '=' :: _ => some (operator ">=" 8)
  | '>' :: _ => some (operator ">" 8)
  | '<' :: '=' :: _ => some (operator "<=" 8)
  | '<' :: _ => some (operator "<" 8)
  | '=' :: '=' :: '=' :: _ => some (operator "===" 7)
  | '=' :: '=' :: _ => some (operator "==" 7)
  | '!' :: '=' :: '=' :: _ => some (operator "!==" 7)
  | '!' :: '=' :: _ => some (operator "!=" 7)
  | '&' :: '&' :: _ => some (operator "&&" 3)
  | '&' :: _ => some (operator "&" 6)
  | '^' :: _ => some (operator "^" 5)
  | '|' :: '|' :: _ => some (operator "||" 2)
  | '|' :: _ => some (operator "|" 4)
  | '?' :: '?' :: _ => some (operator "??" 1)
  | cs => match Keyword.ofChars? (nameAt cs) with
    | some .inWord => some ⟨.word .inWord, 2, 8, false⟩
    | some .instanceofWord => some ⟨.word .instanceofWord, 10, 8, false⟩
    | _ => none

/-- The operators that assign what they compute, longer ones first. -/
def assigningOperators : List String :=
  [">>>=", "<<=", ">>=", "**=", "&&=", "||=", "??=", "+=", "-=", "*=", "/=", "%=", "^=", "&=", "|="]

/-- The assigning operator at the start of the text. -/
def assigningOperator? (cs : List Char) : Option String :=
  assigningOperators.find? (·.toList.isPrefixOf cs)

/-- Whether the text starts with an equals sign that assigns. -/
def startsAssignment : List Char → Bool
  | '=' :: '=' :: _ => false
  | '=' :: '>' :: _ => false
  | '=' :: _ => true
  | _ => false

/-- Whether an operand follows `yield`: a sign that both starts an operand and continues an
expression is taken to start the operand, an operator word or a longer operator is not. -/
def startsOperand : List Char → Bool
  | '.' :: c :: _ => isDigit c
  | '!' :: '=' :: _ => false
  | '<' :: c :: _ => c ≠ '=' && c ≠ '<'
  | c :: r =>
    "(['\"`/<#@+-!~".toList.contains c || c = '{' || numberLength (c :: r) ≠ 0
      || (nameLength (c :: r) ≠ 0 &&
        match Keyword.ofChars? (nameAt (c :: r)) with
        | some .inWord | some .instanceofWord | some .ofWord => false
        | _ => true)
  | [] => false

end Lexical

/-! ### Building operator trees -/

/-- A left operand that waits for the right operand of its operator. -/
structure Pending where
  left : Node
  /-- The operator, with the comments around it. -/
  middle : List Node
  operator : BinaryOperator

namespace Pending

/-- The operator applied to its two operands. -/
def apply (p : Pending) (right : Node) : Node :=
  .branch .binaryExpression p.left.start right.stop (p.left :: p.middle ++ [right])

/-- Applies the pending operators that bind tighter than `op` to the operand `n`. -/
def reduceFor (op : BinaryOperator) : List Pending → Node → List Pending × Node
  | [], n => ([], n)
  | p :: ps, n =>
    if op.level < p.operator.level || (op.level = p.operator.level && !op.groupsRight) then
      reduceFor op ps (p.apply n)
    else (p :: ps, n)

/-- Applies all pending operators to the operand `n`. -/
def reduceAll : List Pending → Node → Node
  | [], n => n
  | p :: ps, n => reduceAll ps (p.apply n)

end Pending

namespace Reader

/-- Whether the next token is the question mark of a conditional expression. Only blanks and
comments may stand in front of it. -/
def conditionFollows : Reader Bool := peek <|
  loop (fun _ => do
    match (← rest).dropWhile isBlank with
    | '?' :: '?' :: _ => pure (.inl false)
    | '?' :: '.' :: c :: _ => pure (.inl (isDigit c))
    | ['?', '.'] => pure (.inl false)
    | '?' :: _ => pure (.inl true)
    | _ =>
      separators
      match ← extra? with
      | some _ => pure (.inr false)
      | none => pure (.inl false)) false

end Reader

namespace Grammar

variable (inner : Grammar)

/-! ### Sequences, brackets and templates -/

/-- Goes on with the expressions after the first one `e`, each after a comma. -/
def sequenceFrom (ctx : Context) (e : Node) : Reader Node := do
  noHtml
  if ← follows "," then
    extend .sequenceExpression e do
      loop (fun found => do
        noHtml
        if ← follows "," then
          let comma ← markPart ","
          let before ← extras
          let e ← inner.expression ctx
          guard e.isExpression
          pure (.inr (found ++ comma ++ before ++ [e.node]))
        else pure (.inl found)) []
  else pure e

/-- Reads expressions separated by commas. -/
def sequence (ctx : Context) : Reader Node := do
  let e ← inner.expression ctx
  guard e.isExpression
  inner.sequenceFrom ctx e.node

/-- Reads expressions in parentheses. -/
def parenthesized : Reader Node := construct .parenthesizedExpression do
  let o ← mark "("
  let before ← extras
  let e ← inner.sequence .enclosed
  let c ← markPart ")"
  pure (o :: before ++ e :: c)

/-- Reads a template. -/
def template : Reader Node := construct .templateString do
  let o ← mark "`"
  loop (fun found => do
    match ← rest with
    | '`' :: _ => pure (.inl (found ++ [← mark "`"]))
    | '\\' :: r =>
      let n := escapeLength ('\\' :: r)
      guard (n ≠ 0)
      pure (.inr (found ++ [← leaf .escapeSequence n]))
    | '$' :: '{' :: _ =>
      let s ← construct .templateSubstitution do
        let o ← mark "$\x7b"
        let before ← extras
        let e ← inner.sequence .enclosed
        let c ← markPart "\x7d"
        pure (o :: before ++ e :: c)
      pure (.inr (found ++ [s]))
    | cs =>
      let n := text cs
      guard (n ≠ 0)
      pure (.inr (found ++ [← leaf .stringFragment n]))) [o]
where
  /-- The length of the text up to the next special character. -/
  text : List Char → Nat
    | [] => 0
    | '$' :: '{' :: _ => 0
    | c :: r => if c = '`' || c = '\\' || isNul c then 0 else text r + 1

/-! ### Suffixes -/

/-- Reads the name of a member. -/
def memberName : Reader Node := do
  match ← rest with
  | '#' :: r =>
    let n := privateNameLength ('#' :: r)
    guard (n ≠ 0)
    leaf .privatePropertyIdentifier n
  | _ => name .propertyIdentifier

/-- Reads an index in brackets. -/
def index : Reader (List Node) := do
  let o ← markPart "["
  let before ← extras
  let e ← inner.sequence .enclosed
  let c ← markPart "]"
  pure (o ++ before ++ e :: c)

/-- Reads `?.` with the member, the index or the arguments after it. -/
def optionalSuffix (o : Operand) : Reader Operand := do
  let (chain, isCall, isIndex) ← peek do
    let chain ← part (leaf .optionalChain 2)
    pure (chain, ← follows "(", ← follows "[")
  let chained (p : Reader (List Node)) : Reader (List Node) := do
    let chain ← part (leaf .optionalChain 2)
    pure (chain ++ (← p))
  if isCall then
    guard (o.isPrimary && !chain.isEmpty)
    .value <$> extend .callExpression o.node (chained (part inner.arguments))
  else if isIndex then
    .target <$> extend .subscriptExpression o.node (chained inner.index)
  else
    .target <$> extend .memberExpression o.node (chained (part memberName))

/-- Attaches one suffix to an operand, or none. Without `calls` arguments are left alone, for the
`new` in front of the operand, if it could take them. -/
def suffix (ctx : Context) (calls : Bool) (o : Operand) : Reader (Operand ⊕ Operand) := do
  noHtml
  match ← ahead with
  | '.' :: cs =>
    if cs.head?.any isDigit && ctx.endsStatement && (← endsHere true) then pure (.inl o)
    else .inr <$> .target <$> extend .memberExpression o.node do
      let dot ← markPart "."
      let property ← part memberName
      pure (dot ++ property)
  | '?' :: '.' :: c :: _ => if isDigit c then pure (.inl o) else .inr <$> inner.optionalSuffix o
  | '[' :: _ => .inr <$> .target <$> extend .subscriptExpression o.node inner.index
  | '(' :: _ =>
    if calls || !(o.isPrimary || o.node.kind = .newExpression) then
      .inr <$> .value <$> extend .callExpression o.node (part inner.arguments)
    else pure (.inl o)
  | '`' :: _ =>
    if o.isPrimary || o.node.kind = .newExpression then
      .inr <$> .value <$> extend .callExpression o.node (part inner.template)
    else pure (.inl o)
  | '+' :: '+' :: _ => update "++"
  | '-' :: '-' :: _ => update "--"
  | _ => pure (.inl o)
where
  /-- An increment belongs to the operand unless the statement ends before it. -/
  update (text : String) : Reader (Operand ⊕ Operand) := do
    if !calls || (ctx.endsStatement && (← endsHere true)) then pure (.inl o)
    else .inr <$> .composed <$> extend .updateExpression o.node (markPart text)

/-- Attaches all suffixes to an operand. One that can only be a pattern takes none. -/
def suffixes (ctx : Context) (calls : Bool) (o : Operand) : Reader Operand :=
  loop (fun o => if o.isExpression then inner.suffix ctx calls o else pure (.inl o)) o

/-! ### Assignments and operators -/

/-- Goes on from an operand to the assignment it is the target of, if there is one. -/
def assignmentFrom (ctx : Context) (o : Operand) : Reader Operand := do
  noHtml
  let cs ← ahead
  let isSimple := match o.node.kind with
    | .identifier | .memberExpression | .subscriptExpression | .parenthesizedExpression => true
    | _ => false
  if startsAssignment cs && (o.isTarget || o.node.kind = .parenthesizedExpression) then
    let n ← extend .assignmentExpression (asPattern o.node) do
      let equals ← markPart "="
      let before ← extras
      let e ← inner.expression ctx
      guard e.isExpression
      pure (equals ++ before ++ [e.node])
    pure ⟨n, true, false, o.isTarget, false⟩
  else match assigningOperator? cs with
    | some text =>
      guard isSimple
      .composed <$> extend .augmentedAssignmentExpression o.node do
        let op ← markPart text
        let before ← extras
        let e ← inner.expression ctx
        guard e.isExpression
        pure (op ++ before ++ [e.node])
    | none => pure o

/-- Goes on from a primary expression to the operand it starts. -/
def operandFrom (ctx : Context) (o : Operand) : Reader Operand := do
  let o ← inner.suffixes ctx true o
  inner.assignmentFrom ctx o

/-- Goes on from the first operand of a chain of binary operators. -/
def chainFrom (ctx : Context) (first : Operand) : Reader Operand := do
  if !first.isExpression then pure first
  else
    let (pending, o) ← loop (fun (pending, o) => do
      noHtml
      match binaryOperator? (← ahead) with
      | none => pure (.inl (pending, o))
      | some op =>
        if ctx.withoutIn && op.kind = .word .inWord then pure (.inl (pending, o))
        else
          let mark ← part (leaf op.kind op.length)
          let before ← extras
          let right ← inner.operand ctx
          guard right.isExpression
          let (pending, left) := Pending.reduceFor op pending o.node
          pure (.inr (⟨left, mark ++ before, op⟩ :: pending, right))) ([], first)
    match pending with
    | [] => pure o
    | _ => pure (.composed (Pending.reduceAll pending o.node))

/-- Goes on from a condition to the conditional expression, if a question mark follows. -/
def conditionalFrom (ctx : Context) (o : Operand) : Reader Operand := do
  noHtml
  if o.isExpression && (← conditionFollows) then
    .composed <$> extend .ternaryExpression o.node do
      let question ← markPart "?"
      let before ← extras
      let yes ← inner.expression .enclosed
      guard yes.isExpression
      let colon ← markPart ":"
      let between ← extras
      let no ← inner.expression ctx
      guard no.isExpression
      pure (question ++ before ++ yes.node :: colon ++ between ++ [no.node])
  else pure o

/-- Goes on from the first operand of an expression. -/
def expressionFrom (ctx : Context) (o : Operand) : Reader Operand := do
  let o ← inner.chainFrom ctx o
  inner.conditionalFrom ctx o

/-! ### Arrow functions -/

/-- Whether an object literal has nothing but comments in its braces. -/
def isEmptyObject (n : Node) : Bool :=
  n.children.all fun c => c.kind = .mark "\x7b" || c.kind = .mark "\x7d" || c.kind = .comment

/-- Reads the body of an arrow function: a block or an expression. Empty braces are a block unless
they are assigned to; other braces are an object if they can be one. -/
def arrowBody (ctx : Context) : Reader (List Node) := do
  let before ← extras
  let body ← match ← rest with
    | '{' :: _ => objectBody <|> blockBody
    | _ => do
      let e ← inner.expression ctx
      guard e.isExpression
      pure e.node
  pure (before ++ [body.as .body])
where
  /-- A body that starts with an object literal. -/
  objectBody : Reader Node := do
    let o ← inner.object true
    guard (!isEmptyObject o.node || startsAssignment (← ahead))
    let e ← inner.operandFrom ctx o >>= inner.expressionFrom ctx
    guard e.isExpression
    pure e.node
  /-- A block. Its closing brace may be supplied only if it holds a statement. -/
  blockBody : Reader Node := do
    let b ← inner.block true
    guard (b.children.any (·.isNamed) || b.children.all (!·.missing))
    pure b

/-- Goes on from the parameters of an arrow function, which start at `start`. -/
def arrowFrom (ctx : Context) (start : Position) (head : List Node) : Reader Operand := do
  let arrow ← markPart "=>"
  let body ← inner.arrowBody ctx
  pure (.value (.branch .arrowFunction start (← get).last (head ++ arrow ++ body)))

/-- Goes on from a name: the parameter of an arrow function, or an operand. -/
def nameFrom (ctx : Context) (n : Node) : Reader Operand := do
  noHtml
  if ← follows "=>" then inner.arrowFrom ctx n.start [n] else pure (.target n)

/-- Reads parentheses: the parameters of an arrow function, or expressions. -/
def parentheses (ctx : Context) : Reader Operand := do
  let start := (← get).pos
  let o ← mark "("
  let (ns, items) ← elements ")" fun _ => inner.listElement
  let stop := (← get).last
  noHtml
  if ← follows "=>" then
    guard (validParameters items)
    let parameters := Node.branch .formalParameters start stop (o :: asPatterns ns)
    inner.arrowFrom ctx start [parameters]
  else
    let isExpression : Option Operand → Bool
      | some e => e.isExpression && e.node.kind ≠ .spreadElement
      | none => false
    guard (items.all isExpression)
    pure (.value (.branch .parenthesizedExpression start stop (o :: ns)))

/-! ### Primary expressions -/

/-- Reads an array literal. -/
def array : Reader Operand := do
  let start := (← get).pos
  let o ← mark "["
  let (ns, items) ← elements "]" fun _ => inner.listElement
  let isExpression := validArguments items
  let isElement := items.all fun
    | some e => e.isElement
    | none => true
  guard (isExpression || isElement)
  pure ⟨.branch .array start (← get).last (o :: ns), isExpression, isElement, isElement, true⟩

/-- Reads what starts with the word `async`: a function, an arrow function, a call, a name. -/
def asyncOperand (ctx : Context) : Reader Operand := do
  let start := (← get).pos
  let (isEnd, next, cs) ← peek do
    let _ ← keyword .asyncWord
    noHtml
    let isEnd ← if ctx.endsStatement then endsHere true else pure false
    let cs ← ahead
    pure (isEnd, Keyword.ofChars? (nameAt cs), cs)
  let asName : Reader Operand := do inner.nameFrom ctx (← name .identifier)
  if isEnd || next = some .inWord || next = some .instanceofWord then asName
  else if next = some .functionWord then .value <$> inner.function
  else if nameLength cs ≠ 0 then
    (do
      let w ← keyword .asyncWord
      let parameter ← part (name .identifier)
      noHtml
      inner.arrowFrom ctx start (w :: parameter)) <|> asName
  else if cs.head? = some '(' then
    (do
      let w ← keyword .asyncWord
      let before ← extras
      let open_ := (← get).pos
      let o ← mark "("
      let (ns, items) ← elements ")" fun _ => inner.listElement
      let stop := (← get).last
      noHtml
      guard (← follows "=>")
      guard (validParameters items)
      let parameters := Node.branch .formalParameters open_ stop (o :: asPatterns ns)
      inner.arrowFrom ctx start (w :: before ++ [parameters])) <|> asName
  else asName

/-- Reads what starts with the word `import`: a call, a property of the module. -/
def importOperand : Reader Operand := do
  let start := (← get).pos
  match ← peek (do let _ ← keyword .importWord; ahead) with
  | '(' :: _ =>
    let w ← leaf .importKeyword 6
    .value <$> extend .callExpression w (part inner.arguments)
  | '?' :: _ =>
    let w ← leaf .importKeyword 6
    .target <$> extend .memberExpression w do
      let chain ← part (leaf .optionalChain 2)
      guard (chain.any fun n => n.kind = .optionalChain)
      let property ← part memberName
      pure (chain ++ property)
  | _ =>
    let w ← keyword .importWord
    let dot ← markPart "."
    let property ← keywordPart .metaWord
    pure (.value (.branch .metaProperty start (← get).last (w :: dot ++ property)))

/-- Reads a primary expression that is a word. -/
def wordOperand (ctx : Context) : Reader Operand := do
  match ← keyword? with
  | some .thisWord => .value <$> name .this
  | some .superWord => .value <$> name .super
  | some .trueWord => .value <$> name .trueLiteral
  | some .falseWord => .value <$> name .falseLiteral
  | some .nullWord => .value <$> name .null
  | some .undefinedWord => .target <$> name .undefined
  | some .functionWord => .value <$> inner.function
  | some .classWord => .value <$> inner.classExpression
  | some .asyncWord => inner.asyncOperand ctx
  | some .importWord => inner.importOperand
  | some .newWord => inner.construction ctx
  | some k =>
    guard !(startsExpression k)
    inner.nameFrom ctx (← name .identifier)
  | none => inner.nameFrom ctx (← name .identifier)

/-- Reads `#name in …`, which asks for a private member. -/
def privateTest (ctx : Context) : Reader Operand := do
  let n := privateNameLength (← rest)
  guard (n ≠ 0)
  let name ← leaf .privatePropertyIdentifier n
  guard (!ctx.withoutIn)
  .composed <$> extend .binaryExpression name do
    let w ← keywordPart .inWord
    let before ← extras
    let right ← inner.operand ctx
    guard right.isExpression
    pure (w ++ before ++ [right.node])

/-- Reads a primary expression. -/
def primary (ctx : Context) : Reader Operand := do
  match ← rest with
  | '(' :: _ => inner.parentheses ctx
  | '[' :: _ => inner.array
  | '{' :: _ => inner.object false
  | '"' :: _ => .value <$> string
  | '\'' :: _ => .value <$> string
  | '`' :: _ => .value <$> inner.template
  | '/' :: _ => .value <$> regex
  | '<' :: _ => .composed <$> inner.element
  | '@' :: _ => .value <$> inner.classExpression
  | '#' :: _ => inner.privateTest ctx
  | cs => if numberLength cs ≠ 0 then .value <$> number else inner.wordOperand ctx

/-- Reads an expression that starts with `new`. -/
def newExpression (ctx : Context) : Reader Operand := do
  let start := (← get).pos
  let w ← keyword .newWord
  if (← follows ".") && numberLength (← ahead) = 0 then
    let dot ← markPart "."
    let target ← keywordPart .targetWord
    pure (.value (.branch .metaProperty start (← get).last (w :: dot ++ target)))
  else
    let before ← extras
    let c ← inner.primary ctx
    let c ← inner.suffixes ctx false c
    guard (c.isExpression && (c.isPrimary || c.node.kind = .newExpression))
    let args ← if ← follows "(" then part inner.arguments else pure []
    pure (.composed (.branch .newExpression start (← get).last (w :: before ++ c.node :: args)))

/-! ### Operands with prefixes -/

/-- Reads a prefix operator of kind `k` and `n` characters, with its operand. -/
def prefixed (ctx : Context) (whole k : Kind) (n : Nat) : Reader Operand :=
  .composed <$> construct whole do
    let op ← leaf k n
    let before ← extras
    let o ← inner.operand ctx
    guard o.isExpression
    pure (op :: before ++ [o.node])

/-- Reads `yield`, with the expression after it if there is one. -/
def yieldExpression (ctx : Context) : Reader Operand := .composed <$> construct .yieldExpression do
  let w ← keyword .yieldWord
  noHtml
  if ctx.endsStatement && (← endsHere true) then pure [w]
  else
    let value : Reader (List Node) := do
      let before ← extras
      let e ← inner.expression ctx
      guard e.isExpression
      pure (before ++ [e.node])
    match ← ahead with
    | '*' :: '*' :: _ => pure [w]
    | '*' :: _ => do pure (w :: (← markPart "*") ++ (← value))
    | cs => if startsOperand cs then do pure (w :: (← value)) else pure [w]

/-- Reads an operand with its prefixes and suffixes, or an assignment to one. -/
def unary (ctx : Context) : Reader Operand := do
  match ← rest with
  | '+' :: '+' :: _ => inner.prefixed ctx .updateExpression (.mark "++") 2
  | '-' :: '-' :: _ => inner.prefixed ctx .updateExpression (.mark "--") 2
  | '+' :: _ => inner.prefixed ctx .unaryExpression (.mark "+") 1
  | '-' :: _ => inner.prefixed ctx .unaryExpression (.mark "-") 1
  | '!' :: _ => inner.prefixed ctx .unaryExpression (.mark "!") 1
  | '~' :: _ => inner.prefixed ctx .unaryExpression (.mark "~") 1
  | _ => match ← keyword? with
    | some .typeofWord => inner.prefixed ctx .unaryExpression (.word .typeofWord) 6
    | some .voidWord => inner.prefixed ctx .unaryExpression (.word .voidWord) 4
    | some .deleteWord => inner.prefixed ctx .unaryExpression (.word .deleteWord) 6
    | some .awaitWord => inner.prefixed ctx .awaitExpression (.word .awaitWord) 5
    | some .yieldWord => inner.yieldExpression ctx >>= inner.operandFrom ctx
    | _ => inner.primary ctx >>= inner.operandFrom ctx

/-- Reads an expression, up to a comma. -/
def wholeExpression (ctx : Context) : Reader Operand :=
  inner.unary ctx >>= inner.expressionFrom ctx

end Grammar

end SymbolIndex.JavaScript
