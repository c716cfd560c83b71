import SymbolIndex.JavaScript.Expression

/-!
# Statements

Every statement is found by its first token. Three of them are not decided there:

- braces are a block, unless they can be read as an object literal that starts an expression;
- a named function or class is a declaration, unless what follows can only go on with an
  expression;
- the words `let`, `export` and `async` are names, unless what follows makes them keywords.
-/

namespace SymbolIndex.JavaScript

open Syntax Lexical Reader

namespace Reader

/-- Whether the next token can only go on with an expression, and starts no statement. Before the
`while` of a `do` no statement is possible at all. -/
def onlyContinues (beforeWhile : Bool) : Reader Bool := do
  noHtml
  if beforeWhile then
    match ← nextKeyword? with
    | some .whileWord | some .elseWord => pure false
    | _ => pure true
  else if ← conditionFollows then pure true
  else match ← ahead with
    | '.' :: c :: _ => pure !(isDigit c)
    | '?' :: _ => pure true
    | ',' :: _ => pure true
    | '*' :: _ => pure true
    | '%' :: _ => pure true
    | '>' :: _ => pure true
    | '&' :: _ => pure true
    | '|' :: _ => pure true
    | '^' :: _ => pure true
    | '=' :: '=' :: _ => pure true
    | '!' :: '=' :: _ => pure true
    | '<' :: '=' :: _ => pure true
    | '<' :: '<' :: _ => pure true
    | cs => match Keyword.ofChars? (nameAt cs) with
      | some .inWord | some .instanceofWord => pure true
      | _ => pure false

end Reader

namespace Grammar

variable (inner : Grammar)

/-! ### Expressions as statements -/

/-- Goes on from the first operand of an expression to the end of the statement. -/
def statementFrom (o : Operand) : Reader (List Node) := do
  let e ← inner.expressionFrom .last o
  guard e.isExpression
  let e ← inner.sequenceFrom .last e.node
  let t ← terminator true
  pure (e :: t)

/-- Reads an expression and the end of the statement. -/
def expressionStatement : Reader Node := construct .expressionStatement do
  let o ← inner.unary .last
  inner.statementFrom o

/-- Reads a statement that starts with an object literal. Empty braces are a block, unless what
follows can only go on with an expression. -/
def objectStatement (beforeWhile : Bool) : Reader Node := construct .expressionStatement do
  let o ← inner.object true
  if isEmptyObject o.node then
    guard (startsAssignment (← ahead) || (← onlyContinues beforeWhile))
  let o ← inner.operandFrom .last o
  inner.statementFrom o

/-- The declaration that corresponds to a function or class. -/
def declared : Kind → Kind
  | .functionExpression => .functionDeclaration
  | .generatorFunction => .generatorFunctionDeclaration
  | .classExpression => .classDeclaration
  | k => k

/-- Whether the function or class `n`, just read, is a declaration: it has a name, and what follows
does not only go on with an expression. -/
def isDeclaration (beforeWhile : Bool) (n : Node) : Reader Bool := do
  if (n.child? .name).isNone then pure false else pure !(← onlyContinues beforeWhile)

/-- Reads a function or a class with `p`, as a declaration or as the start of an expression. -/
def declarationOr (beforeWhile : Bool) (p : Reader Node) : Reader Node := fun c => do
  let (n, c') ← p c
  let (declares, c') ← isDeclaration beforeWhile n c'
  if declares then pure (n.relabel (declared n.kind), { c' with html := false })
  else
    let (ns, c') ← (inner.operandFrom .last (.value n) >>= inner.statementFrom) c'
    pure (.branch .expressionStatement c.pos c'.last ns, c')

/-! ### Declarations of variables -/

/-- Reads an array or object pattern. -/
def destructuring : Reader Node := do
  let o ← match ← rest with
    | '[' :: _ => inner.array
    | '{' :: _ => inner.object false
    | _ => stuck
  guard o.isTarget
  pure (asPattern o.node)

/-- Reads a name, which may be any word, or a destructuring pattern. -/
def binding : Reader Node := do
  match ← rest with
  | '[' :: _ => inner.destructuring
  | '{' :: _ => inner.destructuring
  | _ => name .identifier

/-- Reads `=` and a value. -/
def initializer (ctx : Context) : Reader (List Node) := do
  let equals ← markPart "="
  let before ← extras
  let e ← inner.expression ctx
  guard e.isExpression
  pure (equals ++ before ++ [e.node])

/-- Reads a variable with its initial value, if it has one. The answer tells whether it has. -/
def declarator : Reader (Node × Bool) := do
  let start := (← get).pos
  let target ← inner.binding
  noHtml
  let value ← if startsWithEquals (← ahead) then inner.initializer .last else pure []
  noHtml
  pure (.branch .variableDeclarator start (← get).last (target.as .name :: value), !value.isEmpty)
where
  startsWithEquals (cs : List Char) : Bool := cs.head? = some '='

/-- Reads the variables of a declaration whose keyword `w` is read, and its end. -/
def declarators (w : Node) : Reader (List Node) := do
  let (found, valued) ← loop (fun (found, _) => do
    let before ← extras
    let (d, valued) ← inner.declarator
    let found := found ++ before ++ [d]
    if ← follows "," then pure (.inr (found ++ (← markPart ","), valued))
    else pure (.inl (found, valued))) ([w], false)
  let t ← terminator valued
  pure (found ++ t)

/-- Reads a declaration with the keyword `k`. -/
def variableList (k : Keyword) : Reader Node :=
  construct (if k = .varWord then .variableDeclaration else .lexicalDeclaration) do
    let w ← keyword k
    inner.declarators w

/-- Whether the word `let` here is a keyword: a variable follows it. Words in `operators` are
operators and no variables. -/
def letDeclares (operators : List Keyword) : Reader Bool := peek do
  let _ ← keyword .letWord
  noHtml
  if ← endsHere true then pure false
  else
    let cs ← ahead
    let isOperator := match Keyword.ofChars? (nameAt cs) with
      | some k => operators.contains k
      | none => false
    pure (cs.head? = some '[' || cs.head? = some '{' || (nameLength cs ≠ 0 && !isOperator))

/-- Whether the word `async` here starts the declaration of a function. -/
def asyncDeclares : Reader Bool := peek do
  let _ ← keyword .asyncWord
  noHtml
  pure (!(← endsHere true) && (← nextKeyword?) = some .functionWord)

/-! ### Modules -/

/-- Reads `from` and a string. -/
def fromClause : Reader (List Node) := do
  let w ← keywordPart .fromWord
  let s ← part string
  pure (w ++ s)

/-- Reads a name or a string. -/
def moduleName : Reader Node := do
  match ← rest with
  | '"' :: _ => string
  | '\'' :: _ => string
  | _ => name .identifier

/-- Reads one name of an import or export list, with `as` and another name or without. -/
def specifier (k : Kind) (alias_ : Reader Node) (mayBeAlone : Node → Bool) : Reader Node :=
  construct k do
    let n ← moduleName
    if (← nextKeyword?) = some .asWord then
      let w ← keywordPart .asWord
      let a ← part alias_
      pure (n.as .name :: w ++ a)
    else
      guard (mayBeAlone n)
      pure [n.as .name]

/-- Reads a list of specifiers in braces. A comma may stand before the closing brace. -/
def specifiers (item : Reader Node) : Reader (List Node) := do
  let o ← mark "\x7b"
  loop (fun found => do
    let before ← extras
    let found := found ++ before
    match ← rest with
    | '}' :: _ => pure (.inl (found ++ [← mark "\x7d"]))
    | ',' :: _ =>
      guard (found.length = before.length + 1)
      let comma ← mark ","
      let c ← markPart "\x7d"
      pure (.inl (found ++ comma :: c))
    | _ =>
      let s ← item
      if ← follows "," then pure (.inr (found ++ s :: (← markPart ",")))
      else pure (.inl (found ++ s :: (← markPart "\x7d")))) [o]

/-- Reads what an import brings in. -/
def importClause : Reader Node := construct .importClause do
  let names : Reader Node := construct .namedImports
    (specifiers (specifier .importSpecifier (name .identifier) (·.kind = .identifier)))
  let namespace_ : Reader Node := construct .namespaceImport do
    let star ← mark "*"
    let w ← keywordPart .asWord
    let n ← part (name .identifier)
    pure (star :: w ++ n)
  match ← rest with
  | '*' :: _ => pure [← namespace_]
  | '{' :: _ => pure [← names]
  | _ =>
    let n ← name .identifier
    if ← follows "," then
      let comma ← markPart ","
      let second ← part (namespace_ <|> names)
      pure (n :: comma ++ second)
    else pure [n]

/-- Reads an import. -/
def importStatement : Reader Node := construct .importStatement do
  let w ← keyword .importWord
  let source ← match ← ahead with
    | '"' :: _ => part string
    | '\'' :: _ => part string
    | _ => do
      let clause ← part importClause
      let source ← fromClause
      pure (clause ++ source)
  noHtml
  let attributes ← if !(← endsHere false) && (← nextKeyword?) = some .withWord then
      part (construct .importAttribute do
        let w ← keyword .withWord
        let before ← extras
        let o ← inner.object false
        guard o.isExpression
        pure (w :: before ++ [o.node]))
    else pure []
  noHtml
  let t ← terminator false
  pure (w :: source ++ attributes ++ t)

/-- Reads a declaration: a function, a class or variables. -/
def declaration : Reader Node := do
  let named (p : Reader Node) : Reader Node := do
    let n ← p
    guard (n.child? .name).isSome
    noHtml
    pure (n.relabel (declared n.kind))
  match ← keyword? with
  | some .functionWord => named inner.function
  | some .asyncWord => named inner.function
  | some .varWord => inner.variableList .varWord
  | some .letWord => inner.variableList .letWord
  | some .constWord => inner.variableList .constWord
  | _ => named (inner.classDefinition true)

/-- Reads the names of an export. -/
def exportNames : Reader (List Node) := do
  let clause : Reader Node := construct .exportClause
    (specifiers (specifier .exportSpecifier moduleName fun _ => true))
  let source ← match ← ahead with
    | '*' :: _ => do
      let star ← (part (construct .namespaceExport do
          let star ← mark "*"
          let w ← keywordPart .asWord
          let n ← part moduleName
          pure (star :: w ++ n))) <|> markPart "*"
      let source ← fromClause
      pure (star ++ source)
    | _ => do
      let c ← part clause
      noHtml
      let ends ← endsHere false
      let source ← if !ends && (← nextKeyword?) = some .fromWord then fromClause else pure []
      pure (c ++ source)
  noHtml
  let t ← terminator false
  pure (source ++ t)

/-- Reads what `export default` exports: a declaration, or an expression. -/
def defaultExport (beforeWhile : Bool) : Reader (List Node) := do
  let before ← extras
  let valueFrom (o : Operand) : Reader (List Node) := do
    let e ← inner.expressionFrom .last o
    guard e.isExpression
    let t ← terminator true
    pure (e.node :: t)
  let value : Reader (List Node) := inner.unary .last >>= valueFrom
  let declaredOr (p : Reader Node) : Reader (List Node) := do
    let n ← p
    if ← isDeclaration beforeWhile n then
      noHtml
      pure [n.relabel (declared n.kind)]
    else inner.operandFrom .last (.value n) >>= valueFrom
  let ns ← match ← keyword? with
    | some .functionWord => declaredOr inner.function
    | some .classWord => declaredOr inner.classExpression
    | some .asyncWord => do if ← asyncDeclares then declaredOr inner.function else value
    | some .varWord | some .constWord => do pure [← inner.declaration]
    | some .letWord => do
      if ← letDeclares [.inWord, .instanceofWord] then pure [← inner.declaration] else value
    | _ => do
      if (← rest).head? = some '@' then declaredOr inner.classExpression else value
  pure (before ++ ns)

/-- Reads an export, from its decorators on. -/
def exportStatement (beforeWhile : Bool) : Reader Node := construct .exportStatement do
  let decorators ← inner.decorators
  let w ← keywordPart .exportWord
  let exported ← match ← ahead with
    | '*' :: _ => do guard decorators.isEmpty; exportNames
    | '{' :: _ => do guard decorators.isEmpty; exportNames
    | _ => do
      if (← nextKeyword?) = some .defaultWord then
        let d ← keywordPart .defaultWord
        pure (d ++ (← inner.defaultExport beforeWhile))
      else part inner.declaration
  pure (decorators ++ w ++ exported)

/-- Whether the word `export` here is a keyword: something to export follows it. -/
def exportDeclares : Reader Bool := peek do
  let _ ← keyword .exportWord
  noHtml
  if ← endsHere true then pure false
  else
    match ← ahead with
    | '*' :: '*' :: _ => pure false
    | '*' :: '=' :: _ => pure false
    | '*' :: _ => pure true
    | '{' :: _ => pure true
    | '@' :: _ => pure true
    | cs => match Keyword.ofChars? (nameAt cs) with
      | some .inWord | some .instanceofWord => pure false
      | _ => pure (nameLength cs ≠ 0)

/-! ### Compound statements -/

/-- Reads a condition in parentheses. -/
def condition : Reader (List Node) := do
  let c ← part inner.parenthesized
  mayHtml
  pure c

/-- Reads a statement as part of another, behind the nodes `found`. One that is missing at the end
of the text may be supplied. -/
def body (beforeWhile : Bool) (found : List Node) : Reader (List Node) := do
  let before ← extras
  let s ← inner.statement beforeWhile
    <|> construct .emptyStatement (do pure [← supply ";" (found ++ before)])
  pure (before ++ [s])

/-- Reads a clause that a statement can do without, if the keyword `k` that starts it comes next. -/
def clause (k : Keyword) (p : Reader Node) : Reader (List Node) := do
  if (← nextKeyword?) = some k then part (p <|> passOver) else pure []

/-- Reads `if`. -/
def ifStatement (beforeWhile : Bool) : Reader Node := construct .ifStatement do
  let w ← keyword .ifWord
  let c ← inner.condition
  let yes ← inner.body beforeWhile c
  let no ← clause .elseWord (construct .elseClause do
    let w ← keyword .elseWord
    pure (w :: (← part (inner.statement beforeWhile))))
  pure (w :: c ++ yes ++ no)

/-- Reads a statement that is a keyword, a condition and a body. -/
def conditionalLoop (beforeWhile : Bool) (whole : Kind) (k : Keyword) : Reader Node :=
  construct whole do
    let w ← keyword k
    let c ← inner.condition
    pure (w :: c ++ (← inner.body beforeWhile c))

/-- Reads `do`. -/
def doStatement : Reader Node := construct .doStatement do
  let w ← keyword .doWord
  let b ← part (inner.statement true)
  let while_ ← keywordPart .whileWord
  let c ← part inner.parenthesized
  noHtml
  let t ← optional (terminator false)
  pure (w :: b ++ while_ ++ c ++ t)

/-- Reads the statements after a label of `switch`. -/
def caseBody : Reader (List Node) :=
  loop (fun found => do
    if (← nextKeyword?) = some .caseWord || (← nextKeyword?) = some .defaultWord then
      pure (.inl found)
    else if (← ahead).head?.all (· = '}') then pure (.inl found)
    else pure (.inr (found ++ (← part (inner.statement false))))) []

/-- Reads `switch`. -/
def switchStatement : Reader Node := construct .switchStatement do
  let w ← keyword .switchWord
  let c ← inner.condition
  let b ← part (construct .switchBody do
    let o ← mark "\x7b"
    let cases ← loop (fun found => do
      match ← nextKeyword? with
      | some .caseWord =>
        let c ← part (construct .switchCase do
          let w ← keyword .caseWord
          let before ← extras
          let e ← inner.sequence .enclosed
          let colon ← markPart ":"
          pure (w :: before ++ e :: colon ++ (← inner.caseBody)))
        pure (.inr (found ++ c))
      | some .defaultWord =>
        let c ← part (construct .switchDefault do
          let w ← keyword .defaultWord
          let colon ← markPart ":"
          pure (w :: colon ++ (← inner.caseBody)))
        pure (.inr (found ++ c))
      | _ => pure (.inl found)) []
    let before ← extras
    let c ← closeBrace cases.isEmpty (o :: cases ++ before)
    pure (o :: cases ++ before ++ [c]))
  pure (w :: c ++ b)

/-- Reads `try`. Neither `catch` nor `finally` is required. -/
def tryStatement : Reader Node := construct .tryStatement do
  let w ← keyword .tryWord
  let b ← part (inner.block true)
  let handler ← clause .catchWord (construct .catchClause do
    let w ← keyword .catchWord
    let parameter ← if ← follows "(" then do
        let o ← markPart "("
        let p ← part inner.binding
        let c ← markPart ")"
        pure (o ++ p ++ c)
      else pure []
    let b ← part (inner.block true)
    pure (w :: parameter ++ b))
  let finalizer ← clause .finallyWord (construct .finallyClause do
    let w ← keyword .finallyWord
    pure (w :: (← part (inner.block true))))
  pure (w :: b ++ handler ++ finalizer)

/-! ### Loops over ranges -/

/-- Reads `in` or `of`, the expression after it and the closing parenthesis. -/
def forRange : Reader (List Node) := do
  let op ← keywordPart .inWord <|> keywordPart .ofWord
  let before ← extras
  let e ← inner.sequence .enclosed
  let c ← markPart ")"
  mayHtml
  pure (op ++ before ++ e :: c)

/-- Reads the header of a loop over the elements of something, after the opening parenthesis. -/
def forInHeader : Reader (List Node) := do
  let before ← extras
  let target ← match ← keyword? with
    | some .varWord => do
      let w ← keyword .varWord
      let b ← part inner.binding
      noHtml
      guard !(← endsHere false)
      let value ← if ← follows "=" then inner.initializer ⟨true, true⟩ else pure []
      pure (w :: b ++ value)
    | some .constWord => do
      let w ← keyword .constWord
      pure (w :: (← part inner.binding))
    | some .letWord => do
      if ← letDeclares [.inWord, .instanceofWord, .ofWord] then
        let w ← keyword .letWord
        pure (w :: (← part inner.binding))
      else lhs
    | _ => lhs
  noHtml
  let range ← inner.forRange
  pure (before ++ target ++ range)
where
  /-- A target or an expression in parentheses. -/
  lhs : Reader (List Node) := do
    let o ← inner.primary .enclosed >>= inner.suffixes .enclosed true
    guard (o.isTarget || o.node.kind = .parenthesizedExpression)
    pure [asPattern o.node]

/-- Reads the header of a loop with a condition, after the opening parenthesis. -/
def forHeader : Reader (List Node) := do
  let before ← extras
  let empty : Reader Node := construct .emptyStatement do pure [← mark ";"]
  let first ← match ← rest with
    | ';' :: _ => do pure [← empty]
    | _ => match ← keyword? with
      | some .varWord => do pure [← inner.variableList .varWord]
      | some .constWord => do pure [← inner.variableList .constWord]
      | some .letWord => do
        if ← letDeclares [.inWord, .instanceofWord, .ofWord] then
          pure [← inner.variableList .letWord]
        else expressions
      | _ => expressions
  let between ← extras
  let second ← match ← rest with
    | ';' :: _ => do pure [← empty]
    | _ => expressions
  let third ← if ← follows ")" then pure [] else do
    let before ← extras
    pure (before ++ [← inner.sequence .enclosed])
  let c ← markPart ")"
  mayHtml
  pure (before ++ first ++ between ++ second ++ third ++ c)
where
  /-- Expressions and a semicolon. -/
  expressions : Reader (List Node) := do
    let e ← inner.sequence .enclosed
    let s ← markPart ";"
    pure (e :: s)

/-- Reads `for`. -/
def forStatement (beforeWhile : Bool) : Reader Node := build do
  let w ← keyword .forWord
  if (← nextKeyword?) = some .awaitWord then
    let a ← keywordPart .awaitWord
    let o ← markPart "("
    let h ← inner.forInHeader
    pure (.forInStatement, w :: a ++ o ++ h ++ (← inner.body beforeWhile h))
  else
    let o ← markPart "("
    let (k, h) ← (do pure (Kind.forInStatement, ← inner.forInHeader))
      <|> (do pure (Kind.forStatement, ← inner.forHeader))
    pure (k, w :: o ++ h ++ (← inner.body beforeWhile h))

/-! ### Simple statements -/

/-- Reads a jump with a label or without. -/
def jump (whole : Kind) (k : Keyword) : Reader Node := construct whole do
  let w ← keyword k
  noHtml
  let label ← if !(← endsHere false) then optional (part (name .statementIdentifier)) else pure []
  noHtml
  let t ← terminator false
  pure (w :: label ++ t)

/-- Reads `return`, with an expression or without. -/
def returnStatement : Reader Node := construct .returnStatement do
  let w ← keyword .returnWord
  noHtml
  if (← endsHere false) || (← follows ";") then
    pure (w :: (← terminator false))
  else
    let before ← extras
    let e ← inner.sequence .last
    let t ← terminator true
    pure (w :: before ++ e :: t)

/-- Reads `throw`. -/
def throwStatement : Reader Node := construct .throwStatement do
  let w ← keyword .throwWord
  let before ← extras
  let e ← inner.sequence .last
  let t ← terminator true
  pure (w :: before ++ e :: t)

/-- Reads `debugger`. -/
def debuggerStatement : Reader Node := construct .debuggerStatement do
  let w ← keyword .debuggerWord
  noHtml
  let t ← terminator false
  pure (w :: t)

/-- Reads a label and the statement it belongs to. -/
def labeledStatement (beforeWhile : Bool) : Reader Node := construct .labeledStatement do
  let l ← name .statementIdentifier
  let colon ← markPart ":"
  pure (l :: colon ++ (← inner.body beforeWhile colon))

/-- Reads a statement that starts with a name: a labeled one or an expression. -/
def namedStatement (beforeWhile : Bool) : Reader Node := do
  let isLabel ← peek do
    let _ ← name .identifier
    noHtml
    pure (!(← endsHere true) && (← follows ":"))
  if isLabel then inner.labeledStatement beforeWhile else inner.expressionStatement

/-- Whether the word `import` here starts an expression. -/
def importIsOperand : Reader Bool := peek do
  let _ ← keyword .importWord
  match ← ahead with
  | '(' :: _ => pure true
  | '.' :: _ => pure true
  | '?' :: _ => pure true
  | _ => pure false

/-- Reads a statement that starts with a word. -/
def wordStatement (beforeWhile : Bool) : Reader Node := do
  match ← keyword? with
  | some .varWord => inner.variableList .varWord
  | some .constWord => inner.variableList .constWord
  | some .ifWord => inner.ifStatement beforeWhile
  | some .switchWord => inner.switchStatement
  | some .forWord => inner.forStatement beforeWhile
  | some .whileWord => inner.conditionalLoop beforeWhile .whileStatement .whileWord
  | some .doWord => inner.doStatement
  | some .tryWord => inner.tryStatement
  | some .withWord => inner.conditionalLoop beforeWhile .withStatement .withWord
  | some .breakWord => jump .breakStatement .breakWord
  | some .continueWord => jump .continueStatement .continueWord
  | some .debuggerWord => debuggerStatement
  | some .returnWord => inner.returnStatement
  | some .throwWord => inner.throwStatement
  | some .functionWord => inner.declarationOr beforeWhile inner.function
  | some .classWord => inner.declarationOr beforeWhile inner.classExpression
  | some .importWord => do
    if ← importIsOperand then inner.expressionStatement else inner.importStatement
  | some .letWord => do
    if ← letDeclares [.inWord, .instanceofWord] then inner.variableList .letWord
    else inner.namedStatement beforeWhile
  | some .exportWord => do
    if ← exportDeclares then inner.exportStatement beforeWhile
    else inner.namedStatement beforeWhile
  | some .asyncWord => do
    if ← asyncDeclares then inner.declarationOr beforeWhile inner.function
    else inner.namedStatement beforeWhile
  | some k =>
    if startsExpression k then inner.expressionStatement else inner.namedStatement beforeWhile
  | none => inner.namedStatement beforeWhile

/-- Reads a statement that starts with decorators: a class, or the export of one. -/
def decoratedStatement (beforeWhile : Bool) : Reader Node :=
  inner.exportStatement beforeWhile <|> inner.declarationOr beforeWhile inner.classExpression

/-- Reads a statement. -/
def anyStatement (beforeWhile : Bool) : Reader Node := do
  let cs ← rest
  match cs with
  | '{' :: _ => inner.objectStatement beforeWhile <|> inner.block true
  | ';' :: _ => construct .emptyStatement do pure [← mark ";"]
  | '@' :: _ => inner.decoratedStatement beforeWhile
  | _ => if nameLength cs = 0 then inner.expressionStatement else inner.wordStatement beforeWhile

end Grammar

end SymbolIndex.JavaScript
