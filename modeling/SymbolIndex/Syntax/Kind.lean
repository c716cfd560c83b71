/-!
# Kinds of syntax nodes

Every node of a syntax tree has a `Kind`. Constructs have a kind of their own (`classDeclaration`,
`callExpression`, …); the words and marks that only hold a construct together are *tokens*, whose
kind carries the word or the mark itself. Constructs are **named** kinds, tokens are not: the
search for declarations looks at named nodes only, while the search for faults looks at all.

`Kind.label` gives the text under which a kind is shown to users.
-/

namespace SymbolIndex.Syntax

/-- The words that have a meaning of their own somewhere in the language. Most of them are plain
names wherever the grammar has no use for the keyword. -/
inductive Keyword where
  | asWord | asyncWord | awaitWord | breakWord | caseWord | catchWord | classWord | constWord
  | continueWord | debuggerWord | defaultWord | deleteWord | doWord | elseWord | exportWord
  | extendsWord | falseWord | finallyWord | forWord | fromWord | functionWord | getWord | ifWord
  | importWord | inWord | instanceofWord | letWord | metaWord | newWord | nullWord | ofWord
  | returnWord | setWord | staticWord | superWord | switchWord | targetWord | thisWord
  | throwWord | trueWord | tryWord | typeofWord | undefinedWord | varWord | voidWord | whileWord
  | withWord | yieldWord
  deriving DecidableEq, Repr

/-- The spelling of a keyword. -/
def Keyword.text : Keyword → String
  | .asWord => "as" | .asyncWord => "async" | .awaitWord => "await" | .breakWord => "break"
  | .caseWord => "case" | .catchWord => "catch" | .classWord => "class" | .constWord => "const"
  | .continueWord => "continue" | .debuggerWord => "debugger" | .defaultWord => "default"
  | .deleteWord => "delete" | .doWord => "do" | .elseWord => "else" | .exportWord => "export"
  | .extendsWord => "extends" | .falseWord => "false" | .finallyWord => "finally"
  | .forWord => "for" | .fromWord => "from" | .functionWord => "function" | .getWord => "get"
  | .ifWord => "if" | .importWord => "import" | .inWord => "in" | .instanceofWord => "instanceof"
  | .letWord => "let" | .metaWord => "meta" | .newWord => "new" | .nullWord => "null" | .ofWord => "of"
  | .returnWord => "return" | .setWord => "set" | .staticWord => "static" | .superWord => "super"
  | .switchWord => "switch" | .targetWord => "target" | .thisWord => "this" | .throwWord => "throw"
  | .trueWord => "true" | .tryWord => "try" | .typeofWord => "typeof" | .undefinedWord => "undefined"
  | .varWord => "var" | .voidWord => "void" | .whileWord => "while" | .withWord => "with"
  | .yieldWord => "yield"

/-- The keywords by the characters they are spelled with. -/
def Keyword.spellings : List (List Char × Keyword) :=
  [(['a', 's'], .asWord), (['a', 's', 'y', 'n', 'c'], .asyncWord),
    (['a', 'w', 'a', 'i', 't'], .awaitWord), (['b', 'r', 'e', 'a', 'k'], .breakWord),
    (['c', 'a', 's', 'e'], .caseWord), (['c', 'a', 't', 'c', 'h'], .catchWord),
    (['c', 'l', 'a', 's', 's'], .classWord), (['c', 'o', 'n', 's', 't'], .constWord),
    (['c', 'o', 'n', 't', 'i', 'n', 'u', 'e'], .continueWord),
    (['d', 'e', 'b', 'u', 'g', 'g', 'e', 'r'], .debuggerWord),
    (['d', 'e', 'f', 'a', 'u', 'l', 't'], .defaultWord),
    (['d', 'e', 'l', 'e', 't', 'e'], .deleteWord), (['d', 'o'], .doWord),
    (['e', 'l', 's', 'e'], .elseWord), (['e', 'x', 'p', 'o', 'r', 't'], .exportWord),
    (['e', 'x', 't', 'e', 'n', 'd', 's'], .extendsWord), (['f', 'a', 'l', 's', 'e'], .falseWord),
    (['f', 'i', 'n', 'a', 'l', 'l', 'y'], .finallyWord), (['f', 'o', 'r'], .forWord),
    (['f', 'r', 'o', 'm'], .fromWord), (['f', 'u', 'n', 'c', 't', 'i', 'o', 'n'], .functionWord),
    (['g', 'e', 't'], .getWord), (['i', 'f'], .ifWord),
    (['i', 'm', 'p', 'o', 'r', 't'], .importWord), (['i', 'n'], .inWord),
    (['i', 'n', 's', 't', 'a', 'n', 'c', 'e', 'o', 'f'], .instanceofWord),
    (['l', 'e', 't'], .letWord), (['m', 'e', 't', 'a'], .metaWord), (['n', 'e', 'w'], .newWord),
    (['n', 'u', 'l', 'l'], .nullWord), (['o', 'f'], .ofWord),
    (['r', 'e', 't', 'u', 'r', 'n'], .returnWord), (['s', 'e', 't'], .setWord),
    (['s', 't', 'a', 't', 'i', 'c'], .staticWord), (['s', 'u', 'p', 'e', 'r'], .superWord),
    (['s', 'w', 'i', 't', 'c', 'h'], .switchWord), (['t', 'a', 'r', 'g', 'e', 't'], .targetWord),
    (['t', 'h', 'i', 's'], .thisWord), (['t', 'h', 'r', 'o', 'w'], .throwWord),
    (['t', 'r', 'u', 'e'], .trueWord), (['t', 'r', 'y'], .tryWord),
    (['t', 'y', 'p', 'e', 'o', 'f'], .typeofWord),
    (['u', 'n', 'd', 'e', 'f', 'i', 'n', 'e', 'd'], .undefinedWord), (['v', 'a', 'r'], .varWord),
    (['v', 'o', 'i', 'd'], .voidWord), (['w', 'h', 'i', 'l', 'e'], .whileWord),
    (['w', 'i', 't', 'h'], .withWord), (['y', 'i', 'e', 'l', 'd'], .yieldWord)]

/-- The keyword spelled by these characters, if there is one. -/
def Keyword.ofChars? (cs : List Char) : Option Keyword := spellings.lookup cs

/-- What a syntax node is. -/
inductive Kind where
  /-- A piece of the source that the grammar has no place for. -/
  | error
  /-- A keyword in its own role. -/
  | word (keyword : Keyword)
  /-- A punctuation mark or an operator. -/
  | mark (text : String)
  | program | hashBangLine | comment | htmlComment
  -- modules
  | exportStatement | namespaceExport | exportClause | exportSpecifier
  | importKeyword | importStatement | importClause | namespaceImport | namedImports
  | importSpecifier | importAttribute
  -- statements
  | expressionStatement | variableDeclaration | lexicalDeclaration | variableDeclarator
  | statementBlock | elseClause | ifStatement | switchStatement | forStatement | forInStatement
  | whileStatement | doStatement | tryStatement | withStatement | breakStatement
  | continueStatement | debuggerStatement | returnStatement | throwStatement | emptyStatement
  | labeledStatement | switchBody | switchCase | switchDefault | catchClause | finallyClause
  -- declarations
  | classDeclaration | functionDeclaration | generatorFunctionDeclaration
  | classExpression | functionExpression | generatorFunction | arrowFunction
  | classHeritage | classBody | fieldDefinition | methodDefinition | classStaticBlock
  | formalParameters | decorator
  -- expressions
  | parenthesizedExpression | sequenceExpression | assignmentExpression
  | augmentedAssignmentExpression | awaitExpression | unaryExpression | binaryExpression
  | ternaryExpression | updateExpression | newExpression | yieldExpression | callExpression
  | memberExpression | subscriptExpression | metaProperty | arguments | optionalChain
  | spreadElement | object | array | pair | computedPropertyName
  -- patterns
  | objectPattern | arrayPattern | pairPattern | restPattern | assignmentPattern
  | objectAssignmentPattern
  -- names and literals
  | identifier | propertyIdentifier | privatePropertyIdentifier | shorthandPropertyIdentifier
  | shorthandPropertyIdentifierPattern | statementIdentifier | this | super | trueLiteral
  | falseLiteral | null | undefined | number | string | stringFragment | escapeSequence
  | templateString | templateSubstitution | regex | regexPattern | regexFlags
  -- markup inside expressions
  | jsxElement | jsxSelfClosingElement | jsxOpeningElement | jsxClosingElement | jsxAttribute
  | jsxExpression | jsxText | jsxNamespaceName | htmlCharacterReference
  deriving DecidableEq, Repr

namespace Kind

/-- The text under which a kind is shown. -/
def label : Kind → String
  | error => "ERROR"
  | word k => k.text
  | mark t => t
  | program => "program" | hashBangLine => "hash_bang_line" | comment => "comment"
  | htmlComment => "html_comment"
  | exportStatement => "export_statement" | namespaceExport => "namespace_export"
  | exportClause => "export_clause" | exportSpecifier => "export_specifier"
  | importKeyword => "import" | importStatement => "import_statement"
  | importClause => "import_clause" | namespaceImport => "namespace_import"
  | namedImports => "named_imports" | importSpecifier => "import_specifier"
  | importAttribute => "import_attribute"
  | expressionStatement => "expression_statement" | variableDeclaration => "variable_declaration"
  | lexicalDeclaration => "lexical_declaration" | variableDeclarator => "variable_declarator"
  | statementBlock => "statement_block" | elseClause => "else_clause"
  | ifStatement => "if_statement" | switchStatement => "switch_statement"
  | forStatement => "for_statement" | forInStatement => "for_in_statement"
  | whileStatement => "while_statement" | doStatement => "do_statement"
  | tryStatement => "try_statement" | withStatement => "with_statement"
  | breakStatement => "break_statement" | continueStatement => "continue_statement"
  | debuggerStatement => "debugger_statement" | returnStatement => "return_statement"
  | throwStatement => "throw_statement" | emptyStatement => "empty_statement"
  | labeledStatement => "labeled_statement" | switchBody => "switch_body"
  | switchCase => "switch_case" | switchDefault => "switch_default"
  | catchClause => "catch_clause" | finallyClause => "finally_clause"
  | classDeclaration => "class_declaration" | functionDeclaration => "function_declaration"
  | generatorFunctionDeclaration => "generator_function_declaration"
  | classExpression => "class" | functionExpression => "function_expression"
  | generatorFunction => "generator_function" | arrowFunction => "arrow_function"
  | classHeritage => "class_heritage" | classBody => "class_body"
  | fieldDefinition => "field_definition" | methodDefinition => "method_definition"
  | classStaticBlock => "class_static_block" | formalParameters => "formal_parameters"
  | decorator => "decorator"
  | parenthesizedExpression => "parenthesized_expression"
  | sequenceExpression => "sequence_expression"
  | assignmentExpression => "assignment_expression"
  | augmentedAssignmentExpression => "augmented_assignment_expression"
  | awaitExpression => "await_expression" | unaryExpression => "unary_expression"
  | binaryExpression => "binary_expression" | ternaryExpression => "ternary_expression"
  | updateExpression => "update_expression" | newExpression => "new_expression"
  | yieldExpression => "yield_expression" | callExpression => "call_expression"
  | memberExpression => "member_expression" | subscriptExpression => "subscript_expression"
  | metaProperty => "meta_property" | arguments => "arguments"
  | optionalChain => "optional_chain" | spreadElement => "spread_element"
  | object => "object" | array => "array" | pair => "pair"
  | computedPropertyName => "computed_property_name"
  | objectPattern => "object_pattern" | arrayPattern => "array_pattern"
  | pairPattern => "pair_pattern" | restPattern => "rest_pattern"
  | assignmentPattern => "assignment_pattern"
  | objectAssignmentPattern => "object_assignment_pattern"
  | identifier => "identifier" | propertyIdentifier => "property_identifier"
  | privatePropertyIdentifier => "private_property_identifier"
  | shorthandPropertyIdentifier => "shorthand_property_identifier"
  | shorthandPropertyIdentifierPattern => "shorthand_property_identifier_pattern"
  | statementIdentifier => "statement_identifier" | this => "this" | super => "super"
  | trueLiteral => "true" | falseLiteral => "false" | null => "null" | undefined => "undefined"
  | number => "number" | string => "string" | stringFragment => "string_fragment"
  | escapeSequence => "escape_sequence" | templateString => "template_string"
  | templateSubstitution => "template_substitution" | regex => "regex"
  | regexPattern => "regex_pattern" | regexFlags => "regex_flags"
  | jsxElement => "jsx_element" | jsxSelfClosingElement => "jsx_self_closing_element"
  | jsxOpeningElement => "jsx_opening_element" | jsxClosingElement => "jsx_closing_element"
  | jsxAttribute => "jsx_attribute" | jsxExpression => "jsx_expression" | jsxText => "jsx_text"
  | jsxNamespaceName => "jsx_namespace_name"
  | htmlCharacterReference => "html_character_reference"

/-- Constructs are named; words and marks are not. -/
def isNamed : Kind → Bool
  | word _ | mark _ => false
  | _ => true

/-- Markup constructs: the kinds whose label starts with `jsx_`. -/
def isMarkup (k : Kind) : Bool := "jsx_".toList.isPrefixOf k.label.toList

end Kind

end SymbolIndex.Syntax
