import SymbolIndex.JavaScript.Statement
import SymbolIndex.Proofs.JavaScript.Expression

/-!
# Statements place their definitions

A function or class that is read as a declaration is the same definition as it was as an expression.
-/

namespace SymbolIndex.JavaScript

open Syntax Lexical Reader

namespace Reader

/-- Telling whether a statement can only go on reads nothing. -/
theorem Still.onlyContinues (beforeWhile : Bool) : Still (onlyContinues beforeWhile) := by
  refine .bind .noHtml fun _ => ?_
  refine .ite ?first ?further
  case first =>
    refine .bind .nextKeyword? fun k? => ?_
    split <;> exact .pure _
  case further =>
    refine .bind .conditionFollows fun _ => ?_
    refine .ite (.pure _) (.bind .ahead fun cs => ?_)
    split
    case h_14 => split <;> exact .pure _
    all_goals exact .pure _

end Reader

namespace Grammar

theorem sort?_declared (k : Kind) : (declared k).sort? = k.sort? := by
  rw [declared.eq_def]
  split <;> rfl

/-- A declaration is the definition that it was as an expression. -/
theorem outline_declared (n : Node) : (n.relabel (declared n.kind)).outline = n.outline :=
  Node.outline_relabel (sort?_declared _)

/-- Telling a declaration from an expression reads nothing. -/
theorem still_isDeclaration (beforeWhile : Bool) (n : Node) : Still (isDeclaration beforeWhile n) :=
  .ite (.pure _) (.bind (.onlyContinues _) fun _ => .pure _)

/-- The end of a statement, behind all of its other nodes. -/
theorem after_end (ns : List Node) : After 0 0 (outline ns) (do
    noHtml
    let t ← terminator false
    pure (ns ++ t)) := by
  refine .look .noHtml fun _ => ?_
  exact .read (after_terminator _) fun t => .pure (by simp)

/-! ### Names in modules -/

theorem after_fromClause : After 0 0 [] fromClause := by
  refine .read (after_keywordPart _) fun w => ?_
  exact .read (.part after_string) fun s => .pure (by simp)

theorem after_moduleName : After 0 0 [] moduleName := by
  refine .look .rest fun cs => ?_
  split
  · exact after_string
  · exact after_string
  · exact after_name rfl

/-- A name in an import or export list holds no definitions, with another name for it or without. -/
theorem after_specifier {k : Kind} (hk : k.isDefinition = false) {alias_ : Reader Node}
    (halias : After 0 0 [] alias_) (mayBeAlone : Node → Bool) :
    After 0 0 [] (specifier k alias_ mayBeAlone) := by
  refine .construct hk ?_
  refine .read after_moduleName fun n => ?_
  refine .look .nextKeyword? fun _ => ?_
  refine .ite ?_ ?_
  · refine .read (after_keywordPart _) fun w => ?_
    exact .read (.part halias) fun a => .pure (by simp)
  · exact .look (.guard _) fun _ => .pure (by simp)

/-- The names between the braces of an import or export list hold no definitions. -/
theorem after_specifiers {item : Reader Node} (hitem : After 0 0 [] item) :
    After 0 0 [] (specifiers item) := by
  refine .read (after_mark _) fun o => ?_
  refine .loop (by simp) fun found => ?_
  refine .read after_extras fun before => ?_
  refine .look .rest fun cs => ?_
  split
  · exact .read (after_mark _) fun c => .pure (by simp)
  · refine .look (.guard _) fun _ => ?_
    refine .read (after_mark _) fun comma => ?_
    exact .read (after_markPart _) fun c => .pure (by simp)
  · refine .read hitem fun s => ?_
    refine .look (.follows _) fun _ => ?_
    refine .ite ?_ ?_
    · exact .read (after_markPart _) fun comma => .pure (by simp)
    · exact .read (after_markPart _) fun c => .pure (by simp)

/-- All that a module has, under the one name that `p` reads, holds no other definitions than the
name does. -/
theorem after_allAs {k : Kind} (hk : k.isDefinition = false) {p : Reader Node}
    (hp : After 0 0 [] p) : After 0 0 [] (construct k do
      let star ← mark "*"
      let w ← keywordPart .asWord
      let n ← part p
      pure (star :: w ++ n)) := by
  refine .construct hk ?_
  refine .read (after_mark _) fun star => ?_
  refine .read (after_keywordPart _) fun w => ?_
  exact .read (.part hp) fun n => .pure (by simp)

/-- What an import brings in holds no definitions: all that is read are names. -/
theorem after_importClause : After 0 0 [] importClause := by
  have hnames : After 0 0 [] (construct .namedImports
      (specifiers (specifier .importSpecifier (name .identifier) (·.kind = .identifier)))) :=
    .construct rfl (after_specifiers (after_specifier rfl (after_name rfl) _))
  have hnamespace : After 0 0 [] (construct .namespaceImport do
      let star ← mark "*"
      let w ← keywordPart .asWord
      let n ← part (name .identifier)
      pure (star :: w ++ n)) := after_allAs rfl (after_name rfl)
  refine .construct rfl ?_
  refine .look .rest fun cs => ?_
  split
  · exact .read hnamespace fun n => .pure (by simp)
  · exact .read hnames fun n => .pure (by simp)
  · refine .read (after_name rfl) fun n => ?_
    refine .look (.follows _) fun _ => ?_
    refine .ite ?_ ?_
    · refine .read (after_markPart _) fun comma => ?_
      exact .read (.part (hnamespace.orElse hnames)) fun second => .pure (by simp)
    · exact .pure (by simp)

/-- What an export names holds no definitions. Those are where the names are declared. -/
theorem after_exportNames : After 0 0 [] exportNames := by
  have hall : After 0 0 [] (construct .namespaceExport do
      let star ← mark "*"
      let w ← keywordPart .asWord
      let n ← part moduleName
      pure (star :: w ++ n)) := after_allAs rfl after_moduleName
  have hclause : After 0 0 [] (construct .exportClause
      (specifiers (specifier .exportSpecifier moduleName fun _ => true))) :=
    .construct rfl (after_specifiers (after_specifier rfl after_moduleName _))
  refine .look .ahead fun cs => ?_
  split
  · refine .read (.orElse (.part hall) (after_markPart _)) fun star => ?_
    exact .read after_fromClause fun source => .bind (.pure (by simp)) after_end
  · refine .read (.part hclause) fun c => ?_
    refine .look .noHtml fun _ => ?_
    refine .look (.endsHere _) fun ends => ?_
    refine .look .nextKeyword? fun _ => ?_
    exact .readIf after_fromClause fun source => .bind (.pure (by simp)) after_end

/-! ### Jumps -/

/-- A jump holds no definitions, with a label or without. -/
theorem after_jump {whole : Kind} (hk : whole.isDefinition = false) (k : Keyword) :
    After 0 0 [] (jump whole k) := by
  refine .construct hk ?_
  refine .read (after_keyword _) fun w => ?_
  refine .look .noHtml fun _ => ?_
  refine .look (.endsHere _) fun ends => ?_
  exact .readIf (.optional (.part (after_name rfl))) fun label =>
    .of_sublist (by simp) (after_end (w :: label))

theorem after_debuggerStatement : After 0 0 [] debuggerStatement := by
  refine .construct rfl ?_
  refine .read (after_keyword _) fun w => ?_
  refine .look .noHtml fun _ => ?_
  exact .read (after_terminator _) fun t => .pure (by simp)

/-- A clause that may be left out places its definitions, and one that is passed over has none. -/
theorem after_clause (k : Keyword) {p : Reader Node} (hp : After 0 0 [] p) :
    After 0 0 [] (clause k p) := by
  refine .look .nextKeyword? fun _ => ?_
  exact .ite (.part (.orElse hp after_passOver)) (.pure (by simp))

namespace Placing

variable {inner : Grammar} (h : inner.Placing)
include h

/-! ### Expressions as statements -/

/-- From its first operand on, a statement has the definitions of its expressions in their order. -/
theorem statementFrom (o : Operand) : After 0 0 (outline o) (inner.statementFrom o) := by
  refine .bind (h.expressionFrom _ o) fun e => ?_
  refine .look (.guard _) fun _ => ?_
  refine .bind (h.sequenceFrom _ e.node) fun e => ?_
  exact .read (after_terminator _) fun t => .pure (by simp)

theorem expressionStatement : After 0 0 [] inner.expressionStatement := by
  refine .construct rfl ?_
  exact .read (h.unary _) fun o => h.statementFrom o

/-- A statement that starts with an object literal holds the definitions of its expression, whether
the braces are empty or not. -/
theorem objectStatement (beforeWhile : Bool) :
    After 0 0 [] (inner.objectStatement beforeWhile) := by
  have hrest : ∀ o : Operand, After 0 0 (outline o) (do
      let o ← inner.operandFrom .last o
      inner.statementFrom o) :=
    fun o => .bind (h.operandFrom _ o) fun o => h.statementFrom o
  refine .construct rfl ?_
  refine .read (h.object _) fun o => ?_
  refine .ite ?_ (hrest o)
  refine .look .ahead fun cs => ?_
  refine .look (.onlyContinues _) fun _ => ?_
  exact .look (.guard _) fun _ => hrest o

/-- A declaration, or an expression that starts with the same function or class. -/
theorem declarationOr (beforeWhile : Bool) {p : Reader Node} (hp : After 0 0 [] p) :
    After 0 0 [] (inner.declarationOr beforeWhile p) := by
  intro source lo c m c' hat hlo hacc hm
  obtain ⟨⟨n, c₁⟩, hn, hm⟩ := except_bind_eq_ok hm
  obtain ⟨⟨declares, c₂⟩, hdeclares, hm⟩ := except_bind_eq_ok hm
  obtain ⟨hat₁, hfurther, hplaced⟩ := hp source lo c n c₁ hat hlo hacc hn
  obtain ⟨hat₂, hpos⟩ := (still_isDeclaration _ _).at_of_eq_ok hdeclares hat₁
  rw [← hpos] at hfurther hplaced
  dsimp only at hm
  -- The function or class is in front of what follows, whichever way it goes on.
  split at hm
  · cases hm
    rw [outline_node, outline_declared]
    exact ⟨hat₂, hfurther, hplaced⟩
  · obtain ⟨⟨ns, c₃⟩, hns, hm⟩ := except_bind_eq_ok hm
    cases hm
    have hstatement : After 0 0 n.outline
        (inner.operandFrom .last (.value n) >>= inner.statementFrom) :=
      .bind (h.operandFrom _ (.value n)) fun o => h.statementFrom o
    obtain ⟨hat', hfurther', hplaced'⟩ := hstatement source lo c₂ ns c₃ hat₂ (by omega) hplaced hns
    rw [outline_node, Node.outline_branch rfl]
    exact ⟨hat', hfurther.trans hfurther', hplaced'⟩

omit h in
/-- Where a declaration or an expression is read, the function or class in front is read at the same
place. -/
theorem fromToken_declarationOr (beforeWhile : Bool) (p : Reader Node) :
    fromToken (inner.declarationOr beforeWhile p) =
      inner.declarationOr beforeWhile (fromToken p) := by
  funext c
  rw [fromToken]
  by_cases hc : c.AtToken
  · rw [if_pos hc, Grammar.declarationOr, Grammar.declarationOr, fromToken_of_atToken p hc]
  · rw [if_neg hc, Grammar.declarationOr, fromToken, if_neg hc]
    rfl

/-- A class in the place of a statement is read where its first token is next. -/
theorem classStatement (beforeWhile : Bool) :
    After 0 0 [] (fromToken (inner.declarationOr beforeWhile inner.classExpression)) := by
  rw [fromToken_declarationOr]
  exact h.declarationOr _ h.classExpression

/-! ### Declarations of variables -/

/-- A pattern holds the definitions of the array or the object that it is read as. -/
theorem destructuring : After 0 0 [] inner.destructuring := by
  have hpattern : ∀ o : Operand, After 0 0 (outline o) (do
      guard o.isTarget
      pure (asPattern o.node)) :=
    fun o => .look (.guard _) fun _ => .pure (by simp [outline_asPattern])
  refine .look .rest fun cs => ?_
  split
  · exact .read h.array hpattern
  · exact .read (h.object _) hpattern
  · exact .stuck

/-- What a variable is bound by is a name or a pattern, and holds the definitions of the latter. -/
theorem binding : After 0 0 [] inner.binding := by
  refine .look .rest fun cs => ?_
  split
  · exact h.destructuring
  · exact h.destructuring
  · exact after_name rfl

theorem initializer (ctx : Context) : After 0 0 [] (inner.initializer ctx) := by
  refine .read (after_markPart _) fun equals => ?_
  exact h.readExpression fun before e => .pure (by simp)

/-- A variable has the definitions of its pattern in front of those of its value. -/
theorem declarator : After 0 0 [] inner.declarator := by
  refine .look .get fun start => ?_
  refine .read h.binding fun target => ?_
  refine .look .noHtml fun _ => ?_
  refine .look .ahead fun cs => ?_
  refine .readIf (h.initializer _) fun value => ?_
  refine .look .noHtml fun _ => ?_
  refine .look .get fun stop => .pure ?_
  rw [outline_pair, outline_node, Node.outline_branch rfl]
  simp

/-- Variables hold the definitions of their values, in the order of the text. -/
theorem declarators (w : Node) : After 0 0 (outline w) (inner.declarators w) := by
  refine .bind (.loop (a := ([w], false)) (by simp) fun ⟨found, valued⟩ => ?further)
    fun ⟨found, valued⟩ => ?ends
  case further =>
    refine .read after_extras fun before => ?_
    refine .read h.declarator fun ⟨d, valued⟩ => ?_
    refine .look (.follows _) fun _ => ?_
    refine .ite ?_ (.pure (by simp))
    exact .read (after_markPart _) fun comma => .pure (by simp)
  case ends => exact .read (after_terminator _) fun t => .pure (by simp)

/-- A declaration of variables is no definition and holds those of their values. -/
theorem variableList (k : Keyword) : After 0 0 [] (inner.variableList k) := by
  have hkind : (if k = .varWord then Kind.variableDeclaration
      else .lexicalDeclaration).isDefinition = false := by
    split <;> rfl
  refine .construct hkind ?_
  exact .read (after_keyword _) fun w => h.declarators w

/-! ### Modules -/

/-- An import holds the definitions of its attributes, if it has any. -/
theorem importStatement : After 0 0 [] inner.importStatement := by
  have hattributes : After 0 0 [] (construct .importAttribute do
      let w ← keyword .withWord
      let before ← extras
      let o ← inner.object false
      guard o.isExpression
      pure (w :: before ++ [o.node])) := by
    refine .construct rfl ?_
    refine .read (after_keyword _) fun w => ?_
    refine .read after_extras fun before => ?_
    refine .read (h.object _) fun o => ?_
    exact .look (.guard _) fun _ => .pure (by simp)
  have hrest : ∀ w (source : List Node), After 0 0 (outline w ++ outline source) (do
      noHtml
      let attributes ← if !(← endsHere false) && (← nextKeyword?) = some .withWord then
          part (construct .importAttribute do
            let w ← keyword .withWord
            let before ← extras
            let o ← inner.object false
            guard o.isExpression
            pure (w :: before ++ [o.node]))
        else pure []
      noHtml
      let t ← terminator false
      pure (w :: source ++ attributes ++ t)) := by
    intro w source
    refine .look .noHtml fun _ => ?_
    refine .look (.endsHere _) fun _ => ?_
    refine .look .nextKeyword? fun _ => ?_
    exact .readIf (.part hattributes) fun attributes =>
      .of_sublist (by simp) (after_end (w :: source ++ attributes))
  refine .construct rfl ?_
  refine .read (after_keyword _) fun w => ?_
  refine .look .ahead fun cs => ?_
  split
  · exact .read (.part after_string) fun source => hrest w source
  · exact .read (.part after_string) fun source => hrest w source
  · refine .read (.part after_importClause) fun clause => ?_
    exact .read after_fromClause fun source => .of_sublist (by simp) (hrest w (clause ++ source))

/-- Declarations place their definitions. A function or class in one is the definition that it is as
an expression. -/
theorem declaration : After 0 0 [] (fromToken inner.declaration) := by
  have hnamed : ∀ {p : Reader Node}, After 0 0 [] (fromToken p) → After 0 0 [] (fromToken (do
      let n ← p
      guard (n.child? .name).isSome
      noHtml
      pure (n.relabel (declared n.kind)))) := by
    intro p hp
    refine .readFromToken hp fun n => ?_
    refine .look (.guard _) fun _ => ?_
    exact .look .noHtml fun _ => .pure (by simp [outline_declared])
  refine .lookFromToken .keyword? fun k? => ?_
  split
  · exact hnamed h.function.fromToken
  · exact hnamed h.function.fromToken
  · exact (h.variableList _).fromToken
  · exact (h.variableList _).fromToken
  · exact (h.variableList _).fromToken
  · exact hnamed (h.classDefinition _)

/-- A default export is a declaration or an expression, and either way the definitions are those
that are read. -/
theorem defaultExport (beforeWhile : Bool) : After 0 0 [] (inner.defaultExport beforeWhile) := by
  have hvalueFrom : ∀ o : Operand, After 0 0 (outline o) (do
      let e ← inner.expressionFrom .last o
      guard e.isExpression
      let t ← terminator true
      pure (e.node :: t)) := by
    intro o
    refine .bind (h.expressionFrom _ o) fun e => ?_
    refine .look (.guard _) fun _ => ?_
    exact .read (after_terminator _) fun t => .pure (by simp)
  have hvalue : After 0 0 [] (do
      let o ← inner.unary .last
      let e ← inner.expressionFrom .last o
      guard e.isExpression
      let t ← terminator true
      pure (e.node :: t)) :=
    .read (h.unary _) hvalueFrom
  have hdeclared : ∀ {p : Reader Node}, After 0 0 [] (fromToken p) → After 0 0 [] (fromToken (do
      let n ← p
      if ← isDeclaration beforeWhile n then
        noHtml
        pure [n.relabel (declared n.kind)]
      else inner.operandFrom .last (.value n) >>= fun o => do
        let e ← inner.expressionFrom .last o
        guard e.isExpression
        let t ← terminator true
        pure (e.node :: t))) := by
    intro p hp
    refine .readFromToken hp fun n => ?_
    refine .look (still_isDeclaration _ _) fun _ => ?_
    refine .ite ?_ ?_
    · exact .look .noHtml fun _ => .pure (by simp [outline_declared])
    · exact .bind (h.operandFrom _ (.value n)) hvalueFrom
  have hdeclaration : ∀ before : List Node, After 0 0 (outline before) (fromToken (do
      let n ← inner.declaration
      pure (before ++ [n]))) :=
    fun before => .readFromToken h.declaration fun n => .pure (by simp)
  have hfunction := hdeclared h.function.fromToken
  have hclass := hdeclared h.classExpression
  refine .readExtras fun before => ?_
  refine .lookFromToken .keyword? fun k? => ?_
  split
  · exact .readFromToken hfunction fun ns => .pure (by simp)
  · exact .readFromToken hclass fun ns => .pure (by simp)
  · exact .lookFromToken (.peek _) fun _ => .iteFromToken
      (.readFromToken hfunction fun ns => .pure (by simp))
      (.readFromToken hvalue.fromToken fun ns => .pure (by simp))
  · exact hdeclaration before
  · exact hdeclaration before
  · exact .lookFromToken (.peek _) fun _ => .iteFromToken (hdeclaration before)
      (.readFromToken hvalue.fromToken fun ns => .pure (by simp))
  · exact .lookFromToken .rest fun _ => .iteFromToken
      (.readFromToken hclass fun ns => .pure (by simp))
      (.readFromToken hvalue.fromToken fun ns => .pure (by simp))

/-- An export has the definitions of its decorators in front of those of what it exports. -/
theorem exportStatement (beforeWhile : Bool) :
    After 0 0 [] (inner.exportStatement beforeWhile) := by
  refine .construct rfl ?_
  refine .read h.decorators.inside fun decorators => ?_
  refine .read (after_keywordPart _) fun w => ?_
  refine .look .ahead fun cs => ?_
  split
  · refine .look (.guard _) fun _ => ?_
    exact .read after_exportNames fun exported => .pure (by simp)
  · refine .look (.guard _) fun _ => ?_
    exact .read after_exportNames fun exported => .pure (by simp)
  · refine .look .nextKeyword? fun k? => ?_
    refine .ite ?_ ?_
    · refine .read (after_keywordPart _) fun d => ?_
      exact .read (h.defaultExport _) fun ns => .pure_bind (.pure (by simp))
    · exact .read (.partFromToken h.declaration) fun exported => .pure (by simp)

/-! ### Compound statements -/

theorem condition : After 0 0 [] inner.condition := by
  refine .read (.part h.parenthesized) fun c => ?_
  exact .look .mayHtml fun _ => .pure (by simp)

/-- The body of a statement is another statement, or is supplied and then empty. -/
theorem body (beforeWhile : Bool) (found : List Node) :
    After 0 0 [] (inner.body beforeWhile found) := by
  have hsupplied : ∀ before : List Node, After 0 0 []
      (construct .emptyStatement (do pure [← supply ";" (found ++ before)])) := by
    intro before
    refine .construct rfl ?_
    exact .read (after_supply _ _) fun n => .pure (by simp)
  refine .read after_extras fun before => ?_
  exact .read (.orElse (h.statement _) (hsupplied before)) fun s => .pure (by simp)

theorem ifStatement (beforeWhile : Bool) : After 0 0 [] (inner.ifStatement beforeWhile) := by
  have helse : After 0 0 [] (construct .elseClause do
      let w ← keyword .elseWord
      pure (w :: (← part (inner.statement beforeWhile)))) := by
    refine .construct rfl ?_
    refine .read (after_keyword _) fun w => ?_
    exact .read (.part (h.statement _)) fun s => .pure (by simp)
  refine .construct rfl ?_
  refine .read (after_keyword _) fun w => ?_
  refine .read h.condition fun c => ?_
  refine .read (h.body _ _) fun yes => ?_
  exact .read (after_clause _ helse) fun no => .pure (by simp)

theorem conditionalLoop (beforeWhile : Bool) {whole : Kind} (hk : whole.isDefinition = false)
    (k : Keyword) : After 0 0 [] (inner.conditionalLoop beforeWhile whole k) := by
  refine .construct hk ?_
  refine .read (after_keyword _) fun w => ?_
  refine .read h.condition fun c => ?_
  exact .read (h.body _ _) fun b => .pure (by simp)

theorem doStatement : After 0 0 [] inner.doStatement := by
  refine .construct rfl ?_
  refine .read (after_keyword _) fun w => ?_
  refine .read (.part (h.statement _)) fun b => ?_
  refine .read (after_keywordPart _) fun while_ => ?_
  refine .read (.part h.parenthesized) fun c => ?_
  refine .look .noHtml fun _ => ?_
  exact .read (.optional (after_terminator _)) fun t => .pure (by simp)

/-- The statements behind a label of `switch` place their definitions. -/
theorem caseBody : After 0 0 [] inner.caseBody := by
  refine .loop (by simp) fun found => ?_
  refine .look .nextKeyword? fun _ => ?_
  refine .look .nextKeyword? fun _ => ?_
  refine .ite (.pure (by simp)) ?_
  refine .look .ahead fun cs => ?_
  refine .ite (.pure (by simp)) ?_
  exact .read (.part (h.statement _)) fun s => .pure (by simp)

/-- The cases of `switch` hold the definitions of their labels and their statements. -/
theorem switchStatement : After 0 0 [] inner.switchStatement := by
  have hcase : After 0 0 [] (construct .switchCase do
      let w ← keyword .caseWord
      let before ← extras
      let e ← inner.sequence .enclosed
      let colon ← markPart ":"
      pure (w :: before ++ e :: colon ++ (← inner.caseBody))) := by
    refine .construct rfl ?_
    refine .read (after_keyword _) fun w => ?_
    refine h.readSequence fun before e => ?_
    refine .read (after_markPart _) fun colon => ?_
    exact .read h.caseBody fun body => .pure (by simp)
  have hdefault : After 0 0 [] (construct .switchDefault do
      let w ← keyword .defaultWord
      let colon ← markPart ":"
      pure (w :: colon ++ (← inner.caseBody))) := by
    refine .construct rfl ?_
    refine .read (after_keyword _) fun w => ?_
    refine .read (after_markPart _) fun colon => ?_
    exact .read h.caseBody fun body => .pure (by simp)
  refine .construct rfl ?_
  refine .read (after_keyword _) fun w => ?_
  refine .read h.condition fun c => ?_
  refine .read (.part (.construct rfl (show After 0 0 [] _ from ?cases))) fun b => ?whole
  case cases =>
    refine .read (after_mark _) fun o => ?_
    refine .read (.loop (by simp) fun found => ?further) fun cases => ?brace
    case further =>
      refine .look .nextKeyword? fun k? => ?_
      split
      · exact .read (.part hcase) fun c => .pure (by simp)
      · exact .read (.part hdefault) fun c => .pure (by simp)
      · exact .pure (by simp)
    case brace =>
      refine .read after_extras fun before => ?_
      exact .read (after_closeBrace _ _) fun c => .pure (by simp)
  case whole => exact .pure (by simp)

/-- The three blocks of `try` hold the definitions of their statements, in their order. -/
theorem tryStatement : After 0 0 [] inner.tryStatement := by
  have hhandler : After 0 0 [] (construct .catchClause do
      let w ← keyword .catchWord
      let parameter ← if ← follows "(" then do
          let o ← markPart "("
          let p ← part inner.binding
          let c ← markPart ")"
          pure (o ++ p ++ c)
        else pure []
      let b ← part (inner.block true)
      pure (w :: parameter ++ b)) := by
    refine .construct rfl ?_
    refine .read (after_keyword _) fun w => ?_
    refine .look (.follows _) fun _ => ?_
    refine .ite ?_ ?_
    · refine .read (after_markPart _) fun o => ?_
      refine .read (.part h.binding) fun p => ?_
      refine .read (after_markPart _) fun c => ?_
      refine .pure_bind ?_
      exact .read (.part (h.block _)) fun b => .pure (by simp)
    · refine .pure_bind ?_
      exact .read (.part (h.block _)) fun b => .pure (by simp)
  have hfinalizer : After 0 0 [] (construct .finallyClause do
      let w ← keyword .finallyWord
      pure (w :: (← part (inner.block true)))) := by
    refine .construct rfl ?_
    refine .read (after_keyword _) fun w => ?_
    exact .read (.part (h.block _)) fun b => .pure (by simp)
  refine .construct rfl ?_
  refine .read (after_keyword _) fun w => ?_
  refine .read (.part (h.block _)) fun b => ?_
  refine .read (after_clause _ hhandler) fun handler => ?_
  exact .read (after_clause _ hfinalizer) fun finalizer => .pure (by simp)

/-! ### Loops over ranges -/

theorem forRange : After 0 0 [] inner.forRange := by
  refine .read (.orElse (after_keywordPart _) (after_keywordPart _)) fun op => ?_
  refine h.readSequence fun before e => ?_
  refine .read (after_markPart _) fun c => ?_
  exact .look .mayHtml fun _ => .pure (by simp)

/-- The target of a loop places its definitions. Reading it as a pattern changes none of them. -/
theorem lhs : After 0 0 [] (forInHeader.lhs inner) := by
  refine .read (.read (h.primary _) fun o => h.suffixes _ _ o) fun o => ?_
  exact .look (.guard _) fun _ => .pure (by simp [outline_asPattern])

/-- The header of a loop over elements has the definitions of its target in front of the others. -/
theorem forInHeader : After 0 0 [] inner.forInHeader := by
  have hrest : ∀ before target : List Node, After 0 0 (outline before ++ outline target) (do
      noHtml
      let range ← inner.forRange
      pure (before ++ target ++ range)) := by
    intro before target
    refine .look .noHtml fun _ => ?_
    exact .read h.forRange fun range => .pure (by simp)
  refine .read after_extras fun before => ?_
  refine .look .keyword? fun k? => ?_
  split
  · refine .read (after_keyword _) fun w => ?_
    refine .read (.part h.binding) fun b => ?_
    refine .look .noHtml fun _ => ?_
    refine .look (.endsHere _) fun _ => ?_
    refine .look (.guard _) fun _ => ?_
    refine .look (.follows _) fun _ => ?_
    refine .readIf (h.initializer _) fun value => ?_
    exact .pure_bind (.of_sublist (by simp) (hrest before (w :: b ++ value)))
  · refine .read (after_keyword _) fun w => ?_
    refine .read (.part h.binding) fun b => ?_
    exact .pure_bind (.of_sublist (by simp) (hrest before (w :: b)))
  · refine .look (.peek _) fun _ => ?_
    refine .ite ?_ (.read h.lhs fun target => hrest before target)
    refine .read (after_keyword _) fun w => ?_
    refine .read (.part h.binding) fun b => ?_
    exact .pure_bind (.of_sublist (by simp) (hrest before (w :: b)))
  · exact .read h.lhs fun target => hrest before target

theorem expressions : After 0 0 [] (forHeader.expressions inner) := by
  refine .read (h.sequence _) fun e => ?_
  exact .read (after_markPart _) fun s => .pure (by simp)

omit h in
theorem emptyPart : After 0 0 [] (construct .emptyStatement do pure [← mark ";"]) := by
  refine .construct rfl ?_
  exact .read (after_mark _) fun n => .pure (by simp)

/-- The end of a header, from what follows the second semicolon. -/
theorem forHeaderEnd (ns : List Node) : After 0 0 (outline ns) (do
    let third ← if ← follows ")" then pure [] else do
      let before ← extras
      pure (before ++ [← inner.sequence .enclosed])
    let c ← markPart ")"
    mayHtml
    pure (ns ++ third ++ c)) := by
  refine .look (.follows _) fun _ => ?_
  refine .ite ?_ ?_
  · exact .pure_bind (.read (after_markPart _) fun c => .look .mayHtml fun _ => .pure (by simp))
  · refine .read after_extras fun before => ?_
    refine .read (h.sequence _) fun e => ?_
    exact .pure_bind (.read (after_markPart _) fun c => .look .mayHtml fun _ => .pure (by simp))

/-- The rest of a header, from what follows the first semicolon. -/
theorem forHeaderRest (ns : List Node) : After 0 0 (outline ns) (do
    let between ← extras
    let second ← match ← rest with
      | ';' :: _ => do pure [← construct .emptyStatement do pure [← mark ";"]]
      | _ => forHeader.expressions inner
    let third ← if ← follows ")" then pure [] else do
      let before ← extras
      pure (before ++ [← inner.sequence .enclosed])
    let c ← markPart ")"
    mayHtml
    pure (ns ++ between ++ second ++ third ++ c)) := by
  refine .read after_extras fun between => ?_
  refine .look .rest fun cs => ?_
  split
  · exact .read emptyPart fun n =>
      .pure_bind (.of_sublist (by simp) (h.forHeaderEnd (ns ++ between ++ [n])))
  · exact .read h.expressions fun second =>
      .of_sublist (by simp) (h.forHeaderEnd (ns ++ between ++ second))

/-- The header of a loop with a condition has the definitions of its three parts, in their order. -/
theorem forHeader : After 0 0 [] inner.forHeader := by
  refine .read after_extras fun before => ?_
  refine .look .rest fun cs => ?_
  split
  · exact .read emptyPart fun n =>
      .pure_bind (.of_sublist (by simp) (h.forHeaderRest (before ++ [n])))
  · refine .look .keyword? fun k? => ?_
    split
    · exact .read (h.variableList _) fun n =>
        .pure_bind (.of_sublist (by simp) (h.forHeaderRest (before ++ [n])))
    · exact .read (h.variableList _) fun n =>
        .pure_bind (.of_sublist (by simp) (h.forHeaderRest (before ++ [n])))
    · refine .look (.peek _) fun _ => ?_
      refine .ite ?_ ?_
      · refine .read (h.variableList _) fun n => ?_
        exact .pure_bind (.of_sublist (by simp) (h.forHeaderRest (before ++ [n])))
      · refine .read h.expressions fun first => ?_
        exact .of_sublist (by simp) (h.forHeaderRest (before ++ first))
    · exact .read h.expressions fun first =>
        .of_sublist (by simp) (h.forHeaderRest (before ++ first))

/-- A loop with `for` is no definition, whichever kind of loop it turns out to be, and it starts
with its keyword. -/
theorem forStatement (beforeWhile : Bool) : After 0 0 [] (inner.forStatement beforeWhile) := by
  have hheader : After 0 0 [] ((do pure (Kind.forInStatement, ← inner.forInHeader))
      <|> (do pure (Kind.forStatement, ← inner.forHeader))) :=
    .orElse (.read h.forInHeader fun header => .pure (by simp))
      (.read h.forHeader fun header => .pure (by simp))
  have hkinds : Answers (fun x : Kind × List Node => x.1.isDefinition = false)
      ((do pure (Kind.forInStatement, ← inner.forInHeader))
        <|> (do pure (Kind.forStatement, ← inner.forHeader))) :=
    .orElse (.bind fun header => .pure rfl) (.bind fun header => .pure rfl)
  refine .build_nonempty ?placed (.of_answers ?plain)
  case placed =>
    refine .read (opens_keyword _) fun w => ?_
    refine .look .nextKeyword? fun _ => ?_
    refine .ite ?_ ?_
    · refine .read (after_keywordPart _) fun a => ?_
      refine .read (after_markPart _) fun o => ?_
      refine .read h.forInHeader fun header => ?_
      exact .read (h.body _ _) fun b => .pure (by simp)
    · refine .read (after_markPart _) fun o => ?_
      refine .read hheader fun ⟨k, header⟩ => ?_
      exact .read (h.body _ _) fun b => .pure (by simp)
  case plain =>
    refine .bind fun w => ?_
    refine .bind fun _ => ?_
    refine .ite ?_ (.bind fun o => ?_)
    · refine .bind fun a => ?_
      refine .bind fun o => ?_
      refine .bind fun header => ?_
      exact .bind fun b => .pure rfl
    · refine .read hkinds fun ⟨k, header⟩ hk => ?_
      exact .bind fun b => .pure hk

/-! ### Simple statements -/

theorem returnStatement : After 0 0 [] inner.returnStatement := by
  refine .construct rfl ?_
  refine .read (after_keyword _) fun w => ?_
  refine .look .noHtml fun _ => ?_
  refine .look (.endsHere _) fun _ => ?_
  refine .look (.follows _) fun _ => ?_
  refine .ite ?_ ?_
  · exact .read (after_terminator _) fun t => .pure (by simp)
  · refine .read after_extras fun before => ?_
    refine .read (h.sequence _) fun e => ?_
    exact .read (after_terminator _) fun t => .pure (by simp)

theorem throwStatement : After 0 0 [] inner.throwStatement := by
  refine .construct rfl ?_
  refine .read (after_keyword _) fun w => ?_
  refine h.readSequence fun before e => ?_
  exact .read (after_terminator _) fun t => .pure (by simp)

/-- A label stands in front of its statement and holds no definitions. -/
theorem labeledStatement (beforeWhile : Bool) :
    After 0 0 [] (inner.labeledStatement beforeWhile) := by
  refine .construct rfl ?_
  refine .read (after_name rfl) fun l => ?_
  refine .read (after_markPart _) fun colon => ?_
  exact .read (h.body _ _) fun b => .pure (by simp)

/-- A name starts a statement with a label, or an expression. -/
theorem namedStatement (beforeWhile : Bool) : After 0 0 [] (inner.namedStatement beforeWhile) := by
  refine .look (.peek _) fun _ => ?_
  exact .ite (h.labeledStatement _) h.expressionStatement

/-- What starts with a word is read by what that word is, or by what follows it. -/
theorem wordStatement (beforeWhile : Bool) : After 0 0 [] (inner.wordStatement beforeWhile) := by
  refine .lookKeyword .classWord (h.classStatement _) fun k? hk => ?_
  split
  · exact h.variableList _
  · exact h.variableList _
  · exact h.ifStatement _
  · exact h.switchStatement
  · exact h.forStatement _
  · exact h.conditionalLoop _ rfl _
  · exact h.doStatement
  · exact h.tryStatement
  · exact h.conditionalLoop _ rfl _
  · exact after_jump rfl _
  · exact after_jump rfl _
  · exact after_debuggerStatement
  · exact h.returnStatement
  · exact h.throwStatement
  · exact h.declarationOr _ h.function
  · exact absurd rfl hk
  · refine .look (.peek _) fun _ => ?_
    exact .ite h.expressionStatement h.importStatement
  · refine .look (.peek _) fun _ => ?_
    exact .ite (h.variableList _) (h.namedStatement _)
  · refine .look (.peek _) fun _ => ?_
    exact .ite (h.exportStatement _) (h.namedStatement _)
  · refine .look (.peek _) fun _ => ?_
    exact .ite (h.declarationOr _ h.function) (h.namedStatement _)
  · exact .ite h.expressionStatement (h.namedStatement _)
  · exact h.namedStatement _

/-- Decorators stand in front of an export or of a class, which starts where they do. -/
theorem decoratedStatement (beforeWhile : Bool) :
    After 0 0 [] (fromToken (inner.decoratedStatement beforeWhile)) :=
  .orElseFromToken (h.exportStatement _) (h.classStatement _)

/-- **Statements place their definitions**, one level further out than what is known of those
inside. -/
theorem anyStatement (beforeWhile : Bool) : After 0 0 [] (inner.anyStatement beforeWhile) := by
  refine .lookChar '@' (by decide) (fun r => h.decoratedStatement _) fun cs hcs => ?_
  split
  · exact .orElse (h.objectStatement _) (h.block _)
  · refine .construct rfl ?_
    exact .read (after_mark _) fun n => .pure (by simp)
  · exact absurd rfl hcs
  · exact .ite h.expressionStatement (h.wordStatement _)

end Placing

end Grammar

end SymbolIndex.JavaScript
