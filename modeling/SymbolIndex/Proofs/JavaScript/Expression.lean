import SymbolIndex.JavaScript.Expression
import SymbolIndex.Proofs.JavaScript.Member

/-!
# Markup and expressions place their definitions

A reader that goes on from an operand takes care of the definitions in it: suffixes, assignments and
conditions are constructs around the operand, and a pattern or the parameters of an arrow function
are the same nodes in other roles.

The operands of binary operators wait on a stack, the last one on top. The definitions on the stack
are those of its operands in the order of the text (`Pending.outline`), and applying an operator
moves none of them (`Pending.outline_reduceFor`).
-/

namespace SymbolIndex.JavaScript

open Syntax Lexical Reader

namespace Grammar

/-! ### Markup -/

theorem after_tagWord {k : Kind} (hk : k.isDefinition = false) : After 0 0 [] (tagWord k) := by
  refine .look .rest fun _ => ?_
  exact .ite (after_leaf hk _) (after_name hk)

/-- A name in a namespace has the definitions of its first word, and so none. -/
theorem after_namespaced (first : Node) :
    After 0 0 (outline first) (extend .jsxNamespaceName first do
      let colon ← markPart ":"
      let second ← part (tagWord .identifier)
      pure (colon ++ second)) :=
  .extend rfl <| .read (after_markPart _) fun colon => .read (.part (after_tagWord rfl))
    fun second => .pure (by simp)

theorem after_tagName : After 0 0 [] tagName := by
  refine .read (after_tagWord rfl) fun first => ?_
  refine .look (.follows _) fun _ => ?_
  exact .ite (after_namespaced first) (after_members first)

/-- The quoted value of an attribute holds no definitions. -/
theorem after_attributeString : After 0 0 [] attributeString := by
  refine .construct rfl ?_
  refine .look .rest fun cs => ?_
  cases cs with
  | nil => exact .stuck
  | cons quote r =>
    refine .read (after_mark _) fun o => ?_
    refine .loop (by simp) fun found => ?_
    refine .look .rest fun cs => ?_
    cases cs with
    | nil => exact .stuck
    | cons c r =>
      refine .ite (.read (after_leaf rfl _) fun f => .pure (by simp)) (.ite (.read (after_mark _)
        fun q => .pure (by simp)) ?_)
      refine .look (.guard _) fun _ => ?_
      exact .read (after_leaf rfl _) fun r => .pure (by simp)

theorem after_closingTag : After 0 0 [] closingTag := by
  refine .construct rfl ?_
  refine .read (after_mark _) fun o => ?_
  refine .look (.follows _) fun _ => ?_
  refine .ite ?_ ?_
  · refine .read (.pure (List.Sublist.refl _)) fun name => ?_
    exact .read (after_markPart _) fun c => .pure (by simp)
  · refine .read (.partAs after_tagName) fun name => ?_
    exact .read (after_markPart _) fun c => .pure (by simp)

namespace Placing

variable {inner : Grammar} (h : inner.Placing)
include h

/-- Braces in markup hold the definitions of the expressions in them, of which there may be none,
one that is spread, or several with commas between. -/
theorem embedded : After 0 0 [] inner.embedded := by
  have hfurther : ∀ found : List Node, After 0 0 (outline found) (do
      if ← follows "," then
        let comma ← markPart ","
        let before ← extras
        let e ← inner.expression .enclosed
        guard e.isExpression
        pure (.inr (found ++ comma ++ before ++ [e.node]))
      else pure (.inl found) : Reader (List Node ⊕ List Node)) := by
    intro found
    refine .look (.follows _) fun _ => ?_
    refine .ite ?_ (.pure (List.Sublist.refl _))
    refine .read (after_markPart _) fun comma => ?_
    exact h.readExpression fun before e => .pure (by simp)
  refine .construct rfl ?_
  refine .read (after_mark _) fun o => ?_
  refine .read after_extras fun before => ?_
  refine .look .rest fun cs => ?_
  split
  · exact .read (after_mark _) fun c => .pure (by simp)
  · refine .read (h.spread _) fun s => ?_
    refine .look (.guard _) fun _ => ?_
    exact .read (after_markPart _) fun c => .pure (by simp)
  · refine .read (h.expression _) fun first => ?_
    refine .look (.guard _) fun _ => ?_
    refine .handOver (.loop (by simp) hfurther) fun ns => ?_
    exact .read (after_markPart _) fun c => .pure (by simp)

/-- An attribute holds the definitions of its value, which may be markup itself. -/
theorem tagAttribute : After 0 0 [] inner.tagAttribute := by
  refine .construct rfl ?_
  refine .read (after_tagWord rfl) fun first => ?_
  refine .look (.follows _) fun _ => ?_
  refine .ite (.bind (after_namespaced first) fun name => ?_) (.bind (.pure (List.Sublist.refl _))
    fun name => ?_)
  all_goals
    refine .look (.follows _) fun _ => ?_
    refine .ite ?_ (.pure (by simp))
    refine .read (after_markPart _) fun equals => ?_
    refine .read after_extras fun before => ?_
    refine .look .rest fun cs => ?_
    split
    · exact .read after_attributeString fun value => .pure (by simp)
    · exact .read after_attributeString fun value => .pure (by simp)
    · exact .read h.embedded fun value => .pure (by simp)
    · exact .read h.markup fun value => .pure (by simp)

/-- A tag is no definition and holds those of its attributes. It starts with its bracket, however
it ends. -/
theorem tag : After 0 0 [] inner.tag := by
  refine .build_nonempty ?placed (.of_answers ?plain)
  case placed =>
    refine .read (opens_mark (by decide)) fun o => ?_
    refine .look (.follows _) fun _ => ?_
    refine .ite (.read (after_markPart _) fun c => .pure (by simp)) ?_
    refine .read (.partAs after_tagName) fun name => ?_
    refine .read (.loop (by simp) fun found => ?further) fun attributes => ?bracket
    case further =>
      refine .read after_extras fun before => ?_
      refine .look .rest fun cs => ?_
      split
      · exact .read h.embedded fun n => .pure (by simp)
      · exact .pure (by simp)
      · exact .pure (by simp)
      · exact .read h.tagAttribute fun n => .pure (by simp)
    case bracket =>
      refine .look (.follows _) fun _ => ?_
      refine .ite ?_ ?_
      · exact .read (after_mark _) fun c => .pure (by simp)
      · exact .read (after_mark _) fun c => .pure (by simp)
  case plain =>
    refine .bind fun o => ?_
    refine .bind fun _ => ?_
    refine .ite (.bind fun c => .pure rfl) ?_
    refine .bind fun name => ?_
    refine .bind fun attributes => ?_
    refine .bind fun _ => ?_
    refine .ite ?_ ?_
    · exact .bind fun c => .pure rfl
    · exact .bind fun c => .pure rfl

/-- Between two tags there are the definitions of the elements and of the braces, in their order. -/
theorem markupContent : After 0 0 [] inner.markupContent := by
  refine .loop (by simp) fun found => ?_
  refine .look .rest fun cs => ?_
  refine .ite (.read (after_leaf rfl _) fun t => .pure (by simp)) ?_
  refine .read after_separators fun _ => ?_
  refine .look .rest fun cs => ?_
  split
  · refine .look (.guard _) fun _ => ?_
    exact .read (after_leaf rfl _) fun n => .pure (by simp)
  · exact .read after_closingTag fun n => .pure (by simp)
  · exact .read h.markup fun n => .pure (by simp)
  · exact .read h.embedded fun n => .pure (by simp)
  · refine .look (.guard _) fun _ => ?_
    exact .read (after_leaf rfl _) fun n => .pure (by simp)

/-- An element has the definitions of its tag in front of those of what stands between its tags. -/
theorem element : After 0 0 [] inner.element := by
  refine .read h.tag fun _ => ?_
  exact .ite (.pure (List.Sublist.refl _)) (.extend rfl h.markupContent)

end Placing

end Grammar

/-! ### Operator trees -/

/-- The definitions in operands that wait for their operators. The first of them is the last of the
text. -/
def Pending.outline (p : Pending) : List Definition := p.left.outline ++ Node.outlineAll p.middle

instance : Outlined (List Pending) := ⟨fun ps => ps.reverse.flatMap Pending.outline⟩

namespace Pending

@[simp] theorem outline_nil : Outlined.outline ([] : List Pending) = [] := rfl

/-- The operand on top of the stack is the last one of the text. -/
@[simp] theorem outline_cons (p : Pending) (ps : List Pending) :
    Outlined.outline (p :: ps) = Outlined.outline ps ++ p.outline := by
  show (p :: ps).reverse.flatMap outline = ps.reverse.flatMap outline ++ p.outline
  rw [List.reverse_cons, List.flatMap_append, List.flatMap_singleton]

/-- Applying a waiting operator puts its left side in front of its right side. -/
theorem outline_apply (p : Pending) (n : Node) : (p.apply n).outline = p.outline ++ n.outline := by
  rw [apply, Node.outline_branch rfl, outline]
  simp

/-- An operator tree has the definitions of its operands, in the order of the text. -/
theorem outline_reduceFor (op : BinaryOperator) (ps : List Pending) (n : Node) :
    Outlined.outline (reduceFor op ps n).1 ++ (reduceFor op ps n).2.outline =
      Outlined.outline ps ++ n.outline := by
  induction ps generalizing n with
  | nil => rfl
  | cons p ps ih =>
    rw [reduceFor]
    split
    · rw [ih, outline_apply, outline_cons, List.append_assoc]
    · rfl

/-- When the chain ends, all operators that wait are applied, and no definition is moved. -/
theorem outline_reduceAll (ps : List Pending) (n : Node) :
    (reduceAll ps n).outline = Outlined.outline ps ++ n.outline := by
  induction ps generalizing n with
  | nil => rfl
  | cons p ps ih => rw [reduceAll, ih, outline_apply, outline_cons, List.append_assoc]

end Pending

/-- No operator is a definition. -/
theorem Lexical.isDefinition_binaryOperator {cs : List Char} {op : BinaryOperator}
    (h : binaryOperator? cs = some op) : op.kind.isDefinition = false := by
  rw [binaryOperator?.eq_def] at h
  split at h
  case h_26 =>
    split at h <;> cases h <;> rfl
  all_goals cases h <;> rfl

namespace Reader

theorem Still.conditionFollows : Still conditionFollows := .peek _

/-- An operand that is a construct, put together when its parts are read already. -/
theorem After.pure_branch {gap : Nat} {acc : List Definition} {k : Kind} {start stop : Position}
    {ns : List Node} {o : Operand} (ho : o.node = .branch k start stop ns)
    (hk : k.isDefinition = false) (h : (Node.outlineAll ns).Sublist acc) :
    After gap 0 acc (Pure.pure o) := by
  refine .pure ?_
  rw [outline_operand, ho, Node.outline_branch hk]
  exact h

/-- An operand has the definitions of its node, whatever roles it can play. -/
theorem After.operand {gap step : Nat} {acc : List Definition} {role : Node → Operand}
    {p : Reader Node} (hrole : ∀ n, (role n).node = n) (hp : After gap step acc p) :
    After gap step acc (role <$> p) := by
  refine .map hp fun n => ?_
  rw [outline_operand, hrole]
  exact List.Sublist.refl _

end Reader

namespace Grammar

/-- What is between parentheses, read as parameters. -/
theorem outline_parameters (start stop : Position) (o : Node) (ns : List Node) :
    (Node.branch .formalParameters start stop (o :: asPatterns ns)).outline =
      o.outline ++ Node.outlineAll ns := by
  rw [Node.outline_branch rfl, Node.outlineAll_cons, outlineAll_asPatterns]

theorem after_memberName : After 0 0 [] memberName := by
  refine .look .rest fun cs => ?_
  split
  · exact .look (.guard _) fun _ => after_leaf rfl _
  · exact after_name rfl

namespace Placing

variable {inner : Grammar} (h : inner.Placing)
include h

/-! ### Sequences, brackets and templates -/

/-- A sequence has the definitions of its first expression in front of the others. -/
theorem sequenceFrom (ctx : Context) (e : Node) :
    After 0 0 (outline e) (inner.sequenceFrom ctx e) := by
  refine .look .noHtml fun _ => ?_
  refine .look (.follows _) fun _ => ?_
  refine .ite (.extend rfl ?_) (.pure (List.Sublist.refl _))
  refine .loop (by simp) fun found => ?_
  refine .look .noHtml fun _ => ?_
  refine .look (.follows _) fun _ => ?_
  refine .ite ?_ (.pure (List.Sublist.refl _))
  refine .read (after_markPart _) fun comma => ?_
  exact h.readExpression fun before e => .pure (by simp)

theorem sequence (ctx : Context) : After 0 0 [] (inner.sequence ctx) := by
  refine .read (h.expression _) fun e => ?_
  exact .look (.guard _) fun _ => h.sequenceFrom ctx e.node

/-- Reading goes on behind comments and a sequence, with the definitions of both to take care of. -/
theorem readSequence {α : Type} [Outlined α] {acc : List Definition} {ctx : Context}
    {f : List Node → Node → Reader α}
    (hf : ∀ before e, After 0 0 (acc ++ outline before ++ outline e) (f before e)) :
    After 0 0 acc (do
      let before ← extras
      let e ← inner.sequence ctx
      f before e) := by
  refine .read after_extras fun before => ?_
  exact .read (h.sequence _) fun e => hf before e

theorem parenthesized : After 0 0 [] inner.parenthesized := by
  refine .construct rfl ?_
  refine .read (after_mark _) fun o => ?_
  refine h.readSequence fun before e => ?_
  exact .read (after_markPart _) fun c => .pure (by simp)

theorem template : After 0 0 [] inner.template := by
  refine .construct rfl ?_
  refine .read (after_mark _) fun o => ?_
  refine .loop (by simp) fun found => ?_
  refine .look .rest fun cs => ?_
  split
  · exact .read (after_mark _) fun c => .pure (by simp)
  · refine .look (.guard _) fun _ => ?_
    exact .read (after_leaf rfl _) fun e => .pure (by simp)
  · have hsubstitution : After 0 0 [] (construct .templateSubstitution do
        let o ← mark "$\x7b"
        let before ← extras
        let e ← inner.sequence .enclosed
        let c ← markPart "\x7d"
        pure (o :: before ++ e :: c)) := by
      refine .construct rfl ?_
      refine .read (after_mark _) fun o => ?_
      refine h.readSequence fun before e => ?_
      exact .read (after_markPart _) fun c => .pure (by simp)
    exact .read hsubstitution fun s => .pure (by simp)
  · refine .look (.guard _) fun _ => ?_
    exact .read (after_leaf rfl _) fun f => .pure (by simp)

/-! ### Suffixes -/

theorem index : After 0 0 [] inner.index := by
  refine .read (after_markPart _) fun o => ?_
  refine h.readSequence fun before e => ?_
  exact .read (after_markPart _) fun c => .pure (by simp)

/-- What follows `?.` is attached to the operand, whose definitions stay in front. -/
theorem optionalSuffix (o : Operand) : After 0 0 (outline o) (inner.optionalSuffix o) := by
  have hchained : ∀ {p : Reader (List Node)}, After 0 0 [] p → After 0 0 [] (do
      let chain ← part (leaf .optionalChain 2)
      pure (chain ++ (← p))) := by
    intro p hp
    refine .read (.part (after_leaf rfl _)) fun chain => ?_
    exact .read hp fun ns => .pure (by simp)
  refine .look (.peek _) fun ⟨chain, isCall, isIndex⟩ => ?_
  refine .ite (.look (.guard _) fun _ => ?_) (.ite ?_ ?_)
  · exact .operand (fun _ => rfl) (.extend rfl (hchained (.part h.arguments)))
  · exact .operand (fun _ => rfl) (.extend rfl (hchained h.index))
  · exact .operand (fun _ => rfl) (.extend rfl (hchained (.part after_memberName)))

/-- **A suffix goes behind the definitions of its operand.** If the operand takes none, nothing is
read. -/
theorem suffix (ctx : Context) (calls : Bool) (o : Operand) :
    After 0 0 (outline o) (inner.suffix ctx calls o) := by
  have hstop : After 0 0 (outline o) (pure (.inl o) : Reader (Operand ⊕ Operand)) :=
    .pure (List.Sublist.refl _)
  -- What is attached is a construct around the operand, whatever roles that construct can play.
  have hattach : ∀ {k : Kind} {role : Node → Operand} {p : Reader (List Node)},
      k.isDefinition = false → (∀ n, (role n).node = n) → After 0 0 [] p → After 0 0 (outline o)
        (Sum.inr <$> role <$> extend k o.node p : Reader (Operand ⊕ Operand)) := by
    intro k role p hk hrole hp
    exact .map (.operand hrole (.extend hk hp)) fun o => List.Sublist.refl _
  have hupdate : ∀ text, After 0 0 (outline o) (suffix.update ctx calls o text) := fun text => by
    refine .look (.endsHere _) fun ends => ?_
    exact .ite hstop (hattach rfl (fun _ => rfl) (after_markPart _))
  refine .look .noHtml fun _ => ?_
  refine .look .ahead fun cs => ?_
  split
  · refine .look (.endsHere _) fun ends => ?_
    refine .ite hstop (hattach rfl (fun _ => rfl) ?_)
    refine .read (after_markPart _) fun dot => ?_
    exact .read (.part after_memberName) fun property => .pure (by simp)
  · refine .ite ?_ ?_
    · exact hstop
    · exact .map (h.optionalSuffix _) fun n => List.Sublist.refl _
  · exact hattach rfl (fun _ => rfl) h.index
  · exact .ite (hattach rfl (fun _ => rfl) (.part h.arguments)) hstop
  · exact .ite (hattach rfl (fun _ => rfl) (.part h.template)) hstop
  · exact hupdate _
  · exact hupdate _
  · exact hstop

/-- Suffixes leave the definitions of the operand in front of their own, however many there are. -/
theorem suffixes (ctx : Context) (calls : Bool) (o : Operand) :
    After 0 0 (outline o) (inner.suffixes ctx calls o) := by
  refine .loop rfl fun o => ?_
  exact .ite (h.suffix ctx calls o) (.pure (List.Sublist.refl _))

/-! ### Assignments and operators -/

/-- An assignment has the definitions of its target in front of those of its value, and reading the
target as a pattern changes none of them. -/
theorem assignmentFrom (ctx : Context) (o : Operand) :
    After 0 0 (outline o) (inner.assignmentFrom ctx o) := by
  refine .look .noHtml fun _ => ?_
  refine .look .ahead fun cs => ?_
  refine .ite ?_ ?_
  · have hassignment : After 0 0 (outline o) (extend .assignmentExpression (asPattern o.node) do
        let equals ← markPart "="
        let before ← extras
        let e ← inner.expression ctx
        guard e.isExpression
        pure (equals ++ before ++ [e.node])) := by
      rw [outline_operand, ← outline_asPattern]
      refine .extend rfl ?_
      refine .read (after_markPart _) fun equals => ?_
      exact h.readExpression fun before e => .pure (by simp)
    exact .bind hassignment fun n => .pure (List.Sublist.refl _)
  · split
    · refine .look (.guard _) fun _ => ?_
      refine .operand (fun _ => rfl) (.extend rfl ?_)
      refine .read (after_markPart _) fun op => ?_
      exact h.readExpression fun before e => .pure (by simp)
    · exact .pure (List.Sublist.refl _)

theorem operandFrom (ctx : Context) (o : Operand) :
    After 0 0 (outline o) (inner.operandFrom ctx o) :=
  .bind (h.suffixes ctx true o) fun o => h.assignmentFrom ctx o

/-- A chain of binary operators has the definitions of its operands, in the order of the text,
however the operators bind. -/
theorem chainFrom (ctx : Context) (first : Operand) :
    After 0 0 (outline first) (inner.chainFrom ctx first) := by
  refine .ite (.pure (List.Sublist.refl _)) ?_
  refine .bind (.loop rfl fun ⟨pending, o⟩ => ?operator) fun ⟨pending, o⟩ => ?applied
  case operator =>
    refine .look .noHtml fun _ => ?_
    refine .look .ahead fun cs => ?_
    dsimp only
    split
    · exact .pure (List.Sublist.refl _)
    · rename_i op hop
      refine .ite (.pure (List.Sublist.refl _)) ?_
      -- What is reduced and what waits are the same operands, in the same order.
      refine .read (.part (after_leaf (isDefinition_binaryOperator hop) _)) fun mark => ?_
      refine .read after_extras fun before => ?_
      refine .read (h.operand _) fun right => ?_
      refine .look (.guard _) fun _ => .pure ?_
      simp [Pending.outline, ← List.append_assoc, Pending.outline_reduceFor op pending o.node]
  case applied =>
    dsimp only
    split
    · exact .pure (by simp)
    · exact .pure (by simp [Operand.composed, Pending.outline_reduceAll])

/-- A conditional expression has the definitions of the condition in front of those of its two
branches. -/
theorem conditionalFrom (ctx : Context) (o : Operand) :
    After 0 0 (outline o) (inner.conditionalFrom ctx o) := by
  have hbranches : After 0 0 [] (do
      let question ← markPart "?"
      let before ← extras
      let yes ← inner.expression .enclosed
      guard yes.isExpression
      let colon ← markPart ":"
      let between ← extras
      let no ← inner.expression ctx
      guard no.isExpression
      pure (question ++ before ++ yes.node :: colon ++ between ++ [no.node])) := by
    refine .read (after_markPart _) fun question => ?_
    refine h.readExpression fun before yes => ?_
    refine .read (after_markPart _) fun colon => ?_
    exact h.readExpression fun between no => .pure (by simp)
  refine .look .noHtml fun _ => ?_
  refine .look .conditionFollows fun _ => ?_
  refine .ite ?_ (.pure (List.Sublist.refl _))
  exact .operand (fun _ => rfl) (.extend rfl hbranches)

/-- From its first operand on, the definitions of an expression stay in their order. -/
theorem expressionFrom (ctx : Context) (o : Operand) :
    After 0 0 (outline o) (inner.expressionFrom ctx o) :=
  .bind (h.chainFrom ctx o) fun o => h.conditionalFrom ctx o

/-! ### Arrow functions -/

/-- An object that is the body of an arrow function is the first operand of an expression. -/
theorem objectBody (ctx : Context) : After 0 0 [] (arrowBody.objectBody inner ctx) := by
  refine .read (h.object _) fun o => ?_
  refine .look .ahead fun cs => ?_
  refine .look (.guard _) fun _ => ?_
  refine .handOver (.bind (h.operandFrom ctx o) fun o => h.expressionFrom ctx o) fun e => ?_
  exact .look (.guard _) fun _ => .pure (List.Sublist.refl _)

theorem blockBody : After 0 0 [] (arrowBody.blockBody inner) := by
  refine .read (h.block _) fun _ => ?_
  exact .look (.guard _) fun _ => .pure (List.Sublist.refl _)

theorem arrowBody (ctx : Context) : After 0 0 [] (inner.arrowBody ctx) := by
  refine .read after_extras fun before => ?_
  refine .look .rest fun cs => ?_
  split
  · exact .read (.orElse (h.objectBody ctx) h.blockBody) fun body => .pure (by simp)
  · refine .read (h.expression _) fun e => ?_
    refine .look (.guard _) fun _ => ?_
    exact .handOver (.pure (List.Sublist.refl _)) fun body => .pure (by simp)

/-- An arrow function is no definition and has those of its parameters in front of those of its
body. -/
theorem arrowFrom (ctx : Context) (start : Position) (head : List Node) :
    After 0 0 (outline head) (inner.arrowFrom ctx start head) := by
  refine .read (after_markPart _) fun arrow => ?_
  refine .read (h.arrowBody _) fun body => ?_
  exact .look .get fun c => .pure_branch rfl rfl (by simp)

/-- A name is followed by an arrow, or stands for itself. -/
theorem nameFrom (ctx : Context) (n : Node) : After 0 0 (outline n) (inner.nameFrom ctx n) := by
  have harrow : After 0 0 (outline n) (inner.arrowFrom ctx n.start [n]) :=
    .of_sublist (by simp) (h.arrowFrom _ _ _)
  refine .look .noHtml fun _ => ?_
  refine .look (.follows _) fun _ => ?_
  exact .ite harrow (.pure (List.Sublist.refl _))

/-- A name is an operand, or the parameter of an arrow function. -/
theorem nameOperand (ctx : Context) :
    After 0 0 [] (do inner.nameFrom ctx (← name .identifier)) :=
  .read (after_name rfl) fun n => h.nameFrom ctx n

/-- Parentheses are those of parameters, if an arrow follows, or those around an expression. -/
theorem parentheses (ctx : Context) : After 0 0 [] (inner.parentheses ctx) := by
  refine .look .get fun start => ?_
  refine .read (after_mark _) fun o => ?_
  refine .read (after_elements _ fun _ => h.listElement) fun ⟨ns, items⟩ => ?_
  refine .look .get fun stop => ?_
  refine .look .noHtml fun _ => ?_
  refine .look (.follows _) fun _ => ?_
  refine .ite ?_ ?_
  · refine .look (.guard _) fun _ => .of_sublist ?_ (h.arrowFrom _ _ _)
    simp [outline_parameters]
  · exact .look (.guard _) fun _ => .pure_branch rfl rfl (by simp)

/-! ### Primary expressions -/

theorem array : After 0 0 [] inner.array := by
  refine .look .get fun start => ?_
  refine .read (after_mark _) fun o => ?_
  refine .read (after_elements _ fun _ => h.listElement) fun ⟨ns, items⟩ => ?_
  refine .look (.guard _) fun _ => ?_
  exact .look .get fun stop => .pure_branch rfl rfl (by simp)

/-- What starts with the word `async` is a function, an arrow function, or a name if it can be
neither. -/
theorem asyncOperand (ctx : Context) : After 0 0 [] (inner.asyncOperand ctx) := by
  refine .look .get fun start => ?_
  refine .look (.peek _) fun ⟨isEnd, next, cs⟩ => ?_
  refine .ite (h.nameOperand ctx) (.ite ?function (.ite (.orElse ?parameter (h.nameOperand ctx))
    (.ite (.orElse ?parameters (h.nameOperand ctx)) (h.nameOperand ctx))))
  case function => exact .operand (fun _ => rfl) h.function
  case parameter =>
    refine .read (after_keyword _) fun w => ?_
    refine .read (.part (after_name rfl)) fun parameter => ?_
    exact .look .noHtml fun _ => .of_sublist (by simp) (h.arrowFrom _ _ _)
  case parameters =>
    refine .read (after_keyword _) fun w => ?_
    refine .read after_extras fun before => ?_
    refine .look .get fun open_ => ?_
    refine .read (after_mark _) fun o => ?_
    refine .read (after_elements _ fun _ => h.listElement) fun ⟨ns, items⟩ => ?_
    refine .look .get fun stop => ?_
    refine .look .noHtml fun _ => ?_
    refine .look (.follows _) fun _ => ?_
    refine .look (.guard _) fun _ => ?_
    refine .look (.guard _) fun _ => .of_sublist ?_ (h.arrowFrom _ _ _)
    simp [outline_parameters]

/-- What starts with the word `import` has the definitions of its arguments, if it is a call. -/
theorem importOperand : After 0 0 [] inner.importOperand := by
  refine .look .get fun start => ?_
  refine .look (.peek _) fun cs => ?_
  split
  · refine .read (after_leaf rfl _) fun w => ?_
    exact .operand (fun _ => rfl) (.extend rfl (.part h.arguments))
  · refine .read (after_leaf rfl _) fun w => ?_
    refine .operand (fun _ => rfl) (.extend rfl ?_)
    refine .read (.part (after_leaf rfl _)) fun chain => ?_
    refine .look (.guard _) fun _ => ?_
    exact .read (.part after_memberName) fun property => .pure (by simp)
  · refine .read (after_keyword _) fun w => ?_
    refine .read (after_markPart _) fun dot => ?_
    refine .read (after_keywordPart _) fun property => ?_
    exact .look .get fun stop => .pure_branch rfl rfl (by simp)

/-- A class is an operand. It is read where its first token is next. -/
theorem classOperand : After 0 0 [] (fromToken (Operand.value <$> inner.classExpression)) := by
  rw [fromToken_map]
  exact .operand (fun _ => rfl) h.classExpression

/-- A word is an operand on its own, starts one, or is a name. -/
theorem wordOperand (ctx : Context) : After 0 0 [] (inner.wordOperand ctx) := by
  have hword : ∀ {k : Kind} {role : Node → Operand}, k.isDefinition = false →
      (∀ n, (role n).node = n) → After 0 0 [] (role <$> name k) :=
    fun hk hrole => .operand hrole (after_name hk)
  refine .lookKeyword .classWord h.classOperand fun k? hk => ?_
  split
  · exact hword rfl fun _ => rfl
  · exact hword rfl fun _ => rfl
  · exact hword rfl fun _ => rfl
  · exact hword rfl fun _ => rfl
  · exact hword rfl fun _ => rfl
  · exact hword rfl fun _ => rfl
  · exact .operand (fun _ => rfl) h.function
  · exact absurd rfl hk
  · exact h.asyncOperand ctx
  · exact h.importOperand
  · exact h.construction ctx
  · exact .look (.guard _) fun _ => h.nameOperand ctx
  · exact h.nameOperand ctx

/-- A test for a private member has the definitions of the operand on its right. -/
theorem privateTest (ctx : Context) : After 0 0 [] (inner.privateTest ctx) := by
  refine .look .rest fun cs => ?_
  refine .look (.guard _) fun _ => ?_
  refine .read (after_leaf rfl _) fun name => ?_
  refine .look (.guard _) fun _ => ?_
  refine .operand (fun _ => rfl) (.extend rfl ?_)
  refine .read (after_keywordPart _) fun w => ?_
  refine .read after_extras fun before => ?_
  refine .read (h.operand _) fun right => ?_
  exact .look (.guard _) fun _ => .pure (by simp)

/-- **Primary expressions place their definitions.** Which of them it is shows in the first
character, or else in the first word. -/
theorem primary (ctx : Context) : After 0 0 [] (inner.primary ctx) := by
  refine .lookChar '@' (by decide) (fun r => h.classOperand) fun cs hcs => ?_
  split
  · exact h.parentheses ctx
  · exact h.array
  · exact h.object false
  · exact .operand (fun _ => rfl) after_string
  · exact .operand (fun _ => rfl) after_string
  · exact .operand (fun _ => rfl) h.template
  · exact .operand (fun _ => rfl) after_regex
  · exact .operand (fun _ => rfl) h.element
  · exact absurd rfl hcs
  · exact h.privateTest ctx
  · exact .ite (.operand (fun _ => rfl) after_number) (h.wordOperand ctx)

/-- What starts with `new` has the definitions of the constructor and of the arguments, if there are
any. -/
theorem newExpression (ctx : Context) : After 0 0 [] (inner.newExpression ctx) := by
  refine .look .get fun start => ?_
  refine .read (after_keyword _) fun w => ?_
  refine .look (.follows _) fun _ => ?_
  refine .look .ahead fun cs => ?_
  refine .ite ?target ?constructor
  case target =>
    refine .read (after_markPart _) fun dot => ?_
    refine .read (after_keywordPart _) fun target => ?_
    exact .look .get fun stop => .pure_branch rfl rfl (by simp)
  case constructor =>
    refine .read after_extras fun before => ?_
    refine .read (h.primary ctx) fun c => ?_
    refine .handOver (h.suffixes ctx false c) fun c => ?_
    refine .look (.guard _) fun _ => ?_
    refine .look (.follows _) fun _ => ?_
    refine .readIf (.part h.arguments) fun args => ?_
    exact .look .get fun stop => .pure_branch rfl rfl (by simp)

/-! ### Operands with prefixes -/

/-- A prefix operator holds the definitions of its operand. -/
theorem prefixed (ctx : Context) {whole k : Kind} (hwhole : whole.isDefinition = false)
    (hk : k.isDefinition = false) (n : Nat) : After 0 0 [] (inner.prefixed ctx whole k n) := by
  refine .operand (fun _ => rfl) (.construct hwhole ?_)
  refine .read (after_leaf hk _) fun op => ?_
  refine .read after_extras fun before => ?_
  refine .read (h.operand _) fun o => ?_
  exact .look (.guard _) fun _ => .pure (by simp)

/-- The word `yield` holds the definitions of the expression behind it, if there is one. -/
theorem yieldExpression (ctx : Context) : After 0 0 [] (inner.yieldExpression ctx) := by
  have hvalue : After 0 0 [] (do
      let before ← extras
      let e ← inner.expression ctx
      guard e.isExpression
      pure (before ++ [e.node])) := by
    exact h.readExpression fun before e => .pure (by simp)
  refine .operand (fun _ => rfl) ?_
  refine .construct rfl ?_
  refine .read (after_keyword _) fun w => ?_
  refine .look .noHtml fun _ => ?_
  refine .look (.endsHere _) fun ends => ?_
  refine .ite (.pure (by simp)) (.look .ahead fun cs => ?_)
  split
  · exact .pure (by simp)
  · refine .read (after_markPart _) fun star => ?_
    exact .read hvalue fun ns => .pure (by simp)
  · refine .ite ?_ ?_
    · exact .read hvalue fun ns => .pure (by simp)
    · exact .pure (by simp)

/-- An operand with its prefixes places its definitions. -/
theorem unary (ctx : Context) : After 0 0 [] (inner.unary ctx) := by
  refine .look .rest fun cs => ?_
  split
  · exact h.prefixed ctx rfl rfl 2
  · exact h.prefixed ctx rfl rfl 2
  · exact h.prefixed ctx rfl rfl 1
  · exact h.prefixed ctx rfl rfl 1
  · exact h.prefixed ctx rfl rfl 1
  · exact h.prefixed ctx rfl rfl 1
  · refine .look .keyword? fun k? => ?_
    split
    · exact h.prefixed ctx rfl rfl 6
    · exact h.prefixed ctx rfl rfl 4
    · exact h.prefixed ctx rfl rfl 6
    · exact h.prefixed ctx rfl rfl 5
    · exact .read (h.yieldExpression ctx) fun o => h.operandFrom ctx o
    · exact .read (h.primary ctx) fun o => h.operandFrom ctx o

/-- **Expressions place their definitions**, one level further out than what is known of those
inside. -/
theorem wholeExpression (ctx : Context) : After 0 0 [] (inner.wholeExpression ctx) :=
  .read (h.unary ctx) fun o => h.expressionFrom ctx o

end Placing

end Grammar

end SymbolIndex.JavaScript
