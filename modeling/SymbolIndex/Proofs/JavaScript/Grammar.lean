import SymbolIndex.JavaScript.Function
import SymbolIndex.Proofs.JavaScript.Parts

/-!
# Literals, lists and functions place their definitions

The readers of literals find no definitions, and a list or a block has those of its elements. A
function is a definition itself. What is known about the constructs one level further in is
collected in `Grammar.Placing`.
-/

namespace SymbolIndex.JavaScript

open Syntax Lexical Reader

variable {α : Type} {gap : Nat}

namespace Reader

/-! ### Literals -/

theorem after_comment : After gap 0 [] comment :=
  after_token (p := fun cs => decide (commentLength cs ≠ 0)) rfl fun _ _ => Nat.zero_le _

theorem after_number : After gap 0 [] number :=
  after_token (p := fun cs => decide (numberLength cs ≠ 0)) rfl fun _ _ => Nat.zero_le _

/-- A round of reading a string ends it, or goes on behind an escape, a line break or some text. -/
theorem after_stringRound (quote : Char) (found : List Node) :
    After gap 0 (outline found) (stringRound quote found) := by
  have hclose : After gap 0 (outline found) (do
      let n ← mark (String.singleton quote)
      pure (.inl (found ++ [n])) : Reader (List Node ⊕ List Node)) :=
    .read (after_mark _) fun n => .pure (by simp)
  refine .look .rest fun cs => ?_
  cases cs with
  | nil => exact .stuck
  | cons c r =>
    refine .ite hclose (.ite ?_ (.ite ?_ ?_))
    · refine .look (.guard _) fun _ => ?_
      exact .read (after_leaf rfl _) fun e => .pure (by simp)
    · exact .read after_separators fun _ =>
        .orElse (.read after_comment fun n => .pure (by simp)) (by simpa using hclose)
    · exact .read (after_leaf rfl _) fun f => .pure (by simp)

theorem after_string : After gap 0 [] string := by
  refine .construct rfl ?_
  refine .look .rest fun cs => ?_
  split
  · exact .read (after_mark _) fun n => .loop (by simp) (after_stringRound _)
  · exact .read (after_mark _) fun n => .loop (by simp) (after_stringRound _)
  · exact .stuck

/-- A pattern of a regular expression has comments in front of it at most. -/
theorem after_regexPattern : After gap 0 [] regexPattern := by
  refine .loop (by simp) fun found => ?_
  refine .read (.optional ?_) fun comments => ?_
  · refine .read after_separators fun _ => ?_
    exact .read after_comment fun n => .pure (by simp)
  · split
    · refine .look .rest fun cs => ?_
      refine .look (.guard _) fun _ => ?_
      exact .read (after_leaf rfl _) fun body => .pure (by simp)
    · exact .pure (by simp)

theorem after_regex : After gap 0 [] regex := by
  refine .construct rfl ?_
  refine .read (after_mark _) fun opening => ?_
  refine .read after_regexPattern fun body => ?_
  refine .read (after_mark _) fun closing => ?_
  refine .look .rest fun cs => ?_
  refine .ite ?_ ?_
  · exact .read (.pure (by simp)) fun flags => .pure (by simp)
  · refine .read (after_leaf rfl _) fun f => ?_
    exact .handOver (.pure (by simp)) fun flags => .pure (by simp)

end Reader

/-! ### Operands and patterns -/

instance : Outlined Operand := ⟨fun o => o.node.outline⟩

/-- The operands of a list are in its nodes already. -/
instance : Outlined (List (Option Operand)) := ⟨fun _ => []⟩

@[simp] theorem outline_operand (o : Operand) : outline o = o.node.outline := rfl

@[simp] theorem outline_items (items : List (Option Operand)) : outline items = [] := rfl

mutual

/-- What is read as a pattern keeps its definitions. -/
theorem outline_asPattern : ∀ n : Node, (asPattern n).outline = n.outline
  | n => by
    rw [asPattern.eq_def]
    split
    case h_7 => rfl
    -- All other kinds are no definitions, before and after.
    all_goals rw [Node.outline_of_not_isDefinition rfl, Node.outline_of_not_isDefinition rfl]
    · exact outlineAll_asPatterns _
    · exact outlineAll_asPatterns _
    · exact outlineAll_asPatterns _
    · exact outlineAll_lastAsPattern _

theorem outlineAll_asPatterns :
    ∀ ns : List Node, Node.outlineAll (asPatterns ns) = Node.outlineAll ns
  | [] => by rw [asPatterns]
  | n :: ns => by
    rw [asPatterns, Node.outlineAll_cons, Node.outlineAll_cons, outline_asPattern n,
      outlineAll_asPatterns ns]

theorem outlineAll_lastAsPattern :
    ∀ ns : List Node, Node.outlineAll (lastAsPattern ns) = Node.outlineAll ns
  | [] => by rw [lastAsPattern]
  | [n] => by rw [lastAsPattern, Node.outlineAll_cons, Node.outlineAll_cons, outline_asPattern n]
  | n :: m :: ns => by
    rw [lastAsPattern, Node.outlineAll_cons, Node.outlineAll_cons,
      outlineAll_lastAsPattern (m :: ns)]

end

namespace Reader

/-! ### Lists -/

/-- A list has the definitions of its elements, whatever closes it. The comments and commas between
them have none. -/
theorem after_elements (close : String) {element : Bool → Reader Operand}
    (helement : ∀ first, After 0 0 [] (element first)) : After 0 0 [] (elements close element) := by
  refine .loop (by simp) fun ⟨nodes, items⟩ => ?_
  refine .read after_extras fun before => ?_
  refine .look .rest fun cs => ?_
  refine .ite ?_ (.ite ?_ ?_)
  · exact .read (after_mark _) fun n => .pure (by simp)
  · exact .read (after_mark _) fun n => .pure (by simp)
  · refine .read (helement _) fun o => ?_
    refine .read after_extras fun after => ?_
    exact .orElse (.read (after_mark _) fun n => .pure (by simp)) (.read (after_mark _) fun n =>
      .pure (by simp))

/-- A closing brace holds no definitions, nor does one that is supplied at the end of the text. -/
theorem after_closeBrace (closable : Bool) (found : List Node) :
    After gap 0 [] (closeBrace closable found) :=
  .orElse (after_mark _) (.look (.guard _) fun _ => after_supply _ _)

theorem Still.atCloseBrace : Still atCloseBrace := .bind .rest fun cs => by
  cases cs with
  | nil => exact .pure _
  | cons c r => exact .pure _

end Reader

/-! ### One level further in -/

/-- The readers for the constructs one level further in place the definitions that they read. -/
structure Grammar.Placing (inner : Grammar) : Prop where
  expression : ∀ ctx, After 0 0 [] (inner.expression ctx)
  operand : ∀ ctx, After 0 0 [] (inner.operand ctx)
  braced : ∀ ambiguous, After 0 0 [] (inner.braced ambiguous)
  construction : ∀ ctx, After 0 0 [] (inner.construction ctx)
  statement : ∀ beforeWhile, After 0 0 [] (inner.statement beforeWhile)
  markup : After 0 0 [] inner.markup

namespace Grammar

/-- Where no level is left nothing is read, so there is nothing to place. -/
theorem placing_empty : empty.Placing where
  expression _ := .stuck
  operand _ := .stuck
  braced _ := .stuck
  construction _ := .stuck
  statement _ := .stuck
  markup := .stuck

namespace Placing

variable {inner : Grammar} (h : inner.Placing)
include h

/-! ### Expressions behind comments -/

/-- Reading goes on behind comments and an expression, with the definitions of both to take care
of. -/
theorem readExpression [Outlined α] {acc : List Definition} {ctx : Context}
    {f : List Node → Operand → Reader α}
    (hf : ∀ before e, After 0 0 (acc ++ outline before ++ outline e) (f before e)) :
    After 0 0 acc (do
      let before ← extras
      let e ← inner.expression ctx
      guard e.isExpression
      f before e) := by
  refine .read after_extras fun before => ?_
  refine .read (h.expression _) fun e => ?_
  exact .look (.guard _) fun _ => hf before e

/-! ### Lists of elements -/

/-- A spread element is no definition and holds those of what is spread. -/
theorem spread (withDefault : Bool) : After 0 0 [] (inner.spread withDefault) := by
  intro source lo c o c' hat hlo hacc ho
  obtain ⟨⟨⟨m, before, o'⟩, c₁⟩, hparts, ho⟩ := except_bind_eq_ok ho
  cases ho
  obtain ⟨hat', hfurther, hplaced⟩ := placed_of_eq_ok hparts
    (.read (after_mark _) fun m => .read after_extras fun before => .read (h.expression _) fun o =>
      .pure (by simp)) hat hlo hacc
  rw [outline_operand, Node.outline_branch rfl]
  exact ⟨hat', hfurther, by simpa using hplaced⟩

theorem listElement : After 0 0 [] inner.listElement := by
  refine .look .rest fun cs => ?_
  split
  · exact h.spread _
  · exact h.expression _

/-- Arguments hold the definitions of their expressions. They must be closed in the text. -/
theorem arguments : After 0 0 [] inner.arguments := by
  refine .construct rfl ?_
  refine .read (after_mark _) fun o => ?_
  refine .read (after_elements _ fun _ => h.listElement) fun ⟨ns, items⟩ => ?_
  exact .look (.guard _) fun _ => .pure (by simp)

/-- Parameters start with a parenthesis, so there is a gap in front of what is inside. -/
theorem parameters : After 1 1 [] inner.parameters := by
  refine .construct rfl ?_
  refine .read (opens_mark (by decide)) fun o => ?_
  refine .read (after_elements _ fun _ => h.listElement) fun ⟨ns, items⟩ => ?_
  exact .look (.guard _) fun _ => .pure (by simp [outlineAll_asPatterns])

/-- Statements place their definitions one behind the other, up to a closing brace. -/
theorem statements : After 0 0 [] inner.statements := by
  refine .loop (by simp) fun found => ?_
  refine .read after_extras fun before => ?_
  refine .look .atCloseBrace fun b => ?_
  refine .ite ?_ ?_
  · exact .pure (by simp)
  · exact .read (h.statement _) fun s => .pure (by simp)

/-- A block holds the definitions of its statements. -/
theorem block (closable : Bool) : After 0 0 [] (inner.block closable) := by
  refine .construct rfl ?_
  refine .read (after_mark _) fun o => ?_
  refine .read h.statements fun body => ?_
  refine .read (after_closeBrace _ _) fun c => ?_
  exact .look .noHtml fun _ => .pure (by simp)

end Placing

end Grammar

/-! ### Functions -/

namespace Reader

/-- A node of the kind that `kind` picks is no class, and may have the nodes that `nodes` picks for
children. -/
def Fitting (kind : α → Kind) (nodes : α → List Node) (p : Reader α) : Prop :=
  ∀ source, Gives (InText source) (fun a => (kind a).Fits source (nodes a)) p

/-- What is no definition may be made of anything. -/
theorem Fitting.of_answers {kind : α → Kind} {nodes : α → List Node} {p : Reader α}
    (hp : Answers (fun a => (kind a).isDefinition = false) p) : Fitting kind nodes p :=
  fun _ => .of_answers fun c a c' h => Kind.fits_of_not_isDefinition (hp c a c' h)

/-- What is needed to place a construct whose kind depends on its parts: if it is a definition, it
is made of the right parts and is not empty. -/
theorem placed_of_kind [Outlined α] {p : Reader α} {kind : α → Kind} {nodes : α → List Node}
    (hp : After 1 0 [] p) (houtline : ∀ a, outline a = Node.outlineAll (nodes a))
    (hparts : Fitting kind nodes p)
    (hadvances : Advances (fun a => (kind a).isDefinition = true) p) {source : List Char} {lo : Nat}
    {c c' : Cursor} {a : α} (hat : c.At source) (hlo : lo ≤ c.pos.offset)
    (h : p c = .ok (a, c')) :
    c'.At source ∧ c.pos.offset ≤ c'.pos.offset ∧
      Placed source lo c'.pos.offset (Node.branch (kind a) c.pos c'.last (nodes a)).outline := by
  obtain ⟨hat', hfurther, hplaced⟩ :=
    hp source (c.pos.offset + 1) c a c' hat (by omega) (.nil _ _ _) h
  rw [houtline] at hplaced
  have hfits : (kind a).Fits source (nodes a) := hparts source c a c' hat h
  exact ⟨hat', hfurther, hplaced.branch hlo (hadvances source c a c' hat h) hat.isIn hfits.parts
    fun hclass => absurd hclass hfits.sort?_ne_ofClass⟩

/-- A construct whose kind depends on its parts. -/
theorem After.build {p : Reader (Kind × List Node)} (hp : After 1 0 [] p)
    (hparts : Fitting (fun x => x.1) (fun x => x.2) p)
    (hadvances : Advances (·.1.isDefinition = true) p) : After 0 0 [] (build p) := by
  intro source lo c n c' hat hlo hacc h
  rw [Reader.build] at h
  split at h
  · rename_i k ns c₁ hns
    cases h
    exact placed_of_kind hp (fun x => rfl) hparts hadvances hat hlo hns
  · cases h

/-- A construct that is not empty in any case. -/
theorem After.build_nonempty {p : Reader (Kind × List Node)} (hp : After 1 1 [] p)
    (hparts : Fitting (fun x => x.1) (fun x => x.2) p) : After 0 0 [] (Reader.build p) :=
  .build (hp.weaken (Nat.le_refl _) (Nat.zero_le _)) hparts
    (.of_after (hp.weaken (Nat.zero_le _) (Nat.le_refl _)))

end Reader

namespace Grammar.Placing

variable {inner : Grammar} (h : inner.Placing)
include h

/-- **A function is a definition with those inside it behind its keyword**, and it is named by its
name. -/
theorem function : After 0 0 [] inner.function := by
  refine .build_nonempty ?_ fun source => ?_
  · refine .read (.optional (.part (after_keyword _))) fun async => ?_
    refine .read (opens_keywordPart _) fun function => ?_
    refine .read (.optional (after_markPart _)) fun star => ?_
    refine .read (.optional (.partAs (after_name rfl))) fun name => ?_
    refine .read (.part h.parameters.inside) fun parameters => ?_
    refine .look .mayHtml fun _ => ?_
    exact .read (.partAs (h.block _)) fun body => .pure (by simp)
  · -- The function is named by what is read for its name, and by nothing else.
    refine .read (.optional (.part (after_keyword _))) (.optional (.part (isWord_keyword _))) fun
      async hasync => ?_
    refine .read (after_keywordPart _) (part_keywordPart _) fun function hfunction => ?_
    refine .read (.optional (after_markPart _)) (.optional (part_markPart _)) fun star hstar => ?_
    refine .read (.optional (.partAs (after_name rfl))) (.optional part_partAs_name) fun name hname
      => ?_
    refine .read (.part h.parameters.inside) (.part (.of_answers (kind_construct _ _))) fun
      parameters hparameters => ?_
    refine .look .mayHtml fun _ => ?_
    refine .last (.of_answers (kind_partAs_body _ _)) fun body hbody => .pure ?_
    have hnamed : Named source (async ++ function ++ star ++ name ++ parameters ++ body) := by
      simp only [Named, List.forall_mem_append]
      exact ⟨⟨⟨⟨⟨hasync.named fun n hn => by simp [hn.field],
        hfunction.named fun n hn => by simp [hn.field]⟩,
        hstar.named fun n hn => by simp [hn.field]⟩, hname.named fun n hn _ => hn.2.2⟩,
        hparameters.named fun n hn => by simp [hn.2]⟩, hbody.named fun n hn => by simp [hn.2]⟩
    split
    · exact Kind.fits_of_named rfl hnamed
    · exact Kind.fits_of_named rfl hnamed

end Grammar.Placing

end SymbolIndex.JavaScript
