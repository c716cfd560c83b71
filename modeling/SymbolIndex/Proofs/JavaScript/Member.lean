import SymbolIndex.Proofs.JavaScript.Grammar
import SymbolIndex.Proofs.JavaScript.Opening

/-!
# Members, objects and classes place their definitions

What a member is shows only behind its name: it is a method, and so a definition, if parameters
follow. Until then its start must be kept apart from the definitions inside. Decorators, computed
names and parameters all start with a mark, so whatever is found first starts later than the member
(`Grammar.Placing.decorators`, `Grammar.Placing.propertyName`, `Grammar.Placing.methodRest`).

The parts of a method and of a class are what their readers find in a row. Of a private name the
mark may be all that there is. Then no parameters can follow, unless the mark is passed over as an
error (`Grammar.parts_methodRest`).
-/

namespace SymbolIndex.JavaScript

open Syntax Lexical Reader

variable {gap : Nat}

namespace Grammar

/-! ### Modifiers -/

/-- A modifier holds no definitions: the checks behind the word read nothing. -/
theorem after_modifier (inClass beforeStar : Bool) (k : Keyword) :
    After gap 0 [] (modifier inClass beforeStar k) := by
  have hrest : ∀ w : List Node, After gap 0 (outline w) (do
      let cs ← ahead
      guard (startsPropertyName cs || (beforeStar && cs.head? = some '*'))
      pure w) := by
    intro w
    refine .look .ahead fun cs => ?_
    exact .look (.guard _) fun _ => .pure (List.Sublist.refl _)
  refine .read (after_keywordPart _) fun w => ?_
  refine .ite ?_ (hrest w)
  refine .look .noHtml fun _ => ?_
  refine .look (.endsHere _) fun b => ?_
  exact .look (.guard _) fun _ => hrest w

/-- The word `static` holds no definitions, nor does the token `static get`. -/
theorem after_staticModifier (inClass : Bool) : After gap 0 [] (staticModifier inClass) := by
  refine .read after_extras fun before => ?_
  refine .look .rest fun cs => ?_
  split
  · exact .read (after_modifier _ _ _) fun w => .pure (by simp)
  · exact .read (after_leaf rfl _) fun n => .pure (by simp)

theorem after_modifiers (inClass : Bool) : After gap 0 [] (modifiers inClass) := by
  refine .read (.optional (after_staticModifier _)) fun static => ?_
  refine .read (.optional (after_modifier _ _ _)) fun async => ?_
  refine .read (.optional (.orElse (after_modifier _ _ _) (.orElse (after_modifier _ _ _)
    (after_markPart _)))) fun accessor => ?_
  exact .pure (by simp)

theorem still_checkDefault (first : Bool) : Still (checkDefault first) :=
  .ite (.bind (.endsHere _) fun _ => .guard _) (.pure _)

/-- An operand that is no definition holds the definitions of its parts. -/
theorem after_propertyOperand {p : Reader (Kind × List Node × Bool × Bool)} (hp : After 0 0 [] p)
    (hk : Answers (·.1.isDefinition = false) p) : After 0 0 [] (propertyOperand p) := by
  intro source lo c o c' hat hlo hacc h
  rw [propertyOperand] at h
  split at h
  · rename_i k ns isExpression isElement c₁ hparts
    cases h
    have hplain : k.isDefinition = false := hk c (k, ns, isExpression, isElement) c' hparts
    rw [outline_operand, Node.outline_branch hplain]
    have hplaced := hp source lo c (k, ns, isExpression, isElement) c' hat hlo hacc hparts
    simpa using hplaced
  · cases h

/-- An operand whose kind depends on its parts is placed if it is no definition, or one made of the
right parts and not empty. -/
theorem after_propertyOperand_of_kind {p : Reader (Kind × List Node × Bool × Bool)}
    (hp : After 1 0 [] p) (hparts : Fitting (fun x => x.1) (fun x => x.2.1) p)
    (hadvances : Advances (·.1.isDefinition = true) p) : After 0 0 [] (propertyOperand p) := by
  intro source lo c o c' hat hlo hacc h
  rw [propertyOperand] at h
  split at h
  · rename_i k ns isExpression isElement c₁ hns
    cases h
    exact placed_of_kind hp (fun x => List.append_nil _) hparts hadvances hat hlo hns
  · cases h

/-- A name with members holds the definitions of the name, since members are mere names. -/
theorem after_members (first : Node) :
    After 0 0 (outline first) (loop (fun n => do
      if ← follows "." then
        let m ← extend .memberExpression n do
          let dot ← markPart "."
          let property ← part (name .propertyIdentifier)
          pure (dot ++ property)
        pure (.inr m)
      else pure (.inl n)) first) := by
  refine .loop rfl fun n => ?_
  refine .look (.follows _) fun _ => ?_
  refine .ite ?_ (.pure (List.Sublist.refl _))
  exact .bind (.extend rfl (.read (after_markPart _) fun dot =>
    .read (.part (after_name rfl)) fun property => .pure (by simp)))
    fun m => .pure (List.Sublist.refl _)

/-! ### Parts of methods and classes -/

section Parts

variable {source : List Char} {inner : Grammar}

/-- A modifier is the word that it was looked for by, with comments in front. -/
theorem part_modifier (inClass beforeStar : Bool) (k : Keyword) :
    Gives (InText source) (Part (·.IsWord source k)) (modifier inClass beforeStar k) := by
  have hrest : ∀ w : List Node, Part (·.IsWord source k) w →
      Gives (InText source) (Part (·.IsWord source k)) (do
        let cs ← ahead
        guard (startsPropertyName cs || (beforeStar && cs.head? = some '*'))
        pure w) := by
    intro w hw
    refine .look .ahead fun cs => ?_
    exact .look (.guard _) fun _ => .pure hw
  refine .read (after_keywordPart _) (part_keywordPart k) fun w hw => ?_
  refine .ite ?_ (hrest w hw)
  refine .look .noHtml fun _ => ?_
  refine .look (.endsHere _) fun b => ?_
  exact .look (.guard _) fun _ => hrest w hw

/-- In the place of `static` there is the word, or the token that `get` is fused with it in. -/
theorem part_staticModifier (inClass : Bool) : Gives (InText source)
    (Part fun n => n.IsWord source .staticWord ∨ n.IsFused source) (staticModifier inClass) := by
  intro c ns c' hat h
  obtain ⟨before, c₁, hbefore, h⟩ := bind_eq_ok h
  have hextra : ∀ e ∈ before, e.IsExtra := isExtra_extras c before c₁ hbefore
  obtain ⟨hat₁, -⟩ := at_of_eq_ok hbefore after_extras hat
  obtain ⟨cs, c₂, hrest, h⟩ := bind_eq_ok h
  cases hrest
  obtain ⟨p, hp, h⟩ : ∃ p : Reader (List Node), p = _ ∧ p c₁ = .ok (ns, c') := ⟨_, rfl, h⟩
  split at hp
  · subst hp
    obtain ⟨w, c₃, hw, h⟩ := bind_eq_ok h
    cases h
    have hpart : Part (·.IsWord source .staticWord) w := part_modifier _ _ _ c₁ w _ hat₁ hw
    obtain ⟨hextra', hn⟩ := hpart
    rw [← List.append_assoc]
    exact .intro (List.forall_mem_append.mpr ⟨hextra, hextra'⟩) (.inl hn)
  · rename_i n hlength
    subst hp
    obtain ⟨m, c₃, hm, h⟩ := bind_eq_ok h
    cases h
    obtain ⟨hkind, hfield, hchars⟩ := leaf_eq_ok hat₁ hm
    refine .intro hextra (.inr ⟨hkind, hfield, ?_⟩)
    rw [hchars]
    exact take_staticGetLength hlength

/-- The modifiers of a member are the words in their order, each of them there or not. -/
theorem parts_modifiers (inClass : Bool) :
    Gives (InText source) (ModifierParts source) (modifiers inClass) := by
  refine .read (.optional (after_staticModifier _)) (.optional (part_staticModifier _)) fun _
    hstatic => ?_
  refine .read (.optional (after_modifier _ _ _)) (.optional (part_modifier _ _ _)) fun _ hasync =>
    ?_
  exact .last (.optional (.orElse ((part_modifier _ _ _).weaken fun _ h => h.imp fun _ hn => .inl
    hn) (.orElse ((part_modifier _ _ _).weaken fun _ h => h.imp fun _ hn => .inr (.inl hn))
    ((part_markPart _).weaken fun _ h => h.imp fun _ hn => .inr (.inr hn))))) fun _ haccessor =>
    .pure (.intro hstatic hasync haccessor)

/-- The name of a member is read: if it is a plain name it has characters, or it is a private name
whose mark is still to be read. -/
def Keyed (source : List Char) (key : Node) (rest : List Char) (_pos : Position) : Prop :=
  key.isNamed = true ∧ (key.kind = .propertyIdentifier ∨ key.kind = .privatePropertyIdentifier →
    key.chars source ≠ [] ∨ rest.head? = some '#')

/-- What is read for the name of a member is one (`Keyed`): a plain name has characters, and a
private name without any leaves its mark to be read. -/
theorem keyed_propertyName {c c' : Cursor} {key : Node} (hat : c.At source)
    (h : inner.propertyName c = .ok (key, c')) : Keyed source key c'.rest c'.pos := by
  -- Names of all other kinds are not plain.
  have hother : ∀ {k : Kind} {p : Reader (List Node)}, k.isNamed = true →
      k ≠ .propertyIdentifier → k ≠ .privatePropertyIdentifier → construct k p c = .ok (key, c') →
        Keyed source key c'.rest c'.pos := by
    intro k p hnamed hidentifier hprivate hkey
    have hkind := (kind_construct k p c key c' hkey).1
    refine ⟨by rw [Node.isNamed, hkind]; exact hnamed, fun hplain => ?_⟩
    rw [hkind] at hplain
    exact (hplain.elim hidentifier hprivate).elim
  obtain ⟨cs, c₁, hrest, h⟩ := bind_eq_ok h
  cases hrest
  obtain ⟨p, hp, h⟩ : ∃ p : Reader Node, p = _ ∧ p c = .ok (key, c') := ⟨_, rfl, h⟩
  split at hp <;> subst hp
  · exact hother rfl (by decide) (by decide) h
  · exact hother rfl (by decide) (by decide) h
  · exact hother rfl (by decide) (by decide) h
  · rename_i r hr
    obtain ⟨hkind, -, hchars⟩ := leaf_eq_ok hat h
    refine ⟨by rw [Node.isNamed, hkind]; rfl, fun hplain => ?_⟩
    cases hlength : privateNameLength ('#' :: r) with
    | zero =>
      rw [hlength] at h
      cases h
      exact .inr (by rw [Cursor.advance, hr]; rfl)
    | succ n =>
      rw [hchars, hr, hlength]
      exact .inl (by simp)
  · split at h
    · obtain ⟨cs, c₂, hcs, h⟩ := bind_eq_ok h
      cases hcs
      obtain ⟨-, h⟩ := guard_eq_ok h
      cases h
      exact ⟨rfl, by rintro (hkind | hkind) <;> cases hkind⟩
    · obtain ⟨hkind, hname⟩ := spellsName_name _ c key c' hat h
      exact ⟨by rw [Node.isNamed, hkind]; rfl, fun _ => .inl hname.chars_ne_nil⟩

/-- Behind the name of a method there are parameters and a body. -/
theorem parts_methodRest {decorators modifiers before : List Node} {key : Node}
    (hdecorators : Decorators decorators) (hmodifiers : ModifierParts source modifiers)
    (hbefore : ∀ e ∈ before, e.IsExtra) : Gives (Keyed source key) (MethodParts source)
      (inner.methodRest (decorators ++ modifiers ++ before ++ [key.as .name])) := by
  intro c ns c' hkey h
  obtain ⟨parameters, c₁, hparameters, h⟩ := bind_eq_ok h
  obtain ⟨u, c₂, hhtml, h⟩ := bind_eq_ok h
  obtain ⟨body, c₃, hbody, h⟩ := bind_eq_ok h
  cases h
  have hextra : ∀ e : Node, e.IsExtra → e.isNamed = true ∧ e.field ≠ some .name :=
    fun e he => ⟨he.isNamed, by simp [he.field]⟩
  have hnamed : ∀ n ∈ parameters ++ body, n.isNamed = true ∧ n.field ≠ some .name := by
    refine List.forall_mem_append.mpr ⟨?_, ?_⟩
    · exact Part.of_mem (Answers.part (kind_construct _ _) c parameters c₁ hparameters) hextra
        fun n hn => ⟨by rw [Node.isNamed, hn.1]; rfl, by simp [hn.2]⟩
    · exact (kind_partAs_body _ _ c₂ body _ hbody).of_mem hextra
        fun n hn => ⟨by rw [Node.isNamed, hn.1]; rfl, by simp [hn.2]⟩
  rw [List.append_assoc, List.append_assoc, List.singleton_append]
  refine .intro hdecorators hmodifiers hbefore hkey.1 rfl hnamed fun hplain => ?_
  rcases hkey.2 hplain with hchars | hash
  · exact .inl hchars
  · obtain ⟨e, he, hkind⟩ := error_of_hash (by decide) c parameters c₁ hash hparameters
    exact .inr ⟨e, List.mem_append_left _ he, hkind⟩

end Parts

/-- A class starts before the definitions inside it. -/
theorem after_construct_class {p : Reader (List Node)} (hp : After 1 1 [] p)
    (hparts : ∀ source, Gives (InText source) (ClassParts source) p)
    (hopening : ∀ source c ns c', c.At source → c.AtToken → p c = .ok (ns, c') →
      ClassOpening source c.pos ns) :
    After 0 0 [] (fromToken (construct .classExpression p)) := by
  intro source lo c n c' hat hlo hacc h
  obtain ⟨hc, h⟩ := fromToken_eq_ok h
  rw [construct] at h
  split at h
  · rename_i ns c₁ hns
    cases h
    obtain ⟨hat', hfurther, hplaced⟩ :=
      hp source (c.pos.offset + 1) c ns c' hat (by omega) (.nil _ _ _) hns
    refine ⟨hat', Nat.le_of_lt hfurther, hplaced.branch hlo (fun _ => hfurther) hat.isIn ?_
      fun _ => hopening source c ns c' hat hc hns⟩
    rintro sort ⟨⟩
    exact hparts source c ns c' hat hns
  · cases h

namespace Placing

variable {inner : Grammar} (h : inner.Placing)
include h

/-! ### Names and decorators -/

/-- A computed name holds the definitions of the expression in it, behind its bracket. -/
theorem computedName : After 1 1 [] inner.computedName := by
  refine .construct rfl ?_
  refine .read (opens_mark (by decide)) fun o => ?_
  refine h.readExpression fun before e => ?_
  exact .read (after_markPart _) fun c => .pure (by simp)

/-- A property name has a gap in front of the definitions in it, as only a computed name has any. -/
theorem propertyName : After 1 0 [] inner.propertyName := by
  refine .look .rest fun cs => ?_
  split
  · exact h.computedName.weaken (Nat.le_refl _) (Nat.zero_le _)
  · exact after_string
  · exact after_string
  · exact after_leaf rfl _
  · exact .ite after_number (after_name rfl)

/-- A decorator holds the definitions of its arguments. It starts with a mark of its own. -/
theorem decorator : After 1 1 [] inner.decorator := by
  refine .construct rfl ?_
  refine .read (opens_mark (by decide)) fun at_ => ?_
  refine .read after_extras fun before => ?_
  refine .read (after_name rfl) fun first => ?_
  refine .handOver (after_members first) fun path => ?_
  refine .handOver (.orElse (.extend rfl (.part h.arguments)) (.pure (List.Sublist.refl _))) fun
    called => ?_
  exact .pure (by simp)

theorem decorators : After 1 0 [] inner.decorators := by
  refine .loop (by simp) fun found => ?_
  refine .look (.follows _) fun more => ?_
  refine .ite ?_ ?_
  · exact .read (.part h.decorator) fun d => .pure (by simp)
  · exact .pure (by simp)

/-- Parameters and body of a method place their definitions behind the start of the parameters. -/
theorem methodRest (head : List Node) : After 1 1 (outline head) (inner.methodRest head) := by
  refine .read (.part h.parameters) fun parameters => ?_
  refine .look .mayHtml fun _ => ?_
  exact .read (.partAs (h.block _)) fun body => .pure (by simp)

/-- What follows the name of a method is at least one character, the parenthesis of its parameters.
-/
theorem advances_methodRest (head : List Node) :
    Advances (fun _ => True) (inner.methodRest head) := by
  intro source c ns c' hat hns _
  obtain ⟨parameters, c₁, hparameters, hns⟩ := bind_eq_ok hns
  obtain ⟨u, c₂, hhtml, hns⟩ := bind_eq_ok hns
  obtain ⟨body, c₃, hbody, hns⟩ := bind_eq_ok hns
  cases hns
  cases hhtml
  have hopens : After 0 1 [] inner.parameters :=
    h.parameters.weaken (Nat.zero_le _) (Nat.le_refl _)
  obtain ⟨hat₁, hfurther⟩ := at_of_eq_ok hparameters (.part hopens) hat
  obtain ⟨-, hfurther'⟩ := at_of_eq_ok hbody (.partAs (h.block _)) hat₁
  dsimp only at hfurther'
  omega

/-! ### The start of a member -/

section Head

variable {α : Type} {f : List Node → List Node → List Node → Node → Reader α} (inClass : Bool)

/-- Behind the start of a member, up to its name, there is a gap to what is inside. -/
theorem readHead [Outlined α] (hf : ∀ decorators modifiers before key,
      After 1 0 (outline decorators ++ outline modifiers ++ outline before ++ outline key)
        (f decorators modifiers before key)) :
    After 1 0 [] (do
      let decorators ← inner.decorators
      let modifiers ← modifiers inClass
      let before ← extras
      let key ← inner.propertyName
      f decorators modifiers before key) := by
  refine .read h.decorators fun decorators => ?_
  refine .read (after_modifiers _) fun modifiers => ?_
  refine .read after_extras fun before => ?_
  exact .read h.propertyName fun key => hf decorators modifiers before key

/-- What the start of a member is made of, for the reader behind it. -/
theorem givesHead {source : List Char} {Q : α → Prop}
    (hf : ∀ decorators modifiers before key, Decorators decorators →
      ModifierParts source modifiers → (∀ e ∈ before, e.IsExtra) →
      Gives (Keyed source key) Q (f decorators modifiers before key)) :
    Gives (InText source) Q (do
      let decorators ← inner.decorators
      let modifiers ← modifiers inClass
      let before ← extras
      let key ← inner.propertyName
      f decorators modifiers before key) := by
  refine .read h.decorators.inside (.of_answers decorators_decorators) fun decorators hdecorators
    => ?_
  refine .read (after_modifiers _) (parts_modifiers _) fun modifiers hmodifiers => ?_
  refine .read after_extras (.of_answers isExtra_extras) fun before hbefore => ?_
  refine .goOn (fun c key c' => keyed_propertyName) fun key => ?_
  exact hf decorators modifiers before key hdecorators hmodifiers hbefore

/-- The start of a member does not go back, so it is enough if the reader behind it goes on. -/
theorem advancesHead {Q : α → Prop}
    (hf : ∀ decorators modifiers before key, Advances Q (f decorators modifiers before key)) :
    Advances Q (do
      let decorators ← inner.decorators
      let modifiers ← modifiers inClass
      let before ← extras
      let key ← inner.propertyName
      f decorators modifiers before key) := by
  refine .read h.decorators.inside fun decorators => ?_
  refine .read (after_modifiers _) fun modifiers => ?_
  refine .read after_extras fun before => ?_
  exact .read h.propertyName.inside fun key => hf decorators modifiers before key

end Head

/-! ### Objects -/

theorem propertyValue : After 0 0 [] inner.propertyValue := by
  refine .look .rest fun cs => ?_
  split
  · exact .read (h.spread _) fun o => .pure (by simp)
  · exact h.expression _

/-- A pattern with a default value holds the definitions of both, the pattern first. -/
theorem destructuringDefault (first : Bool) : After 0 0 [] (inner.destructuringDefault first) := by
  have hrest : ∀ children : List Node, After 0 0 (outline children) (do
      checkDefault first
      pure (Kind.objectAssignmentPattern, children, false, true)) :=
    fun children => .look (still_checkDefault _) fun _ => .pure (by simp)
  refine after_propertyOperand (.look .rest fun cs => ?_) (.bind fun cs => ?_)
  · split
    · refine .read (h.braced _) fun target => ?_
      refine .look (.guard _) fun _ => ?_
      refine .look .ahead fun cs => ?_
      refine .look (.follows _) fun _ => ?_
      refine .look (.follows _) fun _ => ?_
      refine .look (.guard _) fun _ => ?_
      refine .read (after_markPart _) fun equals => ?_
      refine h.readExpression fun before v => ?_
      exact .bind (.pure (a := asPattern target.node :: equals ++ before ++ [v.node]) (by simp
        [outline_asPattern])) hrest
    · refine .read (h.operand _) fun target => ?_
      refine .look (.guard _) fun _ => ?_
      exact .bind (.pure (a := target.node.children) (Node.outlineAll_children_sublist _)) hrest
  · split
    · refine .bind fun target => ?_
      refine .bind fun _ => ?_
      refine .bind fun _ => ?_
      refine .bind fun _ => ?_
      refine .bind fun _ => ?_
      refine .bind fun _ => ?_
      refine .bind fun equals => ?_
      refine .bind fun before => ?_
      refine .bind fun v => ?_
      refine .bind fun _ => ?_
      refine .bind fun children => ?_
      exact .bind fun _ => .pure rfl
    · refine .bind fun target => ?_
      refine .bind fun _ => ?_
      refine .bind fun children => ?_
      exact .bind fun _ => .pure rfl

/-- Named properties place their definitions. Only a method is a definition, and its parameters are
at least one character. -/
theorem namedProperty (first : Bool) : After 0 0 [] (inner.namedProperty first) := by
  have hmethod : ∀ head : List Node, After 1 0 (outline head) (do
      let ns ← inner.methodRest head
      pure (Kind.methodDefinition, ns, true, false)) :=
    fun head => .bind (h.methodRest head) fun ns => .pure (by simp)
  have hpair : ∀ key : Node, After 1 0 (outline key) (do
      let colon ← markPart ":"
      let before ← extras
      let v ← inner.propertyValue
      pure (Kind.pair, key :: colon ++ before ++ [v.node], v.isExpression, v.isElement)) := by
    intro key
    refine .read (opens_markPart (by decide)) fun colon => ?_
    refine .read after_extras fun before => ?_
    exact .read h.propertyValue fun v => .pure (by simp)
  have hdefault : ∀ key : Node, After 1 0 (outline key) (do
      let equals ← markPart "="
      let before ← extras
      let v ← inner.expression (defaultContext first)
      guard v.isExpression
      checkDefault first
      let key := key.relabel .shorthandPropertyIdentifierPattern
      pure (Kind.objectAssignmentPattern, key :: equals ++ before ++ [v.node], false, true)) := by
    intro key
    refine .read (opens_markPart (by decide)) fun equals => ?_
    refine h.readExpression fun before v => ?_
    refine .look (still_checkDefault _) fun _ => .pure ?_
    simpa using Node.outline_relabel_sublist rfl key
  refine after_propertyOperand_of_kind ?placed ?fits ?advances
  case placed =>
    refine h.readHead _ fun decorators modifiers before key => ?_
    refine .look .ahead fun cs => ?_
    refine .ite ?_ ?_
    · exact .of_sublist (by simp) (hmethod _)
    · -- In front of anything but a method there is nothing but the name.
      refine .of_sublist (List.sublist_append_right _ _) ?_
      refine .ite (hpair key) ?_
      refine .look (.guard _) fun _ => ?_
      exact .ite (hdefault key) (.pure (by simp))
  case fits =>
    -- A method is made of the parts of one. All other properties are no definitions.
    intro source
    refine h.givesHead _ fun decorators modifiers before key hdecorators hmodifiers hbefore => ?_
    refine .look .ahead fun cs => ?_
    refine .ite ?_ (.of_answers ?_)
    · exact .last (parts_methodRest hdecorators hmodifiers hbefore) fun ns hns =>
        .pure (Kind.fits_methodDefinition hns)
    · refine .ite ?_ (.bind fun _ => .ite ?_ ?_)
      · refine .bind fun colon => ?_
        refine .bind fun before => ?_
        exact .bind fun v => .pure (Kind.fits_of_not_isDefinition rfl)
      · refine .bind fun equals => ?_
        refine .bind fun before => ?_
        refine .bind fun v => ?_
        refine .bind fun _ => ?_
        exact .bind fun _ => .pure (Kind.fits_of_not_isDefinition rfl)
      · exact .pure (Kind.fits_of_not_isDefinition rfl)
  case advances =>
    -- What is no method is no definition, and a method goes on to its parameters.
    refine h.advancesHead _ fun decorators modifiers before key => ?_
    refine .look .ahead fun cs => ?_
    refine .ite (.pure (h.advances_methodRest _) _) (.of_answers ?_)
    refine .ite ?_ (.bind fun _ => .ite ?_ ?_)
    · refine .bind fun colon => ?_
      refine .bind fun before => ?_
      exact .bind fun v => .pure Bool.false_ne_true
    · refine .bind fun equals => ?_
      refine .bind fun before => ?_
      refine .bind fun v => ?_
      refine .bind fun _ => ?_
      exact .bind fun _ => .pure Bool.false_ne_true
    · exact .pure Bool.false_ne_true

theorem property (first : Bool) : After 0 0 [] (inner.property first) := by
  refine .look .rest fun cs => ?_
  split
  · exact h.spread _
  · exact h.destructuringDefault _
  · exact .orElse (h.namedProperty _) (h.destructuringDefault _)
  · exact h.namedProperty _

/-- The properties of an object literal place their definitions behind the opening brace. -/
theorem objectItems (ambiguous : Bool) (o : Node) : After 0 0 (outline o) (do
    let (ns, items) ← elements "\x7d" fun first => inner.property (ambiguous && first)
    pure (o :: ns, items)) := by
  refine .read (after_elements _ fun _ => h.property _) fun further => ?_
  obtain ⟨ns, items⟩ := further
  exact .pure (by simp)

/-- An object literal is no definition and holds those of its properties. -/
theorem object (ambiguous : Bool) : After 0 0 [] (inner.object ambiguous) := by
  intro source lo c o c' hat hlo hacc ho
  obtain ⟨⟨⟨ns, items⟩, c₁⟩, hparts, ho⟩ := except_bind_eq_ok ho
  obtain ⟨hat', hfurther, hplaced⟩ := placed_of_eq_ok hparts
    (.read (after_mark _) fun o => .ite (.look (.peek _) fun _ => h.objectItems ambiguous o)
      (h.objectItems ambiguous o)) hat hlo hacc
  dsimp only at ho
  split at ho
  · cases ho
    rw [outline_operand, Node.outline_branch rfl]
    exact ⟨hat', hfurther, by simpa using hplaced⟩
  · cases ho

/-! ### Classes -/

theorem staticBlock : After 0 0 [] inner.staticBlock := by
  refine .construct rfl ?_
  refine .read (after_keyword _) fun w => ?_
  exact .read (.partAs (h.block _)) fun body => .pure (by simp)

/-- Members of classes place their definitions: a method is one, and a field holds those of its
name and its value. -/
theorem member : After 0 0 [] inner.member := by
  have hmethod : ∀ head : List Node, After 1 0 (outline head) (do
      let ns ← inner.methodRest head
      pure (Kind.methodDefinition, ns)) :=
    fun head => .bind (h.methodRest head) fun ns => .pure (by simp)
  have hinitialized : ∀ (head : List Node) (key : Node), After 1 0 (outline (head ++ [key])) (do
      let equals ← markPart "="
      let before ← extras
      let v ← inner.expression .last
      guard v.isExpression
      pure (Kind.fieldDefinition, head ++ key :: equals ++ before ++ [v.node])) := by
    intro head key
    refine .read (opens_markPart (by decide)) fun equals => ?_
    exact h.readExpression fun before v => .pure (by simp)
  refine .read (.build ?placed ?fits ?advances) fun field => .ite ?method ?field
  case method => exact .pure (by simp)
  case field => exact .read (after_terminator _) fun t => .pure (by simp)
  case placed =>
    refine h.readHead _ fun decorators modifiers before key => ?_
    refine .look .noHtml fun _ => ?_
    refine .ite (.look (.endsHere _) fun ends => ?_) (.look (.pure _) fun ends => ?_)
    all_goals
      refine .look (.follows _) fun _ => ?_
      refine .ite (.of_sublist (by simp) (hmethod _)) ?_
      refine .look (.follows _) fun _ => ?_
      exact .ite (.of_sublist (by simp) (hinitialized _ _)) (.pure (by simp))
  case fits =>
    -- A method is made of the parts of one. A field is no definition.
    intro source
    refine h.givesHead _ fun decorators modifiers before key hdecorators hmodifiers hbefore => ?_
    refine .look .noHtml fun _ => ?_
    refine .ite (.look (.endsHere _) fun ends => ?_) (.look (.pure _) fun ends => ?_)
    all_goals
      refine .look (.follows _) fun _ => ?_
      refine .ite ?_ (.of_answers (.bind fun _ => .ite ?_ ?_))
      · exact .last (parts_methodRest hdecorators hmodifiers hbefore) fun ns hns =>
          .pure (Kind.fits_methodDefinition hns)
      · refine .bind fun equals => ?_
        refine .bind fun before => ?_
        refine .bind fun v => ?_
        exact .bind fun _ => .pure (Kind.fits_of_not_isDefinition rfl)
      · exact .pure (Kind.fits_of_not_isDefinition rfl)
  case advances =>
    -- A field is no definition, and a method goes on to its parameters.
    refine h.advancesHead _ fun decorators modifiers before key => ?_
    refine .look .noHtml fun _ => ?_
    refine .ite (.look (.endsHere _) fun ends => ?_) (.look (.pure _) fun ends => ?_)
    all_goals
      refine .look (.follows _) fun _ => ?_
      refine .ite (.pure (h.advances_methodRest _) _) (.of_answers (.bind fun _ => .ite ?_ ?_))
      · refine .bind fun equals => ?_
        refine .bind fun before => ?_
        refine .bind fun v => ?_
        exact .bind fun _ => .pure Bool.false_ne_true
      · exact .pure Bool.false_ne_true

/-- The body of a class holds the definitions of its members and static blocks, in their order. -/
theorem classBody : After 0 0 [] inner.classBody := by
  have hmember : After 0 0 [] ((do pure [← inner.staticBlock]) <|> inner.member) :=
    .orElse (.read h.staticBlock fun s => .pure (by simp)) h.member
  have hround : ∀ found : List Node, After 0 0 (outline found) (do
      let before ← extras
      let found := found ++ before
      if ← atCloseBrace then pure (.inl found)
      else if ← follows ";" then
        let n ← mark ";"
        pure (.inr (found ++ [n]))
      else
        let ms ← (do pure [← inner.staticBlock]) <|> inner.member
        pure (.inr (found ++ ms)) : Reader (List Node ⊕ List Node)) := by
    intro found
    refine .read after_extras fun before => ?_
    refine .look .atCloseBrace fun _ => ?_
    refine .ite ?_ (.look (.follows _) fun _ => .ite ?_ ?_)
    · exact .pure (by simp)
    · exact .read (after_mark _) fun n => .pure (by simp)
    · exact .read hmember fun ms => .pure (by simp)
  refine .construct rfl ?_
  refine .read (after_mark _) fun o => ?_
  refine .read (.loop (by simp) hround) fun body => ?_
  refine .read (after_closeBrace _ _) fun c => ?_
  exact .look .noHtml fun _ => .pure (by simp)

/-- A heritage clause holds the definitions of the expression in it. -/
theorem heritage : After 0 0 [] inner.heritage := by
  refine .construct rfl ?_
  refine .read (after_keyword _) fun w => ?_
  exact h.readExpression fun before e => .pure (by simp)

omit h in
/-- A heritage clause consists of the word `extends`, comments, and what is extended. -/
theorem isHeritage_heritage (source : List Char) :
    Gives (InText source) (·.IsHeritage source) inner.heritage := by
  have hchildren : Gives (InText source) (fun ns => ∃ word comments expression,
      ns = word :: comments ++ [expression] ∧ word.IsWord source .extendsWord ∧
        ∀ e ∈ comments, e.IsExtra) (do
      let w ← keyword .extendsWord
      let before ← extras
      let e ← inner.expression .enclosed
      guard e.isExpression
      pure (w :: before ++ [e.node])) := by
    refine .read (after_keyword _) (isWord_keyword _) fun w hw => ?_
    refine .read after_extras (.of_answers isExtra_extras) fun before hbefore => ?_
    exact .of_answers (.bind fun e => .bind fun _ => .pure ⟨w, before, e.node, rfl, hw, hbefore⟩)
  exact hchildren.construct.weaken fun n hn => ⟨hn.1, hn.2.1, hn.2.2⟩

/-- **A class places itself and the definitions inside it**: it is made of the parts of a class,
and it opens where its first token is. -/
theorem classDefinition (named : Bool) :
    After 0 0 [] (fromToken (inner.classDefinition named)) := by
  have hname : After 0 0 [] (partAs .name (name .identifier)) := .partAs (after_name rfl)
  have hheritage : After 0 0 [] (optional do
      guard ((← nextKeyword?) = some .extendsWord)
      part inner.heritage) := by
    refine .optional (.look .nextKeyword? fun _ => ?_)
    exact .look (.guard _) fun _ => .part h.heritage
  refine after_construct_class ?placed (fun source => ?parts)
    fun source c ns c' hat hc hns => ?opens
  case placed =>
    refine .read h.decorators fun decorators => ?_
    refine .read (opens_keywordPart _) fun w => ?_
    refine .look .nextKeyword? fun _ => ?_
    refine .ite (.read hname fun name => ?_) (.ite (.read (.pure (List.Sublist.refl _)) fun name =>
      ?_) (.read (.optional hname) fun name => ?_))
    all_goals
      refine .read hheritage fun heritage => ?_
      exact .read (.partAs h.classBody) fun body => .pure (by simp)
  case parts =>
    have hgives : Gives (InText source) (MaybePart (·.IsHeritage source)) (optional do
        guard ((← nextKeyword?) = some .extendsWord)
        part inner.heritage) := by
      refine .optional (.look .nextKeyword? fun _ => ?_)
      exact .look (.guard _) fun _ => .part (isHeritage_heritage source)
    -- In each of the three cases there is a name or none.
    let R : List Node → Prop := MaybePart fun n => n.kind = .identifier ∧
      n.field = some .name ∧ n.SpellsName source
    refine .read h.decorators.inside (.of_answers decorators_decorators) fun decorators hdecorators
      => ?_
    refine .read (after_keywordPart _) (part_keywordPart _) fun w hw => ?_
    refine .look .nextKeyword? fun _ => ?_
    refine .ite (.read (R := R) hname (part_partAs_name.weaken fun _ => .inr) fun name hnames => ?_)
      (.ite (.read (R := R) (.pure (List.Sublist.refl _)) (.pure (.inl rfl)) fun name hnames => ?_)
      (.read (R := R) (.optional hname) (.optional part_partAs_name) fun name hnames => ?_))
    all_goals
      refine .read hheritage hgives fun heritage hextends => ?_
      exact .last (.of_answers (kind_partAs_body _ _)) fun body hbody =>
        .pure (.intro hdecorators hw hnames hextends hbody)
  case opens =>
    refine opening_of_eq_ok h.decorators.inside (fun decorators word => ?_) hat hc hns
    refine .bind fun _ => ?_
    refine .ite (.bind fun name => ?_) (.ite (.bind fun name => ?_) (.bind fun name => ?_))
    all_goals
      refine .bind fun heritage => ?_
      exact .bind fun body => .pure ⟨name ++ heritage ++ body, by simp only [List.append_assoc]⟩

theorem classExpression : After 0 0 [] (fromToken inner.classExpression) :=
  h.classDefinition false

end Placing

end Grammar

end SymbolIndex.JavaScript
