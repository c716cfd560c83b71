import SymbolIndex.Proofs.JavaScript.Program
import SymbolIndex.Proofs.Registry.Stored

/-!
# The modifiers of a method

The modifiers of a method are the words in front of its name. A method *heeds* some words if it is
static, an accessor or a constructor just as they ask for (`Syntax.Method.Heeds`). Methods are read
off the kinds of tokens, and so they heed the texts of the tokens; but one token holds two words,
`static get` with a line break behind it, and is no modifier at all. A method heeds the words in
front of its name exactly if that token is not among them
(`Syntax.SyntaxTree.modifiers_heeded_unless_fused`).

The argument rests on what the grammar has in front of a name (`ModifierTokens`): each token is
spelled as its kind says, a method is not both a getter and a setter, and the token of two words
stands in the place of `static`.
-/

namespace SymbolIndex

open Syntax

/-! ### Words -/

/-- The pieces of a text between its blanks. -/
def JavaScript.Lexical.words (cs : List Char) : List (List Char) :=
  (cs.splitOnP isBlank).filter (· ≠ [])

namespace JavaScript.Lexical

theorem words_append_cons (cs cs' : List Char) {b : Char} (hb : isBlank b = true) :
    words (cs ++ b :: cs') = words cs ++ words cs' := by
  rw [words, List.splitOnP_append_cons _ _ hb, List.filter_append]
  rfl

theorem words_blanks_append {gap : List Char} (hgap : ∀ c ∈ gap, isBlank c = true)
    (cs : List Char) : words (gap ++ cs) = words cs := by
  induction gap with
  | nil => rfl
  | cons b gap ih =>
    obtain ⟨hb, hgap⟩ := List.forall_mem_cons.mp hgap
    rw [List.cons_append, ← List.nil_append (b :: (gap ++ cs)), words_append_cons _ _ hb, ih hgap]
    rfl

/-- A text without blanks is one word. -/
theorem words_eq_singleton {cs : List Char} (hcs : ∀ c ∈ cs, isBlank c = false) (hne : cs ≠ []) :
    words cs = [cs] := by
  rw [words, List.splitOnP_eq_singleton hcs]
  simp [hne]

end JavaScript.Lexical

open JavaScript.Lexical

namespace Syntax

/-- A keyword is one word. -/
theorem Keyword.words_text (k : Keyword) : words k.text.toList = [k.text.toList] :=
  words_eq_singleton k.not_isBlank_text.2 k.not_isBlank_text.1

/-! ### The tokens in front of a name -/

namespace Node

/-- The tokens in front of the name of a method. -/
def modifierTokens (n : Node) : List Node :=
  (n.children.takeWhile (·.field ≠ some .name)).filter (!·.isNamed)

/-- The texts of the tokens in front of the name of a method. -/
def modifierTexts (source : List Char) (n : Node) : List String :=
  n.modifierTokens.map (·.text source)

/-- The words in front of the name of a method. -/
def modifierWords (source : List Char) (n : Node) : List String :=
  n.modifierTokens.flatMap fun token => (words (token.chars source)).map String.ofList

/-- Whether one of the tokens in front of the name of a method holds two words. -/
def hasFusedModifier (n : Node) : Bool := n.modifierTokens.any (·.kind = .mark "static get")

end Node

/-- The method is what the modifiers ask for. -/
structure Method.Heeds (m : Method) (modifiers : List String) : Prop where
  static : m.isStatic = true ↔ "static" ∈ modifiers
  getter : m.kind = .getter ↔ "get" ∈ modifiers
  setter : m.kind = .setter ↔ "set" ∈ modifiers
  constructor : m.kind = .constructor ↔ m.key = .identifier "constructor" ∧
    "static" ∉ modifiers ∧ "get" ∉ modifiers ∧ "set" ∉ modifiers

/-- The accessor that a token asks for. -/
def Node.accessor? (n : Node) : Option MethodKind :=
  if n.kind = .word .getWord then some .getter
  else if n.kind = .word .setWord then some .setter
  else none

/-- What may stand in front of a name. -/
structure ModifierTokens (source : List Char) (tokens : List Node) : Prop where
  spelled : ∀ t ∈ tokens, (∃ k, t.IsWord source k) ∨ t.IsMark source "*" ∨ t.IsFused source
  accessors : (tokens.filterMap Node.accessor?).length ≤ 1
  fused : (∃ t ∈ tokens, t.IsFused source) → ∀ t ∈ tokens, t.kind ≠ .word .staticWord

section Tokens

variable {source : List Char}

theorem Node.isNamed_of_kind {n : Node} {k : Kind} (h : n.kind = k) : n.isNamed = k.isNamed := by
  rw [isNamed, h]

/-- A part has one token or none. -/
theorem MaybePart.tokens {Q : Node → Prop} {ns : List Node} (h : MaybePart Q ns)
    (hQ : ∀ n, Q n → n.isNamed = false) :
    ∃ token : Option Node, ns.filter (!·.isNamed) = token.toList ∧ ∀ t ∈ token, Q t := by
  rcases h with rfl | ⟨hbefore, hn⟩
  · exact ⟨none, rfl, by simp⟩
  · rename_i before n
    have hnone : before.filter (!·.isNamed) = [] :=
      List.filter_eq_nil_iff.mpr fun e he => by simp [(hbefore e he).isNamed]
    refine ⟨some n, ?_, by simpa using hn⟩
    rw [List.filter_append, hnone, List.filter_cons_of_pos (by simp [hQ n hn])]
    rfl

/-- The tokens among the modifiers of a method may stand in front of a name. -/
theorem ModifierParts.tokens {ns : List Node} (h : ModifierParts source ns) :
    ModifierTokens source (ns.filter (!·.isNamed)) := by
  obtain ⟨hstatic, hasync, haccessor⟩ := h
  obtain ⟨static, hstatics, hstatic⟩ := hstatic.tokens fun n hn =>
    hn.elim (fun h => Node.isNamed_of_kind h.kind) (fun h => Node.isNamed_of_kind h.kind)
  obtain ⟨async, hasyncs, hasync⟩ := hasync.tokens fun n hn => Node.isNamed_of_kind hn.kind
  obtain ⟨accessor, haccessors, haccessor⟩ := haccessor.tokens fun n hn =>
    hn.elim (fun h => Node.isNamed_of_kind h.kind) (·.elim (fun h => Node.isNamed_of_kind h.kind)
      (fun h => Node.isNamed_of_kind h.kind))
  rw [List.filter_append, List.filter_append, hstatics, hasyncs, haccessors]
  have hnostatic : ∀ t ∈ async.toList ++ accessor.toList,
      t.kind ≠ .word .staticWord ∧ t.kind ≠ .mark "static get" := by
    simp only [List.mem_append, Option.mem_toList]
    rintro t (ht | ht)
    · simp [(hasync t ht).kind]
    · rcases haccessor t ht with h | h | h <;> simp [h.kind]
  constructor
  · simp only [List.mem_append, Option.mem_toList]
    rintro t ((ht | ht) | ht)
    · exact (hstatic t ht).imp (⟨_, ·⟩) .inr
    · exact .inl ⟨_, hasync t ht⟩
    · rcases haccessor t ht with h | h | h
      · exact .inl ⟨_, h⟩
      · exact .inl ⟨_, h⟩
      · exact .inr (.inl h)
  · -- Only the last of the three places is one of accessors.
    have hstatics : static.toList.filterMap Node.accessor? = [] := by
      refine List.filterMap_eq_nil_iff.mpr fun t ht => ?_
      rcases hstatic t (Option.mem_toList.mp ht) with h | h <;> simp [Node.accessor?, h.kind]
    have hasyncs : async.toList.filterMap Node.accessor? = [] := by
      refine List.filterMap_eq_nil_iff.mpr fun t ht => ?_
      simp [Node.accessor?, (hasync t (Option.mem_toList.mp ht)).kind]
    rw [List.filterMap_append, List.filterMap_append, hstatics, hasyncs]
    refine (List.length_filterMap_le _ _).trans ?_
    cases accessor <;> simp
  · rintro ⟨f, hf, hfused⟩ t ht
    rw [List.append_assoc] at hf ht
    have hfirst : f ∈ static.toList :=
      (List.mem_append.mp hf).resolve_right fun hf => (hnostatic f hf).2 hfused.kind
    rcases List.mem_append.mp ht with ht | ht
    · rw [Option.mem_toList] at hfirst ht
      cases hfirst.symm.trans ht
      simp [hfused.kind]
    · exact (hnostatic t ht).1

/-! ### Texts and words of a token -/

/-- A token is a keyword if it is spelled like one. -/
theorem ModifierTokens.text_eq_iff {tokens : List Node} (h : ModifierTokens source tokens)
    {t : Node} (ht : t ∈ tokens) (k : Keyword) : t.text source = k.text ↔ t.kind = .word k := by
  have hchars : t.text source = k.text ↔ t.chars source = k.text.toList := by
    rw [Node.text, ← String.toList_inj, String.toList_ofList]
  rw [hchars]
  rcases h.spelled t ht with ⟨k', hword⟩ | hmark | hfused
  · rw [hword.kind, hword.chars, Kind.word.injEq]
    constructor
    · intro htext
      have hfound := k'.ofChars?_text
      rw [htext, k.ofChars?_text] at hfound
      exact (Option.some.inj hfound).symm
    · rintro rfl
      rfl
  · refine iff_of_false (fun htext => ?_) (by simp [hmark.kind])
    have hfound := k.ofChars?_text
    rw [← htext, hmark.chars] at hfound
    cases hfound
  · refine iff_of_false (fun htext => ?_) (by simp [hfused.kind])
    -- A keyword has no blanks.
    obtain ⟨gap, tail, hchars, hne, hgap, -⟩ := hfused.chars
    obtain ⟨b, gap, rfl⟩ := List.exists_cons_of_ne_nil hne
    have hb := hgap b List.mem_cons_self
    have hmem : b ∈ k.text.toList := by
      rw [← htext, hchars]
      simp
    rw [k.not_isBlank_text.2 b hmem] at hb
    cases hb

/-- The token of two words holds `static` and `get`. -/
theorem Node.IsFused.words {t : Node} (h : t.IsFused source) :
    words (t.chars source) = ["static".toList, "get".toList] := by
  obtain ⟨gap, tail, hchars, hne, hgap, htail⟩ := h.chars
  obtain ⟨b, gap, rfl⟩ := List.exists_cons_of_ne_nil hne
  obtain ⟨hb, hgap⟩ := List.forall_mem_cons.mp hgap
  have hstatic : JavaScript.Lexical.words "static".toList = ["static".toList] :=
    Keyword.staticWord.words_text
  have hget : JavaScript.Lexical.words ("get".toList ++ tail) = ["get".toList] := by
    have hget : JavaScript.Lexical.words "get".toList = ["get".toList] :=
      Keyword.getWord.words_text
    cases tail with
    | nil => rw [List.append_nil, hget]
    | cons b tail =>
      obtain ⟨hb, htail⟩ := List.forall_mem_cons.mp htail
      rw [words_append_cons _ _ hb, ← List.append_nil tail, words_blanks_append htail, hget]
      rfl
  rw [hchars, List.append_assoc, List.append_assoc, List.cons_append, words_append_cons _ _ hb,
    words_blanks_append hgap, hstatic, hget]
  rfl

/-! ### What a method is read off -/

/-- A method has a name, and only what is in front of it are tokens. -/
theorem MethodParts.tokens {n : Node} (h : MethodParts source n.children) :
    (∃ name, n.child? .name = some name) ∧
      n.children.filter (!·.isNamed) = n.modifierTokens ∧
      ModifierTokens source n.modifierTokens := by
  rw [Node.child?, Node.modifierTokens]
  generalize n.children = ns at h
  obtain ⟨hdecorators, hmodifiers, hbefore, hnamed, hfield, hrest, -⟩ := h
  rename_i decorators modifiers before rest key
  have hhead := MethodParts.field_eq_none hdecorators hmodifiers hbefore
  have htake : (decorators ++ modifiers ++ before ++ key :: rest).takeWhile
      (·.field ≠ some .name) = decorators ++ modifiers ++ before := by
    rw [List.takeWhile_append_of_pos (fun m hm => by simp [hhead m hm]),
      List.takeWhile_cons_of_neg (by simp [hfield]), List.append_nil]
  -- Decorators, comments, the name and what follows it are constructs.
  have hconstructs : ∀ {ns : List Node}, (∀ m ∈ ns, m.isNamed = true) →
      ns.filter (!·.isNamed) = [] :=
    fun h => List.filter_eq_nil_iff.mpr fun m hm => by simp [h m hm]
  have hdecorators : decorators.filter (!·.isNamed) = [] := by
    refine hconstructs fun m hm => ?_
    obtain ⟨hextra | hkind, hfield⟩ := hdecorators m hm
    · exact Node.IsExtra.isNamed ⟨hextra, hfield⟩
    · exact Node.isNamed_of_kind hkind
  have hbefore : before.filter (!·.isNamed) = [] := hconstructs fun e he => (hbefore e he).isNamed
  have hafter : (key :: rest).filter (!·.isNamed) = [] :=
    hconstructs (List.forall_mem_cons.mpr ⟨hnamed, fun m hm => (hrest m hm).1⟩)
  have hfront : (decorators ++ modifiers ++ before).filter (!·.isNamed) =
      modifiers.filter (!·.isNamed) := by
    rw [List.filter_append, List.filter_append, hdecorators, hbefore, List.append_nil,
      List.nil_append]
  rw [htake]
  refine ⟨⟨key, find?_name hhead hfield⟩, ?_, ?_⟩
  · rw [List.filter_append, hafter, List.append_nil]
  · rw [hfront]
    exact hmodifiers.tokens

/-- The last accessor word decides what a method is called for. -/
theorem MethodKind.ofNode_eq (n : Node) (key : MemberKey) :
    MethodKind.ofNode n key =
      let accessor := (n.children.filterMap Node.accessor?).getLast?.getD .method
      if accessor = .method && !n.hasModifier .staticWord && key = .identifier "constructor" then
        .constructor
      else accessor := by
  have hfold : ∀ (ns : List Node) (kind : MethodKind), ns.foldl (fun kind child =>
      if child.kind = .word .getWord then .getter
      else if child.kind = .word .setWord then .setter
      else kind) kind = (ns.filterMap Node.accessor?).getLast?.getD kind := by
    intro ns
    induction ns with
    | nil => exact fun kind => rfl
    | cons n ns ih =>
      intro kind
      rw [List.foldl_cons, ih, List.filterMap_cons, Node.accessor?]
      split
      · rw [List.getLast?_cons]
        rfl
      · split
        · rw [List.getLast?_cons]
          rfl
        · rfl
  rw [ofNode, hfold]

theorem Node.mem_filterMap_accessor?_iff {ns : List Node} {kind : MethodKind} :
    kind ∈ ns.filterMap Node.accessor? ↔
      kind = .getter ∧ (∃ t ∈ ns, t.kind = .word .getWord) ∨
        kind = .setter ∧ ∃ t ∈ ns, t.kind = .word .setWord := by
  rw [List.mem_filterMap]
  constructor
  · rintro ⟨t, ht, hkind⟩
    rw [accessor?] at hkind
    split at hkind
    · cases hkind
      exact .inl ⟨rfl, t, ht, ‹_›⟩
    · split at hkind
      · cases hkind
        exact .inr ⟨rfl, t, ht, ‹_›⟩
      · cases hkind
  · rintro (⟨rfl, t, ht, hkind⟩ | ⟨rfl, t, ht, hkind⟩)
    · exact ⟨t, ht, by simp [accessor?, hkind]⟩
    · exact ⟨t, ht, by simp [accessor?, hkind]⟩

/-- A keyword is a child of a method if it is among the texts in front of the name. -/
theorem MethodParts.mem_texts_iff {n : Node} (h : MethodParts source n.children) (k : Keyword) :
    (∃ t ∈ n.children, t.kind = .word k) ↔ k.text ∈ n.modifierTexts source := by
  obtain ⟨-, hfilter, htokens⟩ := h.tokens
  rw [Node.modifierTexts, List.mem_map]
  constructor
  · rintro ⟨t, ht, hkind⟩
    have hmem : t ∈ n.modifierTokens := by
      rw [← hfilter]
      exact List.mem_filter.mpr ⟨ht, by simp [Node.isNamed_of_kind hkind, Kind.isNamed]⟩
    exact ⟨t, hmem, (htokens.text_eq_iff hmem k).mpr hkind⟩
  · rintro ⟨t, ht, htext⟩
    refine ⟨t, ?_, (htokens.text_eq_iff ht k).mp htext⟩
    rw [← hfilter] at ht
    exact List.mem_of_mem_filter ht

/-- A method heeds the texts of the tokens in front of its name. -/
theorem MethodParts.heeds_texts {n : Node} (h : MethodParts source n.children) :
    ∃ m, Method.ofNode? source n = some m ∧ m.Heeds (n.modifierTexts source) ∧
      m.isStatic = n.hasModifier .staticWord := by
  obtain ⟨⟨name, hname⟩, hfilter, htokens⟩ := h.tokens
  have hget := h.mem_texts_iff .getWord
  have hset := h.mem_texts_iff .setWord
  have hstatic : n.hasModifier .staticWord = true ↔ "static" ∈ n.modifierTexts source := by
    rw [Node.hasModifier, List.any_eq_true]
    simp only [decide_eq_true_eq]
    exact h.mem_texts_iff .staticWord
  -- There is one accessor word at most.
  have haccessors : (n.children.filterMap Node.accessor?).length ≤ 1 := by
    have hsame : n.children.filterMap Node.accessor? =
        n.modifierTokens.filterMap Node.accessor? := by
      rw [← hfilter, List.filterMap_filter]
      refine congrArg (n.children.filterMap ·) (funext fun t => ?_)
      cases hnamed : t.isNamed with
      | false => rfl
      | true =>
        have hword : ∀ k, t.kind ≠ .word k := by
          intro k hkind
          rw [Node.isNamed_of_kind hkind] at hnamed
          cases hnamed
        simp [Node.accessor?, hword]
    rw [hsame]
    exact htokens.accessors
  have hgetter : .getter ∈ n.children.filterMap Node.accessor? ↔
      "get" ∈ n.modifierTexts source := by
    rw [Node.mem_filterMap_accessor?_iff, hget]
    simp [Keyword.text]
  have hsetter : .setter ∈ n.children.filterMap Node.accessor? ↔
      "set" ∈ n.modifierTexts source := by
    rw [Node.mem_filterMap_accessor?_iff, hset]
    simp [Keyword.text]
  refine ⟨_, by rw [Method.ofNode?, hname]; rfl, ?_, rfl⟩
  generalize MemberKey.ofNode source name = key
  have hkind := MethodKind.ofNode_eq n key
  have hof : ∀ a ∈ n.children.filterMap Node.accessor?, a = .getter ∨ a = .setter :=
    fun a ha => (Node.mem_filterMap_accessor?_iff.mp ha).imp And.left And.left
  generalize n.children.filterMap Node.accessor? = accessors at *
  rcases accessors with _ | ⟨a, _ | ⟨b, accessors⟩⟩
  · by_cases hplain : n.hasModifier .staticWord = false ∧ key = .identifier "constructor"
    · have hkind : MethodKind.ofNode n key = .constructor := by
        rw [hkind]
        simp [hplain]
      refine ⟨hstatic, ?_, ?_, ?_⟩
      all_goals
        simp only [hkind, ← hgetter, ← hsetter, ← hstatic]
        simp [hplain]
    · have hkind : MethodKind.ofNode n key = .method := by
        rw [hkind]
        simpa using hplain
      refine ⟨hstatic, ?_, ?_, ?_⟩
      all_goals simp only [hkind, ← hgetter, ← hsetter, ← hstatic]
      · simp
      · simp
      · simpa [and_comm] using hplain
  · have hkind : MethodKind.ofNode n key = a := by
      rw [hkind]
      rcases hof a List.mem_cons_self with rfl | rfl <;> rfl
    refine ⟨hstatic, ?_, ?_, ?_⟩
    all_goals
      simp only [hkind, ← hgetter, ← hsetter, ← hstatic]
      rcases hof a List.mem_cons_self with rfl | rfl <;> simp
  · rw [List.length_cons, List.length_cons] at haccessors
    omega

/-! ### Texts and words -/

/-- Without the token of two words, the texts of the tokens are the words. -/
theorem ModifierTokens.words_eq_texts {n : Node} (h : ModifierTokens source n.modifierTokens)
    (hfused : n.hasFusedModifier = false) : n.modifierWords source = n.modifierTexts source := by
  rw [Node.modifierWords, Node.modifierTexts, List.map_eq_flatMap]
  refine List.flatMap_congr fun t ht => ?_
  have hone : ∀ {k : List Char}, t.chars source = k → words k = [k] →
      (words (t.chars source)).map String.ofList = [t.text source] := by
    intro k hchars hwords
    rw [Node.text, hchars, hwords]
    rfl
  rcases h.spelled t ht with ⟨k, hword⟩ | hmark | hboth
  · exact hone hword.chars k.words_text
  · refine hone hmark.chars (words_eq_singleton (fun c hc => ?_) (List.cons_ne_nil '*' []))
    rw [List.mem_singleton.mp (show c ∈ ['*'] from hc)]
    rfl
  · rw [Node.hasFusedModifier, List.any_eq_false] at hfused
    exact absurd (by simp [hboth.kind]) (hfused t ht)

/-- The token of two words adds them to the words, but not to what the method is. -/
theorem MethodParts.words_of_fused {n : Node} (h : MethodParts source n.children)
    (hfused : n.hasFusedModifier = true) :
    "static" ∈ n.modifierWords source ∧ "get" ∈ n.modifierWords source ∧
      n.hasModifier .staticWord = false := by
  obtain ⟨-, hfilter, htokens⟩ := h.tokens
  rw [Node.hasFusedModifier, List.any_eq_true] at hfused
  obtain ⟨t, ht, hkind⟩ := hfused
  have hkind : t.kind = .mark "static get" := of_decide_eq_true hkind
  have hfused : t.IsFused source := by
    rcases htokens.spelled t ht with ⟨k, hword⟩ | hmark | hfused
    · cases hword.kind.symm.trans hkind
    · simp [hmark.kind] at hkind
    · exact hfused
  have hwords : (words (t.chars source)).map String.ofList = ["static", "get"] := by
    rw [hfused.words]
    rfl
  refine ⟨?_, ?_, ?_⟩
  · exact List.mem_flatMap.mpr ⟨t, ht, by simp [hwords]⟩
  · exact List.mem_flatMap.mpr ⟨t, ht, by simp [hwords]⟩
  · rw [Node.hasModifier, List.any_eq_false]
    intro s hs hstatic
    have hstatic : s.kind = .word .staticWord := of_decide_eq_true hstatic
    refine htokens.fused ⟨t, ht, hfused⟩ s ?_ hstatic
    rw [← hfilter]
    exact List.mem_filter.mpr ⟨hs, by simp [Node.isNamed_of_kind hstatic, Kind.isNamed]⟩

end Tokens

namespace SyntaxTree

variable {source : String} {path : Path} {t : SyntaxTree}

/-- **A method heeds its modifiers unless two of them share a token.** Every method of a class is
what the tokens in front of its name ask for, whatever its name is. It is what the words there ask
for exactly if the token `static get` is not among them: a method with that token is not static. -/
theorem modifiers_heeded_unless_fused (h : JavaScript.parse source path = .ok t)
    {parent : Option Kind} {n : Node} {c : ClassDeclaration}
    (hv : (parent, n) ∈ Visit.all none t.root)
    (hc : Declaration.ofNode? t.source.toList parent n = some (.classDeclaration c)) :
    c.members = n.memberNodes.map (Member.ofNode t.source.toList) ∧
      ∀ node ∈ n.memberNodes, node.kind = .methodDefinition →
        ∃ m, Member.ofNode t.source.toList node = .method m ∧
          m.Heeds (node.modifierTexts t.source.toList) ∧
          (m.Heeds (node.modifierWords t.source.toList) ↔ node.hasFusedModifier = false) ∧
          (node.hasFusedModifier = true → m.isStatic = false ∧
            "static" ∈ node.modifierWords t.source.toList ∧
            "get" ∈ node.modifierWords t.source.toList) := by
  have hn : n ∈ t.root.preorder := Visit.mem_preorder hv
  obtain ⟨-, -, -, hmembers⟩ := Declaration.eq_of_ofClass (Declaration.ofClass_of_ofNode? hc)
  refine ⟨hmembers.trans (Node.members_eq _ _), fun node hnode hkind => ?_⟩
  have hparts := methodParts_of_mem_memberNodes h hn hnode hkind
  obtain ⟨m, hm, htexts, hstatic⟩ := hparts.heeds_texts
  have hfused : node.hasFusedModifier = true → m.isStatic = false ∧
      "static" ∈ node.modifierWords t.source.toList ∧
      "get" ∈ node.modifierWords t.source.toList := by
    intro hfused
    obtain ⟨hstaticWord, hgetWord, hno⟩ := hparts.words_of_fused hfused
    exact ⟨hstatic.trans hno, hstaticWord, hgetWord⟩
  refine ⟨m, by rw [Member.ofNode, if_pos hkind, hm], htexts, ⟨fun hwords => ?_, fun hone => ?_⟩,
    hfused⟩
  · by_contra hboth
    obtain ⟨hno, hstaticWord, -⟩ := hfused (Bool.eq_true_of_not_eq_false hboth)
    have hyes := hwords.static.mpr hstaticWord
    rw [hno] at hyes
    cases hyes
  · obtain ⟨-, -, htokens⟩ := hparts.tokens
    rw [htokens.words_eq_texts hone]
    exact htexts

/-- A method that is written as a static getter, with a line break in front of its name. -/
def brokenGetter : String := "class A \x7b\n  static get\n foo() \x7b\x7d\n\x7d"

/-- The method of `brokenGetter` is written as a static getter, and read as neither. -/
theorem visited_brokenGetter :
    ∃ t, JavaScript.parse brokenGetter "test.js" = .ok t ∧
      ∃ parent n c node, (parent, n) ∈ Visit.all none t.root ∧
        Declaration.ofNode? t.source.toList parent n = some (.classDeclaration c) ∧
        node ∈ n.memberNodes ∧ node.kind = .methodDefinition ∧ node.hasFusedModifier = true ∧
        Member.ofNode t.source.toList node = .method ⟨.identifier "foo", false, .method, 2⟩ ∧
        "static" ∈ node.modifierWords t.source.toList := by
  obtain ⟨t, ht, ⟨parent, n⟩, hv, htest⟩ := JavaScript.exists_visit_of_parse
    brokenGetter "test.js"
    (fun t v => Declaration.ofNode? t.source.toList v.1 v.2 = some (.classDeclaration
        ⟨"A", none, [.method ⟨.identifier "foo", false, .method, 2⟩], 1⟩) &&
      v.2.memberNodes.any fun node => node.kind = .methodDefinition && node.hasFusedModifier &&
        (Member.ofNode t.source.toList node = .method ⟨.identifier "foo", false, .method, 2⟩ &&
          "static" ∈ node.modifierWords t.source.toList))
    (by decide +kernel)
  simp only [Bool.and_eq_true, decide_eq_true_eq, List.any_eq_true] at htest
  obtain ⟨hc, node, hnode, ⟨hkind, hfused⟩, hm, hstatic⟩ := htest
  exact ⟨t, ht, parent, n, _, node, hv, hc, hnode, hkind, hfused, hm, hstatic⟩

/-- The method of `brokenGetter` does not heed the words in front of its name. -/
theorem modifiers_not_heeded_brokenGetter :
    ∃ t, JavaScript.parse brokenGetter "test.js" = .ok t ∧
      ∃ parent n c node m, (parent, n) ∈ Visit.all none t.root ∧
        Declaration.ofNode? t.source.toList parent n = some (.classDeclaration c) ∧
        node ∈ n.memberNodes ∧ Member.ofNode t.source.toList node = .method m ∧
        m.Heeds (node.modifierTexts t.source.toList) ∧
        ¬m.Heeds (node.modifierWords t.source.toList) := by
  obtain ⟨t, ht, parent, n, c, node, hv, hc, hnode, hkind, hfused, -, -⟩ := visited_brokenGetter
  obtain ⟨m, hm, htexts, hwords, -⟩ :=
    (modifiers_heeded_unless_fused ht hv hc).2 node hnode hkind
  refine ⟨t, ht, parent, n, c, node, m, hv, hc, hnode, hm, htexts, fun hheeds => ?_⟩
  rw [hwords.mp hheeds] at hfused
  cases hfused

/-- **Not every method heeds the words in front of its name.** -/
theorem not_methods_heed_words :
    ¬∀ (source : String) (path : Path) (t : SyntaxTree),
      JavaScript.parse source path = .ok t →
        ∀ parent n c, (parent, n) ∈ Visit.all none t.root →
          Declaration.ofNode? t.source.toList parent n = some (.classDeclaration c) →
            ∀ node ∈ n.memberNodes, node.kind = .methodDefinition →
              ∀ m, Member.ofNode t.source.toList node = .method m →
                m.Heeds (node.modifierWords t.source.toList) := by
  intro hclaim
  obtain ⟨t, ht, parent, n, c, node, hv, hc, hnode, hkind, -, hm, hstatic⟩ := visited_brokenGetter
  have hheeds := hclaim brokenGetter "test.js" t ht parent n c hv hc node hnode hkind _ hm
  cases hheeds.static.mpr hstatic

end SyntaxTree

end Syntax

end SymbolIndex
