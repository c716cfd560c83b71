import Mathlib.Data.List.Basic
import SymbolIndex.JavaScript.Lexical
import SymbolIndex.Syntax.Node

/-!
# What definitions are made of

The nodes that a class, a function or a method consists of come in a certain order, each with
nothing but comments in front of it (`Part`), and its tokens are spelled as their kinds say.
`ClassParts`, `Named` and `MethodParts` mirror the grammar one level deep: they say what the children
of such a node are, and of what is further below only how a heritage clause is made up.

An error counts as something between tokens, just as a comment does, so faulty texts are made of the
same parts.
-/

namespace SymbolIndex.Syntax

open JavaScript

/-! ### Sorts of definitions -/

/-- What a definition defines. -/
inductive DefinitionSort where
  | ofClass
  | ofFunction
  | ofMethod
  deriving DecidableEq, Repr

namespace Kind

/-- What a node of the kind defines: a declaration the same as an expression. -/
def sort? : Kind → Option DefinitionSort
  | .classDeclaration | .classExpression => some .ofClass
  | .functionDeclaration | .functionExpression
  | .generatorFunctionDeclaration | .generatorFunction => some .ofFunction
  | .methodDefinition => some .ofMethod
  | _ => none

/-- What may stand between any two tokens. -/
def isExtra : Kind → Bool
  | .comment | .htmlComment | .error => true
  | _ => false

end Kind

/-! ### Single nodes -/

namespace Node

variable (source : List Char) (n : Node)

/-- The node stands between two tokens. -/
structure IsExtra : Prop where
  kind : n.kind.isExtra = true
  field : n.field = none

/-- The node is a keyword and spelled as such. -/
structure IsWord (k : Keyword) : Prop where
  kind : n.kind = .word k
  field : n.field = none
  chars : n.chars source = k.text.toList

/-- The node is a mark and spelled as such. -/
structure IsMark (text : String) : Prop where
  kind : n.kind = .mark text
  field : n.field = none
  chars : n.chars source = text.toList

/-- The node is the one token that holds two words: `static`, some blanks, `get`, and blanks up to a
line break. -/
structure IsFused : Prop where
  kind : n.kind = .mark "static get"
  field : n.field = none
  chars : ∃ gap tail, n.chars source = "static".toList ++ gap ++ "get".toList ++ tail ∧ gap ≠ [] ∧
    (∀ c ∈ gap, Lexical.isBlank c = true) ∧ ∀ c ∈ tail, Lexical.isBlank c = true

/-- The text of the node is a name. -/
structure SpellsName : Prop where
  chars_ne_nil : n.chars source ≠ []
  dot_not_mem : '.' ∉ n.chars source

/-- The node is a heritage clause: `extends`, comments, and one node more. -/
structure IsHeritage : Prop where
  kind : n.kind = .classHeritage
  field : n.field = none
  children : ∃ word comments expression, n.children = word :: comments ++ [expression] ∧
    word.IsWord source .extendsWord ∧ ∀ e ∈ comments, e.IsExtra

end Node

/-! ### Parts -/

/-- A node that is `Q`, and the extras in front of it. -/
inductive Part (Q : Node → Prop) : List Node → Prop
  | intro {before : List Node} {n : Node} (hbefore : ∀ e ∈ before, e.IsExtra) (hn : Q n) :
    Part Q (before ++ [n])

/-- Such a part, or nothing. -/
def MaybePart (Q : Node → Prop) (ns : List Node) : Prop := ns = [] ∨ Part Q ns

/-- Decorators, and extras in front of each. -/
def Decorators (ns : List Node) : Prop :=
  ∀ n ∈ ns, (n.kind.isExtra = true ∨ n.kind = .decorator) ∧ n.field = none

/-- What is in the role of a name is a name. -/
def Named (source : List Char) (ns : List Node) : Prop :=
  ∀ n ∈ ns, n.field = some .name → n.SpellsName source

/-- What a class is made of. -/
inductive ClassParts (source : List Char) : List Node → Prop
  | intro {decorators word name heritage body : List Node} (hdecorators : Decorators decorators)
    (hword : Part (·.IsWord source .classWord) word)
    (hname : MaybePart (fun n => n.kind = .identifier ∧ n.field = some .name ∧
      n.SpellsName source) name)
    (hheritage : MaybePart (·.IsHeritage source) heritage)
    (hbody : Part (fun n => n.kind = .classBody ∧ n.field = some .body) body) :
    ClassParts source (decorators ++ word ++ name ++ heritage ++ body)

/-- The modifiers of a method: each at most once, in this order. -/
inductive ModifierParts (source : List Char) : List Node → Prop
  | intro {static async accessor : List Node}
    (hstatic : MaybePart (fun n => n.IsWord source .staticWord ∨ n.IsFused source) static)
    (hasync : MaybePart (·.IsWord source .asyncWord) async)
    (haccessor : MaybePart (fun n => n.IsWord source .getWord ∨ n.IsWord source .setWord ∨
      n.IsMark source "*") accessor) :
    ModifierParts source (static ++ async ++ accessor)

/-- What a method is made of. A plain name has characters, unless an error follows it. -/
inductive MethodParts (source : List Char) : List Node → Prop
  | intro {decorators modifiers before rest : List Node} {key : Node}
    (hdecorators : Decorators decorators) (hmodifiers : ModifierParts source modifiers)
    (hbefore : ∀ e ∈ before, e.IsExtra) (hnamed : key.isNamed = true)
    (hkey : key.field = some .name)
    (hrest : ∀ n ∈ rest, n.isNamed = true ∧ n.field ≠ some .name)
    (hname : key.kind = .propertyIdentifier ∨ key.kind = .privatePropertyIdentifier →
      key.chars source ≠ [] ∨ ∃ e ∈ rest, e.kind = .error) :
    MethodParts source (decorators ++ modifiers ++ before ++ key :: rest)

/-- The nodes are what a definition of the sort is made of. -/
def DefinitionSort.Parts (source : List Char) : DefinitionSort → List Node → Prop
  | .ofClass => ClassParts source
  | .ofFunction => Named source
  | .ofMethod => MethodParts source

/-- The nodes are what a node of the kind is made of, if it is a definition. -/
def Kind.Parts (source : List Char) (k : Kind) (ns : List Node) : Prop :=
  ∀ sort ∈ k.sort?, sort.Parts source ns

theorem Node.IsExtra.isNamed {n : Node} (h : n.IsExtra) : n.isNamed = true := by
  have hkind := h.kind
  rw [Node.isNamed]
  cases hk : n.kind <;> rw [hk] at hkind <;> first | rfl | cases hkind

theorem Node.IsExtra.kind_ne {n : Node} {k : Kind} (h : n.IsExtra) (hk : k.isExtra = false) :
    n.kind ≠ k := by
  rintro rfl
  rw [h.kind] at hk
  cases hk

/-! ### What parts have in common -/

variable {source : List Char} {P Q : Node → Prop} {ns : List Node}

theorem Part.of_mem (h : Part Q ns) (hextra : ∀ e : Node, e.IsExtra → P e)
    (hnode : ∀ n, Q n → P n) : ∀ n ∈ ns, P n := by
  obtain ⟨hbefore, hn⟩ := h
  intro n hmem
  rcases List.mem_append.mp hmem with hmem | hmem
  · exact hextra n (hbefore n hmem)
  · rw [List.mem_singleton.mp hmem]
    exact hnode _ hn

theorem Part.imp (h : Part Q ns) (hPQ : ∀ n, Q n → P n) : Part P ns := by
  obtain ⟨hbefore, hn⟩ := h
  exact .intro hbefore (hPQ _ hn)

theorem MaybePart.of_mem (h : MaybePart Q ns) (hextra : ∀ e : Node, e.IsExtra → P e)
    (hnode : ∀ n, Q n → P n) : ∀ n ∈ ns, P n := by
  rcases h with rfl | h
  · simp
  · exact h.of_mem hextra hnode

theorem Part.named (h : Part Q ns)
    (hname : ∀ n, Q n → n.field = some .name → n.SpellsName source) : Named source ns :=
  h.of_mem (fun e he => by simp [he.field]) hname

theorem MaybePart.named (h : MaybePart Q ns)
    (hname : ∀ n, Q n → n.field = some .name → n.SpellsName source) : Named source ns :=
  h.of_mem (fun e he => by simp [he.field]) hname

/-- What a node of a class can be. -/
inductive ClassPart (source : List Char) (n : Node) : Prop
  | extra (h : n.IsExtra)
  | decorator (h : n.kind = .decorator)
  | word (h : n.IsWord source .classWord)
  | name (h : n.kind = .identifier)
  | heritage (h : n.IsHeritage source)
  | body (h : n.kind = .classBody)

theorem ClassParts.classPart_of_mem (h : ClassParts source ns) :
    ∀ n ∈ ns, ClassPart source n := by
  obtain ⟨hdecorators, hword, hname, hheritage, hbody⟩ := h
  simp only [List.forall_mem_append]
  refine ⟨⟨⟨⟨fun n hn => ?_, ?_⟩, ?_⟩, ?_⟩, ?_⟩
  · obtain ⟨hextra | hdecorator, hfield⟩ := hdecorators n hn
    · exact .extra ⟨hextra, hfield⟩
    · exact .decorator hdecorator
  · exact hword.of_mem (fun _ => .extra) fun _ => .word
  · exact hname.of_mem (fun _ => .extra) fun _ hn => .name hn.1
  · exact hheritage.of_mem (fun _ => .extra) fun _ => .heritage
  · exact hbody.of_mem (fun _ => .extra) fun _ hn => .body hn.1

/-- Only the name of a class is in the role of one. -/
theorem ClassParts.named (h : ClassParts source ns) : Named source ns := by
  obtain ⟨hdecorators, hword, hname, hheritage, hbody⟩ := h
  simp only [Named, List.forall_mem_append]
  exact ⟨⟨⟨⟨fun n hn => by simp [(hdecorators n hn).2], hword.named fun n hn => by simp [hn.field]⟩,
    hname.named fun n hn _ => hn.2.2⟩, hheritage.named fun n hn => by simp [hn.field]⟩,
    hbody.named fun n hn => by simp [hn.2]⟩

end SymbolIndex.Syntax
