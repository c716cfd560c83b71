import SymbolIndex.Proofs.JavaScript.Name
import SymbolIndex.Proofs.JavaScript.Reader

/-!
# The parts that readers answer with

`Gives P Q p` says that `p` answers with something that is `Q` if it starts at a place that is `P`;
a place is known by the characters to be read and their position. Two kinds of places matter: those
in a given text (`InText`), where what is read as a token is spelled as such, and those in front of
a `#`, which no token but a private name starts with (`AtHash`).

The rules go along the readers. Looking ahead stays at a place. Reading goes on to another one,
which is known to be in the text by `After`. Behind what stands between tokens a token is next
(`Reader.atToken_of_extras`), and then there is nothing between tokens any more but errors
(`Reader.extras_of_atToken`).
-/

namespace SymbolIndex.JavaScript

open Syntax Lexical

namespace Cursor

/-- Neither a blank nor a comment is next, so a token is, or the end of the text. -/
structure AtToken (c : Cursor) : Prop where
  separator : c.rest.head?.any isSeparator = false
  html : c.html = true → htmlCommentLength c.rest = 0
  comment : commentLength c.rest = 0

/-- Characters that are no blanks and that no comment starts with. -/
def startsToken (ch : Char) : Bool := !isSeparator ch && ch ≠ '/' && ch ≠ '<' && ch ≠ '-'

/-- A character that starts a token is enough to tell that one is next. -/
theorem AtToken.of_head {c : Cursor} {ch : Char} (hnext : c.rest.head? = some ch)
    (h : startsToken ch = true) : c.AtToken := by
  obtain ⟨r, hrest⟩ := List.head?_eq_some_iff.mp hnext
  simp only [startsToken, Bool.and_eq_true, Bool.not_eq_true', decide_eq_true_eq] at h
  obtain ⟨⟨⟨hseparator, hslash⟩, hangle⟩, hdash⟩ := h
  refine ⟨?_, fun _ => ?_, ?_⟩
  · rw [hnext]
    exact hseparator
  · rw [hrest, htmlCommentLength]
    · intro r' hr
      exact hangle (List.cons.inj hr).1
    · intro r' hr
      exact hdash (List.cons.inj hr).1
  · rw [hrest, commentLength]
    · intro r' hr
      exact hslash (List.cons.inj hr).1
    · intro r' hr
      exact hslash (List.cons.inj hr).1

theorem rest_advance (n : Nat) (c : Cursor) : (c.advance n).rest = c.rest.drop n := by
  induction n generalizing c with
  | zero => rfl
  | succ n ih =>
    rw [advance]
    split
    · rename_i hrest
      rw [hrest]
      rfl
    · rename_i ch r hrest
      rw [ih, hrest]
      rfl

end Cursor

namespace Reader

variable {α β : Type}

/-- The reader answers with something that is `Q`, wherever it starts at a place that is `P`. -/
def Gives (P : List Char → Position → Prop) (Q : α → Prop) (p : Reader α) : Prop :=
  ∀ c a c', P c.rest c.pos → p c = .ok (a, c') → Q a

namespace Gives

variable {P : List Char → Position → Prop} {source : List Char} {Q : α → Prop} {R : β → Prop}

/-- What is known of an answer wherever the reader stands is known in particular at such a place. -/
theorem of_answers {p : Reader α} (hp : Answers Q p) : Gives P Q p := by
  intro c a c' _ h
  exact hp c a c' h

theorem pure {a : α} (h : Q a) : Gives P Q (pure a) := .of_answers (.pure h)

theorem weaken {Q' : α → Prop} {p : Reader α} (hp : Gives P Q' p) (h : ∀ a, Q' a → Q a) :
    Gives P Q p := by
  intro c a c' hc ha
  exact h a (hp c a c' hc ha)

/-- Looking ahead stays at the place. -/
theorem look {p : Reader β} {f : β → Reader α} (hp : Still p) (hf : ∀ b, Gives P Q (f b)) :
    Gives P Q (p >>= f) := by
  intro c a c' hc h
  obtain ⟨b, c₁, hb, ha⟩ := bind_eq_ok h
  obtain ⟨hrest, hpos⟩ := hp c b c₁ hb
  rw [← hrest, ← hpos] at hc
  exact hf b c₁ a c' hc ha

/-- After the reader it does not matter which place it is. -/
theorem last {p : Reader β} {f : β → Reader α} (hp : Gives P R p)
    (hf : ∀ b, R b → Answers Q (f b)) : Gives P Q (p >>= f) := by
  intro c a c' hc h
  obtain ⟨b, c₁, hb, ha⟩ := bind_eq_ok h
  exact hf b (hp c b c₁ hc hb) c₁ a c' ha

/-- Reading goes on in the text. -/
theorem read [Outlined β] {step : Nat} {p : Reader β} {f : β → Reader α}
    (hafter : After 0 step [] p) (hp : Gives (InText source) R p)
    (hf : ∀ b, R b → Gives (InText source) Q (f b)) :
    Gives (InText source) Q (p >>= f) := by
  intro c a c' hc h
  obtain ⟨b, c₁, hb, ha⟩ := bind_eq_ok h
  obtain ⟨hat, -⟩ := at_of_eq_ok hb hafter hc
  exact hf b (hp c b c₁ hc hb) c₁ a c' hat ha

/-- Reading goes on at a place that the answer tells something about. -/
theorem goOn {P' : β → List Char → Position → Prop} {p : Reader β} {f : β → Reader α}
    (hp : ∀ c b c', P c.rest c.pos → p c = .ok (b, c') → P' b c'.rest c'.pos)
    (hf : ∀ b, Gives (P' b) Q (f b)) : Gives P Q (p >>= f) := by
  intro c a c' hc h
  obtain ⟨b, c₁, hb, ha⟩ := bind_eq_ok h
  exact hf b c₁ a c' (hp c b c₁ hc hb) ha

theorem orElse {p q : Reader α} (hp : Gives P Q p) (hq : Gives P Q q) : Gives P Q (p <|> q) := by
  intro c a c' hc h
  obtain h | ⟨reach, h⟩ := orElse_eq_ok h
  · exact hp c a c' hc h
  · exact hq { c with reach := reach } a c' hc h

theorem ite {p q : Reader α} {b : Prop} [Decidable b] (hp : Gives P Q p) (hq : Gives P Q q) :
    Gives P Q (if b then p else q) := by
  split
  · exact hp
  · exact hq

theorem map {p : Reader β} {f : β → α} (hp : Gives P R p) (hf : ∀ b, R b → Q (f b)) :
    Gives P Q (f <$> p) := by
  intro c a c' hc h
  obtain ⟨b, hb, rfl⟩ := map_eq_ok h
  exact hf b (hp c b c' hc hb)

end Gives

/-! ### Tokens -/

variable {source : List Char}

/-- The text of a token is what is read for it. -/
theorem leaf_eq_ok {k : Kind} {n : Nat} {c c' : Cursor} {m : Node} (hat : c.At source)
    (h : leaf k n c = .ok (m, c')) :
    m.kind = k ∧ m.field = none ∧ m.chars source = c.rest.take n := by
  cases h
  refine ⟨rfl, rfl, ?_⟩
  rw [Node.chars, Node.leaf, Node.branch]
  dsimp only
  rw [← hat.rest_eq, Cursor.offset_advance, Nat.add_sub_cancel_left, ← List.take_take,
    List.take_of_length_le (Nat.le_refl c.rest.length)]

/-- What comes of a check and a reader behind it. -/
theorem guard_eq_ok {b : Bool} {p : Unit → Reader α} {c c' : Cursor} {a : α}
    (h : (guard b >>= p) c = .ok (a, c')) : b = true ∧ p () c = .ok (a, c') := by
  obtain ⟨u, c₁, hguard, h⟩ := bind_eq_ok h
  rw [guard] at hguard
  split_ifs at hguard with hb
  · cases hguard
    exact ⟨hb, h⟩
  · cases hguard

/-- A mark is the text that it was looked for by. -/
theorem isMark_mark (text : String) : Gives (InText source) (·.IsMark source text) (mark text) := by
  intro c m c' hat h
  obtain ⟨cs, c₁, hrest, h⟩ := bind_eq_ok h
  cases hrest
  obtain ⟨hfound, h⟩ := guard_eq_ok h
  obtain ⟨hkind, hfield, hchars⟩ := leaf_eq_ok hat h
  refine ⟨hkind, hfield, ?_⟩
  rw [hchars]
  exact (List.prefix_iff_eq_take.mp (List.isPrefixOf_iff_prefix.mp hfound)).symm

/-- A keyword is the word that it was looked for by. -/
theorem isWord_keyword (k : Keyword) : Gives (InText source) (·.IsWord source k) (keyword k) := by
  intro c m c' hat h
  obtain ⟨k?, c₁, hword, h⟩ := bind_eq_ok h
  cases hword
  obtain ⟨hk, h⟩ := guard_eq_ok h
  obtain ⟨hkind, hfield, hchars⟩ := leaf_eq_ok hat h
  refine ⟨hkind, hfield, ?_⟩
  rw [hchars]
  exact Keyword.eq_text_of_ofChars? (of_decide_eq_true hk)

/-- A name has characters, and no dot among them. -/
theorem spellsName_name (k : Kind) :
    Gives (InText source) (fun n => n.kind = k ∧ n.SpellsName source) (name k) := by
  intro c m c' hat h
  obtain ⟨cs, c₁, hrest, h⟩ := bind_eq_ok h
  cases hrest
  obtain ⟨hlength, h⟩ := guard_eq_ok h
  obtain ⟨hkind, -, hchars⟩ := leaf_eq_ok hat h
  have hname : m.chars source = nameAt c.rest := hchars
  refine ⟨hkind, ?_, ?_⟩
  · rw [hname]
    exact nameAt_ne_nil (of_decide_eq_true hlength)
  · rw [hname]
    exact dot_not_mem_nameAt c.rest

/-! ### Parts -/

/-- A part has what is known of the node, behind comments. -/
theorem Gives.part {Q : Node → Prop} {p : Reader Node} (hp : Gives (InText source) Q p) :
    Gives (InText source) (Part Q) (part p) :=
  .read after_extras (.of_answers isExtra_extras) fun _ hbefore => .last hp fun _ hn =>
    .pure (.intro hbefore hn)

theorem Gives.partAs {Q R : Node → Prop} {f : Field} {p : Reader Node}
    (hp : Gives (InText source) R p) (hf : ∀ n, R n → Q (n.as f)) :
    Gives (InText source) (Part Q) (partAs f p) :=
  .part (.map hp hf)

theorem part_keywordPart (k : Keyword) :
    Gives (InText source) (Part (·.IsWord source k)) (keywordPart k) :=
  .part (isWord_keyword k)

theorem part_markPart (text : String) :
    Gives (InText source) (Part (·.IsMark source text)) (markPart text) :=
  .part (isMark_mark text)

/-- What may be left out is a part, if it is there. -/
theorem Gives.optional {Q : Node → Prop} {p : Reader (List Node)}
    (hp : Gives (InText source) (Part Q) p) :
    Gives (InText source) (MaybePart Q) (optional p) :=
  .orElse (hp.weaken fun _ h => .inr h) (.pure (.inl rfl))

/-- What is in the role of the name is a name. -/
theorem part_partAs_name : Gives (InText source)
    (Part fun n => n.kind = .identifier ∧ n.field = some .name ∧ n.SpellsName source)
    (partAs .name (name .identifier)) :=
  -- A role does not change the text.
  .partAs (spellsName_name _) fun _ hn =>
    ⟨hn.1, rfl, ⟨hn.2.chars_ne_nil, hn.2.dot_not_mem⟩⟩

/-- A construct is of its kind and holds what is known of its parts. -/
theorem Gives.construct {P : List Char → Position → Prop} {Q : List Node → Prop} {k : Kind}
    {p : Reader (List Node)} (hp : Gives P Q p) :
    Gives P (fun n => n.kind = k ∧ n.field = none ∧ Q n.children) (construct k p) := by
  intro c n c' hc h
  rw [Reader.construct] at h
  split at h
  · rename_i ns c₁ hns
    cases h
    exact ⟨rfl, rfl, hp c ns c' hc hns⟩
  · cases h

/-- A construct is of its kind and in no role, whatever it is made of. -/
theorem kind_construct (k : Kind) (p : Reader (List Node)) :
    Answers (fun n => n.kind = k ∧ n.field = none) (construct k p) := by
  intro c n c' h
  rw [construct] at h
  split at h
  · cases h
    exact ⟨rfl, rfl⟩
  · cases h

theorem Answers.part {Q : Node → Prop} {p : Reader Node} (hp : Answers Q p) :
    Answers (Part Q) (part p) :=
  .read isExtra_extras fun _ hbefore => .read hp fun _ hn => .pure (.intro hbefore hn)

theorem kind_partAs_body (k : Kind) (p : Reader (List Node)) :
    Answers (Part fun n => n.kind = k ∧ n.field = some .body) (partAs .body (construct k p)) := by
  refine .part fun c n c' h => ?_
  obtain ⟨m, hm, rfl⟩ := map_eq_ok h
  have hkind : m.kind = k := (kind_construct k p c m c' hm).1
  exact ⟨hkind, rfl⟩

/-! ### Where a token is next -/

/-- What a loop answers with is the answer of its last round. -/
theorem loopUpTo_eq_ok {round : α → Reader (α ⊕ α)} {fuel : Nat} {a b : α} {c c' : Cursor}
    (h : loopUpTo round fuel a c = .ok (b, c')) : ∃ a₁ c₁, round a₁ c₁ = .ok (.inl b, c') := by
  induction fuel generalizing a c with
  | zero => cases h
  | succ fuel ih =>
    obtain ⟨x, c₁, hx, h⟩ := bind_eq_ok h
    cases x with
    | inl b =>
      cases h
      exact ⟨a, c, hx⟩
    | inr a₁ => exact ih h

/-- There is nothing between tokens only where there is no comment. -/
theorem extra?_eq_none {c c' : Cursor} (h : extra? c = .ok (none, c')) :
    c' = c ∧ (c.html = true → htmlCommentLength c.rest = 0) ∧ commentLength c.rest = 0 := by
  have hcomment : extra?.comment c = .ok (none, c') →
      c' = c ∧ (c.html = true → htmlCommentLength c.rest = 0) ∧ commentLength c.rest = 0 := by
    intro h
    rw [extra?.comment] at h
    dsimp only at h
    generalize hhtml : (if c.html then htmlCommentLength c.rest else 0) = html at h
    split at h
    · cases h
    · rename_i hzero
      split at h
      · rename_i hlength
        cases h
        refine ⟨rfl, fun hc => ?_, hlength⟩
        rw [if_pos hc] at hhtml
        exact hhtml.trans (not_not.mp hzero)
      · cases h
  rw [extra?] at h
  split at h
  · split at h
    · cases h
    · exact hcomment h
  · exact hcomment h

/-- Where extras have been read a token is next. -/
theorem atToken_of_extras {c c' : Cursor} {ns : List Node} (h : extras c = .ok (ns, c')) :
    c'.AtToken := by
  obtain ⟨found, c₁, hround⟩ := loopUpTo_eq_ok h
  obtain ⟨u, c₂, hseparators, hround⟩ := bind_eq_ok hround
  obtain ⟨n?, c₃, hn, hround⟩ := bind_eq_ok hround
  cases n? with
  | some n => cases hround
  | none =>
    cases hround
    obtain ⟨rfl, hhtml, hcomment⟩ := extra?_eq_none hn
    refine ⟨?_, hhtml, hcomment⟩
    cases hseparators
    have hdrop : c₁.rest.drop (c₁.rest.takeWhile isSeparator).length =
        c₁.rest.dropWhile isSeparator :=
      (congrArg (List.drop _) List.takeWhile_append_dropWhile.symm).trans List.drop_left
    rw [Cursor.rest_advance, hdrop]
    have hnot := List.head?_dropWhile_not isSeparator c₁.rest
    cases hhead : (c₁.rest.dropWhile isSeparator).head? with
    | none => rfl
    | some ch =>
      rw [hhead] at hnot
      exact hnot

/-- A token that is next stays next, unless it is passed over. -/
theorem extra?_of_atToken {c c' : Cursor} {n? : Option Node} (hc : c.AtToken)
    (h : extra? c = .ok (n?, c')) :
    n? = none ∧ c' = c ∨ ∃ n, n? = some n ∧ n.kind = .error ∧ n.start = c.pos := by
  have hcomment : extra?.comment c = .ok (none, c) := by
    obtain ⟨-, hhtml, hlength⟩ := hc
    rw [extra?.comment, hlength]
    by_cases hc : c.html = true
    · simp [hhtml hc]
    · simp [hc]
  rw [extra?] at h
  split at h
  · split at h
    · cases h
      exact .inr ⟨_, rfl, rfl, rfl⟩
    · rw [hcomment] at h
      cases h
      exact .inl ⟨rfl, rfl⟩
  · rw [hcomment] at h
    cases h
    exact .inl ⟨rfl, rfl⟩

/-- What is found first stays in front. -/
theorem answers_extraRound {front found : List Node} (h : front <+: found) :
    Answers (Sum.elim (front <+: ·) (front <+: ·))
      (do
        separators
        match ← extra? with
        | some n => pure (.inr (found ++ [n]))
        | none => pure (.inl found) : Reader (List Node ⊕ List Node)) := by
  refine .bind fun _ => .bind fun n? => ?_
  cases n? with
  | none => exact .pure h
  | some n => exact .pure (h.trans (List.prefix_append _ _))

/-- Where a token is next there is nothing to be read in front of it but an error. -/
theorem extras_of_atToken {c c' : Cursor} {ns : List Node} (hc : c.AtToken)
    (h : extras c = .ok (ns, c')) :
    ns = [] ∧ c' = c ∨ ∃ e rest, ns = e :: rest ∧ e.kind = .error ∧ e.start = c.pos := by
  -- Only the first round matters.
  rw [extras, loop, loopUpTo] at h
  obtain ⟨x, c₁, hx, h⟩ := bind_eq_ok h
  obtain ⟨u, c₂, hseparators, hextra⟩ := bind_eq_ok hx
  obtain ⟨n?, c₃, hn, hfirst⟩ := bind_eq_ok hextra
  have hstay : c₂ = c := by
    have hnone : (c.rest.takeWhile isSeparator).length = 0 := by
      cases hrest : c.rest with
      | nil => rfl
      | cons ch r =>
        have hch : isSeparator ch = false := by
          have hseparator := hc.separator
          rw [hrest] at hseparator
          exact hseparator
        rw [List.takeWhile_cons_of_neg (by simp [hch])]
        rfl
    cases hseparators
    rw [hnone]
    rfl
  subst hstay
  obtain ⟨rfl, rfl⟩ | ⟨n, rfl, hkind, hstart⟩ := extra?_of_atToken hc hn
  · cases hfirst
    cases h
    exact .inl ⟨rfl, rfl⟩
  · cases hfirst
    have hfront : [n] <+: ns := Answers.loopUpTo (fun _ => answers_extraRound) _
      (List.prefix_refl [n]) c₁ ns c' h
    obtain ⟨rest, rfl⟩ := hfront
    exact .inr ⟨n, rest, rfl, hkind, hstart⟩

/-! ### In front of a private name -/

/-- The next character opens a private name. -/
def AtHash (rest : List Char) (_pos : Position) : Prop := rest.head? = some '#'

/-- Where a mark must come next, a private name can only be passed over as an error. -/
theorem error_of_hash {text : String} {k : Kind} {f : Node → Reader (List Node)}
    (htext : text.toList.head?.any (· ≠ '#') = true) :
    Gives AtHash (fun ns => ∃ e ∈ ns, e.kind = .error)
      (part (construct k (mark text >>= f))) := by
  intro c ns c' hash h
  obtain ⟨before, c₁, hbefore, h⟩ := bind_eq_ok h
  obtain ⟨n, c₂, hn, h⟩ := bind_eq_ok h
  cases h
  have htoken : c.AtToken := .of_head hash (by decide)
  obtain ⟨-, rfl⟩ | ⟨e, found, rfl, hkind, -⟩ := extras_of_atToken htoken hbefore
  · exfalso
    rw [construct] at hn
    split at hn
    · rename_i ns' c₃ hparts
      obtain ⟨m, c₄, hm, -⟩ := bind_eq_ok hparts
      obtain ⟨cs, c₅, hcs, hm⟩ := bind_eq_ok hm
      cases hcs
      obtain ⟨hfound, -⟩ := guard_eq_ok hm
      obtain ⟨rest, hsplit⟩ := List.isPrefixOf_iff_prefix.mp hfound
      obtain ⟨d, hd, hne⟩ := (Option.any_eq_true ..).mp htext
      obtain ⟨r, hr⟩ := List.head?_eq_some_iff.mp hd
      rw [hr] at hsplit
      have hhash : c₁.rest.head? = some '#' := hash
      rw [← hsplit] at hhash
      exact of_decide_eq_true hne (Option.some.inj hhash)
    · cases hn
  · exact ⟨e, List.mem_append_left _ List.mem_cons_self, hkind⟩

end Reader

end SymbolIndex.JavaScript
