import SymbolIndex.JavaScript.Member
import SymbolIndex.Proofs.JavaScript.Parts

/-!
# Where a class starts

A class has the position at which its reader is called, so where it starts depends on the caller.
All callers see to it that a token is next there (`Cursor.AtToken`): they have just read what stands
between tokens, or have looked at the keyword or the character that is next. `fromToken p` is `p` as
such callers see it, and the rules for `After` that have `FromToken` in their names go along the
readers between the caller and the class.

Where a token is next, what is read first starts right there (`Reader.first_of_part`). So a class
starts where its first decorator does, or else its keyword (`Grammar.opening_of_eq_ok`).
-/

namespace SymbolIndex.JavaScript

open Syntax Lexical

/-- A keyword is a token. -/
theorem Cursor.AtToken.of_keyword {c : Cursor} {k : Keyword}
    (h : Keyword.ofChars? (nameAt c.rest) = some k) : c.AtToken := by
  have hname : nameAt c.rest = k.text.toList := Keyword.eq_text_of_ofChars? h
  have hstarts : k.text.toList.head?.any startsToken = true := by
    cases k <;> decide
  obtain ⟨ch, hhead, hch⟩ := (Option.any_eq_true ..).mp hstarts
  refine .of_head ?_ hch
  obtain ⟨r, hr⟩ := List.head?_eq_some_iff.mp hhead
  obtain ⟨r', hr'⟩ : nameAt c.rest <+: c.rest := List.take_prefix _ _
  rw [← hr', hname, hr]
  rfl

theorem Cursor.AtToken.withReach {c : Cursor} (h : c.AtToken) (reach : Nat) :
    ({ c with reach := reach } : Cursor).AtToken :=
  ⟨h.separator, h.html, h.comment⟩

namespace Reader

variable {α β : Type}

/-! ### Readers of what is next -/

instance (c : Cursor) : Decidable c.AtToken :=
  decidable_of_iff (c.rest.head?.any isSeparator = false ∧
      (c.html = true → htmlCommentLength c.rest = 0) ∧ commentLength c.rest = 0)
    ⟨fun h => ⟨h.1, h.2.1, h.2.2⟩, fun h => ⟨h.1, h.2, h.3⟩⟩

/-- The reader where a token is next; elsewhere it is stuck. -/
def fromToken (p : Reader α) : Reader α := fun c => if c.AtToken then p c else stuck c

/-- A reader that has to start at a token has done so if it has answered. -/
theorem fromToken_eq_ok {p : Reader α} {c c' : Cursor} {a : α}
    (h : fromToken p c = .ok (a, c')) : c.AtToken ∧ p c = .ok (a, c') := by
  rw [fromToken] at h
  split at h
  · rename_i hc
    exact ⟨hc, h⟩
  · cases h

theorem fromToken_of_atToken (p : Reader α) {c : Cursor} (hc : c.AtToken) :
    fromToken p c = p c := by
  rw [fromToken, if_pos hc]

/-- Two readers in a row start where the first of them starts. -/
theorem fromToken_bind (p : Reader α) (f : α → Reader β) :
    fromToken (p >>= f) = fromToken p >>= f := by
  funext c
  show _ = fromToken p c >>= fun x => f x.1 x.2
  rw [fromToken, fromToken]
  split <;> rfl

theorem fromToken_map (f : α → β) (p : Reader α) : fromToken (f <$> p) = f <$> fromToken p :=
  fromToken_bind p (Pure.pure ∘ f)

/-- Behind what stands between tokens a token is next. -/
theorem extras_bind_fromToken (f : List Node → Reader β) :
    (extras >>= fun ns => fromToken (f ns)) = extras >>= f := by
  funext c
  show (extras c >>= fun x => fromToken (f x.1) x.2) = extras c >>= fun x => f x.1 x.2
  exact except_bind_congr fun x hx => fromToken_of_atToken _ (atToken_of_extras hx)

theorem part_fromToken (p : Reader Node) : part (fromToken p) = part p := by
  rw [part, part, ← extras_bind_fromToken fun before => p >>= fun n => pure (before ++ [n])]
  simp only [fromToken_bind]

/-- Looking ahead answers with what would be read, and stays. -/
theorem peek_eq_ok {p : Reader α} {c c' : Cursor} {a : α} (h : peek p c = .ok (a, c')) :
    ∃ reach, c' = { c with reach := reach } := by
  rw [peek] at h
  split at h
  · cases h
    exact ⟨_, rfl⟩
  · cases h

/-- The reader looks ahead, and a token that is next is still next for those that come after it. -/
structure KeepsToken (p : Reader α) : Prop where
  still : Still p
  keeps : ∀ c a c', c.AtToken → p c = .ok (a, c') → c'.AtToken

namespace KeepsToken

theorem keyword? : KeepsToken keyword? where
  still := .keyword?
  keeps := by
    rintro c a c' hc ⟨⟩
    exact hc

theorem rest : KeepsToken rest where
  still := .rest
  keeps := by
    rintro c a c' hc ⟨⟩
    exact hc

theorem peek (p : Reader α) : KeepsToken (peek p) where
  still := .peek p
  keeps c a c' hc h := by
    obtain ⟨reach, rfl⟩ := peek_eq_ok h
    exact hc.withReach reach

theorem follows (text : String) : KeepsToken (follows text) where
  still := .follows text
  keeps c b c' hc h := by
    obtain ⟨cs, c₁, hahead, h⟩ := bind_eq_ok h
    cases h
    exact (peek _).keeps c cs _ hc hahead

end KeepsToken

/-! ### Reading behind definitions where a token is next -/

variable [Outlined α] [Outlined β] {gap step : Nat} {acc : List Definition}

/-- Knowing that a token is next does no harm. -/
theorem After.fromToken {p : Reader α} (hp : After gap step acc p) :
    After gap step acc (fromToken p) := by
  intro source lo c a c' hat hlo hacc h
  exact hp source lo c a c' hat hlo hacc (fromToken_eq_ok h).2

/-- A reader behind what stands between tokens. -/
theorem After.readExtras {f : List Node → Reader β}
    (hf : ∀ ns, After gap step (acc ++ outline ns) (Reader.fromToken (f ns))) :
    After gap step acc (extras >>= f) := by
  have hextras : After gap 0 [] extras := after_extras
  rw [← extras_bind_fromToken]
  exact .read hextras hf

theorem After.partFromToken {p : Reader Node} (hp : After gap step [] (Reader.fromToken p)) :
    After gap step [] (Reader.part p) := by
  rw [← part_fromToken]
  exact .part hp

theorem After.readFromToken {p : Reader α} {f : α → Reader β} {step' : Nat}
    (hp : After gap step' [] (Reader.fromToken p))
    (hf : ∀ a, After (gap - step') (step - step') (acc ++ outline a) (f a)) :
    After gap step acc (Reader.fromToken (p >>= f)) := by
  rw [fromToken_bind]
  exact .read hp hf

theorem After.iteFromToken {p q : Reader α} {b : Prop} [Decidable b]
    (hp : After gap step acc (Reader.fromToken p)) (hq : After gap step acc (Reader.fromToken q)) :
    After gap step acc (Reader.fromToken (if b then p else q)) := by
  split
  · exact hp
  · exact hq

omit [Outlined α] in
/-- Looking ahead where a token is next. -/
theorem After.lookFromToken {p : Reader α} {f : α → Reader β} (hp : KeepsToken p)
    (hf : ∀ a, After gap step acc (Reader.fromToken (f a))) :
    After gap step acc (Reader.fromToken (p >>= f)) := by
  intro source lo c b c' hat hlo hacc h
  obtain ⟨hc, h⟩ := fromToken_eq_ok h
  obtain ⟨a, c₁, ha, hb⟩ := bind_eq_ok h
  obtain ⟨hat₁, hpos⟩ := hp.still.at_of_eq_ok ha hat
  rw [← hpos] at hlo hacc ⊢
  exact hf a source lo c₁ b c' hat₁ hlo hacc
    ((fromToken_of_atToken _ (hp.keeps c a c₁ hc ha)).trans hb)

/-- One of two readers where a token is next. -/
theorem After.orElseFromToken {p q : Reader α} (hp : After gap step acc p)
    (hq : After gap step acc (Reader.fromToken q)) :
    After gap step acc (Reader.fromToken (p <|> q)) := by
  intro source lo c a c' hat hlo hacc h
  obtain ⟨hc, h⟩ := fromToken_eq_ok h
  obtain h | ⟨reach, h⟩ := orElse_eq_ok h
  · exact hp source lo c a c' hat hlo hacc h
  · exact hq source lo { c with reach := reach } a c' hat hlo hacc
      ((fromToken_of_atToken q (hc.withReach reach)).trans h)

/-- If the keyword `k` is next, a token is. -/
theorem After.lookKeyword {f : Option Keyword → Reader β} (k : Keyword)
    (hk : After gap step acc (Reader.fromToken (f (some k))))
    (hf : ∀ k?, k? ≠ some k → After gap step acc (f k?)) : After gap step acc (keyword? >>= f) := by
  intro source lo c b c' hat hlo hacc h
  obtain ⟨k?, c₁, hnext, h⟩ := bind_eq_ok h
  cases hnext
  by_cases hnext : Keyword.ofChars? (nameAt c.rest) = some k
  · rw [hnext] at h
    exact hk source lo c b c' hat hlo hacc
      ((fromToken_of_atToken _ (.of_keyword hnext)).trans h)
  · exact hf _ hnext source lo c b c' hat hlo hacc h

/-- If the character `ch` is next and starts a token, a token is next. -/
theorem After.lookChar {f : List Char → Reader β} (ch : Char) (hch : Cursor.startsToken ch = true)
    (hnext : ∀ r, After gap step acc (Reader.fromToken (f (ch :: r))))
    (hf : ∀ cs, cs.head? ≠ some ch → After gap step acc (f cs)) :
    After gap step acc (rest >>= f) := by
  intro source lo c b c' hat hlo hacc h
  obtain ⟨cs, c₁, hrest, h⟩ := bind_eq_ok h
  cases hrest
  by_cases hhead : c.rest.head? = some ch
  · obtain ⟨r, hr⟩ := List.head?_eq_some_iff.mp hhead
    rw [hr] at h
    exact hnext r source lo c b c' hat hlo hacc
      ((fromToken_of_atToken _ (.of_head hhead hch)).trans h)
  · exact hf _ hhead source lo c b c' hat hlo hacc h

/-! ### The first node of a construct -/

/-- A construct starts where it is read. -/
theorem start_construct {k : Kind} {p : Reader (List Node)} {c c' : Cursor} {n : Node}
    (h : construct k p c = .ok (n, c')) : n.start = c.pos ∧ n.kind = k := by
  rw [construct] at h
  split at h
  · cases h
    exact ⟨rfl, rfl⟩
  · cases h

/-- A keyword starts where it is read. -/
theorem start_keyword {k : Keyword} {c c' : Cursor} {n : Node}
    (h : keyword k c = .ok (n, c')) : n.start = c.pos ∧ n.kind = .word k := by
  obtain ⟨k?, c₁, hword, h⟩ := bind_eq_ok h
  cases hword
  obtain ⟨-, h⟩ := guard_eq_ok h
  cases h
  exact ⟨rfl, rfl⟩

/-- What is read where a token is next starts there, with the token or with an error. -/
theorem first_of_part {k : Kind} {p : Reader Node} {c c' : Cursor} {ns : List Node}
    (hp : ∀ c n c', p c = .ok (n, c') → n.start = c.pos ∧ n.kind = k) (hc : c.AtToken)
    (h : part p c = .ok (ns, c')) :
    ∃ n rest, ns = n :: rest ∧ n.start = c.pos ∧ (n.kind = k ∨ n.kind = .error) := by
  obtain ⟨before, c₁, hbefore, h⟩ := bind_eq_ok h
  obtain ⟨n, c₂, hn, h⟩ := bind_eq_ok h
  cases h
  obtain ⟨rfl, rfl⟩ | ⟨e, rest, rfl, hkind, hstart⟩ := extras_of_atToken hc hbefore
  · exact ⟨n, [], rfl, (hp c₁ n _ hn).1, .inl (hp c₁ n _ hn).2⟩
  · exact ⟨e, _, rfl, hstart, .inr hkind⟩

end Reader

namespace Grammar

open Reader

variable {source : List Char} {inner : Grammar} {c c' : Cursor} {ns : List Node}

/-- Where a token is next the decorators start there, if there are any. -/
theorem first_of_decorators (hc : c.AtToken) (h : inner.decorators c = .ok (ns, c')) :
    (ns = [] ∧ c'.pos = c.pos ∧ c'.AtToken) ∨
      ∃ n rest, ns = n :: rest ∧ n.start = c.pos ∧ (n.kind = .decorator ∨ n.kind = .error) := by
  -- Only the first round matters.
  rw [decorators, loop, loopUpTo] at h
  obtain ⟨x, c₁, hx, h⟩ := bind_eq_ok h
  obtain ⟨more, c₂, hmore, hx⟩ := bind_eq_ok hx
  have hc₂ : c₂.AtToken := (KeepsToken.follows "@").keeps c more c₂ hc hmore
  have hpos : c₂.pos = c.pos := (Still.follows "@" c more c₂ hmore).2
  cases more with
  | false =>
    cases hx
    cases h
    exact .inl ⟨rfl, hpos, hc₂⟩
  | true =>
    obtain ⟨d, c₃, hd, hx⟩ := bind_eq_ok hx
    cases hx
    obtain ⟨n, rest, rfl, hstart, hkind⟩ := first_of_part (fun _ _ _ => start_construct) hc₂ hd
    have hfront : n :: rest <+: ns := Answers.loopUpTo (fun found hfound => .bind fun more => .ite
      (.bind fun d => .pure (hfound.trans (List.prefix_append _ _))) (.pure hfound)) _
      (List.prefix_refl _) _ _ _ h
    obtain ⟨further, rfl⟩ := hfront
    exact .inr ⟨n, rest ++ further, rfl, hstart.trans hpos, hkind⟩

/-- Decorators are decorators, with comments and errors between them. -/
theorem decorators_decorators : Answers Decorators inner.decorators := by
  refine .loop (by simp [Decorators]) fun found hfound => .bind fun _ => .ite
    (.read (.part (kind_construct _ _)) fun d hd => .pure ?_) (.pure hfound)
  refine List.forall_mem_append.mpr ⟨hfound, ?_⟩
  exact hd.of_mem (fun e he => ⟨.inl he.kind, he.field⟩) fun n hn => ⟨.inr hn.1, hn.2⟩

/-- A class that is read where a token is next opens there. -/
theorem opening_of_eq_ok {f : List Node → List Node → Reader (List Node)}
    (hafter : After 0 0 [] inner.decorators)
    (hf : ∀ decorators word, Answers (fun ns => ∃ tail, ns = decorators ++ word ++ tail)
      (f decorators word))
    (hat : c.At source) (hc : c.AtToken)
    (h : (do
      let decorators ← inner.decorators
      let word ← keywordPart .classWord
      f decorators word : Reader (List Node)) c = .ok (ns, c')) :
    ClassOpening source c.pos ns := by
  obtain ⟨decorators, c₁, hdecorators, h⟩ := bind_eq_ok h
  obtain ⟨word, c₂, hword, h⟩ := bind_eq_ok h
  obtain ⟨tail, rfl⟩ := hf decorators word c₂ ns c' h
  obtain ⟨hat₁, hfurther₁⟩ := at_of_eq_ok hdecorators hafter hat
  constructor
  · rcases first_of_decorators hc hdecorators with ⟨rfl, hpos, hc₁⟩ | ⟨n, rest, rfl, hstart, hkind⟩
    · obtain ⟨n, rest, rfl, hstart, hkind⟩ := first_of_part (fun _ _ _ => start_keyword) hc₁ hword
      exact ⟨n, _, rfl, hstart.trans hpos, .inr hkind⟩
    · exact ⟨n, _, rfl, hstart, hkind.imp_right .inr⟩
  · obtain ⟨before, c₃, hbefore, hword⟩ := bind_eq_ok hword
    obtain ⟨w, c₄, hw, hword⟩ := bind_eq_ok hword
    cases hword
    obtain ⟨hat₃, hfurther₃⟩ := at_of_eq_ok hbefore after_extras hat₁
    obtain ⟨hstart, hkind⟩ := start_keyword hw
    -- Neither a decorator nor what stands between tokens is a keyword.
    have hfront : ∀ n ∈ decorators ++ before, n.kind ≠ .word .classWord := by
      intro n hn
      rcases List.mem_append.mp hn with hn | hn
      · obtain ⟨he | hd, hfield⟩ := decorators_decorators c decorators c₁ hdecorators n hn
        · exact Node.IsExtra.kind_ne ⟨he, hfield⟩ rfl
        · rw [hd]
          nofun
      · exact (isExtra_extras c₁ before c₃ hbefore n hn).kind_ne rfl
    refine ⟨w, ?_, hstart ▸ hat₃.isIn, ?_⟩
    · refine List.find?_eq_some_iff_append.mpr ⟨decide_eq_true hkind, decorators ++ before, tail,
        by simp, fun n hn => ?_⟩
      rw [decide_eq_false (hfront n hn)]
      rfl
    · rw [hstart]
      omega

end Grammar

end SymbolIndex.JavaScript
