import SymbolIndex.JavaScript.Reader
import SymbolIndex.Proofs.Syntax.Outline

/-!
# What readers know about definitions

A reader takes a stretch off the front of a text and answers with nodes, or with something that
holds nodes; the definitions in them are the outline of the answer (`Outlined`). The judgement
`After gap step acc p` is the invariant of readers: `p` is to be run behind the definitions `acc`
and takes care of them, so that its answer holds them together with those that `p` reads. If `acc`
is placed in the stretch before, the answer is placed in the stretch that goes on to where `p` ends.

The two numbers say how a construct opens. The definitions that `p` reads start at least `gap`
characters after the place where it starts, and `p` reads at least `step` characters. So a
definition starts before those inside it if what follows its start has a gap
(`Placed.branch`), and the first token closes the gap (`After.handOver`).

Readers that only look ahead have no part in this (`Still`).
-/

namespace SymbolIndex.JavaScript

open Syntax Lexical

/-! ### Places in a text -/

/-- The characters are those of the text from the place on. -/
structure InText (source rest : List Char) (p : Position) : Prop where
  rest_eq : rest = source.drop p.offset
  isIn : p.IsIn source

namespace Cursor

/-- The characters to be read are those of the text from the current position on, which is one in
the text. -/
def At (source : List Char) (c : Cursor) : Prop := InText source c.rest c.pos

theorem at_start (source : List Char) (repair : Repair) : (start source repair).At source :=
  ⟨rfl, Position.isIn_origin source⟩

variable {source : List Char} {c : Cursor}

/-- Going on by any number of characters stays in the text. -/
theorem At.advance (h : c.At source) (n : Nat) : (c.advance n).At source := by
  induction n generalizing c with
  | zero => exact h
  | succ n ih =>
    rw [Cursor.advance]
    split
    · exact h
    · rename_i ch r hrest
      have hdrop : source.drop c.pos.offset = ch :: r := h.rest_eq.symm.trans hrest
      refine ih ⟨?_, h.isIn.advance hdrop⟩
      rw [Position.offset_advance, ← List.drop_drop, hdrop]
      rfl

/-- The text may end before all the characters are passed over. -/
theorem offset_advance (n : Nat) (c : Cursor) :
    (c.advance n).pos.offset = c.pos.offset + min n c.rest.length := by
  induction n generalizing c with
  | zero => simp [Cursor.advance]
  | succ n ih =>
    rw [Cursor.advance]
    split
    · rename_i hrest
      simp [hrest]
    · rename_i ch r hrest
      rw [ih, hrest, List.length_cons]
      dsimp only
      rw [Position.offset_advance]
      omega

end Cursor

/-! ### Answers -/

/-- Answers of readers in which there are definitions. -/
class Outlined (α : Type) where
  /-- The definitions in an answer, in the order of the text. -/
  outline : α → List Definition

export Outlined (outline)

section Answers

variable {α β : Type} [Outlined α] [Outlined β]

instance : Outlined Node := ⟨Node.outline⟩

instance : Outlined (List Node) := ⟨Node.outlineAll⟩

instance : Outlined (Option Node) := ⟨fun n? => Node.outlineAll n?.toList⟩

instance : Outlined (α × β) := ⟨fun x => outline x.1 ++ outline x.2⟩

instance : Outlined (α ⊕ β) := ⟨Sum.elim outline outline⟩

/-- What is told besides nodes. -/
instance : Outlined Bool := ⟨fun _ => []⟩

instance : Outlined Kind := ⟨fun _ => []⟩

instance : Outlined Unit := ⟨fun _ => []⟩

@[simp] theorem outline_node (n : Node) : outline n = n.outline := rfl

@[simp] theorem outline_nodes (ns : List Node) : outline ns = Node.outlineAll ns := rfl

@[simp] theorem outline_some (n : Node) : outline (some n) = n.outline := by
  show Node.outlineAll [n] = n.outline
  simp

@[simp] theorem outline_none : outline (none : Option Node) = [] := Node.outlineAll_nil

@[simp] theorem outline_pair (a : α) (b : β) : outline (a, b) = outline a ++ outline b := rfl

@[simp] theorem outline_inl (a : α) : outline (Sum.inl a : α ⊕ β) = outline a := rfl

@[simp] theorem outline_inr (b : β) : outline (Sum.inr b : α ⊕ β) = outline b := rfl

@[simp] theorem outline_bool (b : Bool) : outline b = [] := rfl

@[simp] theorem outline_kind (k : Kind) : outline k = [] := rfl

@[simp] theorem outline_unit (u : Unit) : outline u = [] := rfl

end Answers

namespace Reader

variable {α β : Type}

theorem except_bind_eq_ok {ε : Type} {r : Except ε α} {f : α → Except ε β} {b : β}
    (h : (r >>= f) = .ok b) : ∃ a, r = .ok a ∧ f a = .ok b := by
  cases r with
  | error e => cases h
  | ok a => exact ⟨a, rfl, h⟩

theorem except_bind_congr {ε : Type} {r : Except ε α} {f g : α → Except ε β}
    (h : ∀ a, r = .ok a → f a = g a) : (r >>= f) = r >>= g := by
  cases r with
  | error e => rfl
  | ok a => exact h a rfl

/-- What comes of two readers in a row. -/
theorem bind_eq_ok {p : Reader α} {f : α → Reader β} {c c' : Cursor} {b : β}
    (h : (p >>= f) c = .ok (b, c')) : ∃ a c₁, p c = .ok (a, c₁) ∧ f a c₁ = .ok (b, c') := by
  obtain ⟨r, hr, h⟩ := except_bind_eq_ok (r := p c) h
  exact ⟨r.1, r.2, hr, h⟩

/-- What comes of a reader whose answer is turned into another one. -/
theorem map_eq_ok {p : Reader α} {f : α → β} {c c' : Cursor} {b : β}
    (h : (f <$> p) c = .ok (b, c')) : ∃ a, p c = .ok (a, c') ∧ f a = b := by
  obtain ⟨r, hr, h⟩ := except_bind_eq_ok (r := p c) h
  cases h
  exact ⟨r.1, hr, rfl⟩

/-- What comes of two readers with a choice. -/
theorem orElse_eq_ok {p q : Reader α} {c c' : Cursor} {a : α}
    (h : (p <|> q) c = .ok (a, c')) :
    p c = .ok (a, c') ∨ ∃ reach, q { c with reach := reach } = .ok (a, c') := by
  change orElse p (fun _ => q) c = _ at h
  rw [orElse] at h
  split at h
  · rename_i r hp
    cases h
    exact .inl hp
  · rename_i reach hp
    exact .inr ⟨_, h⟩

/-! ### Answers wherever a reader stands -/

/-- What a reader answers with, wherever it stands. -/
def Answers (Q : α → Prop) (p : Reader α) : Prop := ∀ c a c', p c = .ok (a, c') → Q a

namespace Answers

variable {Q : α → Prop}

theorem pure {a : α} (h : Q a) : Answers Q (pure a : Reader α) := by
  rintro c b c' ⟨⟩
  exact h

/-- The last of several readers answers. -/
theorem bind {p : Reader β} {f : β → Reader α} (hf : ∀ b, Answers Q (f b)) :
    Answers Q (p >>= f) := by
  intro c a c' h
  obtain ⟨b, c₁, -, ha⟩ := bind_eq_ok h
  exact hf b c₁ a c' ha

/-- What is known of the answer of the first of two readers can be used for the second. -/
theorem read {R : β → Prop} {p : Reader β} {f : β → Reader α} (hp : Answers R p)
    (hf : ∀ b, R b → Answers Q (f b)) : Answers Q (p >>= f) := by
  intro c a c' h
  obtain ⟨b, c₁, hb, ha⟩ := bind_eq_ok h
  exact hf b (hp c b c₁ hb) c₁ a c' ha

theorem orElse {p q : Reader α} (hp : Answers Q p) (hq : Answers Q q) : Answers Q (p <|> q) := by
  intro c a c' h
  obtain h | ⟨reach, h⟩ := orElse_eq_ok h
  · exact hp c a c' h
  · exact hq _ a c' h

theorem ite {p q : Reader α} {b : Prop} [Decidable b] (hp : Answers Q p) (hq : Answers Q q) :
    Answers Q (if b then p else q) := by
  split
  · exact hp
  · exact hq

/-- What holds of the answer of every round, if it holds of what the round starts with. -/
theorem loopUpTo {round : α → Reader (α ⊕ α)}
    (hround : ∀ a, Q a → Answers (Sum.elim Q Q) (round a)) (fuel : Nat) {a : α} (ha : Q a) :
    Answers Q (loopUpTo round fuel a) := by
  induction fuel generalizing a with
  | zero =>
    intro c b c' h
    cases h
  | succ fuel ih =>
    intro c b c' h
    obtain ⟨x, c₁, hx, h⟩ := bind_eq_ok h
    have hQ := hround a ha c x c₁ hx
    cases x with
    | inl b =>
      cases h
      exact hQ
    | inr a' => exact ih hQ c₁ b c' h

theorem loop {round : α → Reader (α ⊕ α)} {a : α} (ha : Q a)
    (hround : ∀ a, Q a → Answers (Sum.elim Q Q) (round a)) : Answers Q (loop round a) :=
  fun c => loopUpTo hround (c.size + 2) ha c

end Answers

/-! ### Looking ahead -/

/-- The reader reads nothing. -/
def Still (p : Reader α) : Prop :=
  ∀ c a c', p c = .ok (a, c') → c'.rest = c.rest ∧ c'.pos = c.pos

namespace Still

/-- Looking ahead leaves the reading where it is. -/
theorem at_of_eq_ok {p : Reader α} {source : List Char} {c c' : Cursor} {a : α} (hp : Still p)
    (h : p c = .ok (a, c')) (hat : c.At source) : c'.At source ∧ c'.pos = c.pos := by
  obtain ⟨hrest, hpos⟩ := hp c a c' h
  rw [Cursor.At, hrest, hpos]
  exact ⟨hat, rfl⟩

theorem pure (a : α) : Still (pure a : Reader α) := by
  rintro c b c' ⟨⟩
  exact ⟨rfl, rfl⟩

theorem stuck : Still (stuck : Reader α) := by
  intro c a c' h
  cases h

theorem guard (b : Bool) : Still (guard b) := by
  rw [Reader.guard]
  split
  · exact .pure ()
  · exact .stuck

theorem peek (p : Reader α) : Still (peek p) := by
  intro c a c' h
  rw [Reader.peek] at h
  split at h
  · cases h
    exact ⟨rfl, rfl⟩
  · cases h

theorem rest : Still rest := by
  rintro c a c' ⟨⟩
  exact ⟨rfl, rfl⟩

theorem get : Still (get : Reader Cursor) := by
  rintro c a c' ⟨⟩
  exact ⟨rfl, rfl⟩

theorem noHtml : Still noHtml := by
  rintro c a c' ⟨⟩
  exact ⟨rfl, rfl⟩

theorem mayHtml : Still mayHtml := by
  rintro c a c' ⟨⟩
  exact ⟨rfl, rfl⟩

theorem bind {p : Reader α} {f : α → Reader β} (hp : Still p) (hf : ∀ a, Still (f a)) :
    Still (p >>= f) := by
  intro c b c' h
  obtain ⟨a, c₁, ha, hb⟩ := bind_eq_ok h
  obtain ⟨hrest, hpos⟩ := hp c a c₁ ha
  obtain ⟨hrest', hpos'⟩ := hf a c₁ b c' hb
  exact ⟨hrest'.trans hrest, hpos'.trans hpos⟩

theorem ite {p q : Reader α} {b : Prop} [Decidable b] (hp : Still p) (hq : Still q) :
    Still (if b then p else q) := by
  split
  · exact hp
  · exact hq

theorem word : Still word := rest.bind fun _ => .pure _

theorem keyword? : Still keyword? := word.bind fun _ => .pure _

theorem ahead : Still ahead := .peek _

theorem follows (text : String) : Still (follows text) := ahead.bind fun _ => .pure _

theorem nextKeyword? : Still nextKeyword? := ahead.bind fun _ => .pure _

theorem endsHere (afterOperand : Bool) : Still (endsHere afterOperand) := .peek _

end Still

/-! ### Reading behind definitions -/

variable [Outlined α] [Outlined β]

/-- The reader takes care of the definitions `acc` in front of it: its answer holds them and those
that it reads, each in its place. The latter start at least `gap` characters further on, and at
least `step` characters are read. -/
def After (gap step : Nat) (acc : List Definition) (p : Reader α) : Prop :=
  ∀ source lo c a c', c.At source → lo ≤ c.pos.offset + gap → Placed source lo c.pos.offset acc →
    p c = .ok (a, c') →
    c'.At source ∧ c.pos.offset + step ≤ c'.pos.offset ∧ Placed source lo c'.pos.offset (outline a)

/-- What is known once the reader has answered. -/
theorem placed_of_eq_ok {gap step lo : Nat} {acc : List Definition} {source : List Char}
    {p : Reader α} {c c' : Cursor} {a : α} (h : p c = .ok (a, c')) (hp : After gap step acc p)
    (hat : c.At source) (hlo : lo ≤ c.pos.offset + gap)
    (hacc : Placed source lo c.pos.offset acc) :
    c'.At source ∧ c.pos.offset + step ≤ c'.pos.offset ∧
      Placed source lo c'.pos.offset (outline a) :=
  hp source lo c a c' hat hlo hacc h

/-- Where the reader has got to once it has answered. -/
theorem at_of_eq_ok {step : Nat} {source : List Char} {p : Reader α} {c c' : Cursor} {a : α}
    (h : p c = .ok (a, c')) (hp : After 0 step [] p) (hat : c.At source) :
    c'.At source ∧ c.pos.offset + step ≤ c'.pos.offset := by
  obtain ⟨hat', hfurther, -⟩ := hp source 0 c a c' hat (Nat.zero_le _) (.nil _ _ _) h
  exact ⟨hat', hfurther⟩

namespace After

variable {gap step : Nat} {acc front : List Definition}

theorem pure {a : α} (h : (outline a).Sublist acc) : After gap 0 acc (pure a) := by
  rintro source lo c b c' hat hlo hacc ⟨⟩
  exact ⟨hat, Nat.le_refl _, hacc.sublist h⟩

theorem stuck : After gap step acc (stuck : Reader α) := by
  intro source lo c a c' hat hlo hacc h
  cases h

/-- A reader that does better than it has to. -/
theorem weaken {p : Reader α} {gap' step' : Nat} (hp : After gap' step' acc p)
    (hgap : gap ≤ gap') (hstep : step ≤ step') : After gap step acc p := by
  intro source lo c a c' hat hlo hacc h
  obtain ⟨hat', hfurther, hplaced⟩ := hp source lo c a c' hat (by omega) hacc h
  exact ⟨hat', by omega, hplaced⟩

/-- There is no harm in more definitions in front. -/
theorem of_sublist {acc' : List Definition} {p : Reader α} (h : acc'.Sublist acc)
    (hp : After gap step acc' p) : After gap step acc p := by
  intro source lo c a c' hat hlo hacc
  exact hp source lo c a c' hat hlo (hacc.sublist h)

/-- Inside a construct there is no need of a gap. -/
theorem inside {p : Reader α} (hp : After gap step acc p) : After 0 0 acc p :=
  hp.weaken (Nat.zero_le _) (Nat.zero_le _)

/-- Two readers in a row: what the first answers is what the second has to take care of, besides
what is in front of both. -/
theorem handOver {p : Reader α} {f : α → Reader β} {step' : Nat} (hp : After gap step' acc p)
    (hf : ∀ a, After (gap - step') (step - step') (front ++ outline a) (f a)) :
    After gap step (front ++ acc) (p >>= f) := by
  intro source lo c b c' hat hlo hacc h
  obtain ⟨a, c₁, ha, hb⟩ := bind_eq_ok h
  -- Each of the two gets its own stretch: what is in front stays outside that of the first.
  obtain ⟨mid, hmid, hle, hfront, hacc⟩ := hacc.split
  obtain ⟨hat₁, hfurther₁, hplaced₁⟩ := hp source mid c a c₁ hat (by omega) hacc ha
  have hplaced : Placed source lo c₁.pos.offset (front ++ outline a) :=
    hfront.append hplaced₁ hmid (Nat.min_le_left _ _) (by omega)
  obtain ⟨hat', hfurther, hplaced'⟩ := hf a source lo c₁ b c' hat₁ (by omega) hplaced hb
  exact ⟨hat', by omega, hplaced'⟩

/-- Two readers in a row, of which the first takes care of all that is in front. -/
theorem bind {p : Reader α} {f : α → Reader β} {step' : Nat} (hp : After gap step' acc p)
    (hf : ∀ a, After (gap - step') (step - step') (outline a) (f a)) :
    After gap step acc (p >>= f) :=
  show After gap step ([] ++ acc) (p >>= f) from handOver hp hf

/-- A reader that takes care of nothing but what it reads, in front of another. -/
theorem read {p : Reader α} {f : α → Reader β} {step' : Nat} (hp : After gap step' [] p)
    (hf : ∀ a, After (gap - step') (step - step') (acc ++ outline a) (f a)) :
    After gap step acc (p >>= f) := by
  have h : After gap step (acc ++ []) (p >>= f) := handOver hp hf
  rwa [List.append_nil] at h

omit [Outlined α] in
/-- What is given to a reader and not read needs no care. -/
theorem pure_bind {a : α} {f : α → Reader β} (h : After gap step acc (f a)) :
    After gap step acc (Pure.pure a >>= f) := h

/-- Looking ahead in front of a reader. -/
theorem look {γ : Type} {p : Reader γ} {f : γ → Reader β} (hp : Still p)
    (hf : ∀ a, After gap step acc (f a)) : After gap step acc (p >>= f) := by
  intro source lo c b c' hat hlo hacc h
  obtain ⟨a, c₁, ha, hb⟩ := bind_eq_ok h
  obtain ⟨hat₁, hpos⟩ := hp.at_of_eq_ok ha hat
  rw [← hpos] at hlo hacc ⊢
  exact hf a source lo c₁ b c' hat₁ hlo hacc hb

theorem map {p : Reader α} {f : α → β} (hp : After gap step acc p)
    (hf : ∀ a, (outline (f a)).Sublist (outline a)) : After gap step acc (f <$> p) := by
  intro source lo c b c' hat hlo hacc h
  obtain ⟨a, ha, rfl⟩ := map_eq_ok h
  obtain ⟨hat', hfurther, hplaced⟩ := hp source lo c a c' hat hlo hacc ha
  exact ⟨hat', hfurther, hplaced.sublist (hf a)⟩

theorem orElse {p q : Reader α} (hp : After gap step acc p) (hq : After gap step acc q) :
    After gap step acc (p <|> q) := by
  intro source lo c a c' hat hlo hacc h
  obtain h | ⟨reach, h⟩ := orElse_eq_ok h
  · exact hp source lo c a c' hat hlo hacc h
  · exact hq source lo { c with reach := reach } a c' hat hlo hacc h

theorem ite {p q : Reader α} {b : Prop} [Decidable b] (hp : After gap step acc p)
    (hq : After gap step acc q) : After gap step acc (if b then p else q) := by
  split
  · exact hp
  · exact hq

/-- Nodes that may be left out, in front of a reader that goes on either way. -/
theorem readIf {p : Reader (List Node)} {f : List Node → Reader β} {b : Prop} [Decidable b]
    (hp : After 0 0 [] p) (hf : ∀ ns, After 0 0 (acc ++ outline ns) (f ns)) :
    After 0 0 acc (if b then p >>= f else Pure.pure [] >>= f) := by
  refine .ite (.read hp hf) ?_
  exact .read (.pure (List.Sublist.refl _)) hf

/-! ### Repetitions -/

theorem loopUpTo {round : α → Reader (α ⊕ α)} (hround : ∀ a, After gap 0 (outline a) (round a))
    (fuel : Nat) (a : α) : After gap 0 (outline a) (loopUpTo round fuel a) := by
  induction fuel generalizing a with
  | zero => exact stuck
  | succ fuel ih =>
    refine bind (hround a) fun x => ?_
    cases x with
    | inl b => exact pure (List.Sublist.refl _)
    | inr b => exact ih b

/-- A loop takes care of definitions if every round does. -/
theorem loop {round : α → Reader (α ⊕ α)} {a : α} (h : outline a = acc)
    (hround : ∀ a, After gap 0 (outline a) (round a)) : After gap 0 acc (loop round a) := by
  subst h
  -- How often there is a round at most depends on where the loop starts.
  intro source lo c b c'
  exact loopUpTo hround (c.size + 2) a source lo c b c'

/-! ### Constructs -/

/-- A construct that is no definition holds the definitions of its parts. -/
theorem construct {k : Kind} {p : Reader (List Node)} (hk : k.isDefinition = false)
    (hp : After gap step [] p) : After gap step [] (construct k p) := by
  intro source lo c n c' hat hlo hacc h
  rw [Reader.construct] at h
  split at h
  · rename_i ns c₁ hparts
    cases h
    rw [outline_node, Node.outline_branch hk]
    exact hp source lo c ns c' hat hlo hacc hparts
  · cases h

/-- A construct with a first part that is read already. -/
theorem extend {k : Kind} {first : Node} {p : Reader (List Node)} (hk : k.isDefinition = false)
    (hp : After gap step [] p) : After gap step (outline first) (extend k first p) := by
  intro source lo c n c' hat hlo hacc h
  rw [Reader.extend] at h
  split at h
  · rename_i ns c₁ hparts
    cases h
    obtain ⟨hat', hfurther, hplaced⟩ :=
      hp source (max lo c.pos.offset) c ns c' hat (by omega) (.nil _ _ _) hparts
    rw [outline_node, Node.outline_branch hk, Node.outlineAll_cons]
    exact ⟨hat', hfurther, hacc.append hplaced (by omega) (by omega) (by omega)⟩
  · cases h

end After

/-! ### Readers that go on -/

/-- The reader goes on by at least a character if it gives an answer that is `Q`. -/
def Advances (Q : α → Prop) (p : Reader α) : Prop :=
  ∀ source c a c', c.At source → p c = .ok (a, c') → Q a → c.pos.offset < c'.pos.offset

namespace Advances

/-- A reader of at least one character goes on, whatever it answers. -/
theorem of_after {Q : α → Prop} {p : Reader α} (hp : After 0 1 [] p) : Advances Q p := by
  intro source c a c' hat h _
  exact (at_of_eq_ok h hp hat).2

omit [Outlined β] in
/-- What comes first does not go back. -/
theorem read {step : Nat} {Q : β → Prop} {p : Reader α} {f : α → Reader β}
    (hp : After 0 step [] p) (hf : ∀ a, Advances Q (f a)) : Advances Q (p >>= f) := by
  intro source c b c' hat h hb
  obtain ⟨a, c₁, ha, hrest⟩ := bind_eq_ok h
  obtain ⟨hat₁, hfurther⟩ := at_of_eq_ok ha hp hat
  have hlt := hf a source c₁ b c' hat₁ hrest hb
  omega

omit [Outlined α] [Outlined β]

variable {Q : β → Prop} {f : α → Reader β}

theorem look {p : Reader α} (hp : Still p) (hf : ∀ a, Advances Q (f a)) : Advances Q (p >>= f) := by
  intro source c b c' hat h hb
  obtain ⟨a, c₁, ha, hrest⟩ := bind_eq_ok h
  obtain ⟨hat₁, hpos⟩ := hp.at_of_eq_ok ha hat
  rw [← hpos]
  exact hf a source c₁ b c' hat₁ hrest hb

/-- A reader has nothing to show if its answer is not `Q`. -/
theorem of_answers {q : Reader β} (hq : Answers (fun b => ¬Q b) q) : Advances Q q := by
  intro source c b c' hat h hb
  exact absurd hb (hq c b c' h)

theorem pure {p : Reader α} (hp : Advances (fun _ => True) p) (g : α → β) :
    Advances Q (p >>= fun a => Pure.pure (g a)) := by
  intro source c b c' hat h _
  obtain ⟨a, c₁, ha, hrest⟩ := bind_eq_ok h
  cases hrest
  exact hp source c a c' hat ha trivial

theorem ite {p q : Reader β} {b : Prop} [Decidable b] (hp : Advances Q p) (hq : Advances Q q) :
    Advances Q (if b then p else q) := by
  split
  · exact hp
  · exact hq

end Advances

/-! ### Tokens -/

/-- A reader that goes on by some characters and answers without definitions. -/
theorem After.of_advance {gap step : Nat} {p : Reader α}
    (h : ∀ c a c', p c = .ok (a, c') → outline a = [] ∧
      ∃ n, step ≤ min n c.rest.length ∧ c'.rest = (c.advance n).rest ∧ c'.pos = (c.advance n).pos) :
    After gap step [] p := by
  intro source lo c a c' hat hlo hacc ha
  obtain ⟨hnone, n, hstep, hrest, hpos⟩ := h c a c' ha
  have hat' : c'.At source := by
    rw [Cursor.At, hrest, hpos]
    exact hat.advance n
  rw [hnone, hpos, Cursor.offset_advance]
  exact ⟨hat', by omega, .nil _ _ _⟩

variable {gap : Nat}

/-- A token of a kind that is no definition goes on by its characters and holds none. -/
theorem after_leaf {k : Kind} (hk : k.isDefinition = false) (n : Nat) :
    After gap 0 [] (leaf k n) := by
  refine .of_advance ?_
  rintro c a c' ⟨⟩
  exact ⟨Node.outline_leaf hk _ _, n, Nat.zero_le _, rfl, rfl⟩

theorem after_separators : After gap 0 [] separators := by
  refine .of_advance ?_
  rintro c a c' ⟨⟩
  exact ⟨rfl, _, Nat.zero_le _, rfl, rfl⟩

/-- What stands between tokens: nothing, or a comment or an error of some characters. -/
theorem extra?_cases {c c' : Cursor} {n? : Option Node} (h : extra? c = .ok (n?, c')) :
    (n? = none ∧ c' = c) ∨ ∃ k n, k.isExtra = true ∧ n? = some (.leaf k c.pos c'.pos) ∧
      c'.rest = (c.advance n).rest ∧ c'.pos = (c.advance n).pos := by
  have hcomment : ∀ {n? c'}, extra?.comment c = .ok (n?, c') →
      (n? = none ∧ c' = c) ∨ ∃ k n, k.isExtra = true ∧ n? = some (.leaf k c.pos c'.pos) ∧
        c'.rest = (c.advance n).rest ∧ c'.pos = (c.advance n).pos := by
    intro n? c' h
    rw [extra?.comment] at h
    dsimp only at h
    generalize (if c.html then htmlCommentLength c.rest else 0) = html at h
    split at h
    · cases h
      exact .inr ⟨.htmlComment, _, rfl, rfl, rfl, rfl⟩
    · split at h
      · cases h
        exact .inl ⟨rfl, rfl⟩
      · cases h
        exact .inr ⟨.comment, _, rfl, rfl, rfl, rfl⟩
  rw [extra?] at h
  split at h
  · split at h
    · cases h
      exact .inr ⟨.error, _, rfl, rfl, rfl, rfl⟩
    · exact hcomment h
  · exact hcomment h

/-- What stands between tokens is in no role. -/
theorem isExtra_extra? : Answers (fun n? => ∀ e ∈ n?.toList, e.IsExtra) extra? := by
  intro c n? c' h
  obtain ⟨rfl, -⟩ | ⟨k, n, hk, rfl, -, -⟩ := extra?_cases h
  · simp
  · intro e he
    rw [List.mem_singleton.mp he]
    exact ⟨hk, rfl⟩

/-- All that stands between tokens is in no role. -/
theorem isExtra_extras : Answers (fun ns => ∀ e ∈ ns, e.IsExtra) extras := by
  refine .loop (by simp) fun found hfound => ?_
  refine .bind fun _ => ?_
  refine .read isExtra_extra? fun n? hn => ?_
  cases n? with
  | none => exact .pure hfound
  | some n =>
    refine .pure fun e he => ?_
    rcases List.mem_append.mp he with he | he
    · exact hfound e he
    · exact hn e he

/-- A comment or an error between tokens holds no definitions. -/
theorem after_extra? : After gap 0 [] extra? := by
  refine .of_advance fun c n? c' h => ?_
  obtain ⟨rfl, rfl⟩ | ⟨k, n, hk, rfl, hrest, hpos⟩ := extra?_cases h
  · exact ⟨outline_none, 0, Nat.zero_le _, rfl, rfl⟩
  · have hplain : k.isDefinition = false := Kind.isDefinition_of_isExtra hk
    exact ⟨by rw [outline_some, Node.outline_leaf hplain], n, Nat.zero_le _, hrest, hpos⟩

/-- A token that is recognised by the characters in front, of as many characters as they say. -/
theorem after_token {k : Kind} {step : Nat} (hk : k.isDefinition = false) {p : List Char → Bool}
    {length : List Char → Nat} (h : ∀ cs, p cs = true → step ≤ min (length cs) cs.length) :
    After gap step [] (do
      let cs ← rest
      guard (p cs)
      leaf k (length cs)) := by
  refine .of_advance fun c n c' hn => ?_
  obtain ⟨cs, c₁, hrest, hn⟩ := bind_eq_ok hn
  cases hrest
  obtain ⟨u, c₂, hguard, hn⟩ := bind_eq_ok hn
  rw [guard] at hguard
  split_ifs at hguard with hfound
  · cases hguard
    cases hn
    exact ⟨Node.outline_leaf hk _ _, _, h _ hfound, rfl, rfl⟩
  · cases hguard

theorem after_mark (text : String) : After gap 0 [] (mark text) :=
  after_token rfl fun _ _ => Nat.zero_le _

/-- A mark is at least one character. -/
theorem opens_mark {text : String} (h : text.toList ≠ []) : After gap 1 [] (mark text) := by
  refine after_token rfl fun cs hcs => ?_
  obtain ⟨r, rfl⟩ := List.isPrefixOf_iff_prefix.mp hcs
  have hpos := List.length_pos_iff.mpr h
  rw [List.length_append]
  omega

theorem after_name {k : Kind} (hk : k.isDefinition = false) : After gap 0 [] (name k) :=
  after_token (p := fun cs => decide (nameLength cs ≠ 0)) hk fun _ _ => Nat.zero_le _

/-- A keyword is at least one character. -/
theorem opens_keyword (k : Keyword) : After gap 1 [] (keyword k) := by
  refine .of_advance fun c n c' hn => ?_
  obtain ⟨k?, c₁, hword, hn⟩ := bind_eq_ok hn
  cases hword
  obtain ⟨u, c₂, hguard, hn⟩ := bind_eq_ok hn
  rw [guard] at hguard
  split_ifs at hguard with hk
  · cases hguard
    cases hn
    refine ⟨Node.outline_leaf rfl _ _, _, ?_, rfl, rfl⟩
    have hname : nameAt c.rest ≠ [] := by
      intro hnil
      rw [hnil] at hk
      cases of_decide_eq_true hk
    rw [← List.length_take]
    exact List.length_pos_iff.mpr hname
  · cases hguard

theorem after_keyword (k : Keyword) : After gap 0 [] (keyword k) :=
  (opens_keyword k).weaken (Nat.le_refl _) (Nat.zero_le _)

/-- Comments and errors between tokens hold no definitions, however many there are. -/
theorem after_extras : After gap 0 [] extras :=
  .loop (by simp) fun found => .read after_separators fun _ => .read after_extra? fun n? => by
    cases n? with
    | some n => exact .pure (by simp)
    | none => exact .pure (by simp)

/-- The end of a statement holds no definitions, with a semicolon or without. -/
theorem after_terminator (afterOperand : Bool) : After gap 0 [] (terminator afterOperand) := by
  refine .loop (by simp) fun found => ?_
  refine .look .rest fun cs => ?_
  refine .ite ?_ ?_
  · exact .look .mayHtml fun _ => .pure (by simp)
  · refine .read after_separators fun _ => ?_
    refine .read after_extra? fun n? => ?_
    cases n? with
    | some n => exact .pure (by simp)
    | none => exact .read (after_mark ";") fun n => .pure (by simp)

/-! ### Parts of a construct -/

variable {step : Nat}

/-- A part of a construct has comments in front of it, and these have no definitions. -/
theorem After.part {p : Reader Node} (hp : After gap step [] p) : After gap step [] (part p) := by
  refine .read after_extras fun before => ?_
  exact .read hp fun n => (After.pure (by simp)).weaken (Nat.le_refl _) (by omega)

/-- The role of a part does not change its definitions. -/
theorem After.partAs {f : Field} {p : Reader Node} (hp : After gap step [] p) :
    After gap step [] (partAs f p) :=
  .part (.map hp fun n => by simp)

theorem after_markPart (text : String) : After gap 0 [] (markPart text) := .part (after_mark text)

theorem opens_markPart {text : String} (h : text.toList ≠ []) : After gap 1 [] (markPart text) :=
  .part (opens_mark h)

theorem opens_keywordPart (k : Keyword) : After gap 1 [] (keywordPart k) := .part (opens_keyword k)

theorem after_keywordPart (k : Keyword) : After gap 0 [] (keywordPart k) := .part (after_keyword k)

/-- What may be left out holds no definitions if it is. -/
theorem After.optional {p : Reader (List Node)} (hp : After gap 0 [] p) :
    After gap 0 [] (optional p) :=
  hp.orElse (.pure (by simp))

/-! ### Repairs at the end of the text -/

/-- A token that is supplied at the end of the text reads nothing. -/
theorem after_supply (text : String) (found : List Node) : After gap 0 [] (supply text found) := by
  refine .of_advance fun c n c' h => ?_
  rw [supply] at h
  split at h
  · cases h
    exact ⟨(Node.outline_of_not_isDefinition rfl).trans Node.outlineAll_nil, 0, Nat.zero_le _, rfl,
      rfl⟩
  · cases h

/-- What is passed over as an error holds no definitions. -/
theorem after_passOver : After gap 0 [] passOver := by
  refine .of_advance fun c n c' h => ?_
  rw [passOver] at h
  split at h
  · cases h
    exact ⟨Node.outline_leaf rfl _ _, _, Nat.zero_le _, rfl, rfl⟩
  · cases h

end Reader

end SymbolIndex.JavaScript
