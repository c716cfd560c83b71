import SymbolIndex.Toml.Reader

/-!
# Reading what is written

A reader is said to read a text in front of another (`Reads`) if it takes exactly the one off the
whole and succeeds, wherever in a document that is. What it answers may depend on the place, so it is
described by a property. Readers that follow each other read texts that follow each other
(`Reads.bind`), and rounds that are repeated read one piece after the other (`Reads.more`,
`Reads.last`): the length of the text is enough fuel for them, since each but the last reads
something.
-/

namespace SymbolIndex.Toml

open Reader

variable {α β : Type}

/-- The reader takes `text` off a text that goes on with `after`, and answers with something that has
the property `p`. -/
def Reads (r : Reader α) (text after : List Char) (p : α → Prop) : Prop :=
  ∀ offset, ∃ a, r ⟨text ++ after, offset⟩ = .ok (a, ⟨after, offset + text.length⟩) ∧ p a

variable {r : Reader α} {f : α → Reader β} {text text₁ text₂ after : List Char} {p : α → Prop}
  {q : β → Prop} {c : Char}

/-! ### Readers one after the other -/

theorem bind_apply (r : Reader α) (f : α → Reader β) (s : Cursor) :
    (r >>= f) s = match r s with
      | .ok (a, s') => f a s'
      | .error e => .error e := by
  show (r s >>= fun x => f x.1 x.2) = _
  cases r s <;> rfl

theorem Reads.imp {p' : α → Prop} (h : Reads r text after p) (hp : ∀ a, p a → p' a) :
    Reads r text after p' := by
  intro offset
  obtain ⟨a, ha, hpa⟩ := h offset
  exact ⟨a, ha, hp a hpa⟩

theorem reads_pure {a : α} (h : p a) : Reads (pure a : Reader α) [] after p :=
  fun _ => ⟨a, rfl, h⟩

/-- Readers that follow each other read texts that follow each other. -/
theorem Reads.bind (h : Reads r text₁ (text₂ ++ after) p)
    (hf : ∀ a, p a → Reads (f a) text₂ after q) : Reads (r >>= f) (text₁ ++ text₂) after q := by
  intro offset
  obtain ⟨a, ha, hpa⟩ := h offset
  obtain ⟨b, hb, hqb⟩ := hf a hpa (offset + text₁.length)
  refine ⟨b, ?_, hqb⟩
  rw [bind_apply, List.append_assoc, ha, List.length_append, ← Nat.add_assoc]
  exact hb

/-- A reader that reads nothing, and then one that reads the text. -/
theorem Reads.nil_bind (h : Reads r [] (text ++ after) p)
    (hf : ∀ a, p a → Reads (f a) text after q) : Reads (r >>= f) text after q :=
  h.bind hf

/-- A reader, and then one that reads nothing. -/
theorem Reads.bind_nil (h : Reads r text after p) (hf : ∀ a, p a → Reads (f a) [] after q) :
    Reads (r >>= f) text after q := by
  rw [← List.append_nil text]
  have h' : Reads r text ([] ++ after) p := h
  exact h'.bind hf

/-- A reader, and then an answer that is made of what it read. -/
theorem Reads.bind_pure {g : α → β} (h : Reads r text after p) (hg : ∀ a, p a → q (g a)) :
    Reads (r >>= fun a => pure (g a)) text after q :=
  h.bind_nil fun a ha => reads_pure (hg a ha)

/-- What is computed from an answer is no text. -/
theorem Reads.map {g : α → β} (h : Reads r text after p) (hg : ∀ a, p a → q (g a)) :
    Reads (g <$> r) text after q := by
  intro offset
  obtain ⟨a, ha, hpa⟩ := h offset
  refine ⟨g a, ?_, hg a hpa⟩
  show (r ⟨text ++ after, offset⟩ >>= fun x => Except.ok (g x.1, x.2)) = _
  rw [ha]
  rfl

/-- Looking at the text reads nothing. -/
theorem reads_rest {f : List Char → Reader β} (h : Reads (f (text ++ after)) text after q) :
    Reads (rest >>= f) text after q :=
  h

/-- Asking for the place reads nothing. -/
theorem reads_offset {f : Nat → Reader β} (h : ∀ n, Reads (f n) text after q) :
    Reads (offset >>= f) text after q :=
  fun n => h n n

theorem reads_skip {n : Nat} (h : text.length = n) : Reads (skip n) text after fun _ => True := by
  intro offset
  refine ⟨(), ?_, trivial⟩
  rw [skip, ← h, List.drop_left]

/-- Passing over a text, and then an answer. -/
theorem reads_skip_pure {n : Nat} {a : α} (h : text.length = n) (ha : p a) :
    Reads (skip n >>= fun _ => pure a) text after p :=
  (reads_skip h).bind_pure fun _ _ => ha

/-- Passing over one character. -/
theorem Reads.skip_one {f : Unit → Reader β} (h : Reads (f ()) text after q) :
    Reads (skip 1 >>= f) (c :: text) after q := by
  have hskip : Reads (skip 1) [c] (text ++ after) fun _ => True := reads_skip rfl
  exact hskip.bind fun _ _ => h

theorem Reads.expect {reason : Reason} {f : Unit → Reader β} (h : Reads (f ()) text after q) :
    Reads (expect c reason >>= f) (c :: text) after q := by
  have hexpect : Reads (Reader.expect c reason) [c] (text ++ after) fun _ => True := by
    refine reads_rest ?_
    show Reads (if c = c then skip 1 else stop reason) [c] _ _
    rw [if_pos rfl]
    exact reads_skip rfl
  exact hexpect.bind fun _ _ => h

/-- Characters of a class are taken up to one that is not of the class. -/
theorem reads_takeWhile {s : Char → Bool} (htext : ∀ c ∈ text, s c = true)
    (hafter : ∀ c ∈ after.head?, s c = false) : Reads (takeWhile s) text after (· = text) := by
  have hstop : after.takeWhile s = [] ∧ after.dropWhile s = after := by
    cases after with
    | nil => exact ⟨rfl, rfl⟩
    | cons d after =>
      have hd : ¬ s d = true := Bool.not_eq_true _ ▸ hafter d rfl
      exact ⟨List.takeWhile_cons_of_neg hd, List.dropWhile_cons_of_neg hd⟩
  intro offset
  refine ⟨text, ?_, rfl⟩
  have htake : (text ++ after).takeWhile s = text := by
    rw [List.takeWhile_append_of_pos htext, hstop.1, List.append_nil]
  have hdrop : (text ++ after).dropWhile s = after := by
    rw [List.dropWhile_append_of_pos htext, hstop.2]
  rw [takeWhile, htake, hdrop]

/-! ### Rounds -/

variable {step : α → Reader (α ⊕ α)} {a : α}

/-- More fuel makes no difference once there is enough. -/
theorem loop_mono {n m : Nat} {s s' : Cursor} {b : α} (h : loop step n a s = .ok (b, s'))
    (hle : n ≤ m) : loop step m a s = .ok (b, s') := by
  induction n generalizing m a s with
  | zero => cases h
  | succ n ih =>
    obtain ⟨m, rfl⟩ := Nat.exists_eq_add_of_le' (Nat.le_trans (Nat.succ_pos n) hle)
    rw [loop, bind_apply] at h ⊢
    cases hstep : step a s with
    | error e =>
      rw [hstep] at h
      cases h
    | ok answer =>
      obtain ⟨c, s₁⟩ := answer
      rw [hstep] at h
      cases c with
      | inl c => exact h
      | inr c => exact ih h (Nat.le_of_succ_le_succ hle)

/-- The last round. -/
theorem Reads.last (h : Reads (step a) text after fun b => ∃ c, b = .inl c ∧ p c) :
    Reads (repeatUntil step a) text after p := by
  intro offset
  obtain ⟨_, hstep, c, rfl, hc⟩ := h offset
  refine ⟨c, ?_, hc⟩
  rw [repeatUntil, loop, bind_apply, hstep]
  rfl

/-- A round that is not the last. -/
theorem Reads.more (hne : text₁ ≠ [])
    (h : Reads (step a) text₁ (text₂ ++ after) fun b =>
      ∃ c, b = .inr c ∧ Reads (repeatUntil step c) text₂ after p) :
    Reads (repeatUntil step a) (text₁ ++ text₂) after p := by
  intro offset
  obtain ⟨_, hstep, c, rfl, hmore⟩ := h offset
  obtain ⟨b, hb, hpb⟩ := hmore (offset + text₁.length)
  refine ⟨b, ?_, hpb⟩
  have hplace : offset + (text₁ ++ text₂).length = offset + text₁.length + text₂.length := by
    rw [List.length_append, Nat.add_assoc]
  rw [repeatUntil, loop, bind_apply, List.append_assoc, hstep, hplace]
  -- The text of the round was fuel as well.
  refine loop_mono hb ?_
  have hpos := List.length_pos_iff.mpr hne
  simp only [List.length_append]
  omega

end SymbolIndex.Toml
