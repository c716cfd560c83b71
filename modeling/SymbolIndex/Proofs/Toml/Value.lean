import Mathlib.Data.List.Forall2
import SymbolIndex.Proofs.Toml.String
import SymbolIndex.Toml.Document

/-!
# Values are read as they were written

Strings, truth values and lists of strings are read back as values. Where a value stands in its
document does not matter but for its span, so values are described up to spans (`IsText`, `IsTruth`,
`IsTexts`). In a list each round reads the gap in front of an element, the element and the comma
behind it (`reads_printList`).
-/

namespace SymbolIndex.Toml

open Reader

variable {α : Type} {text after : List Char} {p : α → Prop}

/-! ### Gaps -/

/-- What comes next is neither a blank nor a comment nor a line end. -/
def Solid (text : List Char) : Prop :=
  ∀ c ∈ text.head?, isBlank c = false ∧ c ≠ '#' ∧ c ≠ '\n' ∧ c ≠ '\r'

theorem Solid.newlineLength (h : Solid text) : newlineLength text = 0 := by
  cases text with
  | nil => rfl
  | cons c text =>
    obtain ⟨-, -, hline, hreturn⟩ := h c rfl
    unfold Toml.newlineLength
    split <;> simp_all

theorem reads_blanks (htext : ∀ c ∈ text, isBlank c = true)
    (hafter : ∀ c ∈ after.head?, isBlank c = false) : Reads blanks text after fun _ => True :=
  (reads_takeWhile htext hafter).bind_pure fun _ _ => trivial

theorem reads_no_comment (hafter : ∀ c ∈ after.head?, c ≠ '#') :
    Reads comment [] after fun _ => True := by
  refine reads_rest ?_
  split
  · rename_i heq
    rw [List.nil_append] at heq
    exact absurd rfl (hafter '#' (heq ▸ rfl))
  · exact reads_pure trivial

theorem reads_gapRound_last (htext : ∀ c ∈ text, isBlank c = true) (hafter : Solid after) :
    Reads (gapRound ()) text after (· = .inl ()) := by
  refine (reads_blanks htext fun c hc => (hafter c hc).1).bind_nil fun _ _ => ?_
  refine (reads_no_comment fun c hc => (hafter c hc).2.1).nil_bind fun _ _ => reads_rest ?_
  dsimp only
  rw [List.nil_append, if_pos hafter.newlineLength]
  exact reads_pure rfl

theorem reads_gapRound_line : Reads (gapRound ()) ['\n'] after (· = .inr ()) := by
  have hblanks : Reads blanks [] (['\n'] ++ after) fun _ => True :=
    reads_blanks (List.forall_mem_nil _) fun c hc => by cases hc; decide
  have hcomment : Reads comment [] (['\n'] ++ after) fun _ => True :=
    reads_no_comment fun c hc => by cases hc; decide
  refine hblanks.nil_bind fun _ _ => hcomment.nil_bind fun _ _ => reads_rest ?_
  exact reads_skip_pure rfl rfl

/-- Blanks are passed over up to what is solid. -/
theorem reads_gap (htext : ∀ c ∈ text, isBlank c = true) (hafter : Solid after) :
    Reads gap text after fun _ => True := by
  refine Reads.last ((reads_gapRound_last htext hafter).imp ?_)
  rintro _ rfl
  exact ⟨(), rfl, trivial⟩

/-- A line end is passed over with what follows it. -/
theorem reads_gap_line (h : Reads gap text after fun _ => True) :
    Reads gap ('\n' :: text) after fun _ => True := by
  refine Reads.more (List.cons_ne_nil '\n' []) (reads_gapRound_line.imp ?_)
  rintro _ rfl
  exact ⟨(), rfl, h⟩

/-! ### Values without parts -/

/-- The value is a text. -/
def IsText (s : String) (v : Toml) : Prop := ∃ span, v = .scalar span (.string s)

/-- The value is a truth value. -/
def IsTruth (b : Bool) (v : Toml) : Prop := ∃ span, v = .scalar span (.boolean b)

/-- The value is a list of texts. -/
def IsTexts (ss : List String) (v : Toml) : Prop :=
  ∃ span vs, v = .array span vs ∧ List.Forall₂ IsText ss vs

/-- A value that does not start with a bracket or a brace has no parts. -/
theorem reads_value_of_scalar {fuel : Nat} {c : Char} {scalar : Scalar} (hbracket : c ≠ '[')
    (hbrace : c ≠ '\x7b') (h : Reads scalarValue (c :: text) after (· = scalar)) :
    Reads (value (fuel + 1)) (c :: text) after fun v => ∃ span, v = .scalar span scalar := by
  rw [value]
  refine reads_offset fun start => reads_rest ?_
  split
  · rename_i heq
    exact absurd (List.cons.inj heq).1 hbracket
  · rename_i heq
    exact absurd (List.cons.inj heq).1 hbrace
  · refine h.bind_nil fun v hv => reads_offset fun stop => reads_pure ?_
    exact ⟨⟨start, stop⟩, hv ▸ rfl⟩

/-- A string is read as a value. -/
theorem reads_value_printString {fuel : Nat} (s : String)
    (hafter : ∀ c ∈ after.head?, c ≠ '"' ∧ c ≠ '\'') :
    Reads (value (fuel + 1)) (printString s).toList after (IsText s) := by
  have hstring := reads_printString s hafter
  obtain ⟨q, text, htext, hq⟩ := exists_cons_of_printString s
  rw [htext] at hstring ⊢
  refine reads_value_of_scalar ?_ ?_ (reads_rest ?_)
  · rcases hq with rfl | rfl <;> decide
  · rcases hq with rfl | rfl <;> decide
  · have hquote : (decide (q = '"') || decide (q = '\'')) = true := by
      rcases hq with rfl | rfl <;> decide
    show Reads (if decide (q = '"') || decide (q = '\'') then Scalar.string <$> string else _) _ _ _
    rw [if_pos hquote]
    exact hstring.map fun _ h => congrArg Scalar.string h

theorem reads_word {word : String} {v : Scalar} :
    Reads (Toml.word word v) word.toList after (· = v) := by
  refine reads_rest ?_
  have hprefix : word.toList.isPrefixOf (word.toList ++ after) = true :=
    List.isPrefixOf_iff_prefix.mpr (List.prefix_append _ _)
  rw [if_pos hprefix]
  exact reads_skip_pure String.length_toList rfl

/-- A truth value is read as a value. -/
theorem reads_value_printBool {fuel : Nat} (b : Bool) :
    Reads (value (fuel + 1)) (printBool b).toList after (IsTruth b) := by
  cases b with
  | true => exact reads_value_of_scalar (by decide) (by decide) (reads_rest reads_word)
  | false => exact reads_value_of_scalar (by decide) (by decide) (reads_rest reads_word)

/-! ### Lists -/

variable {fuel : Nat} {found : List Toml} {before : List Char}

/-- The closing bracket of a list. -/
theorem reads_elementRound_close {element : Reader Toml}
    (hgap : Reads gap before (']' :: after) fun _ => True) :
    Reads (elementRound element found) (before ++ [']']) after (· = .inl found) :=
  hgap.bind fun _ _ => reads_rest (reads_skip_pure rfl rfl)

/-- A string in a list, with the comma or the closing bracket behind it. -/
theorem reads_elementRound (s : String) {sep : Char} (hsep : sep = ',' ∨ sep = ']')
    (hgap : Reads gap before ((printString s).toList ++ sep :: after) fun _ => True) :
    Reads (elementRound (value (fuel + 1)) found) (before ++ ((printString s).toList ++ [sep])) after
      fun answer => ∃ v, IsText s v ∧
        answer = if sep = ',' then .inr (found ++ [v]) else .inl (found ++ [v]) := by
  have hquotes : ∀ c ∈ (sep :: after).head?, c ≠ '"' ∧ c ≠ '\'' := by
    intro c hc
    cases hc
    rcases hsep with rfl | rfl <;> decide
  have hvalue : Reads (value (fuel + 1)) (printString s).toList ([sep] ++ after) (IsText s) :=
    reads_value_printString s hquotes
  have hsolid : Solid ([sep] ++ after) := by
    intro c hc
    cases hc
    rcases hsep with rfl | rfl <;> decide
  have hnothing : Reads gap [] ([sep] ++ after) fun _ => True :=
    reads_gap (List.forall_mem_nil _) hsolid
  have hafter : (printString s).toList ++ [sep] ++ after = (printString s).toList ++ sep :: after :=
    List.append_assoc _ _ _
  refine Reads.bind (hafter ▸ hgap) fun _ _ => reads_rest ?_
  -- What comes next starts with a quote, so it is an element.
  obtain ⟨q, text, htext, hq⟩ := exists_cons_of_printString s
  rw [htext] at hvalue ⊢
  have hstarts : startsValue q = true := by
    rcases hq with rfl | rfl <;> decide
  split
  · rename_i heq
    have hbracket := (List.cons.inj heq).1
    rcases hq with rfl | rfl <;> exact absurd hbracket (by decide)
  · rename_i c _ heq
    obtain ⟨rfl, -⟩ := List.cons.inj heq
    rw [if_pos hstarts]
    refine Reads.bind hvalue fun v hv => hnothing.nil_bind fun _ _ => reads_rest ?_
    rcases hsep with rfl | rfl
    · exact reads_skip_pure rfl ⟨v, hv, rfl⟩
    · exact reads_skip_pure rfl ⟨v, hv, rfl⟩
  · rename_i heq
    cases heq

/-- The lines of a list with several elements, each of them with a comma. -/
def elementLines (ss : List String) : List Char :=
  ss.flatMap fun s => "    ".toList ++ ((printString s).toList ++ [',', '\n'])

theorem solid_printString (s : String) (after : List Char) :
    Solid ((printString s).toList ++ after) := by
  obtain ⟨q, text, htext, hq⟩ := exists_cons_of_printString s
  rw [htext]
  intro c hc
  cases hc
  rcases hq with rfl | rfl <;> decide

/-- The elements that are found already come before those on the lines. -/
theorem reads_elementLines (ss : List String) {fs : List String}
    (hfound : List.Forall₂ IsText fs found) :
    Reads (repeatUntil (elementRound (value (fuel + 1))) found)
      ('\n' :: (elementLines ss ++ [']'])) after (List.Forall₂ IsText (fs ++ ss)) := by
  induction ss generalizing fs found with
  | nil =>
    have hgap : Reads gap ['\n'] (']' :: after) fun _ => True :=
      reads_gap_line (reads_gap (List.forall_mem_nil _) fun c hc => by cases hc; decide)
    refine Reads.last ((reads_elementRound_close hgap).imp ?_)
    rintro _ rfl
    exact ⟨found, rfl, (List.append_nil fs).symm ▸ hfound⟩
  | cons s ss ih =>
    have hblank : ∀ c ∈ "    ".toList, isBlank c = true := List.all_eq_true.mp (by decide)
    have hgap : Reads gap ('\n' :: "    ".toList)
        ((printString s).toList ++ ',' :: ('\n' :: (elementLines ss ++ [']']) ++ after))
        fun _ => True :=
      reads_gap_line (reads_gap hblank (solid_printString s _))
    have htext : '\n' :: (elementLines (s :: ss) ++ [']']) =
        ('\n' :: "    ".toList ++ ((printString s).toList ++ [','])) ++
          '\n' :: (elementLines ss ++ [']']) := by
      simp only [elementLines, List.flatMap_cons, List.append_assoc, List.cons_append,
        List.nil_append]
    rw [htext]
    refine Reads.more (List.cons_ne_nil _ _) ((reads_elementRound s (.inl rfl) hgap).imp ?_)
    rintro _ ⟨v, hv, rfl⟩
    have hnext := ih (List.rel_append hfound (List.Forall₂.cons hv .nil))
    rw [List.append_assoc] at hnext
    exact ⟨_, rfl, hnext⟩

/-- The elements of a list, up to its closing bracket. -/
theorem reads_arrayElements (fuel : Nat) (ss : List String) :
    ∃ text, (printList ss).toList = '[' :: text ∧
      ∀ after, Reads (arrayElements (value (fuel + 1))) text after (List.Forall₂ IsText ss) := by
  match ss with
  | [] =>
    refine ⟨[']'], rfl, fun after => Reads.last ?_⟩
    have hgap : Reads gap [] (']' :: after) fun _ => True :=
      reads_gap (List.forall_mem_nil _) fun c hc => by cases hc; decide
    refine (reads_elementRound_close hgap).imp ?_
    rintro _ rfl
    exact ⟨[], rfl, .nil⟩
  | [s] =>
    refine ⟨(printString s).toList ++ [']'], ?_, fun after => Reads.last ?_⟩
    · rw [printList, String.toList_append, String.toList_append]
      rfl
    · have hgap : Reads gap [] ((printString s).toList ++ ']' :: after) fun _ => True :=
        reads_gap (List.forall_mem_nil _) (solid_printString s _)
      refine (reads_elementRound s (.inr rfl) hgap).imp ?_
      rintro _ ⟨v, hv, rfl⟩
      exact ⟨[v], rfl, .cons hv .nil⟩
  | s :: s' :: ss =>
    refine ⟨'\n' :: (elementLines (s :: s' :: ss) ++ [']']), ?_, fun after => ?_⟩
    · have hline : (fun s => ("    " ++ printString s ++ ",\n").toList) =
          fun s => "    ".toList ++ ((printString s).toList ++ [',', '\n']) := by
        funext s
        rw [String.toList_append, String.toList_append, List.append_assoc]
        rfl
      show ("[\n" ++ String.join ((s :: s' :: ss).map fun s => "    " ++ printString s ++ ",\n") ++
        "]").toList = _
      rw [String.toList_append, String.toList_append, String.toList_join, List.flatMap_map, hline]
      rfl
    · exact reads_elementLines (s :: s' :: ss) .nil

/-- **A list of texts is read back** as a value. -/
theorem reads_value_printList (ss : List String) :
    Reads (value (fuel + 2)) (printList ss).toList after (IsTexts ss) := by
  obtain ⟨text, htext, hread⟩ := reads_arrayElements fuel ss
  rw [htext, value]
  refine reads_offset fun start => reads_rest ?_
  show Reads (if fuel + 1 = 0 then _ else skip 1 >>= _) _ _ _
  rw [if_neg (Nat.succ_ne_zero fuel)]
  refine Reads.skip_one ((hread after).bind_nil fun vs hvs => reads_offset fun stop => ?_)
  exact reads_pure ⟨⟨start, stop⟩, vs, rfl, hvs⟩

end SymbolIndex.Toml
