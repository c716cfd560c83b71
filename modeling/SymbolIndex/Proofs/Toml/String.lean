import Mathlib.Data.List.Basic
import SymbolIndex.Proofs.Toml.Reader
import SymbolIndex.Toml.Printer

/-!
# Strings are read as they were written

A text is written in the first of four forms that needs no escape, and with escapes if there is none.
In each form it is read back, one character at a time: what a round reads is what is written for the
character. Only quotes in a string of several lines are written one by one and read several at once,
so there the invariant also has the quotes that are still to be read, two of them at most
(`reads_escapedLines`, `reads_literalLines`).

- `reads_printString`: every text is read back, whatever form it took, if no quote follows.
-/

namespace SymbolIndex.Toml

open Reader

variable {α : Type} {text after found : List Char} {c q : Char} {p : List Char → Prop}

/-! ### Characters -/

/-- What may stand in a text as it is, is what controls nothing. -/
theorem isPlain_eq (c : Char) : isPlain c = !isControl c := by
  by_cases h : c = '\t'
  · subst h
    decide
  · rw [Bool.eq_iff_iff]
    simp [isPlain, isControl, h]

theorem newlineLength_of_isPlain (h : isPlain c = true) (text : List Char) :
    newlineLength (c :: text) = 0 := by
  have hline : c ≠ '\n' := by
    rintro rfl
    exact absurd h (by decide)
  have hreturn : c ≠ '\r' := by
    rintro rfl
    exact absurd h (by decide)
  unfold newlineLength
  split <;> simp_all

/-- A code with four digits is read as the character. -/
theorem codeEscape_eq (h : isControl c = true) :
    ∃ ds, (codeEscape c).toList = '\\' :: 'u' :: ds ∧ ds.length = 4 ∧
      hexNumber? ds = some c.toNat := by
  have hall : ∀ n : Fin 128, ((codeEscape (Char.ofNat n)).toList.take 2 = ['\\', 'u']) ∧
      ((codeEscape (Char.ofNat n)).toList.drop 2).length = 4 ∧
      hexNumber? ((codeEscape (Char.ofNat n)).toList.drop 2) = some n.val := by
    decide +kernel
  have hlt : c.toNat < 128 := by
    simp only [isControl, Bool.or_eq_true, Bool.and_eq_true, decide_eq_true_eq] at h
    omega
  obtain ⟨htake, hlength, hnumber⟩ := hall ⟨c.toNat, hlt⟩
  rw [Char.ofNat_toNat] at htake hlength hnumber
  generalize (codeEscape c).toList = text at htake hlength hnumber ⊢
  refine ⟨text.drop 2, ?_, hlength, hnumber⟩
  calc text = text.take 2 ++ text.drop 2 := (List.take_append_drop 2 text).symm
    _ = '\\' :: 'u' :: text.drop 2 := by rw [htake]; rfl

theorem reads_codePoint {n : Nat} {name : String} {ds : List Char} (hlength : ds.length = n)
    (hnumber : hexNumber? ds = some c.toNat) : Reads (codePoint n name) ds after (· = c) := by
  refine reads_rest ?_
  have htake : (ds ++ after).take n = ds := hlength ▸ List.take_left
  have hcode : isCharCode c.toNat = true := by
    have hvalid : c.toNat < 0xd800 ∨ 0xdfff < c.toNat ∧ c.toNat < 0x110000 := c.valid
    simp only [isCharCode, Bool.or_eq_true, Bool.and_eq_true, decide_eq_true_eq]
    omega
  dsimp only
  rw [htake, if_pos hlength, hnumber]
  dsimp only
  rw [if_pos hcode]
  exact reads_skip_pure hlength (Char.ofNat_toNat c)

/-- The characters that have a letter, or a mark, as their escape. -/
def shortEscapes : List (Char × Char) :=
  [('\t', 't'), ('\x08', 'b'), ('\x0c', 'f'), ('\n', 'n'), ('\r', 'r'), ('\\', '\\')]

theorem reads_shortEscape {d : Char} (h : (c, d) ∈ shortEscapes) :
    (escapedChar c).toList = ['\\', d] ∧ (∀ after, Reads escape [d] after (· = c)) ∧
      ∀ after, joinsLines (d :: after) = false := by
  simp only [shortEscapes, List.mem_cons, List.not_mem_nil, or_false, Prod.mk.injEq] at h
  rcases h with ⟨rfl, rfl⟩ | ⟨rfl, rfl⟩ | ⟨rfl, rfl⟩ | ⟨rfl, rfl⟩ | ⟨rfl, rfl⟩ | ⟨rfl, rfl⟩ <;>
    exact ⟨rfl, fun _ => reads_rest (reads_skip_pure rfl rfl), fun _ => rfl⟩

/-- A character stands for itself, or its escape is read as the character. An escape does not start
with a blank or a line end. -/
theorem escapedChar_cases (c : Char) :
    ((escapedChar c).toList = [c] ∧ isPlain c = true ∧ c ≠ '\\') ∨
      ∃ e, (escapedChar c).toList = '\\' :: e ∧ (∀ after, Reads escape e after (· = c)) ∧
        ∀ after, joinsLines (e ++ after) = false := by
  by_cases hshort : ∃ d, (c, d) ∈ shortEscapes
  · obtain ⟨d, hd⟩ := hshort
    obtain ⟨htext, hreads, hjoins⟩ := reads_shortEscape hd
    exact .inr ⟨[d], htext, hreads, hjoins⟩
  · have hne : ∀ e ∈ shortEscapes, c ≠ e.1 := by
      rintro ⟨c', d⟩ he rfl
      exact hshort ⟨d, he⟩
    simp only [shortEscapes, List.forall_mem_cons, List.not_mem_nil, false_implies, implies_true,
      and_true] at hne
    obtain ⟨htab, hback, hfeed, hline, hreturn, hslash⟩ := hne
    rw [escapedChar, if_neg htab, if_neg hback, if_neg hfeed, if_neg hline, if_neg hreturn,
      if_neg hslash]
    by_cases hcontrol : isControl c
    · rw [if_pos hcontrol]
      obtain ⟨ds, htext, hlength, hnumber⟩ := codeEscape_eq hcontrol
      refine .inr ⟨'u' :: ds, htext, fun after => ?_, fun after => rfl⟩
      exact reads_rest (Reads.skip_one (reads_codePoint hlength hnumber))
    · rw [if_neg hcontrol]
      refine .inl ⟨String.toList_singleton c, ?_, hslash⟩
      rw [isPlain_eq, Bool.eq_false_iff.mpr hcontrol]
      rfl

/-! ### Strings on one line -/

/-- What is written for a character between double quotes is read as the character. -/
theorem reads_basicRound (c : Char) :
    Reads (basicRound found) (if c = '"' then "\\\"" else escapedChar c).toList after
      (· = .inr (found ++ [c])) := by
  have escaped {e : List Char} (he : ∀ after, Reads escape e after (· = c)) :
      Reads (basicRound found) ('\\' :: e) after (· = .inr (found ++ [c])) := by
    refine reads_rest (Reads.skip_one ?_)
    refine (he _).bind_pure fun d hd => ?_
    rw [hd]
  by_cases hquote : c = '"'
  · subst hquote
    exact escaped fun _ => reads_rest (reads_skip_pure rfl rfl)
  rw [if_neg hquote]
  rcases escapedChar_cases c with ⟨htext, hplain, hslash⟩ | ⟨e, htext, he, -⟩
  · rw [htext]
    refine reads_rest ?_
    split
    · rename_i heq
      cases heq
      exact absurd rfl hquote
    · rename_i heq
      cases heq
      exact absurd rfl hslash
    · rename_i heq
      cases heq
      rw [if_pos hplain]
      exact reads_skip_pure rfl rfl
    · rename_i heq
      cases heq
  · rw [htext]
    exact escaped he

theorem escapedChar_ne_nil (c : Char) : (escapedChar c).toList ≠ [] := by
  rcases escapedChar_cases c with ⟨htext, -, -⟩ | ⟨e, htext, -, -⟩ <;> rw [htext] <;>
    exact List.cons_ne_nil _ _

theorem escapedLine_cons (c : Char) (cs : List Char) :
    (escapedLine (c :: cs)).toList =
      (if c = '"' then "\\\"" else escapedChar c).toList ++ (escapedLine cs).toList := by
  rw [escapedLine, List.map_cons, String.join_cons, String.toList_append, escapedLine]

/-- A character between double quotes is written as something, and does not start with a quote. -/
theorem exists_cons_of_basic (c : Char) :
    ∃ d e, (if c = '"' then "\\\"" else escapedChar c).toList = d :: e ∧ d ≠ '"' := by
  by_cases hquote : c = '"'
  · rw [if_pos hquote]
    exact ⟨'\\', ['"'], rfl, by decide⟩
  · rw [if_neg hquote]
    rcases escapedChar_cases c with ⟨htext, -, -⟩ | ⟨e, htext, -, -⟩
    · exact ⟨c, [], htext, hquote⟩
    · exact ⟨'\\', e, htext, by decide⟩

/-- **A string with escapes on one line is read back.** -/
theorem reads_basicString (cs : List Char) :
    Reads basicString ('"' :: ((escapedLine cs).toList ++ ['"'])) after (· = String.ofList cs) := by
  have hrounds : ∀ cs found, Reads (repeatUntil basicRound found)
      ((escapedLine cs).toList ++ ['"']) after (· = found ++ cs) := by
    intro cs
    induction cs with
    | nil =>
      intro found
      refine Reads.last (reads_rest (reads_skip_pure rfl ⟨found, rfl, ?_⟩))
      exact (List.append_nil found).symm
    | cons c cs ih =>
      intro found
      rw [escapedLine_cons, List.append_assoc]
      refine Reads.more ?_ ((reads_basicRound c).imp ?_)
      · obtain ⟨d, e, htext, -⟩ := exists_cons_of_basic c
        rw [htext]
        exact List.cons_ne_nil d e
      · rintro _ rfl
        exact ⟨_, rfl, (ih _).imp fun _ h => h.trans (List.append_cons found c cs).symm⟩
  refine Reads.expect ?_
  refine (hrounds cs []).bind_pure fun _ h => ?_
  rw [h, List.nil_append]

/-- **A string as it stands on one line is read back.** -/
theorem reads_literalString {cs : List Char} (hplain : ∀ c ∈ cs, isPlain c = true)
    (hquote : '\'' ∉ cs) :
    Reads literalString ('\'' :: (cs ++ ['\''])) after (· = String.ofList cs) := by
  refine Reads.expect ?_
  have htake : Reads (takeWhile fun c => isPlain c && c ≠ '\'') cs (['\''] ++ after) (· = cs) := by
    refine reads_takeWhile (fun c hc => ?_) fun c hc => ?_
    · have hne : c ≠ '\'' := fun heq => hquote (heq ▸ hc)
      rw [hplain c hc, decide_eq_true hne]
      rfl
    · cases hc
      decide
  refine htake.bind fun _ h => Reads.expect (reads_pure ?_)
  rw [h]

/-! ### Strings over several lines -/

theorem replicate_succ_append (n : Nat) (q : Char) (text : List Char) :
    List.replicate (n + 1) q ++ text = List.replicate n q ++ q :: text := by
  rw [List.replicate_succ', List.append_assoc]
  rfl

theorem quoteCount_replicate (hafter : ∀ c ∈ after.head?, c ≠ q) (n : Nat) :
    quoteCount q (List.replicate n q ++ after) = n := by
  have hq : ∀ c ∈ List.replicate n q, decide (c = q) = true := fun c hc =>
    decide_eq_true (List.eq_of_mem_replicate hc)
  have hstop : after.takeWhile (· = q) = [] := by
    cases after with
    | nil => rfl
    | cons d after => exact List.takeWhile_cons_of_neg (by simpa using hafter d rfl)
  rw [quoteCount, List.takeWhile_append_of_pos hq, hstop, List.append_nil, List.length_replicate]

/-- Two quotes in a row at most are part of a text. -/
theorem reads_quotes {j : Nat} (hj : j ≤ 2) (hafter : ∀ c ∈ after.head?, c ≠ q) :
    Reads (quotesRound q found) (List.replicate j q) after
      (· = .inr (found ++ List.replicate j q)) := by
  have hquotes : Reads (quotes q) (List.replicate j q) after
      (· = (List.replicate j q, false)) := by
    refine reads_rest ?_
    rw [quoteCount_replicate hafter]
    dsimp only
    rw [if_pos (by omega)]
    exact reads_skip_pure List.length_replicate rfl
  refine hquotes.bind_nil fun _ h => ?_
  subst h
  exact reads_pure rfl

/-- Three quotes end a text, and up to two before them are part of it. -/
theorem reads_endQuotes {j : Nat} (hj : j ≤ 2) (hafter : ∀ c ∈ after.head?, c ≠ q) :
    Reads (quotesRound q found) (List.replicate (j + 3) q) after
      (· = .inl (found ++ List.replicate j q)) := by
  have hquotes : Reads (quotes q) (List.replicate (j + 3) q) after
      (· = (List.replicate j q, true)) := by
    refine reads_rest ?_
    have hown : min 2 (j + 3 - 3) = j := by omega
    rw [quoteCount_replicate hafter]
    dsimp only
    rw [if_neg (by omega), hown]
    exact reads_skip_pure List.length_replicate rfl
  refine hquotes.bind_nil fun _ h => ?_
  subst h
  exact reads_pure rfl

theorem reads_plainRound {reason : Reason} (h : isPlain c = true) :
    Reads (plainRound reason found) [c] after (· = .inr (found ++ [c])) := by
  refine reads_rest ?_
  show Reads (if newlineLength (c :: after) ≠ 0 then _ else if isPlain c then _ else _) _ _ _
  rw [if_neg (not_not_intro (newlineLength_of_isPlain h after)), if_pos h]
  exact reads_skip_pure rfl rfl

theorem reads_lineRound {reason : Reason} :
    Reads (plainRound reason found) ['\n'] after (· = .inr (found ++ ['\n'])) :=
  reads_rest (reads_skip_pure rfl rfl)

/-- A reader that leaves quotes to `quotesRound`. -/
def LeavesQuotes (q : Char) (step : List Char → Reader (List Char ⊕ List Char)) : Prop :=
  ∀ found text after p, Reads (quotesRound q found) (q :: text) after p →
    Reads (step found) (q :: text) after p

section
variable {step : List Char → Reader (List Char ⊕ List Char)} {j : Nat}

/-- Quotes that are part of a text come before what is not a quote. -/
theorem LeavesQuotes.more (hstep : LeavesQuotes q step) (hj : j ≤ 2)
    (htext : ∀ c ∈ (text ++ after).head?, c ≠ q)
    (h : Reads (repeatUntil step (found ++ List.replicate j q)) text after p) :
    Reads (repeatUntil step found) (List.replicate j q ++ text) after p := by
  cases j with
  | zero => simpa using h
  | succ j =>
    refine Reads.more (List.cons_ne_nil _ _) ?_
    refine hstep found _ _ _ ((reads_quotes hj htext).imp ?_)
    rintro _ rfl
    exact ⟨_, rfl, h⟩

theorem LeavesQuotes.last (hstep : LeavesQuotes q step) (hj : j ≤ 2)
    (hafter : ∀ c ∈ after.head?, c ≠ q) :
    Reads (repeatUntil step found) (List.replicate j q ++ List.replicate 3 q) after
      (· = found ++ List.replicate j q) := by
  rw [List.replicate_append_replicate]
  refine Reads.last (hstep found _ _ _ ((reads_endQuotes hj hafter).imp ?_))
  rintro _ rfl
  exact ⟨_, rfl, rfl⟩

/-- A piece of text behind some quotes, which reads as a character. -/
theorem LeavesQuotes.piece (hstep : LeavesQuotes q step) (hj : j ≤ 2) {cs : List Char}
    {piece : List Char} (hpiece : ∀ c ∈ piece.head?, c ≠ q) (hne : piece ≠ [])
    (hread : ∀ found after, Reads (step found) piece after (· = .inr (found ++ [c])))
    (h : ∀ found, Reads (repeatUntil step found) text after (· = found ++ cs)) :
    Reads (repeatUntil step found) (List.replicate j q ++ (piece ++ text)) after
      (· = found ++ (List.replicate j q ++ c :: cs)) := by
  refine hstep.more hj ?_ (Reads.more hne ((hread _ _).imp ?_))
  · obtain ⟨d, piece, rfl⟩ := List.exists_cons_of_ne_nil hne
    exact hpiece
  · rintro _ rfl
    refine ⟨_, rfl, (h _).imp fun _ heq => heq.trans ?_⟩
    simp only [List.append_assoc, List.singleton_append]

end

/-! ### With escapes -/

theorem leavesQuotes_multilineRound : LeavesQuotes '"' multilineRound :=
  fun _ _ _ _ h => reads_rest h

theorem reads_multilineRound_escape {e : List Char} (he : ∀ after, Reads escape e after (· = c))
    (hjoins : ∀ after, joinsLines (e ++ after) = false) :
    Reads (multilineRound found) ('\\' :: e) after (· = .inr (found ++ [c])) := by
  refine reads_rest ?_
  show Reads (if joinsLines (e ++ after) = true then _ else _) _ _ _
  rw [if_neg (Bool.eq_false_iff.mp (hjoins after))]
  refine Reads.skip_one ?_
  refine (he _).bind_pure fun d hd => ?_
  rw [hd]

theorem reads_multilineRound_quote :
    Reads (multilineRound found) "\\\"".toList after (· = .inr (found ++ ['"'])) :=
  reads_multilineRound_escape (fun _ => reads_rest (reads_skip_pure rfl rfl)) fun _ => rfl

/-- What is written for a character between three double quotes is read as the character. -/
theorem reads_multilineRound (hquote : c ≠ '"') (hline : c ≠ '\n') :
    Reads (multilineRound found) (escapedChar c).toList after (· = .inr (found ++ [c])) := by
  rcases escapedChar_cases c with ⟨htext, hplain, hslash⟩ | ⟨e, htext, he, hjoins⟩
  · rw [htext]
    refine reads_rest ?_
    split
    · rename_i heq
      cases heq
      exact absurd rfl hquote
    · rename_i heq
      cases heq
      exact absurd rfl hslash
    · exact reads_plainRound hplain
  · rw [htext]
    exact reads_multilineRound_escape he hjoins

/-- A line end is written as it is. -/
theorem reads_multilineRound_line :
    Reads (multilineRound found) ['\n'] after (· = .inr (found ++ ['\n'])) :=
  reads_rest reads_lineRound

theorem head?_escapedChar_ne (hc : c ≠ '"') : ∀ d ∈ (escapedChar c).toList.head?, d ≠ '"' := by
  rcases escapedChar_cases c with ⟨htext, -, -⟩ | ⟨e, htext, -, -⟩
  · rw [htext]
    intro d hd
    cases hd
    exact hc
  · rw [htext]
    intro d hd
    cases hd
    decide

/-- Of the quotes written in a row, `j` are still to be read. -/
theorem reads_escapedLines {j : Nat} (hj : j ≤ 2) (hafter : ∀ c ∈ after.head?, c ≠ '"')
    (cs : List Char) (found : List Char) :
    Reads (repeatUntil multilineRound found)
      (List.replicate j '"' ++ ((escapedLines j cs).toList ++ List.replicate 3 '"')) after
      (· = found ++ (List.replicate j '"' ++ cs)) := by
  induction cs generalizing j found with
  | nil =>
    refine (leavesQuotes_multilineRound.last hj hafter).imp fun _ h => h.trans ?_
    rw [List.append_nil]
  | cons c cs ih =>
    have hzero (found : List Char) := ih (Nat.zero_le 2) found
    simp only [List.replicate_zero, List.nil_append] at hzero
    rw [escapedLines]
    by_cases hquote : c = '"'
    · subst hquote
      rw [if_pos rfl]
      by_cases htwo : j = 2
      · -- The third quote in a row has an escape.
        rw [if_pos htwo, String.toList_append, List.append_assoc]
        refine leavesQuotes_multilineRound.piece hj ?_ (List.cons_ne_nil _ _) ?_ hzero
        · intro d hd
          cases hd
          decide
        · exact fun found after => reads_multilineRound_quote
      · rw [if_neg htwo, String.toList_append, List.append_assoc]
        have hnext := ih (j := j + 1) (by omega) found
        rw [replicate_succ_append, replicate_succ_append] at hnext
        exact hnext
    · rw [if_neg hquote]
      by_cases hline : c = '\n'
      · subst hline
        rw [if_pos rfl, String.toList_append, List.append_assoc]
        refine leavesQuotes_multilineRound.piece hj ?_ (List.cons_ne_nil _ _) ?_ hzero
        · intro d hd
          cases hd
          decide
        · exact fun found after => reads_multilineRound_line
      · rw [if_neg hline, String.toList_append, List.append_assoc]
        exact leavesQuotes_multilineRound.piece hj (head?_escapedChar_ne hquote)
          (escapedChar_ne_nil c) (fun _ _ => reads_multilineRound hquote hline) hzero

/-! ### As it stands -/

theorem leavesQuotes_multilineLiteralRound : LeavesQuotes '\'' multilineLiteralRound :=
  fun _ _ _ _ h => reads_rest h

/-- A character other than a quote stands for itself. -/
theorem reads_multilineLiteralRound (hquote : c ≠ '\'') (hplain : isPlain c = true ∨ c = '\n') :
    Reads (multilineLiteralRound found) [c] after (· = .inr (found ++ [c])) := by
  refine reads_rest ?_
  split
  · rename_i heq
    cases heq
    exact absurd rfl hquote
  · rcases hplain with hplain | rfl
    · exact reads_plainRound hplain
    · exact reads_lineRound

theorem hasTriple_cons (a : Char) (h : hasTriple q (a :: text) = false) :
    hasTriple q text = false := by
  cases text with
  | nil => rfl
  | cons b text =>
    cases text with
    | nil => rfl
    | cons c text => exact (Bool.or_eq_false_iff.mp h).2

/-- Where no three quotes come in a row, none do further on. -/
theorem hasTriple_append (l : List Char) (h : hasTriple q (l ++ text) = false) :
    hasTriple q text = false := by
  induction l with
  | nil => exact h
  | cons a l ih => exact ih (hasTriple_cons a h)

theorem hasTriple_replicate (text : List Char) :
    hasTriple q (List.replicate 3 q ++ text) = true := by
  show ((decide (q = q) && decide (q = q) && decide (q = q)) || _) = true
  rw [decide_eq_true rfl]
  rfl

/-- Of the quotes in a row, `j` are still to be read. -/
theorem reads_literalLines {j : Nat} (hj : j ≤ 2) (hafter : ∀ c ∈ after.head?, c ≠ '\'')
    (cs : List Char) (hplain : ∀ c ∈ cs, isPlain c = true ∨ c = '\n')
    (htriple : hasTriple '\'' (List.replicate j '\'' ++ cs) = false) (found : List Char) :
    Reads (repeatUntil multilineLiteralRound found)
      (List.replicate j '\'' ++ (cs ++ List.replicate 3 '\'')) after
      (· = found ++ (List.replicate j '\'' ++ cs)) := by
  induction cs generalizing j found with
  | nil =>
    refine (leavesQuotes_multilineLiteralRound.last hj hafter).imp fun _ h => h.trans ?_
    rw [List.append_nil]
  | cons c cs ih =>
    have hplain' : ∀ c ∈ cs, isPlain c = true ∨ c = '\n' := fun c hc =>
      hplain c (List.mem_cons_of_mem _ hc)
    by_cases hquote : c = '\''
    · -- One more quote in the row, and it is not the third.
      subst hquote
      rw [← replicate_succ_append] at htriple
      have htwo : j ≠ 2 := by
        rintro rfl
        rw [hasTriple_replicate] at htriple
        cases htriple
      have hnext := ih (j := j + 1) (by omega) hplain' htriple found
      rw [replicate_succ_append, replicate_succ_append] at hnext
      exact hnext
    · have hrest : hasTriple '\'' cs = false :=
        hasTriple_cons c (hasTriple_append (List.replicate j '\'') htriple)
      have hpiece : ∀ d ∈ [c].head?, d ≠ '\'' := by
        intro d hd
        cases hd
        exact hquote
      show Reads _ (List.replicate j '\'' ++ ([c] ++ (cs ++ List.replicate 3 '\''))) _ _
      exact leavesQuotes_multilineLiteralRound.piece hj hpiece (List.cons_ne_nil _ _)
        (fun _ _ => reads_multilineLiteralRound hquote (hplain c List.mem_cons_self))
        fun found => ih (Nat.zero_le 2) hplain' hrest found

/-! ### Every form -/

/-- A line end that follows the opening quotes is passed over. -/
theorem reads_openingLine {f : Unit → Reader α} {p : α → Prop} (start : List Char)
    (hstart : start = ['\n'] ∨ start = [] ∧ newlineLength (text ++ after) = 0)
    (h : Reads (f ()) text after p) : Reads (openingLine >>= f) (start ++ text) after p := by
  have hopening : Reads openingLine start (text ++ after) fun _ => True := by
    refine reads_rest (reads_skip ?_)
    rcases hstart with rfl | ⟨rfl, hnone⟩
    · rfl
    · exact hnone.symm
  exact hopening.bind fun _ _ => h

/-- A string between three quotes, which may start on a line of its own. -/
theorem reads_multiline {step : List Char → Reader (List Char ⊕ List Char)} {cs : List Char}
    (start : List Char)
    (hstart : start = ['\n'] ∨ start = [] ∧ newlineLength (text ++ after) = 0)
    (h : Reads (repeatUntil step []) text after (· = cs)) :
    Reads (do
      skip 3
      openingLine
      let cs ← repeatUntil step []
      pure (String.ofList cs)) (List.replicate 3 q ++ (start ++ text)) after
      (· = String.ofList cs) := by
  have hskip : Reads (skip 3) (List.replicate 3 q) ((start ++ text) ++ after) fun _ => True :=
    reads_skip rfl
  exact hskip.bind fun _ _ => reads_openingLine start hstart
    (h.bind_pure fun _ h => congrArg String.ofList h)

/-- The line end that a text with several lines starts with. -/
def openingOf (cs : List Char) : List Char := if cs.contains '\n' then ['\n'] else []

/-- A text without line ends starts on the line of the quotes. -/
theorem openingOf_cases (cs : List Char)
    (h : '\n' ∉ cs → newlineLength (text ++ after) = 0) :
    openingOf cs = ['\n'] ∨ openingOf cs = [] ∧ newlineLength (text ++ after) = 0 := by
  rw [openingOf]
  by_cases hline : '\n' ∈ cs
  · exact .inl (if_pos (List.contains_iff_mem.mpr hline))
  · exact .inr ⟨if_neg fun hmem => hline (List.contains_iff_mem.mp hmem), h hline⟩

theorem newlineLength_escapedLines {cs : List Char} (hline : '\n' ∉ cs) :
    newlineLength ((escapedLines 0 cs).toList ++ List.replicate 3 '"' ++ after) = 0 := by
  cases cs with
  | nil => rfl
  | cons c cs =>
    rw [escapedLines]
    by_cases hquote : c = '"'
    · subst hquote
      rw [if_pos rfl, if_neg (by decide), String.toList_append]
      rfl
    · have hc : c ≠ '\n' := fun heq => hline (heq ▸ List.mem_cons_self)
      rw [if_neg hquote, if_neg hc, String.toList_append]
      rcases escapedChar_cases c with ⟨htext, hplain, -⟩ | ⟨e, htext, -, -⟩
      · rw [htext]
        exact newlineLength_of_isPlain hplain _
      · rw [htext]
        rfl

theorem reads_multilineString (hafter : ∀ c ∈ after.head?, c ≠ '"') (cs : List Char) :
    Reads multilineString
      (List.replicate 3 '"' ++ (openingOf cs ++ ((escapedLines 0 cs).toList ++ List.replicate 3 '"')))
      after (· = String.ofList cs) :=
  reads_multiline _ (openingOf_cases cs newlineLength_escapedLines)
    (reads_escapedLines (Nat.zero_le 2) hafter cs [])

theorem reads_multilineLiteral (hafter : ∀ c ∈ after.head?, c ≠ '\'') {cs : List Char}
    (hplain : ∀ c ∈ cs, isPlain c = true ∨ c = '\n') (htriple : hasTriple '\'' cs = false) :
    Reads multilineLiteral
      (List.replicate 3 '\'' ++ (openingOf cs ++ (cs ++ List.replicate 3 '\'')))
      after (· = String.ofList cs) := by
  refine reads_multiline _ (openingOf_cases cs fun hline => ?_)
    (reads_literalLines (Nat.zero_le 2) hafter cs hplain htriple [])
  cases cs with
  | nil => rfl
  | cons c cs =>
    rcases hplain c List.mem_cons_self with hc | rfl
    · exact newlineLength_of_isPlain hc _
    · exact absurd List.mem_cons_self hline

/-- A quote that is not the first of three starts a string on one line. -/
theorem reads_string_of_basic {p : String → Prop}
    (hthree : ∀ rest, text ++ after ≠ '"' :: '"' :: rest)
    (h : Reads basicString ('"' :: text) after p) : Reads string ('"' :: text) after p := by
  refine reads_rest ?_
  split
  · rename_i heq
    exact absurd (List.cons.inj heq).2 (hthree _)
  · exact h
  · rename_i heq
    cases heq
  · rename_i hbasic _
    exact absurd rfl (hbasic _)

theorem reads_string_of_literal {p : String → Prop}
    (hthree : ∀ rest, text ++ after ≠ '\'' :: '\'' :: rest)
    (h : Reads literalString ('\'' :: text) after p) : Reads string ('\'' :: text) after p := by
  refine reads_rest ?_
  split
  · rename_i heq
    cases heq
  · rename_i heq
    cases heq
  · rename_i heq
    exact absurd (List.cons.inj heq).2 (hthree _)
  · exact h

/-- A text between double quotes does not start with two of them, or it is empty. -/
theorem escapedLine_ne (hafter : ∀ c ∈ after.head?, c ≠ '"') (cs rest : List Char) :
    (escapedLine cs).toList ++ ['"'] ++ after ≠ '"' :: '"' :: rest := by
  cases cs with
  | nil =>
    intro h
    have hnext : after = '"' :: rest := (List.cons.inj h).2
    exact hafter '"' (hnext ▸ rfl) rfl
  | cons c cs =>
    intro h
    obtain ⟨d, e, htext, hd⟩ := exists_cons_of_basic c
    rw [escapedLine_cons, htext] at h
    exact hd (List.cons.inj h).1

/-- What is written between single quotes on one line is not empty, nor is there a quote in it. -/
theorem of_eq_literal {cs : List Char} (h : StringForm.of cs = .literal) :
    cs ≠ [] ∧ (∀ c ∈ cs, isPlain c = true) ∧ '\'' ∉ cs := by
  rw [StringForm.of] at h
  split_ifs at h with hbasic hliteral
  obtain ⟨honeLine, hquote⟩ := Bool.and_eq_true_iff.mp hliteral
  refine ⟨?_, fun c hc => ?_, fun hmem => ?_⟩
  · rintro rfl
    exact hbasic rfl
  · have hcontrol := List.any_eq_false.mp ((Bool.not_eq_true' _).mp honeLine) c hc
    rw [isPlain_eq, Bool.eq_false_iff.mpr hcontrol]
    rfl
  · rw [List.contains_iff_mem.mpr hmem] at hquote
    cases hquote

/-- What is written between three single quotes is fit to stand as it is. -/
theorem of_eq_multilineLiteral {cs : List Char} (h : StringForm.of cs = .multilineLiteral) :
    (∀ c ∈ cs, isPlain c = true ∨ c = '\n') ∧ hasTriple '\'' cs = false := by
  rw [StringForm.of] at h
  split_ifs at h with _ _ _ hlines
  obtain ⟨hcontrols, htriple⟩ := Bool.and_eq_true_iff.mp hlines
  refine ⟨fun c hc => ?_, (Bool.not_eq_true' _).mp htriple⟩
  have hcontrol := List.any_eq_false.mp ((Bool.not_eq_true' _).mp hcontrols) c hc
  by_cases hline : c = '\n'
  · exact .inr hline
  · rw [decide_eq_true hline, Bool.and_true] at hcontrol
    rw [isPlain_eq, Bool.eq_false_iff.mpr hcontrol]
    exact .inl rfl

/-- What a text looks like in each form. -/
theorem toList_printString (s : String) :
    (printString s).toList = match StringForm.of s.toList with
      | .basic => '"' :: ((escapedLine s.toList).toList ++ ['"'])
      | .literal => '\'' :: (s.toList ++ ['\''])
      | .multilineBasic => List.replicate 3 '"' ++
          (openingOf s.toList ++ ((escapedLines 0 s.toList).toList ++ List.replicate 3 '"'))
      | .multilineLiteral => List.replicate 3 '\'' ++
          (openingOf s.toList ++ (s.toList ++ List.replicate 3 '\'')) := by
  have hopening : (if s.toList.contains '\n' then "\n" else "").toList = openingOf s.toList := by
    rw [openingOf]
    split_ifs <;> rfl
  rw [printString]
  cases StringForm.of s.toList with
  | basic | literal =>
    dsimp only
    rw [String.toList_append, String.toList_append]
    rfl
  | multilineBasic | multilineLiteral =>
    dsimp only
    rw [String.toList_append, String.toList_append, String.toList_append, hopening,
      List.append_assoc, List.append_assoc]
    rfl

/-- Every form starts with a quote. -/
theorem exists_cons_of_printString (s : String) :
    ∃ q text, (printString s).toList = q :: text ∧ (q = '"' ∨ q = '\'') := by
  rw [toList_printString]
  cases StringForm.of s.toList with
  | basic | multilineBasic => exact ⟨'"', _, rfl, .inl rfl⟩
  | literal | multilineLiteral => exact ⟨'\'', _, rfl, .inr rfl⟩

/-- **Every text is read back**, whatever form it took, where no quote follows. -/
theorem reads_printString (s : String) (hafter : ∀ c ∈ after.head?, c ≠ '"' ∧ c ≠ '\'') :
    Reads string (printString s).toList after (· = s) := by
  have hdouble : ∀ c ∈ after.head?, c ≠ '"' := fun c hc => (hafter c hc).1
  have hsingle : ∀ c ∈ after.head?, c ≠ '\'' := fun c hc => (hafter c hc).2
  have hs : ∀ t, t = String.ofList s.toList → t = s := fun _ h => h.trans String.ofList_toList
  rw [toList_printString]
  cases hform : StringForm.of s.toList with
  | basic =>
    exact (reads_string_of_basic (escapedLine_ne hdouble s.toList) (reads_basicString _)).imp hs
  | literal =>
    obtain ⟨hne, hplain, hquote⟩ := of_eq_literal hform
    have hthree : ∀ rest, s.toList ++ ['\''] ++ after ≠ '\'' :: '\'' :: rest := by
      obtain ⟨c, cs, hcs⟩ := List.exists_cons_of_ne_nil hne
      intro rest h
      rw [hcs] at h hquote
      exact hquote ((List.cons.inj h).1 ▸ List.mem_cons_self)
    exact (reads_string_of_literal hthree (reads_literalString hplain hquote)).imp hs
  | multilineBasic =>
    exact (reads_rest (reads_multilineString hdouble s.toList)).imp hs
  | multilineLiteral =>
    obtain ⟨hplain, htriple⟩ := of_eq_multilineLiteral hform
    exact (reads_rest (reads_multilineLiteral hsingle hplain htriple)).imp hs

end SymbolIndex.Toml
