import Mathlib.Data.List.TakeWhile
import SymbolIndex.JavaScript.Member

/-!
# How tokens are spelled

A name is a run of name characters and escapes, and no dot is among them
(`Lexical.dot_not_mem_nameAt`). A keyword is the name that is its spelling
(`Keyword.eq_text_of_ofChars?`). One token holds two words: `static` and `get`, with blanks between
them and after them (`Lexical.take_staticGetLength`).
-/

namespace SymbolIndex

open Syntax

theorem Syntax.Keyword.eq_text_of_mem_spellings :
    ∀ p ∈ Keyword.spellings, p.1 = p.2.text.toList := by
  decide +kernel

theorem Syntax.Keyword.mem_spellings_of_ofChars? {cs : List Char} {k : Keyword}
    (h : Keyword.ofChars? cs = some k) : (cs, k) ∈ spellings := by
  obtain ⟨before, after, hsplit, -⟩ := List.lookup_eq_some_iff.mp h
  rw [hsplit]
  exact List.mem_append_right _ List.mem_cons_self

/-- The characters of a keyword are its spelling. -/
theorem Syntax.Keyword.eq_text_of_ofChars? {cs : List Char} {k : Keyword}
    (h : Keyword.ofChars? cs = some k) : cs = k.text.toList :=
  eq_text_of_mem_spellings _ (mem_spellings_of_ofChars? h)

/-- The spelling of a keyword is that of no other one. -/
theorem Syntax.Keyword.ofChars?_text (k : Keyword) : Keyword.ofChars? k.text.toList = some k := by
  cases k <;> decide +kernel

/-- A keyword is a word: it has characters, none of which is blank. -/
theorem Syntax.Keyword.not_isBlank_text (k : Keyword) : k.text.toList ≠ [] ∧
    ∀ c ∈ k.text.toList, JavaScript.Lexical.isBlank c = false := by
  have hwords : spellings.all
      (fun p => !p.1.isEmpty && !p.1.any JavaScript.Lexical.isBlank) = true :=
    rfl
  have hword := List.all_eq_true.mp hwords _ (mem_spellings_of_ofChars? k.ofChars?_text)
  simp only [Bool.and_eq_true, Bool.not_eq_true', List.isEmpty_eq_false_iff,
    List.any_eq_false] at hword
  exact ⟨hword.1, fun c hc => Bool.not_eq_true _ ▸ hword.2 c hc⟩

namespace JavaScript

open Syntax

namespace Lexical

/-! ### Names -/

theorem ne_dot_of_isHexDigit {c : Char} (h : isHexDigit c = true) : '.' ≠ c := by
  rintro rfl
  exact absurd h (by decide)

/-- The rest of a Unicode escape has no dot in it. -/
theorem dot_not_mem_take_unicodeEscapeTail (cs : List Char) :
    '.' ∉ cs.take (unicodeEscapeTail cs) := by
  rw [unicodeEscapeTail.eq_def]
  split
  · rename_i r
    dsimp only
    split
    · rename_i rest hdrop
      split
      · simp
      · obtain ⟨tail, hr⟩ := List.takeWhile_prefix isHexDigit (l := r)
        have hdigits : '.' ∉ r.takeWhile isHexDigit :=
          fun hdot => ne_dot_of_isHexDigit (List.mem_takeWhile_imp hdot) rfl
        generalize r.takeWhile isHexDigit = digits at hr hdrop hdigits
        subst hr
        rw [List.drop_left] at hdrop
        rw [hdrop, List.take_succ_cons, List.take_succ_cons, List.take_append,
          List.take_of_length_le (Nat.le_succ _)]
        simp [hdigits]
    · simp
  · rename_i a b c d r
    split
    · rename_i hhex
      simp only [Bool.and_eq_true] at hhex
      obtain ⟨⟨⟨ha, hb⟩, hc⟩, hd⟩ := hhex
      simp [ne_dot_of_isHexDigit ha, ne_dot_of_isHexDigit hb, ne_dot_of_isHexDigit hc,
        ne_dot_of_isHexDigit hd]
    · simp
  · simp

/-- A run of name characters has no dot in it but in what is skipped. -/
theorem dot_not_mem_take_nameRun (cs : List Char) (skip : Nat) (h : '.' ∉ cs.take skip) :
    '.' ∉ cs.take (nameRun skip cs) := by
  induction cs generalizing skip with
  | nil => simp
  | cons c r ih =>
    cases skip with
    | succ k =>
      rw [List.take_succ_cons, List.mem_cons, not_or] at h
      rw [nameRun, List.take_succ_cons, List.mem_cons, not_or]
      exact ⟨h.1, ih k h.2⟩
    | zero =>
      rw [nameRun]
      split_ifs with hname hescape
      · rw [List.take_succ_cons, List.mem_cons, not_or]
        refine ⟨?_, ih 0 (by simp)⟩
        rintro rfl
        exact absurd hname (by decide)
      · have htail := dot_not_mem_take_unicodeEscapeTail r
        split
        · simp
        · rename_i k hk
          rw [hk] at htail
          rw [List.take_succ_cons, List.mem_cons, not_or]
          refine ⟨?_, ih (k + 1) htail⟩
          rintro rfl
          exact absurd hescape (by decide)
      · simp

/-- No name has a dot in it. -/
theorem dot_not_mem_nameAt (cs : List Char) : '.' ∉ nameAt cs := by
  rw [nameAt, nameLength.eq_def]
  split
  · simp
  · split
    · simp
    · exact dot_not_mem_take_nameRun _ 0 (by simp)

theorem nameAt_ne_nil {cs : List Char} (h : nameLength cs ≠ 0) : nameAt cs ≠ [] := by
  cases cs with
  | nil => exact absurd rfl h
  | cons c r =>
    rw [nameAt, ne_eq, List.take_eq_nil_iff]
    simp [h]

/-! ### The token of two words -/

/-- What the token `static get` is made of. -/
theorem take_staticGetLength {cs : List Char} {n : Nat} (h : staticGetLength cs = n + 1) :
    ∃ gap tail, cs.take (n + 1) = "static".toList ++ gap ++ "get".toList ++ tail ∧ gap ≠ [] ∧
      (∀ c ∈ gap, isBlank c = true) ∧ ∀ c ∈ tail, isBlank c = true := by
  rw [staticGetLength.eq_def] at h
  split at h
  · rename_i r
    dsimp only at h
    split at h
    · rename_i r' hget
      split at h
      · cases h
      · rename_i upToBreak hbreak
        split_ifs at h with hgap
        obtain ⟨after, hr⟩ := List.takeWhile_prefix isBlank (l := r)
        obtain ⟨rest, hr'⟩ := List.takeWhile_prefix isBlank (l := r')
        have hgapBlank : ∀ c ∈ r.takeWhile isBlank, isBlank c = true :=
          fun c hc => List.mem_takeWhile_imp hc
        have hrunBlank : ∀ c ∈ r'.takeWhile isBlank, isBlank c = true :=
          fun c hc => List.mem_takeWhile_imp hc
        generalize r.takeWhile isBlank = gap at *
        generalize r'.takeWhile isBlank = run at *
        subst hr hr'
        rw [List.drop_left] at hget
        subst hget
        -- The blanks up to the last line break are the first ones of the run.
        obtain ⟨line, hline⟩ := List.dropWhile_suffix (l := run.reverse) (· ≠ '\n')
        generalize run.reverse.dropWhile (· ≠ '\n') = upToBreak at *
        have hrun : run = upToBreak.reverse ++ line.reverse := by
          rw [← List.reverse_append, hline, List.reverse_reverse]
        subst hrun
        have hcs : 's' :: 't' :: 'a' :: 't' :: 'i' :: 'c' :: (gap ++ 'g' :: 'e' :: 't' ::
            (upToBreak.reverse ++ line.reverse ++ rest)) =
            ("static".toList ++ gap ++ "get".toList ++ upToBreak.reverse) ++
              (line.reverse ++ rest) := by
          simp
        have hlength : ("static".toList ++ gap ++ "get".toList ++ upToBreak.reverse).length =
            n + 1 := by
          simp
          omega
        refine ⟨gap, upToBreak.reverse, ?_, fun hnil => hgap (by rw [hnil]; rfl), hgapBlank,
          fun c hc => hrunBlank c (List.mem_append_left _ hc)⟩
        rw [hcs, ← hlength, List.take_left]
    · cases h
  · cases h

end Lexical

end JavaScript

end SymbolIndex
