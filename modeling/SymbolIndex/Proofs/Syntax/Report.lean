import Mathlib.Data.List.TakeWhile
import SymbolIndex.Syntax.Fault

/-!
# What a report quotes

The report on a node at fault quotes the first line of its text, without the white space around it
(`Text.strips_iff`), and not more of it than a certain number of characters. Whether something is
left out is decided by comparing bytes; since every character has one, that is the same as counting
characters (`Text.utf8ByteSize_take_lt_iff`). So the report can be told from the line alone, and it
is one line itself (`Syntax.Node.describeFault_quotes_first_line`).
-/

namespace SymbolIndex

namespace Text

/-! ### Without the white space around it -/

/-- The characters without the white space at their ends are `inner`. -/
structure Strips (cs inner : List Char) : Prop where
  split : ∃ before after, cs = before ++ inner ++ after ∧
    (∀ c ∈ before, isSpace c = true) ∧ ∀ c ∈ after, isSpace c = true
  head : ∀ c ∈ inner.head?, isSpace c = false
  last : ∀ c ∈ inner.getLast?, isSpace c = false

variable {cs inner : List Char}

/-- White space at the start is dropped. -/
theorem head_dropWhile_isSpace (cs : List Char) :
    ∀ c ∈ (cs.dropWhile isSpace).head?, isSpace c = false := by
  intro c hc
  have hnot := cs.head?_dropWhile_not isSpace
  rw [Option.mem_def.mp hc] at hnot
  exact hnot

theorem dropWhile_eq_self (h : ∀ c ∈ cs.head?, isSpace c = false) : cs.dropWhile isSpace = cs := by
  cases cs with
  | nil => rfl
  | cons c cs => exact List.dropWhile_cons_of_neg (by simp [h c rfl])

/-- White space at the end is dropped, too. -/
theorem trimEnd_append {after : List Char} (h : ∀ c ∈ inner.getLast?, isSpace c = false)
    (hafter : ∀ c ∈ after, isSpace c = true) : trimEnd (inner ++ after) = inner := by
  have hlast : inner.reverse.dropWhile isSpace = inner.reverse :=
    dropWhile_eq_self (List.head?_reverse ▸ h)
  rw [trimEnd, List.reverse_append, List.dropWhile_append_of_pos (by simpa using hafter), hlast,
    List.reverse_reverse]

theorem trim_eq_of_strips (h : Strips cs inner) : trim cs = inner := by
  obtain ⟨⟨before, after, rfl, hbefore, hafter⟩, hhead, hlast⟩ := h
  rw [trim, List.append_assoc, List.dropWhile_append_of_pos hbefore]
  cases inner with
  | nil =>
    have hnone : after.dropWhile isSpace = [] := List.dropWhile_eq_nil_iff.mpr hafter
    rw [List.nil_append, hnone]
    rfl
  | cons c inner =>
    have hstart : (c :: inner ++ after).dropWhile isSpace = c :: inner ++ after :=
      dropWhile_eq_self hhead
    rw [hstart]
    exact trimEnd_append hlast hafter

theorem exists_trimEnd_append (cs : List Char) :
    ∃ after, cs = trimEnd cs ++ after ∧ ∀ c ∈ after, isSpace c = true := by
  refine ⟨(cs.reverse.takeWhile isSpace).reverse, ?_, fun c hc => ?_⟩
  · rw [trimEnd, ← List.reverse_append, List.takeWhile_append_dropWhile, List.reverse_reverse]
  · exact List.mem_takeWhile_imp (List.mem_reverse.mp hc)

theorem strips_trim (cs : List Char) : Strips cs (trim cs) := by
  obtain ⟨after, hsplit, hafter⟩ := exists_trimEnd_append (cs.dropWhile isSpace)
  refine ⟨⟨cs.takeWhile isSpace, after, ?_, fun c hc => List.mem_takeWhile_imp hc, hafter⟩,
    fun c hc => ?_, fun c hc => ?_⟩
  · rw [List.append_assoc, trim, ← hsplit, List.takeWhile_append_dropWhile]
  · refine head_dropWhile_isSpace cs c ?_
    rw [hsplit, List.head?_append]
    exact Option.or_eq_some_iff.mpr (.inl hc)
  · rw [trim, trimEnd, List.getLast?_reverse] at hc
    exact head_dropWhile_isSpace _ c hc

/-- Only one text is what is left without the white space at the ends. -/
theorem strips_iff : Strips cs inner ↔ inner = trim cs :=
  ⟨fun h => (trim_eq_of_strips h).symm, fun h => h ▸ strips_trim cs⟩

/-! ### Lines -/

/-- White space at the end makes no difference. -/
theorem trim_append {after : List Char} (h : ∀ c ∈ after, isSpace c = true) :
    trim (cs ++ after) = trim cs := by
  obtain ⟨⟨before, after', hsplit, hbefore, hafter⟩, hhead, hlast⟩ := strips_trim cs
  refine trim_eq_of_strips ⟨⟨before, after' ++ after, ?_, hbefore, ?_⟩, hhead, hlast⟩
  · rw [← List.append_assoc, ← hsplit]
  · exact List.forall_mem_append.mpr ⟨hafter, h⟩

/-- The first line is what is in front of the first line feed, but for a carriage return. -/
theorem trim_firstLine (cs : List Char) :
    trim (firstLine cs) = trim (cs.takeWhile (· ≠ '\n')) := by
  rw [firstLine]
  split_ifs with hreturn
  · simp only [Bool.and_eq_true, decide_eq_true_eq] at hreturn
    obtain ⟨line, hline⟩ := List.getLast?_eq_some_iff.mp hreturn.2
    have hspace : ∀ c ∈ ['\r'], isSpace c = true := List.forall_mem_singleton.mpr rfl
    rw [hline, List.dropLast_concat, trim_append hspace]
  · rfl

/-! ### Bytes and characters -/

/-- The beginning of a text has fewer bytes if it has fewer characters. -/
theorem utf8ByteSize_take_lt_iff (cs : List Char) (n : Nat) :
    (String.ofList (cs.take n)).utf8ByteSize < (String.ofList cs).utf8ByteSize ↔ n < cs.length := by
  have hsplit : (String.ofList cs).utf8ByteSize =
      (String.ofList (cs.take n)).utf8ByteSize + (String.ofList (cs.drop n)).utf8ByteSize := by
    rw [← String.utf8ByteSize_append, ← String.ofList_append, List.take_append_drop]
  have hrest : (String.ofList (cs.drop n)).utf8ByteSize = 0 ↔ cs.length ≤ n := by
    rw [String.utf8ByteSize_eq_zero_iff, String.ofList_eq_empty_iff, List.drop_eq_nil_iff]
  omega

end Text

namespace Syntax.Node

open Text

/-- What is quoted of a node: its first line, without the white space around it. -/
theorem describeFault_eq {source : List Char} {n : Node} (h : n.missing = false) :
    n.describeFault source =
      let line := trim ((n.chars source).takeWhile (· ≠ '\n'))
      if line = [] then "unexpected end of input"
      else "unexpected `" ++ String.ofList (line.take quoteLength) ++
        (if quoteLength < line.length then "..." else "") ++ "`" := by
  rw [describeFault, h, trim_firstLine]
  dsimp only
  generalize trim ((n.chars source).takeWhile (· ≠ '\n')) = line
  cases line with
  | nil => rfl
  | cons c line =>
    simp only [Bool.false_eq_true, if_false, List.isEmpty_cons, reduceCtorEq,
      utf8ByteSize_take_lt_iff]
    have hdots : "..." ++ "`" = "...`" := rfl
    split_ifs
    · rw [← hdots, ← String.append_assoc]
    · rw [String.append_empty]

/-- A line has no line feed in it, and neither has what is left of it without white space. -/
theorem lineFeed_not_mem_trim (cs : List Char) : '\n' ∉ trim (cs.takeWhile (· ≠ '\n')) := by
  intro hmem
  obtain ⟨⟨before, after, hsplit, -, -⟩, -, -⟩ := strips_trim (cs.takeWhile (· ≠ '\n'))
  have hline : '\n' ∈ cs.takeWhile (· ≠ '\n') := by
    rw [hsplit]
    exact List.mem_append_left _ (List.mem_append_right _ hmem)
  simpa using List.mem_takeWhile_imp hline

/-- **A report quotes the first line of a node.** The report on a node that is not missing depends
on one line only: the part of its text in front of the first line feed, without the white space
around it. If that line is empty, and only then, the report says that the text ends too early.
Otherwise it quotes the first forty characters of the line, however many bytes they have, with dots
behind them if there are more. In any case it is a line itself, and not an empty one. -/
theorem describeFault_quotes_first_line (source : List Char) (n : Node) (h : n.missing = false) :
    ∃ line, (∀ inner, Strips ((n.chars source).takeWhile (· ≠ '\n')) inner ↔ inner = line) ∧
      (n.describeFault source = "unexpected end of input" ↔ line = []) ∧
      (line ≠ [] → n.describeFault source = "unexpected `" ++ String.ofList (line.take 40) ++
        (if 40 < line.length then "..." else "") ++ "`") ∧
      n.describeFault source ≠ "" ∧ '\n' ∉ (n.describeFault source).toList := by
  refine ⟨trim ((n.chars source).takeWhile (· ≠ '\n')), fun inner => strips_iff, ?_⟩
  have hfeed := lineFeed_not_mem_trim (n.chars source)
  rw [describeFault_eq h]
  dsimp only
  generalize trim ((n.chars source).takeWhile (· ≠ '\n')) = line at hfeed ⊢
  by_cases hline : line = []
  · rw [if_pos hline]
    refine ⟨iff_of_true rfl hline, fun hne => absurd hline hne, by decide, by decide⟩
  · rw [if_neg hline]
    have hquote : '\n' ∉ line.take quoteLength := fun hmem => hfeed (List.mem_of_mem_take hmem)
    have hdots : '\n' ∉ (if quoteLength < line.length then "..." else "").toList := by
      split_ifs <;> decide
    refine ⟨iff_of_false (fun hend => ?_) hline, fun _ => rfl, fun hempty => ?_, ?_⟩
    · -- The two reports differ after the first word.
      have hchars := congrArg (·.toList[11]?) hend
      simp at hchars
    · have hchars := congrArg String.toList hempty
      simp at hchars
    · simp only [String.toList_append, String.toList_ofList, List.mem_append, not_or]
      exact ⟨⟨⟨by decide, hquote⟩, hdots⟩, by decide⟩

/-- An error of forty-one characters, each of two bytes, between blanks and in front of a line
break. -/
def longError : Node := .leaf .error .origin ⟨45, 1, 0⟩

/-- Of forty-one characters the report quotes forty, with dots. -/
theorem describeFault_quotes_forty :
    longError.missing = false ∧
      longError.describeFault ("  ".toList ++ List.replicate 41 'é' ++ "\r\n".toList) =
        "unexpected `" ++ String.ofList (List.replicate 40 'é') ++ "...`" := by
  refine ⟨rfl, ?_⟩
  obtain ⟨line, hline, -, hquote, -⟩ := describeFault_quotes_first_line
    ("  ".toList ++ List.replicate 41 'é' ++ "\r\n".toList) longError rfl
  have hblank : ∀ c ∈ "  ".toList, isSpace c = true := List.all_eq_true.mp rfl
  have hreturn : ∀ c ∈ "\r".toList, isSpace c = true := List.all_eq_true.mp rfl
  obtain rfl : List.replicate 41 'é' = line := by
    refine (hline _).mp ⟨⟨"  ".toList, "\r".toList, by decide +kernel, hblank, hreturn⟩, ?_, ?_⟩
    · rintro c ⟨⟩
      rfl
    · rintro c ⟨⟩
      rfl
  rw [hquote (by decide +kernel)]
  decide +kernel

end Syntax.Node

end SymbolIndex
