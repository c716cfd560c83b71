import Mathlib.Tactic.SplitIfs
import SymbolIndex.Json.Printer
import SymbolIndex.Proofs.Json.Grammar

/-!
# What is printed is JSON

The printed form of a value is a spelling of it, over several lines at whatever level
(`spells_prettyAt`) and on one line (`spells_compact`). A value may hold anything for a number, so its
numbers have to be numbers (`Proper`); every string can be printed.

Elements and members are laid out in the same way: each with the white space of its line in front of
it, commas between them, and the white space of the closing bracket at the end (`spread`). On one
line there is no white space.
-/

namespace SymbolIndex.Json

/-! ### Strings -/

theorem hexValue?_digitChar {i : Nat} (h : i < 16) : hexValue? (Nat.digitChar i) = some i := by
  have hall : ∀ i < 16, hexValue? (Nat.digitChar i) = some i := by decide
  exact hall i h

/-- The escape of a control character has two digits that are not always zero. -/
theorem toList_codeEscape {c : Char} (h : c.toNat < 0x20) :
    (codeEscape c).toList =
      ['\\', 'u', '0', '0', Nat.digitChar (c.toNat / 16), Nat.digitChar (c.toNat % 16)] := by
  have hall : ∀ n < 0x20, (codeEscape (Char.ofNat n)).toList =
      ['\\', 'u', '0', '0', Nat.digitChar (n / 16), Nat.digitChar (n % 16)] := by
    decide +kernel
  have hc := hall c.toNat h
  rwa [Char.ofNat_toNat] at hc

/-- A character is printed as an escape of it or as itself. -/
theorem spellsUnit_printChar (c : Char) : SpellsUnit c.toNat (printChar c).toList := by
  have hletter : ∀ {l d : Char} {text : String}, escape? l = some d → c = d →
      text.toList = ['\\', l] → SpellsUnit c.toNat text.toList := by
    rintro l d text hl rfl htext
    rw [htext]
    exact .letter hl
  rw [printChar]
  split_ifs with hquote hslash hback hfeed hline hreturn htab hcode
  · exact hletter rfl hquote rfl
  · exact hletter rfl hslash rfl
  · exact hletter rfl hback rfl
  · exact hletter rfl hfeed rfl
  · exact hletter rfl hline rfl
  · exact hletter rfl hreturn rfl
  · exact hletter rfl htab rfl
  · have hdigits : ((0 * 16 + 0) * 16 + c.toNat / 16) * 16 + c.toNat % 16 = c.toNat := by omega
    have hhigh : hexValue? (Nat.digitChar (c.toNat / 16)) = some (c.toNat / 16) :=
      hexValue?_digitChar (by omega)
    have hlow : hexValue? (Nat.digitChar (c.toNat % 16)) = some (c.toNat % 16) :=
      hexValue?_digitChar (by omega)
    have hzero : hexValue? '0' = some 0 := rfl
    have hspells := SpellsUnit.code hzero hzero hhigh hlow
    rwa [hdigits, ← toList_codeEscape hcode] at hspells
  · rw [String.toList_singleton]
    exact .plain (by omega) hquote hslash

theorem spellsUnits_printChars (cs : List Char) :
    SpellsUnits (cs.map Char.toNat) (cs.flatMap fun c => (printChar c).toList) := by
  induction cs with
  | nil => exact .nil
  | cons c cs ih =>
    rw [List.map_cons, List.flatMap_cons]
    exact .cons (spellsUnit_printChar c) ih

/-- A code point that is no half of a pair is a character of its own. -/
theorem assemble_cons {n : Nat} (hhigh : isHighHalf n = false) (hlow : isLowHalf n = false)
    (ns : List Nat) : assemble (n :: ns) = (assemble ns).map (Char.ofNat n :: ·) := by
  cases ns with
  | nil =>
    rw [assemble.eq_def]
    dsimp only
    rw [hhigh, hlow]
    rfl
  | cons m ns =>
    rw [assemble, hhigh, hlow]
    rfl

theorem assemble_toNat (cs : List Char) : assemble (cs.map Char.toNat) = some cs := by
  induction cs with
  | nil => rfl
  | cons c cs ih =>
    have hvalid : c.toNat < 0xd800 ∨ 0xdfff < c.toNat ∧ c.toNat < 0x110000 := c.valid
    have hhigh : isHighHalf c.toNat = false := by
      simp only [isHighHalf, Bool.and_eq_false_iff, decide_eq_false_iff_not]
      omega
    have hlow : isLowHalf c.toNat = false := by
      simp only [isLowHalf, Bool.and_eq_false_iff, decide_eq_false_iff_not]
      omega
    rw [List.map_cons, assemble_cons hhigh hlow, ih, Option.map_some, Char.ofNat_toNat]

/-- Every text has a literal. -/
theorem spellsString_printString (s : String) : SpellsString (some s) (printString s).toList := by
  have hspells := SpellsString.intro (spellsUnits_printChars s.toList)
  rw [assemble_toNat, Option.map_some, String.ofList_toList] at hspells
  have htext : (printString s).toList =
      '"' :: (s.toList.flatMap fun c => (printChar c).toList) ++ ['"'] := by
    simp only [printString, String.toList_append, String.toList_join, List.flatMap_map]
    rfl
  rwa [htext]

theorem spellsString_printBroken : SpellsString none printBroken.toList := by
  have hunit : SpellsUnit 0xd800 "\\ud800".toList :=
    .code (a := 'd') (b := '8') (c := '0') (d := '0') rfl rfl rfl rfl
  exact .intro (.cons hunit .nil)

theorem spellsString_printName (name : Option String) :
    SpellsString name (printName name).toList := by
  cases name with
  | none => exact spellsString_printBroken
  | some s => exact spellsString_printString s

/-! ### Layout -/

/-- Items with commas between them, each with `before` in front of it, and `after` at the end. -/
def spread (before after : List Char) : List (List Char) → List Char
  | [] => []
  | [t] => before ++ t ++ after
  | t :: ts => before ++ t ++ ',' :: spread before after ts

theorem toList_intercalate_eq_spread (before after : String) {items : List String}
    (hne : items ≠ []) :
    (before ++ ("," ++ before).intercalate items ++ after).toList =
      spread before.toList after.toList (items.map String.toList) := by
  induction items with
  | nil => exact absurd rfl hne
  | cons item items ih =>
    cases items with
    | nil => simp [spread]
    | cons item' items =>
      rw [String.intercalate_cons_cons, List.map_cons, List.map_cons, spread, ← List.map_cons,
        ← ih (by simp)]
      · simp
      · simp

/-- Items that stand on one line have no white space around them. -/
theorem toList_intercalate_comma {items : List String} (hne : items ≠ []) :
    (",".intercalate items).toList = spread [] [] (items.map String.toList) := by
  have h := toList_intercalate_eq_spread "" "" hne
  rwa [String.append_empty, String.empty_append, String.append_empty] at h

theorem toList_block_nil (opening closing : String) (depth : Nat) :
    (block opening closing depth []).toList = opening.toList ++ closing.toList := by
  rw [block, if_pos List.isEmpty_nil, String.toList_append]

/-- What a block of several lines consists of. -/
theorem toList_block (opening closing : String) (depth : Nat) {items : List String}
    (hne : items ≠ []) :
    (block opening closing depth items).toList = opening.toList ++
      spread (newline (depth + 1)).toList (newline depth).toList (items.map String.toList) ++
        closing.toList := by
  rw [← toList_intercalate_eq_spread _ _ hne, block, if_neg (by simpa using hne)]
  simp

theorem isGap_newline (depth : Nat) : IsGap (newline depth).toList := by
  intro c hc
  simp only [newline, String.toList_append, String.toList_ofList, List.mem_append,
    List.mem_replicate] at hc
  rcases hc with hc | ⟨-, rfl⟩
  · exact isGap_singleton rfl c hc
  · rfl

/-! ### Values -/

/-- A name, a colon and a spelling of a value are a spelling of the member. -/
theorem spellsMember_printName (name : Option String) (colon : String) {v : Json} {text : String}
    {before gap after : List Char} (hbefore : IsGap before) (hgap : IsGap gap)
    (hafter : IsGap after) (hcolon : colon.toList = ':' :: gap) (h : Spells v text.toList) :
    SpellsMember (name, v) (before ++ (printName name ++ colon ++ text).toList ++ after) := by
  have hmember := SpellsMember.intro hbefore (spellsString_printName name) isGap_nil
    (.intro hgap h hafter)
  have htext : before ++ (printName name ++ colon ++ text).toList ++ after =
      before ++ (printName name).toList ++ [] ++ ':' :: (gap ++ text.toList ++ after) := by
    simp [hcolon]
  rwa [htext]

theorem spells_number {n : String} (h : IsNumber n.toList) : Spells (.number n) n.toList := by
  have hspells := Spells.number h
  rwa [String.ofList_toList] at hspells

mutual

/-- What the value holds for numbers are numbers. -/
def Proper : Json → Prop
  | number n => IsNumber n.toList
  | array vs => ProperAll vs
  | object ms => ProperMembers ms
  | null | bool _ | string _ | brokenString => True

/-- All of the values are proper. -/
def ProperAll : List Json → Prop
  | [] => True
  | v :: vs => v.Proper ∧ ProperAll vs

/-- The values of all the members are proper. -/
def ProperMembers : List (Option String × Json) → Prop
  | [] => True
  | (_, v) :: ms => v.Proper ∧ ProperMembers ms

end

mutual

/-- **A value is printed as a spelling of it**, at any level. -/
theorem spells_prettyAt (depth : Nat) : ∀ v : Json, v.Proper → Spells v (v.prettyAt depth).toList
  | null, _ => .null
  | bool true, _ => .yes
  | bool false, _ => .no
  | number _, h => spells_number h
  | string s, _ => .string (spellsString_printString s)
  | brokenString, _ => .brokenString spellsString_printBroken
  | array vs, h => by
    by_cases hvs : vs = []
    · rw [hvs, prettyAt, prettyAll, toList_block_nil]
      exact .noElements isGap_nil
    · have hitems : prettyAll (depth + 1) vs ≠ [] := by
        cases vs <;> simp_all [prettyAll]
      rw [prettyAt, toList_block _ _ _ hitems]
      exact .array (spellsElements_prettyAll (depth + 1) (isGap_newline _) (isGap_newline _) vs
        hvs h)
  | object ms, h => by
    by_cases hms : ms = []
    · rw [hms, prettyAt, prettyMembers, toList_block_nil]
      exact .noMembers isGap_nil
    · have hitems : prettyMembers (depth + 1) ms ≠ [] := by
        cases ms <;> simp_all [prettyMembers]
      rw [prettyAt, toList_block _ _ _ hitems]
      exact .object (spellsMembers_prettyMembers (depth + 1) (isGap_newline _) (isGap_newline _) ms
        hms h)

theorem spellsElements_prettyAll (depth : Nat) {before after : List Char} (hbefore : IsGap before)
    (hafter : IsGap after) : ∀ vs : List Json, vs ≠ [] → ProperAll vs →
      SpellsElements vs (spread before after ((prettyAll depth vs).map String.toList))
  | [], hne, _ => absurd rfl hne
  | [v], _, h => .last (.intro hbefore (spells_prettyAt depth v h.1) hafter)
  | v :: w :: vs, _, h => by
    have hfirst : SpellsElement v (before ++ (v.prettyAt depth).toList ++ []) :=
      .intro hbefore (spells_prettyAt depth v h.1) isGap_nil
    rw [List.append_nil] at hfirst
    exact .cons hfirst (spellsElements_prettyAll depth hbefore hafter (w :: vs) (by simp) h.2)

theorem spellsMembers_prettyMembers (depth : Nat) {before after : List Char}
    (hbefore : IsGap before) (hafter : IsGap after) :
    ∀ ms : List (Option String × Json), ms ≠ [] → ProperMembers ms →
      SpellsMembers ms (spread before after ((prettyMembers depth ms).map String.toList))
  | [], hne, _ => absurd rfl hne
  | [(name, v)], _, h => .last (spellsMember_printName name ": " hbefore (isGap_singleton rfl)
      hafter rfl (spells_prettyAt depth v h.1))
  | (name, v) :: m :: ms, _, h => by
    have hfirst := spellsMember_printName name ": " hbefore (isGap_singleton rfl) isGap_nil
      rfl (spells_prettyAt depth v h.1)
    rw [List.append_nil] at hfirst
    exact .cons hfirst (spellsMembers_prettyMembers depth hbefore hafter (m :: ms) (by simp) h.2)

end

mutual

/-- **A value on one line is a spelling of it.** -/
theorem spells_compact : ∀ v : Json, v.Proper → Spells v v.compact.toList
  | null, _ => .null
  | bool true, _ => .yes
  | bool false, _ => .no
  | number _, h => spells_number h
  | string s, _ => .string (spellsString_printString s)
  | brokenString, _ => .brokenString spellsString_printBroken
  | array vs, h => by
    by_cases hvs : vs = []
    · rw [hvs]
      exact .noElements isGap_nil
    · have hitems : compactAll vs ≠ [] := by
        cases vs <;> simp_all [compactAll]
      rw [compact, String.toList_append, String.toList_append, toList_intercalate_comma hitems]
      exact .array (spellsElements_compactAll vs hvs h)
  | object ms, h => by
    by_cases hms : ms = []
    · rw [hms]
      exact .noMembers isGap_nil
    · have hitems : compactMembers ms ≠ [] := by
        cases ms <;> simp_all [compactMembers]
      rw [compact, String.toList_append, String.toList_append, toList_intercalate_comma hitems]
      exact .object (spellsMembers_compactMembers ms hms h)

theorem spellsElements_compactAll : ∀ vs : List Json, vs ≠ [] → ProperAll vs →
    SpellsElements vs (spread [] [] ((compactAll vs).map String.toList))
  | [], hne, _ => absurd rfl hne
  | [v], _, h => .last (.intro isGap_nil (spells_compact v h.1) isGap_nil)
  | v :: w :: vs, _, h =>
    .cons (spells_compact v h.1).element (spellsElements_compactAll (w :: vs) (by simp) h.2)

theorem spellsMembers_compactMembers : ∀ ms : List (Option String × Json), ms ≠ [] →
    ProperMembers ms → SpellsMembers ms (spread [] [] ((compactMembers ms).map String.toList))
  | [], hne, _ => absurd rfl hne
  | [(name, v)], _, h => .last (spellsMember_printName name ":" isGap_nil isGap_nil isGap_nil rfl
      (spells_compact v h.1))
  | (name, v) :: m :: ms, _, h => by
    have hfirst := spellsMember_printName name ":" isGap_nil isGap_nil isGap_nil rfl
      (spells_compact v h.1)
    rw [List.append_nil] at hfirst
    exact .cons hfirst (spellsMembers_compactMembers (m :: ms) (by simp) h.2)

end

end SymbolIndex.Json
