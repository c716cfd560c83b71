import SymbolIndex.Json.Reader

/-!
# JSON texts

What it means that some characters spell a JSON value: one rule for each form that a value, a string
or a number may take. White space may stand around every value and every name of a member. A value
has many spellings, which differ in white space and in how characters are escaped.

A literal spells numbers below 2¹⁶ and code points (`SpellsUnits`); that two of them may be halves of
one character is left to `assemble`, and so a literal stands for a text or for none.
-/

namespace SymbolIndex.Json

/-- White space only. -/
def IsGap (cs : List Char) : Prop := ∀ c ∈ cs, isSpace c = true

theorem isGap_nil : IsGap [] := by
  intro c hc
  cases hc

theorem isGap_singleton {c : Char} (h : isSpace c = true) : IsGap [c] := by
  intro d hd
  rwa [List.mem_singleton.mp hd]

/-! ### Strings -/

/-- A code point, or half of one, as a character or an escape. -/
inductive SpellsUnit : Nat → List Char → Prop
  | plain {c : Char} (hcode : 0x20 ≤ c.toNat) (hquote : c ≠ '"') (hslash : c ≠ '\\') :
    SpellsUnit c.toNat [c]
  | letter {l c : Char} (h : escape? l = some c) : SpellsUnit c.toNat ['\\', l]
  | code {a b c d : Char} {i j k l : Nat} (ha : hexValue? a = some i) (hb : hexValue? b = some j)
    (hc : hexValue? c = some k) (hd : hexValue? d = some l) :
    SpellsUnit (((i * 16 + j) * 16 + k) * 16 + l) ['\\', 'u', a, b, c, d]

/-- What stands between the quotes of a literal. -/
inductive SpellsUnits : List Nat → List Char → Prop
  | nil : SpellsUnits [] []
  | cons {n : Nat} {ns : List Nat} {cs cs' : List Char} (h : SpellsUnit n cs)
    (hs : SpellsUnits ns cs') : SpellsUnits (n :: ns) (cs ++ cs')

/-- A string literal. -/
inductive SpellsString : Option String → List Char → Prop
  | intro {ns : List Nat} {cs : List Char} (h : SpellsUnits ns cs) :
    SpellsString ((assemble ns).map String.ofList) ('"' :: cs ++ ['"'])

/-! ### Numbers -/

/-- At least one digit. -/
structure IsDigits (cs : List Char) : Prop where
  ne_nil : cs ≠ []
  digits : ∀ c ∈ cs, c.isDigit = true

/-- A number: no digit follows a leading zero. -/
inductive IsNumber : List Char → Prop
  | intro {sign whole part power : List Char} (hsign : sign = [] ∨ sign = ['-'])
    (hwhole : whole = ['0'] ∨ IsDigits whole ∧ whole.head? ≠ some '0')
    (hpart : part = [] ∨ ∃ ds, IsDigits ds ∧ part = '.' :: ds)
    (hpower : power = [] ∨ ∃ e plus ds, (e = 'e' ∨ e = 'E') ∧
      (plus = [] ∨ plus = ['+'] ∨ plus = ['-']) ∧ IsDigits ds ∧ power = e :: plus ++ ds) :
    IsNumber (sign ++ whole ++ part ++ power)

/-! ### Values -/

mutual

/-- The characters spell the value, without white space around it. -/
inductive Spells : Json → List Char → Prop
  | null : Spells .null "null".toList
  | yes : Spells (.bool true) "true".toList
  | no : Spells (.bool false) "false".toList
  | number {cs : List Char} (h : IsNumber cs) : Spells (.number (String.ofList cs)) cs
  | string {s : String} {cs : List Char} (h : SpellsString (some s) cs) : Spells (.string s) cs
  | brokenString {cs : List Char} (h : SpellsString none cs) : Spells .brokenString cs
  | noElements {gap : List Char} (h : IsGap gap) : Spells (.array []) ('[' :: gap ++ [']'])
  | array {vs : List Json} {cs : List Char} (h : SpellsElements vs cs) :
    Spells (.array vs) ('[' :: cs ++ [']'])
  | noMembers {gap : List Char} (h : IsGap gap) : Spells (.object []) ('\x7b' :: gap ++ ['\x7d'])
  | object {ms : List (Option String × Json)} {cs : List Char} (h : SpellsMembers ms cs) :
    Spells (.object ms) ('\x7b' :: cs ++ ['\x7d'])

/-- The characters spell the value, with white space around it or without. -/
inductive SpellsElement : Json → List Char → Prop
  | intro {v : Json} {before cs after : List Char} (hbefore : IsGap before) (h : Spells v cs)
    (hafter : IsGap after) : SpellsElement v (before ++ cs ++ after)

/-- The characters spell the values, with commas between them. -/
inductive SpellsElements : List Json → List Char → Prop
  | last {v : Json} {cs : List Char} (h : SpellsElement v cs) : SpellsElements [v] cs
  | cons {v : Json} {vs : List Json} {cs cs' : List Char} (h : SpellsElement v cs)
    (hs : SpellsElements vs cs') : SpellsElements (v :: vs) (cs ++ ',' :: cs')

/-- The characters spell a name, a colon and a value. -/
inductive SpellsMember : Option String × Json → List Char → Prop
  | intro {name : Option String} {v : Json} {before cs after cs' : List Char}
    (hbefore : IsGap before) (hname : SpellsString name cs) (hafter : IsGap after)
    (h : SpellsElement v cs') : SpellsMember (name, v) (before ++ cs ++ after ++ ':' :: cs')

/-- The characters spell the members, with commas between them. -/
inductive SpellsMembers : List (Option String × Json) → List Char → Prop
  | last {m : Option String × Json} {cs : List Char} (h : SpellsMember m cs) : SpellsMembers [m] cs
  | cons {m : Option String × Json} {ms : List (Option String × Json)} {cs cs' : List Char}
    (h : SpellsMember m cs) (hs : SpellsMembers ms cs') :
    SpellsMembers (m :: ms) (cs ++ ',' :: cs')

end

/-- There need not be white space around a value. -/
theorem Spells.element {v : Json} {cs : List Char} (h : Spells v cs) : SpellsElement v cs := by
  have helement := SpellsElement.intro isGap_nil h isGap_nil
  rwa [List.nil_append, List.append_nil] at helement

/-! ### How a value starts -/

/-- Whether a value may start with the character. -/
def isStart (c : Char) : Bool :=
  c = 'n' || c = 't' || c = 'f' || c = '"' || c = '[' || c = '\x7b' || c = '-' || c.isDigit

theorem isStart_of_isDigit {c : Char} (h : c.isDigit = true) : isStart c = true := by
  rw [isStart, h, Bool.or_true]

/-- A value starts with none of what may stand around a value. -/
theorem ne_of_isStart {c : Char} (h : isStart c = true) :
    isSpace c = false ∧ c ≠ ']' ∧ c ≠ '\x7d' := by
  have hspace : isSpace c = false := by
    rw [← Bool.not_eq_true]
    intro hspace
    simp only [isSpace, Bool.or_eq_true, decide_eq_true_eq] at hspace
    rcases hspace with ((rfl | rfl) | rfl) | rfl <;> cases h
  refine ⟨hspace, ?_, ?_⟩ <;> (rintro rfl; cases h)

theorem SpellsString.exists_cons {s : Option String} {cs : List Char} (h : SpellsString s cs) :
    ∃ r, cs = '"' :: r := by
  obtain ⟨hunits⟩ := h
  exact ⟨_, rfl⟩

/-- A number starts with a sign or a digit. -/
theorem IsNumber.exists_cons {cs : List Char} (h : IsNumber cs) :
    ∃ c r, cs = c :: r ∧ (c = '-' ∨ c.isDigit = true) := by
  obtain ⟨hsign, hwhole, -, -⟩ := h
  rcases hsign with rfl | rfl
  · rcases hwhole with rfl | ⟨hdigits, -⟩
    · exact ⟨'0', _, rfl, .inr rfl⟩
    · obtain ⟨c, r, rfl⟩ := List.exists_cons_of_ne_nil hdigits.ne_nil
      exact ⟨c, _, rfl, .inr (hdigits.digits c List.mem_cons_self)⟩
  · exact ⟨'-', _, rfl, .inl rfl⟩

theorem Spells.exists_cons {v : Json} {cs : List Char} (h : Spells v cs) :
    ∃ c r, cs = c :: r ∧ isStart c = true := by
  cases h with
  | null => exact ⟨'n', _, rfl, rfl⟩
  | yes => exact ⟨'t', _, rfl, rfl⟩
  | no => exact ⟨'f', _, rfl, rfl⟩
  | number h =>
    obtain ⟨c, r, hcs, rfl | hdigit⟩ := h.exists_cons
    · exact ⟨'-', r, hcs, rfl⟩
    · exact ⟨c, r, hcs, isStart_of_isDigit hdigit⟩
  | string h =>
    obtain ⟨r, hcs⟩ := h.exists_cons
    exact ⟨'"', r, hcs, rfl⟩
  | brokenString h =>
    obtain ⟨r, hcs⟩ := h.exists_cons
    exact ⟨'"', r, hcs, rfl⟩
  | noElements h => exact ⟨'[', _, rfl, rfl⟩
  | array h => exact ⟨'[', _, rfl, rfl⟩
  | noMembers h => exact ⟨'\x7b', _, rfl, rfl⟩
  | object h => exact ⟨'\x7b', _, rfl, rfl⟩

end SymbolIndex.Json
