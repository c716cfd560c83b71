import Mathlib.Data.List.DropRight
import SymbolIndex.Proofs.Json.Grammar

/-!
# Reading JSON texts

The reader takes a spelling of a value off whatever it stands in front of, and answers with the value
(`value?_of_spells`), and so it reads all texts that spell a value (`parse?_of_spellsElement`). Only
a number needs a look at what follows it, which must not go on with the number (`Follows`).

White space in front of a token is passed over by whoever reads the token, and what is behind a value
is left there. The fuel of the reader is twice the length of the text: taking a character off the
text and going one level deeper both cost less than the text gets shorter.
-/

namespace SymbolIndex.Json

variable {cs after gap : List Char}

/-! ### White space -/

theorem skipSpace_gap_append (h : IsGap gap) (cs : List Char) :
    skipSpace (gap ++ cs) = skipSpace cs :=
  List.dropWhile_append_of_pos h

theorem skipSpace_cons {c : Char} (h : isSpace c = false) (cs : List Char) :
    skipSpace (c :: cs) = c :: cs :=
  List.dropWhile_cons_of_neg (by simp [h])

theorem skipSpace_skipSpace (cs : List Char) : skipSpace (skipSpace cs) = skipSpace cs :=
  List.dropWhile_idempotent _ _

/-! ### Strings -/

/-- The reader takes one spelled unit off the characters. -/
theorem units_append {n : Nat} (h : SpellsUnit n cs) {r : List Char} {ns : List Nat}
    {rest : List Char} (hr : units r = some (ns, rest)) :
    units (cs ++ r) = some (n :: ns, rest) := by
  cases h with
  | @plain c hcode hquote hslash =>
    rw [List.singleton_append, units.eq_def]
    split
    all_goals rename_i heq
    · cases heq
    · cases heq
      exact absurd rfl hquote
    · cases heq
      exact absurd rfl hslash
    · cases heq
      exact absurd rfl hslash
    · cases heq
      rw [if_neg (by simp [hslash, hcode]), hr]
      rfl
  | letter h =>
    rw [List.cons_append, List.singleton_append, units.eq_def]
    split
    all_goals rename_i heq
    · cases heq
    · cases heq
    · cases heq
      cases h
    · cases heq
      rw [h, hr]
      rfl
    · -- A backslash is none of the characters that stand for themselves.
      rename_i hescape
      cases heq
      exact (hescape _ _ rfl rfl).elim
  | code ha hb hc hd =>
    show units ('\\' :: 'u' :: _ :: _ :: _ :: _ :: r) = _
    rw [units, ha, hb, hc, hd, hr]
    rfl

theorem units_of_spells {ns : List Nat} (h : SpellsUnits ns cs) (after : List Char) :
    units (cs ++ '"' :: after) = some (ns, after) := by
  induction h with
  | nil => rfl
  | cons h hs ih =>
    rw [List.append_assoc]
    exact units_append h ih

/-- A literal is read without what follows it. -/
theorem literal?_of_spells {name : Option String} {r : List Char}
    (h : SpellsString name ('"' :: r)) (after : List Char) :
    literal? (r ++ after) = some (name, after) := by
  generalize hcs : '"' :: r = cs at h
  obtain ⟨hunits⟩ := h
  rename_i ns inside
  obtain rfl : r = inside ++ ['"'] := (List.cons.inj hcs).2
  rw [List.append_assoc, List.singleton_append, literal?, units_of_spells hunits]
  rfl

/-! ### Numbers -/

/-- A number does not go on here. -/
def Follows (after : List Char) : Prop :=
  ∀ c ∈ after.head?, c.isDigit = false ∧ c ≠ '.' ∧ c ≠ 'e' ∧ c ≠ 'E'

theorem takeWhile_digits (h : ∀ c ∈ cs, c.isDigit = true)
    (hafter : ∀ c ∈ after.head?, c.isDigit = false) :
    (cs ++ after).takeWhile Char.isDigit = cs ∧ (cs ++ after).dropWhile Char.isDigit = after := by
  rw [List.takeWhile_append_of_pos h, List.dropWhile_append_of_pos h]
  cases after with
  | nil => simp
  | cons c r =>
    have hc : ¬c.isDigit = true := by simp [hafter c rfl]
    rw [List.takeWhile_cons_of_neg hc, List.dropWhile_cons_of_neg hc, List.append_nil]
    exact ⟨rfl, rfl⟩

theorem digits?_append (h : IsDigits cs) (hafter : ∀ c ∈ after.head?, c.isDigit = false) :
    digits? (cs ++ after) = some (cs, after) := by
  obtain ⟨htake, hdrop⟩ := takeWhile_digits h.digits hafter
  rw [digits?, htake, hdrop]
  exact if_neg (by simp [h.ne_nil])

theorem integer?_append (h : cs = ['0'] ∨ IsDigits cs ∧ cs.head? ≠ some '0')
    (hafter : ∀ c ∈ after.head?, c.isDigit = false) :
    integer? (cs ++ after) = some (cs, after) := by
  rcases h with rfl | ⟨hdigits, hzero⟩
  · show (if after.head?.any Char.isDigit then none else some (['0'], after)) = _
    refine if_neg ?_
    cases after with
    | nil => simp
    | cons c r => simp [hafter c rfl]
  · rw [integer?.eq_def]
    split
    · rename_i heq
      obtain ⟨c, r, rfl⟩ := List.exists_cons_of_ne_nil hdigits.ne_nil
      cases heq
      exact absurd rfl hzero
    · exact digits?_append hdigits hafter

theorem fraction?_append (h : cs = [] ∨ ∃ ds, IsDigits ds ∧ cs = '.' :: ds)
    (hafter : ∀ c ∈ after.head?, c.isDigit = false ∧ c ≠ '.') :
    fraction? (cs ++ after) = some (cs, after) := by
  rcases h with rfl | ⟨ds, hdigits, rfl⟩
  · rw [List.nil_append, fraction?.eq_def]
    split
    · exact absurd rfl (hafter '.' rfl).2
    · rfl
  · show (digits? (ds ++ after)).map _ = _
    rw [digits?_append hdigits fun c hc => (hafter c hc).1]
    rfl

theorem exponent?_append (h : cs = [] ∨ ∃ e plus ds, (e = 'e' ∨ e = 'E') ∧
    (plus = [] ∨ plus = ['+'] ∨ plus = ['-']) ∧ IsDigits ds ∧ cs = e :: plus ++ ds)
    (hafter : Follows after) : exponent? (cs ++ after) = some (cs, after) := by
  rcases h with rfl | ⟨e, plus, ds, he, hplus, hdigits, rfl⟩
  · cases after with
    | nil => rfl
    | cons c r =>
      obtain ⟨-, -, hlower, hupper⟩ := hafter c rfl
      rw [List.nil_append, exponent?.eq_def]
      exact if_neg (by simp [hlower, hupper])
  · have hread := digits?_append hdigits fun c hc => (hafter c hc).1
    rw [List.cons_append, List.cons_append, List.append_assoc, exponent?.eq_def]
    dsimp only
    rw [if_pos (by simpa using he)]
    rcases hplus with rfl | rfl | rfl
    · rw [List.nil_append]
      -- The digits do not start with a sign.
      obtain ⟨d, r, rfl⟩ := List.exists_cons_of_ne_nil hdigits.ne_nil
      have hd := hdigits.digits d List.mem_cons_self
      split
      · rename_i heq
        cases heq
        cases hd
      · rename_i heq
        cases heq
        cases hd
      · rw [hread]
        rfl
    · show (digits? (ds ++ after)).map _ = _
      rw [hread]
      rfl
    · show (digits? (ds ++ after)).map _ = _
      rw [hread]
      rfl

/-- A number is read without what follows it. -/
theorem number?_append (h : IsNumber cs) (hafter : Follows after) :
    number? (cs ++ after) = some (String.ofList cs, after) := by
  obtain ⟨hsign, hwhole, hpart, hpower⟩ := h
  rename_i sign whole part power
  -- Each part ends where the next one starts.
  have hexponent := exponent?_append hpower hafter
  have hbehindPart : ∀ c ∈ (power ++ after).head?, c.isDigit = false ∧ c ≠ '.' := by
    rcases hpower with rfl | ⟨e, plus, ds, rfl | rfl, -, -, rfl⟩
    · exact fun c hc => ⟨(hafter c hc).1, (hafter c hc).2.1⟩
    · rintro c ⟨⟩
      decide
    · rintro c ⟨⟩
      decide
  have hfraction := fraction?_append hpart hbehindPart
  have hbehindWhole : ∀ c ∈ (part ++ (power ++ after)).head?, c.isDigit = false := by
    rcases hpart with rfl | ⟨ds, -, rfl⟩
    · exact fun c hc => (hbehindPart c hc).1
    · rintro c ⟨⟩
      rfl
  have hinteger := integer?_append hwhole hbehindWhole
  have hunsigned : ∀ r, whole ++ (part ++ (power ++ after)) ≠ '-' :: r := by
    intro r hminus
    rcases hwhole with rfl | ⟨hdigits, -⟩
    · cases hminus
    · obtain ⟨c, w, rfl⟩ := List.exists_cons_of_ne_nil hdigits.ne_nil
      cases hminus
      cases hdigits.digits '-' List.mem_cons_self
  rw [List.append_assoc, List.append_assoc, List.append_assoc]
  rcases hsign with rfl | rfl
  · rw [List.nil_append, number?]
    · simp only [hinteger, hfraction, hexponent, Option.bind_eq_bind, Option.bind_some]
      rfl
    · exact hunsigned
  · rw [List.singleton_append, number?]
    simp only [hinteger, hfraction, hexponent, Option.bind_eq_bind, Option.bind_some]
    rfl

/-! ### Values -/

theorem value?_skipSpace (fuel : Nat) (cs : List Char) :
    value? fuel (skipSpace cs) = value? fuel cs := by
  cases fuel with
  | zero => rfl
  | succ fuel => rw [value?, value?, skipSpace_skipSpace]

theorem value?_gap_append (fuel : Nat) (h : IsGap gap) (cs : List Char) :
    value? fuel (gap ++ cs) = value? fuel cs := by
  rw [← value?_skipSpace, skipSpace_gap_append h, value?_skipSpace]

theorem elements?_skipSpace (fuel : Nat) (cs : List Char) :
    elements? fuel (skipSpace cs) = elements? fuel cs := by
  cases fuel with
  | zero => rfl
  | succ fuel => rw [elements?, elements?, value?_skipSpace]

theorem members?_skipSpace (fuel : Nat) (cs : List Char) :
    members? fuel (skipSpace cs) = members? fuel cs := by
  cases fuel with
  | zero => rfl
  | succ fuel => rw [members?, members?, skipSpace_skipSpace]

/-! #### Values without parts -/

variable {fuel : Nat}

theorem value?_literal {name : Option String} (h : SpellsString name cs) (after : List Char) :
    value? (fuel + 1) (cs ++ after) = some (name.elim .brokenString .string, after) := by
  obtain ⟨r, rfl⟩ := h.exists_cons
  have hspace : isSpace '"' = false := rfl
  rw [List.cons_append, value?, skipSpace_cons hspace]
  show (literal? (r ++ after) >>= fun _ => _) = _
  rw [literal?_of_spells h]
  rfl

theorem value?_number (h : IsNumber cs) (hafter : Follows after) :
    value? (fuel + 1) (cs ++ after) = some (.number (String.ofList cs), after) := by
  have hread := number?_append h hafter
  obtain ⟨c, r, rfl, hc⟩ := h.exists_cons
  have hspace : isSpace c = false := by
    rcases hc with rfl | hdigit
    · rfl
    · exact (ne_of_isStart (isStart_of_isDigit hdigit)).1
  have hother : ∀ d ∈ ['n', 't', 'f', '"', '[', '\x7b'], c ≠ d := by
    rintro d hd rfl
    rcases hc with rfl | hdigit
    · exact absurd hd (by decide)
    · simp only [List.mem_cons, List.not_mem_nil, or_false] at hd
      rcases hd with rfl | rfl | rfl | rfl | rfl | rfl <;> cases hdigit
  rw [List.cons_append, value?, skipSpace_cons hspace]
  split
  all_goals rename_i heq
  · exact absurd (List.cons.inj heq).1 (hother 'n' (by simp))
  · exact absurd (List.cons.inj heq).1 (hother 't' (by simp))
  · exact absurd (List.cons.inj heq).1 (hother 'f' (by simp))
  · exact absurd (List.cons.inj heq).1 (hother '"' (by simp))
  · exact absurd (List.cons.inj heq).1 (hother '[' (by simp))
  · exact absurd (List.cons.inj heq).1 (hother '\x7b' (by simp))
  · rw [← List.cons_append, hread]
    rfl

/-! #### Values with parts -/

theorem head?_ne_some {c : Char} (h : ∀ rest, cs = c :: rest → False) : cs.head? ≠ some c := by
  intro hhead
  obtain ⟨rest, hrest⟩ := List.head?_eq_some_iff.mp hhead
  exact h rest hrest

/-- Behind an opening bracket there is a closing one, or there are elements. -/
theorem value?_openBracket (fuel : Nat) (r : List Char) :
    value? (fuel + 1) ('[' :: r) =
      if (skipSpace r).head? = some ']' then some (.array [], (skipSpace r).tail)
      else (elements? fuel r).map fun read => (.array read.1, read.2) := by
  have hspace : isSpace '[' = false := rfl
  rw [value?, skipSpace_cons hspace, ← elements?_skipSpace]
  split
  all_goals rename_i heq
  · cases heq
  · cases heq
  · cases heq
  · cases heq
  · cases heq
    split
    · rename_i hclose
      rw [hclose]
      rfl
    · rename_i hopen
      rw [if_neg (head?_ne_some hopen)]
      cases elements? fuel (skipSpace r) <;> rfl
  · cases heq
  · rename_i hbracket
    exact (hbracket r rfl).elim

theorem value?_array {vs : List Json} {r r' rest : List Char} {c : Char}
    (hstart : skipSpace r = c :: r') (hc : c ≠ ']') (hread : elements? fuel r = some (vs, rest)) :
    value? (fuel + 1) ('[' :: r) = some (.array vs, rest) := by
  rw [value?_openBracket, if_neg (by simp [hstart, hc]), hread]
  rfl

theorem value?_noElements (h : IsGap gap) (after : List Char) :
    value? (fuel + 1) ('[' :: (gap ++ ']' :: after)) = some (.array [], after) := by
  have hclose : isSpace ']' = false := rfl
  rw [value?_openBracket, skipSpace_gap_append h, skipSpace_cons hclose]
  exact if_pos rfl

/-- Behind an opening brace there is a closing one, or there are members. -/
theorem value?_openBrace (fuel : Nat) (r : List Char) :
    value? (fuel + 1) ('\x7b' :: r) =
      if (skipSpace r).head? = some '\x7d' then some (.object [], (skipSpace r).tail)
      else (members? fuel r).map fun read => (.object read.1, read.2) := by
  have hspace : isSpace '\x7b' = false := rfl
  rw [value?, skipSpace_cons hspace, ← members?_skipSpace]
  split
  all_goals rename_i heq
  · cases heq
  · cases heq
  · cases heq
  · cases heq
  · cases heq
  · cases heq
    split
    · rename_i hclose
      rw [hclose]
      rfl
    · rename_i hopen
      rw [if_neg (head?_ne_some hopen)]
      cases members? fuel (skipSpace r) <;> rfl
  · exact (heq r rfl).elim

theorem value?_object {ms : List (Option String × Json)} {r r' rest : List Char} {c : Char}
    (hstart : skipSpace r = c :: r') (hc : c ≠ '\x7d') (hread : members? fuel r = some (ms, rest)) :
    value? (fuel + 1) ('\x7b' :: r) = some (.object ms, rest) := by
  rw [value?_openBrace, if_neg (by simp [hstart, hc]), hread]
  rfl

theorem value?_noMembers (h : IsGap gap) (after : List Char) :
    value? (fuel + 1) ('\x7b' :: (gap ++ '\x7d' :: after)) = some (.object [], after) := by
  have hclose : isSpace '\x7d' = false := rfl
  rw [value?_openBrace, skipSpace_gap_append h, skipSpace_cons hclose]
  exact if_pos rfl

/-- The first of several elements, and what is done behind it. -/
theorem elements?_append {v : Json} {r : List Char}
    (hread : value? fuel (cs ++ r) = some (v, gap ++ r)) (hgap : IsGap gap) :
    (∀ rest, r = ']' :: rest → elements? (fuel + 1) (cs ++ r) = some ([v], rest)) ∧
      ∀ rest, r = ',' :: rest → elements? (fuel + 1) (cs ++ r) =
        (elements? fuel rest).map fun read => (v :: read.1, read.2) := by
  constructor
  · rintro rest rfl
    have hclose : isSpace ']' = false := rfl
    rw [elements?, hread, Option.bind_eq_bind, Option.bind_some]
    dsimp only
    rw [skipSpace_gap_append hgap, skipSpace_cons hclose]
    rfl
  · rintro rest rfl
    have hcomma : isSpace ',' = false := rfl
    rw [elements?, hread, Option.bind_eq_bind, Option.bind_some]
    dsimp only
    rw [skipSpace_gap_append hgap, skipSpace_cons hcomma]
    show (elements? fuel rest >>= fun _ => _) = _
    cases elements? fuel rest <;> rfl

/-- The first of several members, and what is done behind it. -/
theorem members?_append {name : Option String} {v : Json} {before n behind r : List Char}
    (hbefore : IsGap before) (hname : SpellsString name n) (hbehind : IsGap behind)
    (hread : value? fuel (cs ++ r) = some (v, gap ++ r)) (hgap : IsGap gap) :
    (∀ rest, r = '\x7d' :: rest →
        members? (fuel + 1) (before ++ n ++ behind ++ ':' :: cs ++ r) = some ([(name, v)], rest)) ∧
      ∀ rest, r = ',' :: rest →
        members? (fuel + 1) (before ++ n ++ behind ++ ':' :: cs ++ r) =
          (members? fuel rest).map fun read => ((name, v) :: read.1, read.2) := by
  obtain ⟨inside, rfl⟩ := hname.exists_cons
  have hquote : isSpace '"' = false := rfl
  have hcolon : isSpace ':' = false := rfl
  have hsplit : before ++ '"' :: inside ++ behind ++ ':' :: cs ++ r =
      before ++ '"' :: (inside ++ (behind ++ ':' :: (cs ++ r))) := by
    simp
  rw [hsplit, members?, skipSpace_gap_append hbefore, skipSpace_cons hquote]
  constructor
  all_goals
    rintro rest rfl
    show (literal? (inside ++ (behind ++ ':' :: (cs ++ _))) >>= fun _ => _) = _
    rw [literal?_of_spells hname, Option.bind_eq_bind, Option.bind_some]
    dsimp only
    rw [skipSpace_gap_append hbehind, skipSpace_cons hcolon]
    show (value? fuel (cs ++ _) >>= fun _ => _) = _
    rw [hread, Option.bind_eq_bind, Option.bind_some]
    dsimp only
    rw [skipSpace_gap_append hgap]
  · have hclose : isSpace '\x7d' = false := rfl
    rw [skipSpace_cons hclose]
    rfl
  · have hcomma : isSpace ',' = false := rfl
    rw [skipSpace_cons hcomma]
    show (members? fuel rest >>= fun _ => _) = _
    cases members? fuel rest <;> rfl

/-! ### All values -/

theorem follows_cons {c : Char} (hdigit : c.isDigit = false) (hpoint : c ≠ '.') (hlower : c ≠ 'e')
    (hupper : c ≠ 'E') (cs : List Char) : Follows (c :: cs) := by
  rintro d ⟨⟩
  exact ⟨hdigit, hpoint, hlower, hupper⟩

/-- No number goes on with white space. -/
theorem Follows.gap_append (h : Follows after) (hgap : IsGap gap) : Follows (gap ++ after) := by
  cases gap with
  | nil => exact h
  | cons c gap =>
    have hspace := hgap c List.mem_cons_self
    have hne : ∀ d, isSpace d = false → c ≠ d := by
      rintro d hd rfl
      rw [hspace] at hd
      cases hd
    refine follows_cons ?_ (hne '.' rfl) (hne 'e' rfl) (hne 'E' rfl) _
    rw [← Bool.not_eq_true]
    intro hdigit
    rw [(ne_of_isStart (isStart_of_isDigit hdigit)).1] at hspace
    cases hspace

/-- An element starts as a value does, if white space does not count. -/
theorem SpellsElement.skipSpace_append {v : Json} (h : SpellsElement v cs) (after : List Char) :
    ∃ c r, skipSpace (cs ++ after) = c :: r ∧ isStart c = true := by
  cases h with
  | @intro _ before _ behind hbefore h hbehind =>
    obtain ⟨c, r, rfl, hc⟩ := h.exists_cons
    refine ⟨c, r ++ (behind ++ after), ?_, hc⟩
    rw [List.append_assoc, List.append_assoc, skipSpace_gap_append hbefore, List.cons_append,
      skipSpace_cons (ne_of_isStart hc).1]

theorem SpellsElements.skipSpace_append {vs : List Json} (h : SpellsElements vs cs)
    (after : List Char) : ∃ c r, skipSpace (cs ++ after) = c :: r ∧ isStart c = true := by
  cases h with
  | last h => exact h.skipSpace_append after
  | cons h hs =>
    rw [List.append_assoc]
    exact h.skipSpace_append _

theorem SpellsMember.skipSpace_append {m : Option String × Json} (h : SpellsMember m cs)
    (after : List Char) : ∃ c r, skipSpace (cs ++ after) = c :: r ∧ isStart c = true := by
  cases h with
  | @intro _ _ before _ behind value hbefore hname hbehind h =>
    obtain ⟨r, rfl⟩ := hname.exists_cons
    refine ⟨'"', r ++ (behind ++ ':' :: (value ++ after)), ?_, rfl⟩
    simp only [List.append_assoc, List.cons_append]
    rw [skipSpace_gap_append hbefore, skipSpace_cons rfl]

theorem SpellsMembers.skipSpace_append {ms : List (Option String × Json)}
    (h : SpellsMembers ms cs) (after : List Char) :
    ∃ c r, skipSpace (cs ++ after) = c :: r ∧ isStart c = true := by
  cases h with
  | last h => exact h.skipSpace_append after
  | cons h hs =>
    rw [List.append_assoc]
    exact h.skipSpace_append _

mutual

/-- **A value is read off its spelling**, whatever stands behind it, if that does not go on with a
number. -/
theorem value?_of_spells {v : Json} {cs : List Char} (h : Spells v cs) {after : List Char}
    (hafter : Follows after) {fuel : Nat} (hfuel : 2 * cs.length < fuel) :
    value? fuel (cs ++ after) = some (v, after) := by
  obtain ⟨fuel, rfl⟩ := Nat.exists_eq_add_one_of_ne_zero (Nat.ne_zero_of_lt hfuel)
  cases h with
  | null => rfl
  | yes => rfl
  | no => rfl
  | number h => exact value?_number h hafter
  | string h => exact value?_literal h after
  | brokenString h => exact value?_literal h after
  | noElements h =>
    rw [List.cons_append, List.cons_append, List.append_assoc]
    exact value?_noElements h after
  | array h =>
    obtain ⟨c, r, hstart, hc⟩ := h.skipSpace_append (']' :: after)
    rw [List.cons_append, List.cons_append, List.append_assoc]
    rw [List.length_append, List.length_cons] at hfuel
    exact value?_array hstart (ne_of_isStart hc).2.1 (elements?_of_spells h after (by omega))
  | noMembers h =>
    rw [List.cons_append, List.cons_append, List.append_assoc]
    exact value?_noMembers h after
  | object h =>
    obtain ⟨c, r, hstart, hc⟩ := h.skipSpace_append ('\x7d' :: after)
    rw [List.cons_append, List.cons_append, List.append_assoc]
    rw [List.length_append, List.length_cons] at hfuel
    exact value?_object hstart (ne_of_isStart hc).2.2 (members?_of_spells h after (by omega))

theorem value?_of_spellsElement {v : Json} {cs : List Char} (h : SpellsElement v cs)
    {after : List Char} (hafter : Follows after) (fuel : Nat) (hfuel : 2 * cs.length < fuel) :
    ∃ gap, IsGap gap ∧ value? fuel (cs ++ after) = some (v, gap ++ after) := by
  cases h with
  | intro hbefore h hbehind =>
    rw [List.length_append, List.length_append] at hfuel
    rw [List.append_assoc, List.append_assoc, value?_gap_append fuel hbefore]
    exact ⟨_, hbehind, value?_of_spells h (hafter.gap_append hbehind) (by omega)⟩

theorem elements?_of_spells {vs : List Json} {cs : List Char} (h : SpellsElements vs cs)
    (after : List Char) {fuel : Nat} (hfuel : 2 * cs.length + 1 < fuel) :
    elements? fuel (cs ++ ']' :: after) = some (vs, after) := by
  obtain ⟨fuel, rfl⟩ := Nat.exists_eq_add_one_of_ne_zero (Nat.ne_zero_of_lt hfuel)
  cases h with
  | last h =>
    have hfollows := follows_cons (c := ']') (by decide) (by decide) (by decide) (by decide) after
    obtain ⟨gap, hgap, hread⟩ := value?_of_spellsElement h hfollows fuel (by omega)
    exact (elements?_append hread hgap).1 after rfl
  | cons h hs =>
    rw [List.length_append, List.length_cons] at hfuel
    rw [List.append_assoc, List.cons_append]
    have hfollows := follows_cons (c := ',') (by decide) (by decide) (by decide) (by decide)
    obtain ⟨gap, hgap, hread⟩ := value?_of_spellsElement h (hfollows _) fuel (by omega)
    rw [(elements?_append hread hgap).2 _ rfl, elements?_of_spells hs after (by omega)]
    rfl

theorem members?_of_spells {ms : List (Option String × Json)} {cs : List Char}
    (h : SpellsMembers ms cs) (after : List Char) {fuel : Nat} (hfuel : 2 * cs.length + 1 < fuel) :
    members? fuel (cs ++ '\x7d' :: after) = some (ms, after) := by
  obtain ⟨fuel, rfl⟩ := Nat.exists_eq_add_one_of_ne_zero (Nat.ne_zero_of_lt hfuel)
  cases h with
  | last h =>
    cases h with
    | intro hbefore hname hbehind h =>
      simp only [List.length_append, List.length_cons] at hfuel
      have hfollows :=
        follows_cons (c := '\x7d') (by decide) (by decide) (by decide) (by decide) after
      obtain ⟨gap, hgap, hread⟩ := value?_of_spellsElement h hfollows fuel (by omega)
      exact (members?_append hbefore hname hbehind hread hgap).1 after rfl
  | cons h hs =>
    cases h with
    | intro hbefore hname hbehind h =>
      simp only [List.length_append, List.length_cons] at hfuel
      have hfollows := follows_cons (c := ',') (by decide) (by decide) (by decide) (by decide)
      obtain ⟨gap, hgap, hread⟩ := value?_of_spellsElement h (hfollows _) fuel (by omega)
      rw [List.append_assoc, List.cons_append,
        (members?_append hbefore hname hbehind hread hgap).2 _ rfl,
        members?_of_spells hs after (by omega)]
      rfl

end

/-- **Every spelling of a value is a text of it.** -/
theorem parse?_of_spellsElement {v : Json} (h : SpellsElement v cs) :
    parse? (String.ofList cs) = some v := by
  have hnil : Follows [] := by
    rintro c ⟨⟩
  obtain ⟨gap, hgap, hread⟩ := value?_of_spellsElement h hnil (2 * cs.length + 2) (by omega)
  rw [List.append_nil, List.append_nil] at hread
  have hend : skipSpace gap = [] := by
    rw [← List.append_nil gap, skipSpace_gap_append hgap]
    rfl
  rw [parse?, String.toList_ofList, hread]
  show (if (skipSpace gap).isEmpty then some v else none) = _
  rw [hend]
  rfl

end SymbolIndex.Json
