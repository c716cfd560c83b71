import Mathlib.Tactic.SplitIfs
import SymbolIndex.Text.Utf8

/-!
# UTF-8 keeps texts and their order

Texts are compared character by character. Their encodings are compared byte by byte, and that gives
the same order (`encode_lt_encode`): of two different characters the lower one has the lower byte
where the encodings first differ, and neither encoding is the beginning of the other.

The bytes of a character are read as that character, whatever comes after them
(`piece_encodeChar`), so an encoding gives its text back (`decode?_encode`). And bytes are read as a
character only if they are its bytes (`encodeChar_of_piece`), so a text gives back what it was
decoded from (`encode_of_decode?`).
-/

namespace SymbolIndex.Text.Utf8

/-! ### Order -/

/-- Two lists of bytes are compared at their first bytes, and after them if these are equal. -/
theorem ofNat_cons_lt {a b : Nat} (ha : a < 256) (hb : b < 256) {l m : List UInt8}
    (h : a < b ∨ a = b ∧ l < m) : UInt8.ofNat a :: l < UInt8.ofNat b :: m := by
  rw [List.cons_lt_cons_iff]
  rcases h with h | ⟨rfl, h⟩
  · left
    rw [UInt8.lt_iff_toNat_lt, UInt8.toNat_ofNat_of_lt' ha, UInt8.toNat_ofNat_of_lt' hb]
    exact h
  · exact .inr ⟨rfl, h⟩

/-- The encodings of two different characters differ at a byte that both have, so what follows does
not matter. -/
theorem encodeChar_append_lt {c d : Char} (h : c < d) (l m : List UInt8) :
    String.utf8EncodeChar c ++ l < String.utf8EncodeChar d ++ m := by
  have hd : d.val.toNat < 0x110000 := by
    rcases d.valid with hd | hd <;> omega
  have hcd : c.val.toNat < d.val.toNat := h
  rw [String.utf8EncodeChar, String.utf8EncodeChar]
  generalize c.val.toNat = v at *
  generalize d.val.toNat = w at *
  -- The first byte tells how many follow, so it decides unless both have as many.
  split
  · -- `c` has one byte
    split
    · exact ofNat_cons_lt (by omega) (by omega) (.inl hcd)
    · split
      · exact ofNat_cons_lt (by omega) (by omega) (.inl (by omega))
      · split <;> exact ofNat_cons_lt (by omega) (by omega) (.inl (by omega))
  · split
    · -- two bytes
      rw [if_neg (by omega)]
      split
      · refine ofNat_cons_lt (by omega) (by omega) ?_
        by_cases h₁ : v / 64 < w / 64
        · exact .inl (by omega)
        · refine .inr ⟨by omega, ofNat_cons_lt (by omega) (by omega) (.inl (by omega))⟩
      · split <;> exact ofNat_cons_lt (by omega) (by omega) (.inl (by omega))
    · split
      · -- three bytes
        rw [if_neg (by omega), if_neg (by omega)]
        split
        · refine ofNat_cons_lt (by omega) (by omega) ?_
          by_cases h₁ : v / 4096 < w / 4096
          · exact .inl (by omega)
          refine .inr ⟨by omega, ofNat_cons_lt (by omega) (by omega) ?_⟩
          by_cases h₂ : v / 64 < w / 64
          · exact .inl (by omega)
          · exact .inr ⟨by omega, ofNat_cons_lt (by omega) (by omega) (.inl (by omega))⟩
        · exact ofNat_cons_lt (by omega) (by omega) (.inl (by omega))
      · -- four bytes, as `d` has then
        rw [if_neg (by omega), if_neg (by omega), if_neg (by omega)]
        refine ofNat_cons_lt (by omega) (by omega) ?_
        by_cases h₁ : v / 262144 < w / 262144
        · exact .inl (by omega)
        refine .inr ⟨by omega, ofNat_cons_lt (by omega) (by omega) ?_⟩
        by_cases h₂ : v / 4096 < w / 4096
        · exact .inl (by omega)
        refine .inr ⟨by omega, ofNat_cons_lt (by omega) (by omega) ?_⟩
        by_cases h₃ : v / 64 < w / 64
        · exact .inl (by omega)
        · exact .inr ⟨by omega, ofNat_cons_lt (by omega) (by omega) (.inl (by omega))⟩

theorem flatMap_encodeChar_lt {as bs : List Char} (h : as < bs) :
    as.flatMap String.utf8EncodeChar < bs.flatMap String.utf8EncodeChar := by
  induction as generalizing bs with
  | nil =>
    cases bs with
    | nil => exact absurd h (List.not_lt_nil [])
    | cons b bs =>
      -- Every character has a byte, so a longer text has a longer encoding.
      rw [List.flatMap_nil, List.flatMap_cons]
      obtain ⟨byte, bytes, hb⟩ := List.exists_cons_of_ne_nil (String.utf8EncodeChar_ne_nil (c := b))
      rw [hb]
      exact List.nil_lt_cons byte _
  | cons a as ih =>
    cases bs with
    | nil => exact absurd h (List.not_lt_nil _)
    | cons b bs =>
      rw [List.flatMap_cons, List.flatMap_cons]
      rcases List.cons_lt_cons_iff.mp h with hab | ⟨rfl, htail⟩
      · exact encodeChar_append_lt hab _ _
      · exact List.append_left_lt (ih htail)

/-- **Encoding keeps the order**: the lower of two texts has the lower bytes. -/
theorem encode_lt_encode {s t : String} (h : s < t) : encode s < encode t :=
  flatMap_encodeChar_lt (String.lt_iff.mp h)

/-! ### Decoding -/

theorem ofNat_lt_iff {v : Nat} (hv : v < 256) {b : UInt8} : UInt8.ofNat v < b ↔ v < b.toNat := by
  rw [UInt8.lt_iff_toNat_lt, UInt8.toNat_ofNat_of_lt' hv]

theorem le_ofNat_iff {v : Nat} (hv : v < 256) {b : UInt8} : b ≤ UInt8.ofNat v ↔ b.toNat ≤ v := by
  rw [UInt8.le_iff_toNat_le, UInt8.toNat_ofNat_of_lt' hv]

theorem ofNat_le_iff {v : Nat} (hv : v < 256) {b : UInt8} : UInt8.ofNat v ≤ b ↔ v ≤ b.toNat := by
  rw [UInt8.le_iff_toNat_le, UInt8.toNat_ofNat_of_lt' hv]

theorem ofNat_eq_iff {v : Nat} (hv : v < 256) {b : UInt8} : UInt8.ofNat v = b ↔ v = b.toNat := by
  rw [← UInt8.toNat_inj, UInt8.toNat_ofNat_of_lt' hv]

/-- A byte that continues a character carries six bits of it. -/
theorem payload_ofNat {v : Nat} : payload (UInt8.ofNat (v % 64 + 128)) = v % 64 := by
  rw [payload, UInt8.toNat_ofNat_of_lt' (by show v % 64 + 128 < 256; omega)]
  omega

theorem isContinuation_ofNat {v : Nat} : isContinuation (UInt8.ofNat (v % 64 + 128)) = true := by
  have hv : v % 64 + 128 < 256 := by omega
  rw [isContinuation, Bool.and_eq_true, decide_eq_true_eq, decide_eq_true_eq, le_ofNat_iff hv,
    ofNat_le_iff hv]
  show 128 ≤ _ ∧ _ ≤ 191
  omega

/-- What a first byte tells about the bytes after it. -/
theorem leading_ofNat {v : Nat} (hv : v < 256) :
    leading (UInt8.ofNat v) =
      if v < 0xc2 then none
      else if v < 0xe0 then some (1, 0x80, 0xbf)
      else if v = 0xe0 then some (2, 0xa0, 0xbf)
      else if v = 0xed then some (2, 0x80, 0x9f)
      else if v < 0xf0 then some (2, 0x80, 0xbf)
      else if v = 0xf0 then some (3, 0x90, 0xbf)
      else if v < 0xf4 then some (3, 0x80, 0xbf)
      else if v = 0xf4 then some (3, 0x80, 0x8f)
      else none := by
  simp only [leading, ofNat_lt_iff hv, ofNat_eq_iff hv]
  rfl

/-- The first byte of three allows for the second: the codes of surrogates are none of characters,
and shorter codes have fewer bytes. -/
theorem leading_of_three {v : Nat} (h : v < 0xd800 ∨ 0xdfff < v) (hlow : 0x7ff < v)
    (hhigh : v ≤ 0xffff) :
    ∃ lo hi, leading (UInt8.ofNat (v / 4096 % 16 + 224)) = some (2, lo, hi) ∧
      lo ≤ UInt8.ofNat (v / 64 % 64 + 128) ∧ UInt8.ofNat (v / 64 % 64 + 128) ≤ hi := by
  have hb : v / 64 % 64 + 128 < 256 := by omega
  rw [leading_ofNat (by omega), if_neg (by omega), if_neg (by omega)]
  simp only [le_ofNat_iff hb, ofNat_le_iff hb]
  split
  · exact ⟨_, _, rfl, by show 160 ≤ _; omega, by show _ ≤ 191; omega⟩
  · split
    · exact ⟨_, _, rfl, by show 128 ≤ _; omega, by show _ ≤ 159; omega⟩
    · rw [if_pos (by omega)]
      exact ⟨_, _, rfl, by show 128 ≤ _; omega, by show _ ≤ 191; omega⟩

/-- The first byte of four allows for the second. -/
theorem leading_of_four {v : Nat} (hlow : 0xffff < v) (hhigh : v < 0x110000) :
    ∃ lo hi, leading (UInt8.ofNat (v / 262144 % 8 + 240)) = some (3, lo, hi) ∧
      lo ≤ UInt8.ofNat (v / 4096 % 64 + 128) ∧ UInt8.ofNat (v / 4096 % 64 + 128) ≤ hi := by
  have hb : v / 4096 % 64 + 128 < 256 := by omega
  rw [leading_ofNat (by omega), if_neg (by omega), if_neg (by omega), if_neg (by omega),
    if_neg (by omega), if_neg (by omega)]
  simp only [le_ofNat_iff hb, ofNat_le_iff hb]
  split
  · exact ⟨_, _, rfl, by show 144 ≤ _; omega, by show _ ≤ 191; omega⟩
  · split
    · exact ⟨_, _, rfl, by show 128 ≤ _; omega, by show _ ≤ 191; omega⟩
    · rw [if_pos (by omega)]
      exact ⟨_, _, rfl, by show 128 ≤ _; omega, by show _ ≤ 143; omega⟩

/-- The bytes of a character are read as the character, whatever comes after them. -/
theorem piece_encodeChar (c : Char) (r : List UInt8) :
    ∃ a s, String.utf8EncodeChar c = a :: s ∧ piece a (s ++ r) = (some c, s.length) := by
  have hc : c.val.toNat < 0xd800 ∨ 0xdfff < c.val.toNat ∧ c.val.toNat < 0x110000 := c.valid
  have hchar : Char.ofNat c.val.toNat = c := Char.ofNat_toNat c
  rw [String.utf8EncodeChar]
  generalize c.val.toNat = v at *
  have notAscii {n : Nat} (hn : n < 256) (hlow : 128 ≤ n) : ¬ UInt8.ofNat n < 0x80 := by
    rw [ofNat_lt_iff hn]
    exact Nat.not_lt.mpr hlow
  split
  · -- one byte
    refine ⟨_, [], rfl, ?_⟩
    have hv : v < 256 := by omega
    unfold piece
    rw [if_pos ((ofNat_lt_iff hv).mpr (by show v < 128; omega)),
      UInt8.toNat_ofNat_of_lt' hv, hchar]
    rfl
  · split
    · -- two bytes
      refine ⟨_, [_], rfl, ?_⟩
      have ha : v / 64 % 32 + 192 < 256 := by omega
      unfold piece
      rw [if_neg (notAscii ha (by omega)), leading_ofNat ha, if_neg (by omega),
        if_pos (by omega)]
      show (if isContinuation _ then _ else _) = _
      have hcode : (v / 64 % 32 + 192) % 0x20 * 0x40 + v % 64 = v := by omega
      rw [if_pos isContinuation_ofNat, payload_ofNat, UInt8.toNat_ofNat_of_lt' ha, hcode, hchar]
      rfl
    · split
      · -- three bytes
        refine ⟨_, [_, _], rfl, ?_⟩
        have ha : v / 4096 % 16 + 224 < 256 := by omega
        obtain ⟨lo, hi, hleading, hlo, hhi⟩ :=
          leading_of_three (v := v) (by omega) (by omega) (by omega)
        unfold piece
        rw [if_neg (notAscii ha (by omega)), hleading]
        show (if decide (lo ≤ _) && decide (_ ≤ hi) then (if isContinuation _ then _ else _)
          else _) = _
        have hcode : ((v / 4096 % 16 + 224) % 0x10 * 0x40 + v / 64 % 64) * 0x40 + v % 64 = v := by
          omega
        rw [if_pos (Bool.and_eq_true_iff.mpr ⟨decide_eq_true hlo, decide_eq_true hhi⟩),
          if_pos isContinuation_ofNat, payload_ofNat, payload_ofNat,
          UInt8.toNat_ofNat_of_lt' ha, hcode, hchar]
        rfl
      · -- four bytes
        refine ⟨_, [_, _, _], rfl, ?_⟩
        have ha : v / 262144 % 8 + 240 < 256 := by omega
        obtain ⟨lo, hi, hleading, hlo, hhi⟩ := leading_of_four (v := v) (by omega) (by omega)
        unfold piece
        rw [if_neg (notAscii ha (by omega)), hleading]
        show (if decide (lo ≤ _) && decide (_ ≤ hi) then
          (if isContinuation _ then (if isContinuation _ then _ else _) else _) else _) = _
        have hcode : (((v / 262144 % 8 + 240) % 0x08 * 0x40 + v / 4096 % 64) * 0x40 +
            v / 64 % 64) * 0x40 + v % 64 = v := by
          omega
        rw [if_pos (Bool.and_eq_true_iff.mpr ⟨decide_eq_true hlo, decide_eq_true hhi⟩),
          if_pos isContinuation_ofNat, if_pos isContinuation_ofNat,
          payload_ofNat, payload_ofNat, payload_ofNat, UInt8.toNat_ofNat_of_lt' ha, hcode, hchar]
        rfl

theorem piecesFrom_length_append (s r : List UInt8) : piecesFrom s.length (s ++ r) = pieces r := by
  induction s with
  | nil => rfl
  | cons a s ih => exact ih

theorem pieces_encodeChar_append (c : Char) (r : List UInt8) :
    pieces (String.utf8EncodeChar c ++ r) = some c :: pieces r := by
  obtain ⟨a, s, henc, hpiece⟩ := piece_encodeChar c r
  rw [henc, pieces, List.cons_append, piecesFrom, hpiece]
  exact congrArg (some c :: ·) (piecesFrom_length_append s r)

theorem pieces_encode (s : String) : pieces (encode s) = s.toList.map some := by
  rw [encode]
  induction s.toList with
  | nil => rfl
  | cons c cs ih => rw [List.flatMap_cons, pieces_encodeChar_append, ih, List.map_cons]

/-- **Decoding undoes encoding.** -/
theorem decode?_encode (s : String) : decode? (encode s) = some s := by
  rw [decode?, pieces_encode]
  have hchars : ∀ cs : List Char, (cs.map some).mapM id = some cs := by
    intro cs
    induction cs with
    | nil => rfl
    | cons c cs ih => rw [List.map_cons, List.mapM_cons, ih]; rfl
  rw [hchars, Option.map_some, String.ofList_toList]

/-! ### Well-formed bytes are an encoding -/

/-- The bytes of the character with the code `v`. -/
theorem encodeChar_ofNat {v : Nat} (hv : v < 0xd800 ∨ 0xdfff < v ∧ v < 0x110000) :
    String.utf8EncodeChar (Char.ofNat v) =
      if v ≤ 0x7f then [UInt8.ofNat v]
      else if v ≤ 0x7ff then [UInt8.ofNat (v / 64 % 32 + 192), UInt8.ofNat (v % 64 + 128)]
      else if v ≤ 0xffff then [UInt8.ofNat (v / 4096 % 16 + 224),
        UInt8.ofNat (v / 64 % 64 + 128), UInt8.ofNat (v % 64 + 128)]
      else [UInt8.ofNat (v / 262144 % 8 + 240), UInt8.ofNat (v / 4096 % 64 + 128),
        UInt8.ofNat (v / 64 % 64 + 128), UInt8.ofNat (v % 64 + 128)] := by
  have hcode : (Char.ofNat v).val.toNat = v := by
    rw [Char.ofNat, dif_pos (show v.isValidChar from hv)]
    rfl
  rw [String.utf8EncodeChar]
  simp only [hcode]

/-- What the first two of several bytes are. -/
theorem bounds_of_leading {a b lo hi : UInt8} {n : Nat} (h : leading a = some (n, lo, hi))
    (hb : (decide (lo ≤ b) && decide (b ≤ hi)) = true) :
    128 ≤ b.toNat ∧ b.toNat < 192 ∧
      (n = 1 ∧ 0xc2 ≤ a.toNat ∧ a.toNat < 0xe0 ∨
        n = 2 ∧ 0xe0 ≤ a.toNat ∧ a.toNat < 0xf0 ∧ (a.toNat = 0xe0 → 0xa0 ≤ b.toNat) ∧
          (a.toNat = 0xed → b.toNat < 0xa0) ∨
        n = 3 ∧ 0xf0 ≤ a.toNat ∧ a.toNat < 0xf5 ∧ (a.toNat = 0xf0 → 0x90 ≤ b.toNat) ∧
          (a.toNat = 0xf4 → b.toNat < 0x90)) := by
  rw [← UInt8.ofNat_toNat (x := a), leading_ofNat (UInt8.toNat_lt a)] at h
  rw [Bool.and_eq_true, decide_eq_true_eq, decide_eq_true_eq, UInt8.le_iff_toNat_le,
    UInt8.le_iff_toNat_le] at hb
  split_ifs at h <;> cases h <;> simp at hb <;> omega

theorem bounds_of_isContinuation {b : UInt8} (h : isContinuation b = true) :
    128 ≤ b.toNat ∧ b.toNat < 192 := by
  rw [isContinuation, Bool.and_eq_true, decide_eq_true_eq, decide_eq_true_eq,
    UInt8.le_iff_toNat_le, UInt8.le_iff_toNat_le] at h
  simp at h
  omega

/-- A character that is read is encoded by the bytes it was read from. -/
theorem encodeChar_of_piece {a : UInt8} {r : List UInt8} {c : Char} {n : Nat}
    (h : piece a r = (some c, n)) : String.utf8EncodeChar c = a :: r.take n := by
  have cons_eq {v : Nat} {b : UInt8} {l m : List UInt8} (hv : v = b.toNat) (h : l = m) :
      UInt8.ofNat v :: l = b :: m := by
    rw [hv, UInt8.ofNat_toNat, h]
  rw [piece.eq_def] at h
  split at h
  · -- one byte
    rename_i ha
    cases h
    have ha : a.toNat < 128 := ha
    rw [encodeChar_ofNat (by omega), if_pos (by omega), UInt8.ofNat_toNat]
    rfl
  · split at h
    · -- two bytes
      rename_i hleading
      split at h
      · rename_i hb
        cases h
        obtain ⟨hlo, hhi, hfirst⟩ := bounds_of_leading hleading hb
        rw [payload, encodeChar_ofNat (by omega), if_neg (by omega), if_pos (by omega)]
        exact cons_eq (by omega) (cons_eq (by omega) rfl)
      · cases h
    · -- three bytes
      rename_i hleading
      split at h
      · rename_i hb
        obtain ⟨hlo, hhi, hfirst⟩ := bounds_of_leading hleading hb
        split at h
        · split at h
          · rename_i hc
            cases h
            obtain ⟨hclo, hchi⟩ := bounds_of_isContinuation hc
            rw [payload, payload, encodeChar_ofNat (by omega), if_neg (by omega),
              if_neg (by omega), if_pos (by omega)]
            exact cons_eq (by omega) (cons_eq (by omega) (cons_eq (by omega) rfl))
          · cases h
        · cases h
      · cases h
    · -- four bytes
      rename_i hleading
      split at h
      · rename_i hb
        obtain ⟨hlo, hhi, hfirst⟩ := bounds_of_leading hleading hb
        split at h
        · split at h
          · rename_i hc
            obtain ⟨hclo, hchi⟩ := bounds_of_isContinuation hc
            split at h
            · split at h
              · rename_i hd
                cases h
                obtain ⟨hdlo, hdhi⟩ := bounds_of_isContinuation hd
                rw [payload, payload, payload, encodeChar_ofNat (by omega), if_neg (by omega),
                  if_neg (by omega), if_neg (by omega)]
                exact cons_eq (by omega)
                  (cons_eq (by omega) (cons_eq (by omega) (cons_eq (by omega) rfl)))
              · cases h
            · cases h
          · cases h
        · cases h
      · cases h
    · cases h

theorem flatMap_encodeChar_of_piecesFrom {bytes : List UInt8} {skip : Nat} {cs : List Char}
    (h : (piecesFrom skip bytes).mapM id = some cs) :
    cs.flatMap String.utf8EncodeChar = bytes.drop skip := by
  induction bytes generalizing skip cs with
  | nil =>
    rw [piecesFrom] at h
    cases h
    rw [List.drop_nil]
    rfl
  | cons a r ih =>
    cases skip with
    | succ k =>
      rw [piecesFrom] at h
      exact ih h
    | zero =>
      rw [piecesFrom] at h
      cases hpiece : piece a r with
      | mk read n =>
        rw [hpiece, List.mapM_cons] at h
        cases read with
        | none => cases h
        | some c =>
          cases hrest : (piecesFrom n r).mapM id with
          | none =>
            rw [hrest] at h
            cases h
          | some cs' =>
            rw [hrest] at h
            cases h
            rw [List.flatMap_cons, encodeChar_of_piece hpiece, ih hrest, List.cons_append,
              List.take_append_drop]
            rfl

/-- **Encoding undoes decoding.** -/
theorem encode_of_decode? {bytes : List UInt8} {s : String} (h : decode? bytes = some s) :
    encode s = bytes := by
  obtain ⟨cs, hcs, rfl⟩ := Option.map_eq_some_iff.mp h
  rw [encode, String.toList_ofList]
  exact flatMap_encodeChar_of_piecesFrom hcs

end SymbolIndex.Text.Utf8
