import SymbolIndex.Proofs.Index
import SymbolIndex.Proofs.Text.Utf8

/-!
# Source files that are no text

A source file is decoded before it is parsed, and its bytes need not be well formed. They are a
mixture of characters and ill-formed parts then. An ill-formed part is as long as it can be: it is
how the encoding of some character begins, up to the byte where no character goes on like that, or a
single byte that no character begins with (`Utf8.IsIllFormedPart`). There is one text in which each
of these parts is replaced by one replacement character, and lossy decoding answers with it
(`Utf8.replaces_iff`).

That rests on where a reading breaks off (`Utf8.Breaks`): it depends on the bytes up to the first
wrong one, and on nothing behind it.

- `FileSystem.indexFile_of_replaces`: a file is indexed as if it held the encoding of that text.
-/

namespace SymbolIndex.Text.Utf8

variable {a : UInt8} {r s part part' after after' bytes : List UInt8} {cs : List Char} {n : Nat}

/-! ### Ill-formed parts -/

/-- The bytes are how the encoding of some character begins. -/
def StartsChar (bytes : List UInt8) : Prop := ∃ c, bytes <+: String.utf8EncodeChar c

/-- The bytes `part`, which are in front of `after`, are an ill-formed part of full length. -/
structure IsIllFormedPart (part after : List UInt8) : Prop where
  ne_nil : part ≠ []
  /-- It is a single byte, or a character that breaks off. -/
  short : part.length = 1 ∨ StartsChar part
  /-- There is no character here. -/
  no_char : ∀ c, ¬String.utf8EncodeChar c <+: part ++ after
  /-- With more bytes it is not how a character begins. -/
  longest : ∀ more, more <+: part ++ after → part.length < more.length → ¬StartsChar more

/-- The text has the characters that the bytes encode, and a replacement character for each
ill-formed part. -/
inductive ReplacesIn : List UInt8 → List Char → Prop
  | nil : ReplacesIn [] []
  | char (c : Char) {after : List UInt8} {cs : List Char} (h : ReplacesIn after cs) :
      ReplacesIn (String.utf8EncodeChar c ++ after) (c :: cs)
  | part {part after : List UInt8} {cs : List Char} (hpart : IsIllFormedPart part after)
      (h : ReplacesIn after cs) : ReplacesIn (part ++ after) ('\ufffd' :: cs)

/-- The text is the bytes as text, with a replacement character for each ill-formed part. -/
def Replaces (bytes : List UInt8) (text : String) : Prop := ReplacesIn bytes text.toList

/-- Bytes start with one ill-formed part at most. -/
theorem IsIllFormedPart.unique (h : IsIllFormedPart part after) (h' : IsIllFormedPart part' after')
    (heq : part ++ after = part' ++ after') : part = part' ∧ after = after' := by
  -- The longer of two would have to be how a character begins.
  have hle : ∀ {p q u v : List UInt8}, IsIllFormedPart p u → IsIllFormedPart q v →
      p ++ u = q ++ v → q.length ≤ p.length := by
    intro p q u v hp hq hpq
    refine Nat.le_of_not_lt fun hlt => ?_
    have hpos := List.length_pos_iff.mpr hp.ne_nil
    rcases hq.short with hone | hstarts
    · omega
    · exact hp.longest q (hpq ▸ List.prefix_append q v) (by omega) hstarts
  exact List.append_inj heq (Nat.le_antisymm (hle h' h heq.symm) (hle h h' heq))

/-! ### Where a piece breaks off -/

/-- What starts with the byte `a` and goes on in the given bytes breaks off after some of them,
because the next one is wrong or there is none. -/
inductive Breaks (a : UInt8) : List UInt8 → Nat → Prop
  | first {r : List UInt8} (ha : ¬a < 0x80) (h : leading a = none) : Breaks a r 0
  | second {r : List UInt8} {k : Nat} {lo hi : UInt8} (h : leading a = some (k, lo, hi))
      (hr : ∀ b ∈ r.head?, ¬(lo ≤ b ∧ b ≤ hi)) : Breaks a r 0
  | third {b : UInt8} {r : List UInt8} {k : Nat} {lo hi : UInt8}
      (h : leading a = some (k, lo, hi)) (hk : 1 < k) (hb : lo ≤ b ∧ b ≤ hi)
      (hr : ∀ c ∈ r.head?, isContinuation c = false) : Breaks a (b :: r) 1
  | fourth {b c : UInt8} {r : List UInt8} {k : Nat} {lo hi : UInt8}
      (h : leading a = some (k, lo, hi)) (hk : 2 < k) (hb : lo ≤ b ∧ b ≤ hi)
      (hc : isContinuation c = true) (hr : ∀ d ∈ r.head?, isContinuation d = false) :
      Breaks a (b :: c :: r) 2

/-- One to three bytes follow a first byte, which is not that of a character alone. -/
theorem leading_cases {k : Nat} {lo hi : UInt8} (h : leading a = some (k, lo, hi)) :
    ¬a < 0x80 ∧ (k = 1 ∨ k = 2 ∨ k = 3) := by
  rw [← UInt8.ofNat_toNat (x := a), leading_ofNat (UInt8.toNat_lt a)] at h
  rw [UInt8.lt_iff_toNat_lt]
  split_ifs at h <;> cases h <;> simp <;> omega

/-- What is read as ill-formed breaks off. -/
theorem breaks_of_piece {r : List UInt8} (h : piece a r = (none, n)) : Breaks a r n := by
  have outside {b lo hi : UInt8} (hb : ¬(decide (lo ≤ b) && decide (b ≤ hi)) = true) :
      ∀ b' ∈ some b, ¬(lo ≤ b' ∧ b' ≤ hi) := by
    rintro b' ⟨⟩ hb'
    exact hb (by simpa using hb')
  rw [piece.eq_def] at h
  split at h
  · cases h
  rename_i ha
  split at h
  · -- two bytes
    rename_i hleading
    split at h
    · cases h
    · rename_i hb
      cases h
      exact .second hleading (outside hb)
  · -- three bytes
    rename_i hleading
    split at h
    · rename_i hb
      have hb := by simpa using hb
      split at h
      · split at h
        · cases h
        · rename_i hc
          cases h
          exact .third hleading (by decide) hb (by simpa using hc)
      · cases h
        exact .third hleading (by decide) hb (by simp)
    · rename_i hb
      cases h
      exact .second hleading (outside hb)
  · -- four bytes
    rename_i hleading
    split at h
    · rename_i hb
      have hb := by simpa using hb
      split at h
      · split at h
        · rename_i hc
          split at h
          · split at h
            · cases h
            · rename_i hd
              cases h
              exact .fourth hleading (by decide) hb hc (by simpa using hd)
          · cases h
            exact .fourth hleading (by decide) hb hc (by simp)
        · rename_i hc
          cases h
          exact .third hleading (by decide) hb (by simpa using hc)
      · cases h
        exact .third hleading (by decide) hb (by simp)
    · rename_i hb
      cases h
      exact .second hleading (outside hb)
  · -- No character begins like that, or there are no more bytes.
    rename_i r _ _ hone htwo hthree
    cases h
    cases hleading : leading a with
    | none => exact .first ha hleading
    | some x =>
      obtain ⟨k, lo, hi⟩ := x
      cases r with
      | nil => exact .second hleading (by simp)
      | cons b r =>
        obtain ⟨-, rfl | rfl | rfl⟩ := leading_cases hleading
        · exact absurd rfl (hone _ _ _ _ hleading)
        · exact absurd rfl (htwo _ _ _ _ hleading)
        · exact absurd rfl (hthree _ _ _ _ hleading)

namespace Breaks

/-- What breaks off is read as ill-formed. -/
theorem piece_eq (h : Breaks a r n) : piece a r = (none, n) := by
  have outside {b lo hi : UInt8} {r : List UInt8}
      (hr : ∀ b' ∈ (b :: r).head?, ¬(lo ≤ b' ∧ b' ≤ hi)) :
      (decide (lo ≤ b) && decide (b ≤ hi)) = false := by
    simpa using hr b rfl
  rw [piece.eq_def]
  cases h with
  | first ha h => simp [ha, h]
  | second h hr =>
    obtain ⟨ha, rfl | rfl | rfl⟩ := leading_cases h <;> rw [if_neg ha, h] <;> cases r with
    | nil => rfl
    | cons b r => simp [outside hr]
  | @third b r k lo hi h hk hb hr =>
    obtain ⟨ha, rfl | rfl | rfl⟩ := leading_cases h
    · exact absurd hk (by decide)
    all_goals
      rw [if_neg ha, h]
      cases r with
      | nil => simp [hb]
      | cons c r => simp [hb, hr c rfl]
  | @fourth b c r k lo hi h hk hb hc hr =>
    obtain ⟨ha, rfl | rfl | rfl⟩ := leading_cases h
    · exact absurd hk (by decide)
    · exact absurd hk (by decide)
    · rw [if_neg ha, h]
      cases r with
      | nil => simp [hb, hc]
      | cons d r => simp [hb, hc, hr d rfl]

/-- Only the bytes up to the first wrong one matter. -/
theorem of_prefix (h : Breaks a r n) (hn : n < r.length) (hs : r.take (n + 1) <+: s) :
    Breaks a s n := by
  obtain ⟨t, rfl⟩ := hs
  cases h with
  | first ha h => exact .first ha h
  | second h hr =>
    obtain ⟨b, r, rfl⟩ := List.exists_cons_of_length_pos hn
    exact .second h hr
  | third h hk hb hr =>
    obtain ⟨c, r, rfl⟩ := List.exists_cons_of_length_pos (Nat.lt_of_succ_lt_succ hn)
    exact .third h hk hb hr
  | fourth h hk hb hc hr =>
    obtain ⟨d, r, rfl⟩ := List.exists_cons_of_length_pos
      (Nat.lt_of_succ_lt_succ (Nat.lt_of_succ_lt_succ hn))
    exact .fourth h hk hb hc hr

theorem le_length (h : Breaks a r n) : n ≤ r.length := by
  cases h <;> simp

/-- The bytes of a character up to one of its last are how the character begins. -/
theorem startsChar_of_piece {x : List UInt8} {k m : Nat} (h : ∃ c, piece a x = (some c, m))
    (hk : k ≤ m) : StartsChar (a :: x.take k) := by
  obtain ⟨c, hc⟩ := h
  refine ⟨c, ?_⟩
  rw [encodeChar_of_piece hc, List.prefix_cons_inj]
  exact List.take_prefix_take_left hk

/-- What comes before the first wrong byte is how some character begins, if it is more than one
byte. -/
theorem startsChar (h : Breaks a r n) (hn : 0 < n) : StartsChar (a :: r.take n) := by
  -- There is a character with other bytes in place of the wrong one.
  have hother : isContinuation 0x80 = true := by decide
  cases h with
  | first ha h => cases hn
  | second h hr => cases hn
  | @third b r k lo hi h hk hb hr =>
    have hchar : ∃ c, piece a [b, 0x80, 0x80] = (some c, k) := by
      rw [piece.eq_def]
      obtain ⟨ha, rfl | rfl | rfl⟩ := leading_cases h
      · exact absurd hk (by decide)
      · exact ⟨_, by simp [ha, h, hb, hother]; rfl⟩
      · exact ⟨_, by simp [ha, h, hb, hother]; rfl⟩
    have hstarts : StartsChar (a :: [b, 0x80, 0x80].take 1) :=
      startsChar_of_piece hchar (Nat.le_of_lt hk)
    exact hstarts
  | @fourth b c r k lo hi h hk hb hc hr =>
    have hchar : ∃ d, piece a [b, c, 0x80] = (some d, k) := by
      rw [piece.eq_def]
      obtain ⟨ha, rfl | rfl | rfl⟩ := leading_cases h
      · exact absurd hk (by decide)
      · exact absurd hk (by decide)
      · exact ⟨_, by simp [ha, h, hb, hc, hother]; rfl⟩
    have hstarts : StartsChar (a :: [b, c, 0x80].take 2) :=
      startsChar_of_piece hchar (Nat.le_of_lt hk)
    exact hstarts

end Breaks

/-- A piece that breaks off is an ill-formed part of full length. -/
theorem isIllFormedPart_of_piece (h : piece a r = (none, n)) :
    IsIllFormedPart (a :: r.take n) (r.drop n) where
  ne_nil := List.cons_ne_nil _ _
  short := by
    cases n with
    | zero => exact .inl rfl
    | succ n => exact .inr ((breaks_of_piece h).startsChar (Nat.succ_pos n))
  no_char := by
    rintro c ⟨x, hx⟩
    obtain ⟨a', s, hencode, hpiece⟩ := piece_encodeChar c x
    rw [hencode, List.cons_append, List.cons_append, List.take_append_drop] at hx
    obtain ⟨rfl, rfl⟩ := List.cons.inj hx
    rw [h] at hpiece
    cases hpiece
  longest := by
    rintro more hmore hlength ⟨c, hc⟩
    have hbreaks := breaks_of_piece h
    obtain ⟨a', s, hencode, hpiece⟩ := piece_encodeChar c []
    rw [List.cons_append, List.take_append_drop] at hmore
    rw [hencode] at hc
    rw [List.append_nil] at hpiece
    have hle := hbreaks.le_length
    rw [List.length_cons, List.length_take, Nat.min_eq_left hle] at hlength
    obtain ⟨b, m, rfl⟩ := List.exists_cons_of_length_pos (Nat.zero_lt_of_lt hlength)
    obtain ⟨rfl, hfront⟩ := List.cons_prefix_cons.mp hmore
    obtain ⟨rfl, hbegins⟩ := List.cons_prefix_cons.mp hc
    have hlonger : n + 1 ≤ m.length := Nat.le_of_succ_le_succ hlength
    -- The bytes up to the first wrong one are all in front, so it breaks off there as well.
    have htake : r.take (n + 1) <+: s := by
      refine List.IsPrefix.trans ?_ hbegins
      exact List.prefix_of_prefix_length_le (List.take_prefix _ _) hfront
        (Nat.le_trans (List.length_take_le _ _) hlonger)
    have hn : n < r.length := Nat.lt_of_lt_of_le hlonger hfront.length_le
    rw [(hbreaks.of_prefix hn htake).piece_eq] at hpiece
    cases hpiece

/-! ### Lossy decoding -/

theorem piecesFrom_eq (k : Nat) (bytes : List UInt8) :
    piecesFrom k bytes = pieces (bytes.drop k) := by
  induction k generalizing bytes with
  | zero => rfl
  | succ k ih =>
    cases bytes with
    | nil => rfl
    | cons b bytes => exact ih bytes

/-- Bytes are read as the first piece and then what is behind it. -/
theorem pieces_cons (a : UInt8) (r : List UInt8) :
    pieces (a :: r) = (piece a r).1 :: pieces (r.drop (piece a r).2) := by
  rw [pieces, piecesFrom]
  exact congrArg ((piece a r).1 :: ·) (piecesFrom_eq _ _)

/-- What is read is the text in which the ill-formed parts are replaced. -/
theorem replacesIn_pieces (bytes : List UInt8) :
    ReplacesIn bytes ((pieces bytes).map (·.getD '\ufffd')) := by
  match bytes with
  | [] => exact .nil
  | a :: r =>
    have hrest := replacesIn_pieces (r.drop (piece a r).2)
    rw [pieces_cons, List.map_cons]
    cases hpiece : piece a r with
    | mk read n =>
      rw [hpiece] at hrest
      have hbytes : a :: r = a :: r.take n ++ r.drop n := by
        rw [List.cons_append, List.take_append_drop]
      rw [hbytes]
      cases read with
      | some c =>
        rw [← encodeChar_of_piece hpiece]
        exact .char c hrest
      | none => exact .part (isIllFormedPart_of_piece hpiece) hrest
termination_by bytes.length

theorem ReplacesIn.pieces_eq (h : ReplacesIn bytes cs) :
    cs = (pieces bytes).map (·.getD '\ufffd') := by
  induction h with
  | nil => rfl
  | char c h ih => rw [pieces_encodeChar_append, List.map_cons, ← ih]; rfl
  | @part part after cs hpart h ih =>
    obtain ⟨a, r, hbytes⟩ := List.exists_cons_of_ne_nil
      (List.append_ne_nil_of_left_ne_nil hpart.ne_nil after)
    rw [hbytes, pieces_cons, List.map_cons]
    cases hpiece : piece a r with
    | mk read n =>
      cases read with
      | some c =>
        have hc : String.utf8EncodeChar c <+: part ++ after := by
          rw [encodeChar_of_piece hpiece, hbytes, List.prefix_cons_inj]
          exact List.take_prefix _ _
        exact absurd hc (hpart.no_char c)
      | none =>
        have hsame : part ++ after = a :: r.take n ++ r.drop n := by
          rw [hbytes, List.cons_append, List.take_append_drop]
        obtain ⟨-, hafter⟩ := hpart.unique (isIllFormedPart_of_piece hpiece) hsame
        rw [ih, hafter]
        rfl

/-- **Lossy decoding answers with the one text in which the ill-formed parts are replaced.** -/
theorem replaces_iff {text : String} : Replaces bytes text ↔ text = decodeLossy bytes := by
  constructor
  · intro h
    rw [decodeLossy, ← h.pieces_eq, String.ofList_toList]
  · rintro rfl
    rw [Replaces, decodeLossy, String.toList_ofList]
    exact replacesIn_pieces bytes

/-- An encoding has no ill-formed parts. -/
theorem decodeLossy_encode (s : String) : decodeLossy (encode s) = s := by
  have hchars : s.toList.map ((·.getD '\ufffd') ∘ some) = s.toList := List.map_id _
  rw [decodeLossy, pieces_encode, List.map_map, hchars, String.ofList_toList]

end SymbolIndex.Text.Utf8

/-! ### Files -/

namespace SymbolIndex.FileSystem

open Text

variable {fs : FileSystem} {path : Path} {bytes : List UInt8}

/-- A file is indexed by the text that its bytes are decoded to. -/
theorem indexFile_of_read (settings : ExtractSettings) (h : fs.read path = .ok bytes) :
    fs.indexFile settings path = FileRegistry.ofSource (Utf8.decodeLossy bytes) path
      settings.options settings.collisionPolicy := by
  rw [indexFile, h]

/-- **A file is indexed as if it held the encoding of its text.** The text is that in which each
ill-formed part of the bytes is one replacement character; there is one such text. If the bytes
encode a text, that one is indexed. -/
theorem indexFile_of_replaces (settings : Settings) (h : fs.read path = .ok bytes) :
    (∃! text, Utf8.Replaces bytes text) ∧
    (∀ (text : String) (fs' : FileSystem), Utf8.Replaces bytes text →
      fs'.read path = .ok (Utf8.encode text) →
      fs'.indexFile settings.extract path = fs.indexFile settings.extract path) ∧
    ∀ text, bytes = Utf8.encode text →
      fs.indexFile settings.extract path = FileRegistry.ofSource text path
        settings.extract.options settings.extract.collisionPolicy := by
  refine ⟨⟨_, Utf8.replaces_iff.mpr rfl, fun text => Utf8.replaces_iff.mp⟩, ?_, ?_⟩
  · intro text fs' htext hread
    rw [indexFile_of_read _ hread, indexFile_of_read _ h, Utf8.decodeLossy_encode,
      Utf8.replaces_iff.mp htext]
  · rintro text rfl
    rw [indexFile_of_read _ h, Utf8.decodeLossy_encode]

/-- A byte that is part of no character, a surrogate, whose three bytes are a part each, and at the
end of the file the beginning of a character, which is one part. -/
theorem indexFile_of_replaces_five_parts :
    let bytes := Utf8.encode "// " ++ [0xe9, 0x20, 0xed, 0xa0, 0x80] ++
      Utf8.encode "\nfunction f() {} // " ++ [0xe2, 0x82]
    let text := "// \ufffd \ufffd\ufffd\ufffd\nfunction f() {} // \ufffd"
    let holding (bytes : List UInt8) : FileSystem :=
      ⟨.directory [(Utf8.encode "a.js", .file bytes)], []⟩
    let index (fs : FileSystem) := fs.indexFile Settings.standard.extract "a.js"
    (holding bytes).read "a.js" = .ok bytes ∧ Utf8.Replaces bytes text ∧
      index (holding (Utf8.encode text)) = index (holding bytes) ∧
      index (holding (Utf8.encode text)) =
        FileRegistry.ofSource text "a.js" ⟨true⟩ .lastWins ∧
      (index (holding bytes)).result = .ok ⟨"a.js", [("Global.f", .function "f" "a.js")]⟩ := by
  intro bytes text holding index
  have hread : ∀ bytes, (holding bytes).read "a.js" = .ok bytes := by
    intro bytes
    rfl
  have htext : Utf8.Replaces bytes text := Utf8.replaces_iff.mpr (by decide +kernel)
  obtain ⟨-, hsame, -⟩ := indexFile_of_replaces Settings.standard (hread bytes)
  obtain ⟨-, -, hencoded⟩ := indexFile_of_replaces Settings.standard (hread (Utf8.encode text))
  exact ⟨hread bytes, htext, hsame text _ htext (hread _), hencoded text rfl, by decide +kernel⟩

end SymbolIndex.FileSystem
