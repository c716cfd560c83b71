/-!
# UTF-8

Text as bytes and bytes as text. Bytes need not be well formed: `pieces` reads them as a list of
characters and ill-formed parts, each ill-formed part being as long as it can be while it is still
the beginning of some character. `decode?` accepts bytes without ill-formed parts, `decodeLossy`
puts the replacement character in their place.
-/

namespace SymbolIndex.Text.Utf8

/-- The bytes of a text. -/
def encode (s : String) : List UInt8 := s.toList.flatMap String.utf8EncodeChar

/-- A byte that continues a character. -/
def isContinuation (b : UInt8) : Bool := 0x80 ≤ b && b ≤ 0xbf

/-- The low bits that a continuing byte contributes. -/
def payload (b : UInt8) : Nat := b.toNat % 0x40

/-- How many bytes follow a first byte, and the range of the one right after it. -/
def leading (a : UInt8) : Option (Nat × UInt8 × UInt8) :=
  if a < 0xc2 then none
  else if a < 0xe0 then some (1, 0x80, 0xbf)
  else if a = 0xe0 then some (2, 0xa0, 0xbf)
  else if a = 0xed then some (2, 0x80, 0x9f)
  else if a < 0xf0 then some (2, 0x80, 0xbf)
  else if a = 0xf0 then some (3, 0x90, 0xbf)
  else if a < 0xf4 then some (3, 0x80, 0xbf)
  else if a = 0xf4 then some (3, 0x80, 0x8f)
  else none

/-- Reads the character that starts with the byte `a` and goes on in `r`: the character, if it is
well formed, and the number of bytes of `r` that belong to it or to the ill-formed part. -/
def piece (a : UInt8) (r : List UInt8) : Option Char × Nat :=
  if a < 0x80 then (some (Char.ofNat a.toNat), 0)
  else match leading a, r with
    | some (1, lo, hi), b :: _ =>
      if lo ≤ b && b ≤ hi then (some (Char.ofNat (a.toNat % 0x20 * 0x40 + payload b)), 1)
      else (none, 0)
    | some (2, lo, hi), b :: r =>
      if lo ≤ b && b ≤ hi then
        match r with
        | c :: _ =>
          if isContinuation c then
            (some (Char.ofNat ((a.toNat % 0x10 * 0x40 + payload b) * 0x40 + payload c)), 2)
          else (none, 1)
        | [] => (none, 1)
      else (none, 0)
    | some (3, lo, hi), b :: r =>
      if lo ≤ b && b ≤ hi then
        match r with
        | c :: r =>
          if isContinuation c then
            match r with
            | d :: _ =>
              if isContinuation d then
                (some (Char.ofNat
                  (((a.toNat % 0x08 * 0x40 + payload b) * 0x40 + payload c) * 0x40 + payload d)), 3)
              else (none, 2)
            | [] => (none, 2)
          else (none, 1)
        | [] => (none, 1)
      else (none, 0)
    | _, _ => (none, 0)

/-- The characters (`some`) and the ill-formed parts (`none`) of the bytes, after `skip` bytes that
belong to a piece already. -/
def piecesFrom : (skip : Nat) → List UInt8 → List (Option Char)
  | _, [] => []
  | k + 1, _ :: r => piecesFrom k r
  | 0, a :: r =>
    let (c, n) := piece a r
    c :: piecesFrom n r

/-- The characters (`some`) and the ill-formed parts (`none`) of the bytes. -/
def pieces (bytes : List UInt8) : List (Option Char) := piecesFrom 0 bytes

/-- The text of well-formed bytes. -/
def decode? (bytes : List UInt8) : Option String := ((pieces bytes).mapM id).map String.ofList

/-- The text of the bytes, with a replacement character for each ill-formed part. -/
def decodeLossy (bytes : List UInt8) : String :=
  String.ofList ((pieces bytes).map (·.getD '\ufffd'))

end SymbolIndex.Text.Utf8
