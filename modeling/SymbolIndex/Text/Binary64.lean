/-!
# Decimal numbers in 64 bits

A decimal number is kept as the nearest number that 53 significant bits and an exponent can hold, the
even one of two that are equally near. It is shown with the fewest digits that lead back to it, in
positional notation, and always with a point.
-/

namespace SymbolIndex.Text

/-- A finite number of 64 bits, without its sign: `mantissa · 2 ^ exponent`. -/
structure Binary64 where
  mantissa : Nat
  exponent : Int
  deriving DecidableEq, Repr

namespace Binary64

/-- The least exponent. -/
def leastExponent : Int := -1074

/-- A quotient rounded to the nearest integer, a half to the even one. -/
def roundDiv (n d : Nat) : Nat :=
  let q := n / d
  let r := n % d
  if 2 * r < d || (2 * r = d && q % 2 = 0) then q else q + 1

/-- A fraction `n / d` scaled by a power of two, as a fraction. -/
def scaled (n d : Nat) (e : Int) : Nat × Nat :=
  if 0 ≤ e then (n, d * Nat.pow 2 e.toNat) else (n * Nat.pow 2 (-e).toNat, d)

/-- The number nearest to `n / d`; `none` if it is too large to be held. -/
def ofFraction (n d : Nat) : Option Binary64 :=
  if n = 0 then some ⟨0, leastExponent⟩
  else
    let guess : Int := (Nat.log2 n : Int) - Nat.log2 d - 53
    let e := [guess, guess + 1, guess + 2].map (max leastExponent) |>.find? fun e =>
      let (a, b) := scaled n d e
      roundDiv a b ≤ Nat.pow 2 53
    let e := e.getD (guess + 2)
    let (a, b) := scaled n d e
    let m := roundDiv a b
    let (m, e) := if m = Nat.pow 2 53 then (Nat.pow 2 52, e + 1) else (m, e)
    if 971 < e then none else some ⟨m, e⟩

/-- The number `digits · 10 ^ power`. -/
def ofDecimal (digits : Nat) (power : Int) : Option Binary64 :=
  if 0 ≤ power then ofFraction (digits * Nat.pow 10 power.toNat) 1
  else ofFraction digits (Nat.pow 10 (-power).toNat)

/-- The fewest digits that lead back to the number, with a power of ten. -/
def shortest (x : Binary64) : Nat × Int :=
  let (n, d) := if 0 ≤ x.exponent then (x.mantissa * Nat.pow 2 x.exponent.toNat, 1)
    else (x.mantissa, Nat.pow 2 (-x.exponent).toNat)
  let magnitude : Int := (toString (n / d)).length
  let zeros := ((List.range 330).find? fun k => d ≤ n * Nat.pow 10 (k + 1)).getD 330
  let magnitude : Int := if n < d then -(zeros : Int) else magnitude
  let candidates (count : Nat) : List (Nat × Int) :=
    let power := magnitude - count
    let (a, b) := if 0 ≤ power then (n, d * Nat.pow 10 power.toNat) else (n * Nat.pow 10 (-power).toNat, d)
    let q := a / b
    let near := roundDiv a b
    [(near, power), (q, power), (q + 1, power)]
  let leadsBack := fun (c : Nat × Int) => ofDecimal c.1 c.2 = some x
  ((List.range 17).findSome? fun k => (candidates (k + 1)).find? leadsBack).getD (0, 0)

/-- Digits and a power of ten in positional notation. -/
def positional (digits : Nat) (power : Int) : String :=
  let ds := toString digits
  if 0 ≤ power then ds ++ String.ofList (List.replicate power.toNat '0') ++ ".0"
  else
    let places := (-power).toNat
    let padded := String.ofList (List.replicate (places + 1 - ds.length) '0') ++ ds
    let cs := padded.toList
    let whole := cs.take (cs.length - places)
    let part := (cs.drop (cs.length - places)).reverse.dropWhile (· = '0') |>.reverse
    String.ofList whole ++ "." ++ (if part.isEmpty then "0" else String.ofList part)

/-- How the number is shown. -/
def display (x : Binary64) : String :=
  let (digits, power) := x.shortest
  positional digits power

end Binary64

end SymbolIndex.Text
