/-!
# Shortest decimals

A number is written with the fewest decimal digits that read back to it, without an exponent.

* `Decoded`, `decode`: the sign, significand and binary exponent of a double.
* `Magnitude.near`: the point of a decimal grid that lies in the interval of reals rounding to
  the magnitude and is nearest to it.
* `Magnitude.shortest`: the first grid, from the coarsest, that has such a point.
* `Decimal.text`: positional digits.
* `text`, `wordText`: the text of a double, which differ in how they spell a NaN.
-/

namespace FormulaLang.Number

/-- The positive real `significand * 2 ^ exponent`. Where `closeBelow` holds the next smaller
double is only half as far away as the next larger one. -/
structure Magnitude where
  significand : Nat
  exponent : Int
  closeBelow : Bool
  deriving DecidableEq, Repr

/-- What the bits of a double say. A zero has significand `0`. -/
inductive Decoded where
  | nan
  | infinite (negative : Bool)
  | finite (negative : Bool) (magnitude : Magnitude)
  deriving DecidableEq, Repr

/-- The bit in front of the 52 bits of a fraction, which a normal double does not store. -/
def hiddenBit : Nat := 0x10000000000000

/-- Reads sign, exponent field and fraction of a double. -/
def decode (x : Float) : Decoded :=
  let bits : Nat := x.toBits.toNat
  let negative := decide (0x8000000000000000 ≤ bits)
  let field : Nat := bits / hiddenBit % 0x800
  let fraction : Nat := bits % hiddenBit
  if field = 0x7ff then
    if fraction = 0 then .infinite negative else .nan
  else if field = 0 then
    .finite negative ⟨fraction, -1074, false⟩
  else
    .finite negative ⟨hiddenBit + fraction, (field : Int) - 1075, fraction = 0 ∧ 1 < field⟩

/-- The decimal `digits * 10 ^ exponent`. -/
structure Decimal where
  digits : Nat
  exponent : Int
  deriving DecidableEq, Repr

namespace Magnitude

variable (m : Magnitude)

/-- Factors `(a, b)` with `2 ^ (m.exponent - 2) / 10 ^ k = a / b`: quarters of a unit in the last
place, measured on the grid of multiples of `10 ^ k`. -/
def scale (k : Int) : Nat × Nat :=
  let q := m.exponent - 2
  (Nat.pow 2 q.toNat * Nat.pow 10 (-k).toNat, Nat.pow 2 (-q).toNat * Nat.pow 10 k.toNat)

/-- The multiple of `10 ^ k` that rounds to `m` and is nearest to it; of two equally near ones the
larger. The ends of the rounding interval belong to it when the significand is even. -/
def near (k : Int) : Option Nat :=
  let (a, b) := m.scale k
  let low := (4 * m.significand - if m.closeBelow then 1 else 2) * a
  let mid := 4 * m.significand * a
  let high := (4 * m.significand + 2) * a
  let d := mid / b
  let even := m.significand % 2 == 0
  let floorFits := if even then decide (low ≤ d * b) else decide (low < d * b)
  let ceilFits := if even then decide ((d + 1) * b ≤ high) else decide ((d + 1) * b < high)
  match floorFits, ceilFits with
  | false, false => none
  | true, false => some d
  | false, true => some (d + 1)
  | true, true => some (if b ≤ 2 * (mid - d * b) then d + 1 else d)

/-- Tries `n` grids from `10 ^ k` downwards. -/
def search : Nat → Int → Decimal
  | 0, k => let (a, b) := m.scale k; ⟨4 * m.significand * a / b, k⟩
  | n + 1, k =>
    match m.near k with
    | some d => ⟨d, k⟩
    | none => search n (k - 1)

/-- A power of ten not below `m`, as its exponent. -/
def topGrid : Int :=
  ((m.significand.log2 : Int) + 1 + m.exponent) * 30103 / 100000 + 1

/-- The decimal with the fewest digits that rounds to `m`; seventeen digits always suffice, and
the search starts at most two grids too high. -/
def shortest : Decimal := m.search 20 m.topGrid

end Magnitude

/-- The digits of a decimal in positional notation. -/
def Decimal.text (d : Decimal) : String :=
  let digits := Nat.toDigits 10 d.digits
  if 0 ≤ d.exponent then
    String.ofList (digits ++ List.replicate d.exponent.toNat '0')
  else
    let places := (-d.exponent).toNat
    if places < digits.length then
      let whole := digits.length - places
      String.ofList (digits.take whole ++ '.' :: digits.drop whole)
    else
      String.ofList ('0' :: '.' :: (List.replicate (places - digits.length) '0' ++ digits))

/-- The text of a double, with `nan` as the word for a NaN. -/
def render (nan : String) (x : Float) : String :=
  match decode x with
  | .nan => nan
  | .infinite negative => if negative then "-inf" else "inf"
  | .finite negative m =>
    let digits := if m.significand = 0 then "0" else m.shortest.text
    if negative then "-" ++ digits else digits

/-- The text of a number as a value. -/
def text (x : Float) : String := render "nan" x

/-- The text of a number inside a message, a token or a listing. -/
def wordText (x : Float) : String := render "NaN" x

end FormulaLang.Number
