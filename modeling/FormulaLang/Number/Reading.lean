import FormulaLang.Number.Basic

/-!
# Reading numbers

* `ofDigits?`: the value of a digit string in a radix up to sixteen.
* `ofParts`: the double nearest to a decimal given by its digits and exponent.
* `ofDecimal?`: unsigned decimal text, with at most one point and an optional exponent.
* `ofText?`: a signed decimal, `inf` or `nan`.
-/

namespace FormulaLang.Number

/-- The value of a digit, letters standing for ten to fifteen. -/
def digitValue? (c : Char) : Option Nat :=
  if '0' ≤ c ∧ c ≤ '9' then some (c.toNat - '0'.toNat)
  else if 'a' ≤ c ∧ c ≤ 'f' then some (c.toNat - 'a'.toNat + 10)
  else if 'A' ≤ c ∧ c ≤ 'F' then some (c.toNat - 'A'.toNat + 10)
  else none

/-- `c` is a digit of the radix. -/
def isDigitOf (radix : Nat) (c : Char) : Bool :=
  (digitValue? c).any (· < radix)

/-- Reads the digits from the left, starting at `value`. -/
def foldDigits (radix value : Nat) (digits : List Char) : Nat :=
  digits.foldl (fun v c => radix * v + (digitValue? c).getD 0) value

/-- The value of a non-empty string of digits of the radix. -/
def ofDigits? (radix : Nat) (digits : List Char) : Option Nat :=
  if !digits.isEmpty && digits.all (isDigitOf radix) then some (foldDigits radix 0 digits) else none

/-- The double nearest to `digits * 10 ^ exponent`. -/
def ofParts (digits : Nat) (exponent : Int) : Float :=
  Float.ofScientific digits (exponent < 0) exponent.natAbs

/-- The exponent written after an `e`, with an optional sign. -/
def exponent? : List Char → Option Int
  | '-' :: digits => (ofDigits? 10 digits).map fun n => -(n : Int)
  | '+' :: digits => (ofDigits? 10 digits).map fun n => (n : Int)
  | digits => (ofDigits? 10 digits).map fun n => (n : Int)

/-- Reads an unsigned decimal: digits with at most one point, then maybe an exponent. -/
def ofDecimal? (cs : List Char) : Option Float :=
  let mantissa := cs.takeWhile fun c => c ≠ 'e' ∧ c ≠ 'E'
  let whole := mantissa.takeWhile (· ≠ '.')
  let fraction := (mantissa.dropWhile (· ≠ '.')).drop 1
  let power :=
    match cs.dropWhile fun c => c ≠ 'e' ∧ c ≠ 'E' with
    | [] => some 0
    | _ :: rest => exponent? rest
  match ofDigits? 10 (whole ++ fraction), power with
  | some digits, some power => some (ofParts digits (power - fraction.length))
  | _, _ => none

/-- Reads a signed decimal or the name of an infinity or a NaN. -/
def ofText? (s : String) : Option Float :=
  let unsigned : List Char → Option Float
    | ['n', 'a', 'n'] => some nan
    | ['i', 'n', 'f'] => some infinity
    | cs => ofDecimal? cs
  match s.toList with
  | '-' :: cs => (unsigned cs).map fun x => -x
  | '+' :: cs => unsigned cs
  | cs => unsigned cs

end FormulaLang.Number
