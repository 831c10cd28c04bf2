import FormulaLang.Number.Basic

/-!
# Integer operators on numbers

`%`, `&`, `|` and `~` work on numbers truncated to signed 32-bit words, saturating at the ends;
a NaN counts as zero.

* `toWord`: the truncation.
* `modulo`, `bitAnd`, `bitOr`, `bitNot`: the operators, which give numbers again.
-/

namespace FormulaLang.Number

/-- The smaller of `n` and the largest word of the sign, `2 ^ 31` below zero and one less above. -/
def clampWord (negative : Bool) (n : Nat) : Int :=
  if negative then -(min n 0x80000000 : Nat) else (min n 0x7fffffff : Nat)

/-- The word nearest to `x` on the side of zero; `0` for a NaN. -/
def toWord (x : Float) : Int :=
  if x < 0 then clampWord true (-x).toUInt64.toNat else clampWord false x.toUInt64.toNat

/-- The number of a word. -/
def ofWord (n : Int) : Float := Float.ofInt n

/-- Remainder of the truncating division of words; a NaN for a zero divisor. -/
def modulo (a b : Float) : Float :=
  if toWord b = 0 then nan else ofWord ((toWord a).tmod (toWord b))

/-- The two's complement pattern of a word. -/
def pattern (x : Float) : BitVec 32 := BitVec.ofInt 32 (toWord x)

/-- Bits set in both words. -/
def bitAnd (a b : Float) : Float := ofWord (pattern a &&& pattern b).toInt

/-- Bits set in either word. -/
def bitOr (a b : Float) : Float := ofWord (pattern a ||| pattern b).toInt

/-- The complement of a word. -/
def bitNot (a : Float) : Float := ofWord (~~~ pattern a).toInt

end FormulaLang.Number
