import FormulaLang.Proofs.Number.Product

/-!
# Whole parts

Turning a double into an integer of 64 bits drops its fraction.

* `wholePart`: the whole part of a number that is not negative.
* `not_lt_zero_iff`: which numbers are not negative.
* `roundToInt_eq`: the mantissa that is left without the fraction.
* **`toNat_toUInt64`**: the integer of 64 bits, which is the largest one where there is none.
-/

namespace FormulaLang.Number

open Float.Model Float.Model.UnpackedFloat

/-- The whole part of a finite number that is not negative. -/
def wholePart (x : Float) : Nat := (unitsOf x).toNat / 2 ^ 1074

theorem not_lt_zero_iff {x : Float} (hx : x.isFinite = true) : ¬ x < 0.0 ↔ 0 ≤ unitsOf x := by
  have hzero : (0.0 : Float).isNaN = false ∧ key 0.0 = 0 := by decide
  rw [lt_iff (isNaN_of_isFinite hx) hzero.1, hzero.2, key_neg_iff hx, not_lt]

theorem mantissa_shift (m k : Nat) :
    (ExtendedMantissa.ofMantissaAndAccuracy m .exact >>> k).mantissa = m / 2 ^ k := by
  cases k with
  | zero => exact (Nat.div_one m).symm
  | succ k => rw [shiftRight_succ]

/-- A shift to the left or to the right drops the fraction. -/
theorem roundToInt_eq (s : Sign) (m : Nat) {e : Int} (he : -1074 ≤ e) :
    roundToInt s m e = s.apply ((m * 2 ^ (e + 1074).toNat / 2 ^ 1074 : Nat) : Int) := by
  have hshift : m <<< e.toNat / 2 ^ (-e).toNat = m * 2 ^ (e + 1074).toNat / 2 ^ 1074 := by
    rw [Nat.shiftLeft_eq]
    rcases Int.le_total 0 e with h | h
    · have hleft : (e + 1074).toNat = e.toNat + 1074 := by omega
      have hright : (-e).toNat = 0 := by omega
      rw [hleft, hright, pow_zero, Nat.div_one, pow_add, ← mul_assoc,
        Nat.mul_div_cancel _ (by positivity)]
    · have hleft : e.toNat = 0 := by omega
      have hright : 1074 = (e + 1074).toNat + (-e).toNat := by omega
      rw [hleft, pow_zero, mul_one]
      conv_rhs => rw [hright, pow_add, ← Nat.div_div_eq_div_mul,
        Nat.mul_div_cancel _ (show 0 < 2 ^ (e + 1074).toNat by positivity)]
  have hrest : (0 - (e - ((e - 0).toNat : Int))).toNat = (-e).toNat := by omega
  simp only [roundToInt, decreaseExponent, shiftToExponent, mantissa_shift, hrest]
  rw [Int.sub_zero, hshift]

/-- **The integer of 64 bits** of a number that is not negative is its whole part. -/
theorem toNat_toUInt64 {x : Float} (hx : x.isFinite = true) (h : 0 ≤ unitsOf x) :
    x.toUInt64.toNat = min (wholePart x) (2 ^ 64 - 1) := by
  have hclamp : ∀ n : Nat, (UInt64.ofNatClamp n).toNat = min n (2 ^ 64 - 1) := by
    intro n
    unfold UInt64.ofNatClamp
    split
    · next hlt =>
      rw [UInt64.toNat_ofNatLT]
      have : n < 2 ^ 64 := hlt
      omega
    · next hge =>
      rw [UInt64.toNat_ofNatLT]
      have : ¬ n < 2 ^ 64 := hge
      have : UInt64.size = 2 ^ 64 := rfl
      omega
  have hint : x.toModel.unpack.toInt 0 (UInt64.size - 1) = wholePart x := by
    have hc := canonical_unpack_model x
    change x.toModel.unpack.isFinite = true at hx
    unfold wholePart unitsOf at *
    cases hu : x.toModel.unpack with
    | notANumber | infinity =>
      rw [hu] at hx
      cases hx
    | zero s =>
      unfold units
      rw [Int.toNat_zero, Nat.zero_div]
      rfl
    | finite s m e hm =>
      rw [hu] at hc h
      rw [UnpackedFloat.toInt, roundToInt_eq s m hc.2.1]
      cases s with
      | positive => rfl
      | negative =>
        have hpos : (0 : Int) < (m * 2 ^ (e + 1074).toNat : Nat) := by positivity
        rw [units, Sign.apply] at h
        omega
  change (UInt64.ofNatClamp (x.toModel.unpack.toInt 0 (UInt64.size - 1)).toNat).toNat = _
  rw [hint, hclamp, Int.toNat_natCast]

end FormulaLang.Number
