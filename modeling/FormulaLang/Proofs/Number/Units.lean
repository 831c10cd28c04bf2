import FormulaLang.Proofs.Number.Product

/-!
# The error of sums

The units of a sum or a difference are those of the exact one, rounded to 53 bits. Rounding is off
by at most a `2 ^ 53`-th part, and not at all on a grid of `2 ^ 53` points.

* `unitsOfCode_key`: the bits of a finite double give its units.
* `roundedUnits`, `unitsOf_of_key`: the units that units are rounded to.
* **`roundedUnits_error`**, **`roundedUnits_of_dvd`**: how far rounding is off.
* `unitsOf_add`, `unitsOf_sub`: sums and differences.
* `isFinite_of_natAbs_le`: where there is no overflow.
* `roundedUnits_pos_iff`, `roundedUnits_neg_iff`: signs.
-/

namespace FormulaLang.Number

open Float.Model Float.Model.UnpackedFloat

/-! ## Bits and units -/

/-- The number of units that the bits of a finite double without its sign stand for. -/
def unitsOfBits (c : Nat) : Nat :=
  if c < 2 ^ 53 then c else (2 ^ 52 + c % 2 ^ 52) * 2 ^ (c / 2 ^ 52 - 1)

/-- The same for bits with a sign. -/
def unitsOfCode : Int → Int
  | .ofNat c => unitsOfBits c
  | .negSucc c => -unitsOfBits (c + 1)

theorem unitsOfCode_apply (s : Sign) (c : Nat) :
    unitsOfCode (s.apply (c : Int)) = s.apply (unitsOfBits c : Int) := by
  cases s with
  | positive => rfl
  | negative =>
    cases c with
    | zero => rfl
    | succ c => rfl

/-- A significand in its binade. -/
theorem unitsOfBits_eq {r t : Nat} (hr : r ≤ 2 ^ 53) (ht : t = 0 ∨ 2 ^ 52 ≤ r) :
    unitsOfBits (t * 2 ^ 52 + r) = r * 2 ^ t := by
  unfold unitsOfBits
  split_ifs with h
  · obtain rfl : t = 0 := by omega
    omega
  · rcases hr.lt_or_eq with hlt | rfl
    · have hdiv : (t * 2 ^ 52 + r) / 2 ^ 52 - 1 = t := by omega
      have hmod : 2 ^ 52 + (t * 2 ^ 52 + r) % 2 ^ 52 = r := by omega
      rw [hdiv, hmod]
    · -- A significand with a bit too many belongs to the next binade.
      have hdiv : (t * 2 ^ 52 + 2 ^ 53) / 2 ^ 52 - 1 = t + 1 := by omega
      have hmod : (t * 2 ^ 52 + 2 ^ 53) % 2 ^ 52 = 0 := by omega
      rw [hdiv, hmod, pow_succ]
      omega

theorem unitsOfCode_code {u : UnpackedFloat} (hu : Canonical u) (hf : u.isFinite = true) :
    unitsOfCode (code u) = units u := by
  cases u with
  | notANumber | infinity => cases hf
  | zero s => rfl
  | finite s m e hm =>
    obtain ⟨hm', he, -, hc⟩ := hu
    rw [code, unitsOfCode_apply, unitsOfBits_eq hm'.le (hc.imp_left fun h => by omega)]
    rfl

/-- **The bits of a finite double give its units.** -/
theorem unitsOfCode_key {x : Float} (hx : x.isFinite = true) : unitsOfCode (key x) = unitsOf x :=
  unitsOfCode_code (canonical_unpack_model x) hx

/-! ## Rounded units -/

/-- The units of the double that a number of units is rounded to. -/
def roundUnits (v : Nat) : Nat := nearest v (excess v) * 2 ^ excess v

/-- The same for units with a sign. -/
def roundedUnits : Int → Int
  | .ofNat v => roundUnits v
  | .negSucc v => -roundUnits (v + 1)

section Rounding

variable {v j : Nat} {w : Int}

theorem unitsOfBits_roundBits (h : roundBits v < infinityCode) :
    unitsOfBits (roundBits v) = roundUnits v := by
  unfold roundBits at h ⊢
  rw [min_eq_right (by omega)]
  exact unitsOfBits_eq (nearest_excess_le v)
    ((eq_or_ne (excess v) 0).imp_right le_nearest_excess)

theorem unitsOfCode_roundCode (h : -(infinityCode : Int) < roundCode w)
    (h' : roundCode w < infinityCode) : unitsOfCode (roundCode w) = roundedUnits w := by
  cases w with
  | ofNat v =>
    simp only [roundCode] at h' ⊢
    exact congrArg Int.ofNat (unitsOfBits_roundBits (by omega))
  | negSucc v =>
    simp only [roundCode] at h ⊢
    have hv := unitsOfBits_roundBits (v := v + 1) (by omega)
    have hneg := unitsOfCode_apply .negative (roundBits (v + 1))
    rw [hv] at hneg
    exact hneg

/-- The nearest multiple of `2 ^ t` is off by at most the half of it. -/
theorem nearest_error (v t : Nat) : 2 * (nearest v t * 2 ^ t) ≤ 2 * v + 2 ^ t ∧
    2 * v ≤ 2 * (nearest v t * 2 ^ t) + 2 ^ t := by
  have hv := Nat.div_add_mod' v (2 ^ t)
  have hr := Nat.mod_lt v (show 0 < 2 ^ t by positivity)
  have hsucc : (v / 2 ^ t + 1) * 2 ^ t = v / 2 ^ t * 2 ^ t + 2 ^ t := by ring
  unfold nearest
  split_ifs with h h'
  · omega
  · rcases Nat.mod_two_eq_zero_or_one (v / 2 ^ t) with h₂ | h₂ <;> rw [h₂]
    · rw [Nat.add_zero]
      omega
    · rw [hsucc]
      omega
  · rw [hsucc]
    omega

theorem roundUnits_error (v : Nat) : 2 ^ 53 * roundUnits v ≤ (2 ^ 53 + 1) * v ∧
    (2 ^ 53 - 1) * v ≤ 2 ^ 53 * roundUnits v := by
  unfold roundUnits
  by_cases h : excess v = 0
  · rw [h, nearest_zero, pow_zero]
    omega
  · have herror := nearest_error v (excess v)
    have hv : v ≠ 0 := by
      rintro rfl
      exact h rfl
    have hlow : 2 ^ 52 * 2 ^ excess v ≤ v := by
      rw [← pow_add, ← Nat.le_log2 hv]
      unfold excess at *
      omega
    omega

/-- **Rounding is off by at most a `2 ^ 53`-th part.** -/
theorem roundedUnits_error (w : Int) : 2 ^ 53 * (roundedUnits w - w).natAbs ≤ w.natAbs := by
  cases w with
  | ofNat v =>
    have := roundUnits_error v
    simp only [roundedUnits, Int.ofNat_eq_natCast]
    omega
  | negSucc v =>
    have := roundUnits_error (v + 1)
    simp only [roundedUnits]
    omega

theorem excess_mul_le {q : Nat} (hq : q < 2 ^ 53) : excess (q * 2 ^ j) ≤ j := by
  unfold excess
  by_cases hq₀ : q = 0
  · rw [hq₀, Nat.zero_mul, Nat.log2_zero]
    omega
  · rw [log2_mul_pow hq₀]
    have := (Nat.log2_lt hq₀).2 hq
    omega

theorem roundUnits_of_dvd (h : 2 ^ j ∣ v) (hv : v ≤ 2 ^ 53 * 2 ^ j) : roundUnits v = v := by
  obtain ⟨q, rfl⟩ := h
  rw [Nat.mul_comm] at hv ⊢
  have hq := Nat.le_of_mul_le_mul_right hv (by positivity)
  have hdvd : 2 ^ excess (q * 2 ^ j) ∣ q * 2 ^ j := by
    rcases hq.lt_or_eq with hlt | rfl
    · exact (pow_dvd_pow 2 (excess_mul_le hlt)).mul_left q
    · -- The last point of the grid is a power of two.
      have hpow : 2 ^ 53 * 2 ^ j = 2 ^ 52 * 2 ^ (j + 1) := by rw [pow_succ]; ring
      rw [hpow]
      exact (pow_dvd_pow 2 (excess_mul_le (by decide))).mul_left _
  unfold roundUnits
  generalize excess (q * 2 ^ j) = t at hdvd ⊢
  obtain ⟨c, hc⟩ := hdvd
  rw [hc, Nat.mul_comm (2 ^ t), nearest_mul]

/-- **On a grid of `2 ^ 53` points** on either side of zero nothing is rounded. -/
theorem roundedUnits_of_dvd (h : (2 ^ j : Nat) ∣ w.natAbs) (hw : w.natAbs ≤ 2 ^ 53 * 2 ^ j) :
    roundedUnits w = w := by
  cases w with
  | ofNat v => exact congrArg Int.ofNat (roundUnits_of_dvd h hw)
  | negSucc v =>
    have hv : roundUnits (v + 1) = v + 1 := roundUnits_of_dvd h hw
    rw [roundedUnits, hv]
    rfl

/-- Rounding keeps the sign. -/
theorem roundedUnits_pos_iff : 0 < roundedUnits w ↔ 0 < w := by
  have := roundedUnits_error w
  omega

theorem roundedUnits_neg_iff : roundedUnits w < 0 ↔ w < 0 := by
  have := roundedUnits_error w
  omega

end Rounding

/-! ## Sums and differences -/

section Sums

variable {x y : Float} {w : Int}

theorem unitsOf_of_key (hx : x.isFinite = true) (h : key x = roundCode w) :
    unitsOf x = roundedUnits w := by
  have hkey := (isFinite_iff (isNaN_of_isFinite hx)).1 hx
  rw [h] at hkey
  rw [← unitsOfCode_key hx, h, unitsOfCode_roundCode hkey.1 hkey.2]

/-- **The units of a sum** are the rounded ones of the exact sum. -/
theorem unitsOf_add (h : (x + y).isFinite = true) :
    unitsOf (x + y) = roundedUnits (unitsOf x + unitsOf y) := by
  obtain ⟨hx, hy⟩ := isFinite_of_add h
  exact unitsOf_of_key h (key_add hx hy).2

theorem isFinite_of_sub (h : (x - y).isFinite = true) : x.isFinite = true ∧ y.isFinite = true := by
  change (UnpackedFloat.unpack Format.binary64 (UnpackedFloat.pack Format.binary64
    (UnpackedFloat.sub Format.binary64 x.toModel.unpack y.toModel.unpack))).isFinite = true at h
  rw [sub_eq_add_neg] at h
  exact (isFinite_of_add_unpack_pack h).imp_right ((isFinite_neg _).symm.trans ·)

/-- **The units of a difference** are the rounded ones of the exact difference. -/
theorem unitsOf_sub (h : (x - y).isFinite = true) :
    unitsOf (x - y) = roundedUnits (unitsOf x - unitsOf y) := by
  obtain ⟨hx, hy⟩ := isFinite_of_sub h
  exact unitsOf_of_key h (key_sub hx hy).2

theorem natAbs_roundCode (w : Int) : (roundCode w).natAbs = roundBits w.natAbs := by
  cases w with
  | ofNat v => rw [roundCode, Int.natAbs_natCast, Int.ofNat_eq_natCast, Int.natAbs_natCast]
  | negSucc v => rw [roundCode, Int.natAbs_neg, Int.natAbs_natCast, Int.natAbs_negSucc]

/-- Rounding something smaller gives a finite number if rounding something larger does. -/
theorem isFinite_of_natAbs_le {w' : Int} (hx : x.isNaN = false) (hkey : key x = roundCode w)
    (hy : y.isFinite = true) (hkey' : key y = roundCode w') (h : w.natAbs ≤ w'.natAbs) :
    x.isFinite = true := by
  have hmono := roundBits_mono h
  rw [← natAbs_roundCode, ← natAbs_roundCode, ← hkey, ← hkey'] at hmono
  have hfinite := (isFinite_iff (isNaN_of_isFinite hy)).1 hy
  exact (isFinite_iff hx).2 (by omega)

end Sums

end FormulaLang.Number
