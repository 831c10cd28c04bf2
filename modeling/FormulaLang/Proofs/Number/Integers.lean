import FormulaLang.Proofs.Number.Truncation
import FormulaLang.Proofs.Number.Units

/-!
# Integers as doubles

Up to `2 ^ 53` every integer is a double, so that comparing with one and dropping a fraction agree.

* `mul_one`: one is neutral on the right, too.
* **`unitsOf_ofNat`**: the double of an integer is the integer.
* **`not_ofNat_le_iff`**: below an integer, by the number and by its whole part.
-/

namespace FormulaLang.Number

open Float.Model Float.Model.UnpackedFloat

variable {x y : Float} {n : Nat}

/-! ## Products with one -/

theorem mul_comm_unpacked (u v : UnpackedFloat) :
    UnpackedFloat.mul Format.binary64 u v = UnpackedFloat.mul Format.binary64 v u := by
  have hsign : ∀ s s' : Sign, s * s' = s' * s := fun s s' => by cases s <;> cases s' <;> rfl
  cases u with
  | finite s m e hm =>
    cases v with
    | finite s' k f hk => simp only [UnpackedFloat.mul, hsign s s', Nat.mul_comm m, Int.add_comm e]
    | infinity s' => simp only [UnpackedFloat.mul, hsign s s']
    | zero s' => simp only [UnpackedFloat.mul, hsign s s']
    | notANumber => rfl
  | infinity s => cases v <;> simp only [UnpackedFloat.mul, hsign s]
  | zero s => cases v <;> simp only [UnpackedFloat.mul, hsign s]
  | notANumber => cases v <;> rfl

/-- **One is neutral** on the right of products. -/
theorem mul_one (x : Float) : x * 1.0 = x := by
  have h : (x * 1.0).toModel = (1.0 * x).toModel :=
    congrArg Float.Model.pack (mul_comm_unpacked _ _)
  rw [eq_of_model h, one_mul]

/-! ## Integers -/

theorem cast_units (n : Nat) : ((n * 2 ^ 1074 : Nat) : Int) = n * 2 ^ 1074 := by
  simp only [Nat.cast_mul, Nat.cast_pow, Nat.cast_ofNat]

/-- The integer of 64 bits as a double is the rounded integer. -/
theorem key_toFloat (w : UInt64) :
    w.toFloat.isNaN = false ∧ key w.toFloat = roundCode (w.toNat * 2 ^ 1074 : Nat) := by
  have h := normalize_unpack_pack (w.toNat : Int) (e := 0) .positive (by decide)
  rw [cast_units]
  exact ⟨isNaN_eq_false h.1, h.2⟩

theorem ofNat_eq_toFloat (h : n < 2 ^ 53) : Float.ofNat n = n.toUInt64.toFloat := by
  have hpower : Float.exactlyRepresentablePowersOfTen[0] = 1.0 := rfl
  change Float.ofScientific n false 0 = _
  rw [Float.ofScientific, dif_pos ⟨h, by decide⟩]
  exact mul_one _

/-- The last integer up to which there are no gaps. -/
theorem ofNat_limit : (Float.ofNat (2 ^ 53)).isFinite = true ∧
    key (Float.ofNat (2 ^ 53)) = roundCode (2 ^ 53 * 2 ^ 1074 : Nat) := by
  decide +kernel

theorem key_ofNat (h : n ≤ 2 ^ 53) : (Float.ofNat n).isNaN = false ∧
    key (Float.ofNat n) = roundCode (n * 2 ^ 1074 : Nat) := by
  rcases h.lt_or_eq with hlt | rfl
  · have hn : n.toUInt64.toNat = n := by
      simp
      omega
    have h := key_toFloat n.toUInt64
    rwa [hn, ← ofNat_eq_toFloat hlt] at h
  · exact ⟨isNaN_of_isFinite ofNat_limit.1, ofNat_limit.2⟩

/-- **The double of an integer is the integer**, as long as there are no gaps. -/
theorem unitsOf_ofNat (h : n ≤ 2 ^ 53) :
    (Float.ofNat n).isFinite = true ∧ unitsOf (Float.ofNat n) = (n * 2 ^ 1074 : Nat) := by
  obtain ⟨hnan, hkey⟩ := key_ofNat h
  have hle : n * 2 ^ 1074 ≤ 2 ^ 53 * 2 ^ 1074 := Nat.mul_le_mul_right _ h
  have hfinite := isFinite_of_natAbs_le hnan hkey ofNat_limit.1 ofNat_limit.2 hle
  exact ⟨hfinite, (unitsOf_of_key hfinite hkey).trans
    (roundedUnits_of_dvd (j := 1074) (Nat.dvd_mul_left _ _) hle)⟩

/-! ## Below an integer -/

theorem key_lt_iff (hx : x.isFinite = true) (hy : y.isFinite = true) :
    key x < key y ↔ unitsOf x < unitsOf y := by
  refine ⟨unitsOf_lt hx hy, fun h => ?_⟩
  by_contra hle
  rcases (not_lt.1 hle).lt_or_eq with hlt | heq
  · exact absurd (unitsOf_lt hy hx hlt) (by omega)
  · rw [← unitsOfCode_key hx, ← unitsOfCode_key hy, heq] at h
    exact absurd h (lt_irrefl _)

/-- The whole part of a number is below an integer if the number is. -/
theorem wholePart_lt_iff (h : 0 ≤ unitsOf x) :
    wholePart x < n ↔ unitsOf x < (n * 2 ^ 1074 : Nat) := by
  rw [wholePart, Nat.div_lt_iff_lt_mul (by positivity), Int.toNat_lt h]

theorem wholePart_ofNat (h : n ≤ 2 ^ 53) : wholePart (Float.ofNat n) = n := by
  rw [wholePart, (unitsOf_ofNat h).2, Int.toNat_natCast, Nat.mul_div_cancel _ (by positivity)]

/-- **What is not negative and below an integer** is finite, and its whole part is below it. -/
theorem not_ofNat_le_iff (h : n ≤ 2 ^ 53) (hx : x.isNaN = false) (hneg : ¬ x < 0.0) :
    ¬ Float.ofNat n ≤ x ↔ x.isFinite = true ∧ wholePart x < n := by
  obtain ⟨hfinite, hunits⟩ := unitsOf_ofNat h
  have hn := isNaN_of_isFinite hfinite
  rw [le_iff hn hx, not_le]
  constructor
  · intro hlt
    have hx' : x.isFinite = true := by
      have hzero : (0.0 : Float).isNaN = false ∧ key 0.0 = 0 := by decide
      rw [lt_iff hx hzero.1, hzero.2, not_lt] at hneg
      have := (isFinite_iff hn).1 hfinite
      exact (isFinite_iff hx).2 ⟨by omega, by omega⟩
    have hpos := (not_lt_zero_iff hx').1 hneg
    rw [wholePart_lt_iff hpos, ← hunits]
    exact ⟨hx', (key_lt_iff hx' hfinite).1 hlt⟩
  · rintro ⟨hx', hlt⟩
    have hpos := (not_lt_zero_iff hx').1 hneg
    rw [key_lt_iff hx' hfinite, hunits]
    exact (wholePart_lt_iff hpos).1 hlt

end FormulaLang.Number
