import FormulaLang.Proofs.Number.Unsigned
import FormulaLang.Proofs.Number.Units

/-!
# Changing signs

A number is not a number, or it has no sign, or it is the negative of a number without one.

* `unpack_neg`, `neg_neg`, `unitsOf_neg`: the negative of a number.
* **`sign_cases`**: the three kinds of numbers.
-/

namespace FormulaLang.Number

open Float.Model Float.Model.UnpackedFloat

variable {x : Float}

/-! ## Negatives -/

theorem unpack_neg (x : Float) : (-x).toModel.unpack = x.toModel.unpack.neg :=
  unpack_pack (canonical_neg (canonical_unpack_model x))

/-- Changing the sign twice changes nothing. -/
theorem neg_neg (x : Float) : - -x = x := by
  have hneg : (- -x).toModel = Float.Model.pack (-x).toModel.unpack.neg := rfl
  have hsign : ∀ u : UnpackedFloat, u.neg.neg = u := fun u => by
    cases u with
    | notANumber => rfl
    | infinity s | zero s | finite s => cases s <;> rfl
  rw [unpack_neg, hsign, ← eq_of_pack] at hneg
  exact eq_of_model hneg

theorem isFinite_negative (x : Float) : (-x).isFinite = x.isFinite := by
  change (-x).toModel.unpack.isFinite = x.toModel.unpack.isFinite
  rw [unpack_neg, isFinite_neg]

theorem unitsOf_neg (x : Float) : unitsOf (-x) = -unitsOf x := by
  rw [unitsOf, unpack_neg, units_neg, unitsOf]

/-! ## Signs -/

/-- **A number** is none, or has no sign, or is the negative of one without a sign. -/
theorem sign_cases (x : Float) : x = nan ∨ Unsigned x ∨ Unsigned (-x) := by
  rw [eq_nan_iff, Unsigned, Unsigned, unpack_neg]
  cases x.toModel.unpack with
  | notANumber => exact .inl rfl
  | infinity s | zero s | finite s => cases s <;> simp [HasNoSign, UnpackedFloat.neg]

/-- A number that is neither finite nor a NaN is infinity or its negative. -/
theorem eq_infinity_or_neg (hnan : x ≠ nan) (hfinite : x.isFinite = false) :
    x = infinity ∨ x = -infinity := by
  rcases sign_cases x with h | h | h
  · exact absurd h hnan
  · rcases h.cases with h | h
    · exact .inl h
    · rw [h.1] at hfinite
      cases hfinite
  · rcases h.cases with h | h
    · exact .inr (by rw [← h, neg_neg])
    · rw [isFinite_negative, hfinite] at h
      cases h.1

end FormulaLang.Number
