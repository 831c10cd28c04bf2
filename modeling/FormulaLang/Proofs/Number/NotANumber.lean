import FormulaLang.Proofs.Number.Order
import FormulaLang.Value.Elementwise

/-!
# The number that is none

There is a single NaN, and the four arithmetic operators and the change of sign pass it on.

* `isNaN_iff`: it is the only one.
* `BinaryOp.absorbs`: the operators that pass it on.
* **`BinaryOp.apply_nan`**: they do.
-/

namespace FormulaLang

open Float.Model

namespace Number

theorem eq_nan_iff {x : Float} : x = nan ↔ x.toModel.unpack = .notANumber := by
  constructor
  · rintro rfl
    rfl
  · intro h
    have hx := eq_of_pack x
    rw [h] at hx
    cases x
    exact congrArg Float.ofModel hx

/-- **There is a single NaN.** -/
theorem isNaN_iff {x : Float} : x.isNaN = true ↔ x = nan := by
  rw [eq_nan_iff]
  show x.toModel.unpack.isNaN = true ↔ _
  cases x.toModel.unpack <;> simp [UnpackedFloat.isNaN]

/-- Every number differs from a NaN. -/
theorem bne_nan (x : Float) : (x != nan) = true := by
  have hnan : nan.toModel.unpack = .notANumber := eq_nan_iff.1 rfl
  show (!(x.toModel.unpack.compare nan.toModel.unpack == some .eq)) = true
  rw [hnan]
  cases x.toModel.unpack <;> rfl

theorem eq_nan_of_packed {x : Float} {u : UnpackedFloat}
    (h : x.toModel = Float.Model.pack u) (hu : u = .notANumber) : x = nan := by
  subst hu
  cases x
  exact congrArg Float.ofModel h

end Number

/-- Operators whose result is a NaN if an operand is. -/
def BinaryOp.absorbs : BinaryOp → Bool
  | .add | .sub | .mul | .div => true
  | _ => false

open Number

/-- **A NaN is passed on**, from either side. -/
theorem BinaryOp.apply_nan {op : BinaryOp} (h : op.absorbs) (x : Float) :
    op.apply nan x = nan ∧ op.apply x nan = nan := by
  cases op with
  | add =>
    refine ⟨eq_nan_of_packed (u := .add Format.binary64 .notANumber x.toModel.unpack) rfl rfl,
      eq_nan_of_packed (u := .add Format.binary64 x.toModel.unpack .notANumber) rfl ?_⟩
    cases x.toModel.unpack <;> rfl
  | sub =>
    refine ⟨eq_nan_of_packed (u := .sub Format.binary64 .notANumber x.toModel.unpack) rfl ?_,
      eq_nan_of_packed (u := .sub Format.binary64 x.toModel.unpack .notANumber) rfl ?_⟩ <;>
    cases x.toModel.unpack <;> rfl
  | mul =>
    refine ⟨eq_nan_of_packed (u := .mul Format.binary64 .notANumber x.toModel.unpack) rfl ?_,
      eq_nan_of_packed (u := .mul Format.binary64 x.toModel.unpack .notANumber) rfl ?_⟩ <;>
    cases x.toModel.unpack <;> rfl
  | div =>
    refine ⟨eq_nan_of_packed (u := .div Format.binary64 .notANumber x.toModel.unpack) rfl ?_,
      eq_nan_of_packed (u := .div Format.binary64 x.toModel.unpack .notANumber) rfl ?_⟩ <;>
    cases x.toModel.unpack <;> rfl
  | _ => cases h

end FormulaLang
