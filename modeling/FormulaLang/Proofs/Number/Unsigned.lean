import FormulaLang.Number.Reading
import FormulaLang.Proofs.Number.NotANumber

/-!
# Numbers without a sign

Decimals and integers are written without a sign, and what they are read as has none: it is a zero,
a finite number or infinity.

* `HasNoSign`, `Unsigned`: doubles without a sign.
* **`unsigned_ofParts`**, `unsigned_ofNat`: decimals and integers.
* **`Unsigned.cases`**: infinity, or a finite number that is not negative.
-/

namespace FormulaLang.Number

open Float.Model Float.Model.UnpackedFloat

/-- A zero, a finite number or infinity without a sign. -/
def HasNoSign : UnpackedFloat → Prop
  | .zero .positive | .infinity .positive | .finite .positive _ _ _ => True
  | _ => False

/-- A double without a sign. -/
def Unsigned (x : Float) : Prop := HasNoSign x.toModel.unpack

section Parts

variable {u v : UnpackedFloat}

theorem hasNoSign_of_round (m : Nat) (e : Int) (acc : Accuracy) :
    HasNoSign (roundWithAccuracy Format.binary64 .positive m e acc) := by
  unfold roundWithAccuracy
  dsimp only
  split <;> trivial

theorem HasNoSign.mul (hu : HasNoSign u) {m : Nat} {e : Int} (hm : 0 < m) :
    HasNoSign (UnpackedFloat.mul Format.binary64 u (.finite .positive m e hm)) := by
  match u, hu with
  | .zero .positive, _ => trivial
  | .infinity .positive, _ => trivial
  | .finite .positive _ _ _, _ => exact hasNoSign_of_round _ _ _

theorem HasNoSign.div (hu : HasNoSign u) {m : Nat} {e : Int} (hm : 0 < m) :
    HasNoSign (UnpackedFloat.div Format.binary64 u (.finite .positive m e hm)) := by
  match u, hu with
  | .zero .positive, _ => trivial
  | .infinity .positive, _ => trivial
  | .finite .positive _ _ _, _ => exact hasNoSign_of_round _ _ _

theorem hasNoSign_ofInt (n : Nat) : HasNoSign (UnpackedFloat.ofInt Format.binary64 n) := by
  unfold UnpackedFloat.ofInt UnpackedFloat.normalize
  split
  · next h => exact absurd h (by simp [compare_lt_iff_lt])
  · trivial
  · exact hasNoSign_of_round _ _ _

theorem hasNoSign_components {e : BitVec 11} (he : e ≠ -1#11) (m : BitVec 52) :
    HasNoSign (UnpackedFloat.unpack Format.binary64
      (packComponents Format.binary64 .positive e m)) := by
  unfold UnpackedFloat.unpack
  simp only [unpackExponent_packComponents, unpackMantissa_packComponents,
    unpackSign_packComponents, ofBitVec_toBitVec]
  rw [if_neg he]
  split
  · split <;> trivial
  · trivial

/-- Packing keeps a number without a sign, also where it is too large. -/
theorem HasNoSign.pack (hu : HasNoSign u) :
    HasNoSign (UnpackedFloat.unpack Format.binary64 (UnpackedFloat.pack Format.binary64 u)) := by
  match u, hu with
  | .zero .positive, _ => trivial
  | .infinity .positive, _ => trivial
  | .finite .positive m e hm, _ =>
    unfold UnpackedFloat.pack
    dsimp only
    split
    · trivial
    split
    · refine hasNoSign_components (fun he => ?_) _
      have := congrArg BitVec.toNat he
      rw [toNat_allOnes_exponent, BitVec.toNat_ofNat] at this
      omega
    · exact hasNoSign_components (by decide) _

end Parts

theorem unsigned_ofModel {u : UnpackedFloat} (hu : HasNoSign u) {x : Float}
    (hx : x.toModel = Float.Model.pack u) : Unsigned x := by
  unfold Unsigned
  rw [hx]
  exact hu.pack

theorem unsigned_toFloat (n : UInt64) : Unsigned n.toFloat :=
  unsigned_ofModel (hasNoSign_ofInt n.toNat) rfl

/-- A finite number that is neither zero nor negative. -/
def isPositive : UnpackedFloat → Bool
  | .finite .positive _ _ _ => true
  | _ => false

/-- The powers of ten that doubles represent are positive. -/
theorem isPositive_power {e : Nat} (he : e < Float.exactlyRepresentablePowersOfTen.size) :
    isPositive (Float.exactlyRepresentablePowersOfTen[e]).toModel.unpack := by
  have hall : Float.exactlyRepresentablePowersOfTen.all fun x => isPositive x.toModel.unpack := by
    decide +kernel
  exact Array.all_eq_true.1 hall e he

section Parts

variable {u v : UnpackedFloat}

theorem HasNoSign.mul_isPositive (hu : HasNoSign u) (hv : isPositive v) :
    HasNoSign (UnpackedFloat.mul Format.binary64 u v) := by
  match v, hv with
  | .finite .positive _ _ hm, _ => exact hu.mul hm

theorem HasNoSign.div_isPositive (hu : HasNoSign u) (hv : isPositive v) :
    HasNoSign (UnpackedFloat.div Format.binary64 u v) := by
  match v, hv with
  | .finite .positive _ _ hm, _ => exact hu.div hm

theorem hasNoSign_ofScientific (m : Nat) (e : Int) :
    HasNoSign (UnpackedFloat.ofScientific Format.binary64 m e) := by
  unfold UnpackedFloat.ofScientific
  split_ifs with hm hhigh hlow he
  · trivial
  · trivial
  · trivial
  · exact HasNoSign.mul (u := .finite .positive _ _ _) trivial _
  · exact HasNoSign.div (u := .finite .positive _ _ _) trivial _

end Parts

/-- **What a decimal is read as has no sign.** -/
theorem unsigned_ofScientific (m : Nat) (s : Bool) (e : Nat) :
    Unsigned (Float.ofScientific m s e) := by
  unfold Float.ofScientific
  split_ifs
  · exact unsigned_ofModel ((unsigned_toFloat _).div_isPositive (isPositive_power _)) rfl
  · exact unsigned_ofModel ((unsigned_toFloat _).mul_isPositive (isPositive_power _)) rfl
  · exact unsigned_ofModel (hasNoSign_ofScientific _ _) rfl
  · exact unsigned_ofModel (hasNoSign_ofScientific _ _) rfl

theorem unsigned_ofParts (digits : Nat) (exponent : Int) : Unsigned (ofParts digits exponent) :=
  unsigned_ofScientific _ _ _

theorem unsigned_ofNat (n : Nat) : Unsigned (Float.ofNat n) := unsigned_ofScientific _ _ _

section Unsigned

variable {x : Float}

theorem eq_infinity_iff : x = infinity ↔ x.toModel.unpack = .infinity .positive := by
  constructor
  · rintro rfl
    rfl
  · intro h
    have hx := eq_of_pack x
    rw [h] at hx
    cases x
    exact congrArg Float.ofModel hx

/-- **Infinity, or a finite number that is not negative.** -/
theorem Unsigned.cases (h : Unsigned x) : x = infinity ∨ x.isFinite ∧ 0.0 ≤ x := by
  rw [eq_infinity_iff]
  have hzero : (0.0 : Float).isNaN = false := rfl
  unfold Unsigned at h
  have hle : x.isNaN = false → (0.0 ≤ x ↔ 0 ≤ code x.toModel.unpack) := fun hx => by
    rw [le_iff hzero hx]
    rfl
  have hfinite : x.isFinite = x.toModel.unpack.isFinite := rfl
  have hnan : x.isNaN = x.toModel.unpack.isNaN := rfl
  rw [hfinite]
  rw [hnan] at hle
  match hu : x.toModel.unpack, h with
  | .zero .positive, _ => 
    rw [hu] at hle
    exact .inr ⟨rfl, (hle rfl).2 (Int.le_refl 0)⟩
  | .infinity .positive, _ => exact .inl rfl
  | .finite .positive m e hm, _ =>
    rw [hu] at hle
    exact .inr ⟨rfl, (hle rfl).2 (Int.natCast_nonneg _)⟩

end Unsigned

end FormulaLang.Number
