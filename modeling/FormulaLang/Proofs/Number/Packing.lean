import FormulaLang.Proofs.Number.Rounding

/-!
# Packing

The bits of a double and its sign, significand and exponent determine each other.

* `Canonical`: the significands and exponents that doubles have.
* `canonical_unpack`, **`unpack_pack`**, **`pack_unpack`**: bits and parts.
* `unpack_pack_ofRounded`: a rounded double, which may be too large.
-/

namespace FormulaLang.Number

open Float.Model Float.Model.UnpackedFloat

/-- The parts of a double: 53 bits, or fewer at the least exponent. -/
def Canonical : UnpackedFloat → Prop
  | .finite _ m e _ => m < 2 ^ 53 ∧ -1074 ≤ e ∧ e ≤ 971 ∧ (e = -1074 ∨ 2 ^ 52 ≤ m)
  | _ => True

/-! ## Bits -/

section Bits

variable {b : BitVec Format.binary64.numBits}

@[simp] theorem ofBitVec_toBitVec (s : Sign) : Sign.ofBitVec s.toBitVec = s := by cases s <;> rfl

@[simp] theorem toBitVec_ofBitVec (b : BitVec 1) : (Sign.ofBitVec b).toBitVec = b := by
  rcases BitVec.eq_zero_or_eq_one b with rfl | rfl <;> rfl

@[simp] theorem unpackSign_packComponents (s : Sign) (e : BitVec 11) (m : BitVec 52) :
    unpackSign (packComponents Format.binary64 s e m) = s.toBitVec := by
  ext i hi
  obtain rfl : i = 0 := by omega
  simp only [unpackSign, packComponents, BitVec.extractLsb, BitVec.getElem_cast]
  grind

theorem packComponents_unpack (b : BitVec Format.binary64.numBits) :
    packComponents Format.binary64 (Sign.ofBitVec (unpackSign b)) (unpackExponent b)
      (unpackMantissa b) = b := by
  simp only [packComponents, toBitVec_ofBitVec, unpackSign, unpackExponent, unpackMantissa,
    BitVec.extractLsb]
  ext i hi
  grind

theorem toNat_implicit (m : BitVec 52) : (1#1 ++ m).toNat = 2 ^ 52 + m.toNat := by
  rw [BitVec.toNat_append, ← Nat.shiftLeft_add_eq_or_of_lt m.isLt]
  rfl

theorem bias_eq : Format.binary64.exponentBias = 1023 := by decide

theorem toNat_allOnes_exponent : (-1#11 : BitVec 11).toNat = 2047 := by decide

theorem toNat_unpackMantissa_lt : (unpackMantissa b).toNat < 2 ^ 52 := (unpackMantissa b).isLt

theorem toNat_unpackExponent_lt : (unpackExponent b).toNat < 2 ^ 11 := (unpackExponent b).isLt

end Bits

/-! ## Parts -/

theorem canonical_unpack (b : BitVec Format.binary64.numBits) :
    Canonical (UnpackedFloat.unpack Format.binary64 b) := by
  have hm := toNat_unpackMantissa_lt (b := b)
  have he := toNat_unpackExponent_lt (b := b)
  unfold UnpackedFloat.unpack
  dsimp only
  split_ifs with h₁ h₂ h₃ h₄
  · trivial
  · trivial
  · trivial
  · simp only [Canonical, h₃, bias_eq]
    refine ⟨by omega, ?_, ?_, .inl ?_⟩ <;> decide
  · have h₁ : (unpackExponent b).toNat ≠ 2047 := fun h =>
      h₁ (BitVec.eq_of_toNat_eq (h.trans toNat_allOnes_exponent.symm))
    have h₃ : (unpackExponent b).toNat ≠ 0 := fun h => h₃ (BitVec.eq_of_toNat_eq h)
    simp only [Canonical, toNat_implicit, bias_eq]
    omega

/-- The biased exponent of a double is neither that of an infinity nor that of a zero. -/
theorem ofNat_exponent {x : Nat} (h₀ : 1 ≤ x) (h₁ : x + 1 < 2 ^ 11) :
    BitVec.ofNat 11 x ≠ -1#11 ∧ BitVec.ofNat 11 x ≠ 0#11 ∧ (BitVec.ofNat 11 x).toNat = x := by
  have hx : (BitVec.ofNat 11 x).toNat = x := by
    rw [BitVec.toNat_ofNat, Nat.mod_eq_of_lt (by omega)]
  refine ⟨fun h => ?_, fun h => ?_, hx⟩
  · rw [h, toNat_allOnes_exponent] at hx
    omega
  · rw [h, BitVec.toNat_zero] at hx
    omega

theorem log2_add_one_eq {m : Nat} (h₀ : 0 < m) (h : m < 2 ^ 53) :
    m.log2 + 1 = Format.binary64.mantissaBits ↔ 2 ^ 52 ≤ m := by
  have hb : Format.binary64.mantissaBits = 53 := rfl
  have hle : m.log2 < 53 := (Nat.log2_lt h₀.ne').2 h
  rw [hb, ← Nat.le_log2 h₀.ne']
  omega

/-- **Unpacking takes packing back.** -/
theorem unpack_pack {u : UnpackedFloat} (h : Canonical u) :
    UnpackedFloat.unpack Format.binary64 (UnpackedFloat.pack Format.binary64 u) = u := by
  cases u with
  | notANumber => rfl
  | infinity s => cases s <;> rfl
  | zero s => cases s <;> rfl
  | finite s m e hpos =>
    obtain ⟨hm, hlow, hhigh, hc⟩ := h
    have hlog := log2_add_one_eq hpos hm
    obtain ⟨x, hx⟩ : ∃ x : Nat, (x : Int) = e + 1075 := ⟨(e + 1075).toNat, by omega⟩
    have hbiased : (e + (Format.binary64.exponentBias : Int) + (52 : Nat)).toNat = x := by
      rw [bias_eq]
      omega
    have hsmall : ¬ 2 ^ 11 ≤ x + 1 := by omega
    obtain ⟨h₁, h₀, hbits⟩ := ofNat_exponent (x := x) (by omega) (by omega)
    simp only [UnpackedFloat.pack, hbiased, if_neg hsmall]
    split_ifs with hn
    · rw [hlog] at hn
      have hmant : (1#1 ++ BitVec.ofNat 52 m).toNat = m := by
        rw [toNat_implicit, BitVec.toNat_ofNat]
        omega
      simp only [UnpackedFloat.unpack, unpackMantissa_packComponents,
        unpackExponent_packComponents, unpackSign_packComponents, ofBitVec_toBitVec, if_neg h₁,
        if_neg h₀, hmant, hbits, bias_eq]
      congr 1
      omega
    · rw [hlog] at hn
      have he : e = -1074 := by omega
      have hmant : (BitVec.ofNat 52 m).toNat = m := by
        rw [BitVec.toNat_ofNat]
        omega
      have hz : BitVec.ofNat 52 m ≠ 0#52 := fun h => by
        rw [h, BitVec.toNat_zero] at hmant
        omega
      have hne : (0#11 : BitVec 11) ≠ -1#11 := by decide
      simp only [UnpackedFloat.unpack, unpackMantissa_packComponents,
        unpackExponent_packComponents, unpackSign_packComponents, ofBitVec_toBitVec, if_neg hne,
        if_true, dif_neg hz, hmant, bias_eq]
      congr 1
      rw [he]
      rfl

/-- **Packing takes unpacking back.** -/
theorem pack_unpack {b : BitVec Format.binary64.numBits} (h : Format.binary64.Valid b) :
    UnpackedFloat.pack Format.binary64 (UnpackedFloat.unpack Format.binary64 b) = b := by
  have hb := packComponents_unpack b
  have hm := toNat_unpackMantissa_lt (b := b)
  have he := toNat_unpackExponent_lt (b := b)
  unfold UnpackedFloat.unpack
  dsimp only
  split_ifs with h₁ h₂ h₃ h₄
  · rw [h₁, h₂] at hb
    exact hb
  · exact (h.eq_packedNaN h₁ h₂).symm
  · rw [h₃, h₄] at hb
    exact hb
  · have hpos : 0 < (unpackMantissa b).toNat :=
      Nat.pos_of_ne_zero fun h => h₄ (BitVec.eq_of_toNat_eq h)
    have hn : ¬ (unpackMantissa b).toNat.log2 + 1 = Format.binary64.mantissaBits := by
      rw [log2_add_one_eq hpos (by omega)]
      omega
    have hbiased : ((0 : Nat) - ((Format.binary64.exponentBias : Int) + (52 : Nat)) + 1 +
        Format.binary64.exponentBias + (52 : Nat)).toNat = 1 := by
      rw [bias_eq]
      rfl
    rw [h₃] at hb
    simp only [UnpackedFloat.pack, h₃, BitVec.toNat_zero, hbiased, if_neg hn,
      if_neg (show ¬ 2 ^ 11 ≤ 1 + 1 by decide)]
    rw [BitVec.ofNat_toNat, BitVec.setWidth_eq]
    exact hb
  · have hn : (1#1 ++ unpackMantissa b).toNat.log2 + 1 = Format.binary64.mantissaBits := by
      rw [toNat_implicit, log2_add_one_eq (by omega) (by omega)]
      omega
    have h₁ : (unpackExponent b).toNat ≠ 2047 := fun h =>
      h₁ (BitVec.eq_of_toNat_eq (h.trans toNat_allOnes_exponent.symm))
    have hbiased : ((unpackExponent b).toNat - ((Format.binary64.exponentBias : Int) + (52 : Nat)) +
        Format.binary64.exponentBias + (52 : Nat)).toNat = (unpackExponent b).toNat := by
      rw [bias_eq]
      omega
    simp only [UnpackedFloat.pack, hbiased, if_neg (show ¬ 2 ^ 11 ≤ (unpackExponent b).toNat + 1 by
      omega), if_pos hn]
    rw [BitVec.ofNat_toNat, BitVec.setWidth_eq]
    have hmant : BitVec.ofNat 52 (1#1 ++ unpackMantissa b).toNat = unpackMantissa b := by
      apply BitVec.eq_of_toNat_eq
      rw [BitVec.toNat_ofNat, toNat_implicit]
      omega
    rw [hmant]
    exact hb

/-- A rounded double that is too large is an infinity. -/
theorem unpack_pack_ofRounded (s : Sign) {r t : Nat} (hr : r ≤ 2 ^ 53) (ht : t = 0 ∨ 2 ^ 52 ≤ r) :
    UnpackedFloat.unpack Format.binary64
        (UnpackedFloat.pack Format.binary64 (ofRounded s r (t - 1074))) =
      if t * 2 ^ 52 + r < 2047 * 2 ^ 52 then ofRounded s r (t - 1074) else .infinity s := by
  split_ifs with h
  · apply unpack_pack
    unfold ofRounded
    split_ifs with h₀ h₁
    · trivial
    · simp only [Canonical]
      omega
    · simp only [Canonical]
      omega
  · -- The exponent of the double is the one that is kept for infinities, or above.
    have hpack : UnpackedFloat.pack Format.binary64 (ofRounded s r (t - 1074)) =
        packedInfinity Format.binary64 s := by
      unfold ofRounded
      have hb : Format.binary64.exponentBias = 1023 := bias_eq
      split_ifs with h₀ h₁
      · omega
      · simp only [UnpackedFloat.pack, hb]
        exact if_pos (by omega)
      · simp only [UnpackedFloat.pack, hb]
        exact if_pos (by omega)
    rw [hpack]
    cases s <;> rfl

end FormulaLang.Number
