import FormulaLang.Proofs.Number.Product

/-!
# Quotients

A quotient of finite numbers is rounded from a mantissa with enough bits, and from what this leaves
out of the exact quotient. Doubles are so far apart that a quotient reaches a power of two only if
the exact one does.

* `quarters`, `roundWithAccuracy_quarters`, `code_roundWithAccuracy`: rounding a mantissa that
  leaves something out.
* `mul_pow_le_of_lt`: what is between two doubles, relative to the larger one.
* `log2_le_of_lt`, `log2_div_lt`, `mantissa_le_of_lt`: a quotient below `2 ^ 24`.
* `div_unpack_pack`: the bits of a quotient.
* **`le_unitsOf_of_quotient`**: a quotient that is finite and at least `2 ^ 24`.
-/

namespace FormulaLang.Number

open Float.Model Float.Model.UnpackedFloat

/-! ## Rounding with an accuracy -/

/-- What an accuracy adds to a mantissa in quarters: nothing, less than a half, a half or more. -/
def quarters : Accuracy → Nat
  | .exact => 0
  | .inexact .lt => 1
  | .inexact .eq => 2
  | .inexact .gt => 3

theorem quarters_le (acc : Accuracy) : quarters acc ≤ 3 := by
  rcases acc with _ | _ | _ | _ <;> decide

theorem ofMantissaAndAccuracy_quarters (m : Nat) (acc : Accuracy) :
    ExtendedMantissa.ofMantissaAndAccuracy m acc =
      ExtendedMantissa.ofMantissaAndAccuracy (4 * m + quarters acc) .exact >>> 2 := by
  have hq := quarters_le acc
  have hm : (4 * m + quarters acc) / 2 ^ 2 = m := by omega
  have hr : (4 * m + quarters acc) / 2 ^ 1 % 2 = quarters acc / 2 := by omega
  have hs : (4 * m + quarters acc) % 2 ^ 1 = quarters acc % 2 := by omega
  rw [shiftRight_succ, hm, hr, hs]
  rcases acc with _ | _ | _ | _ <;> rfl

theorem shiftRight_add (em : ExtendedMantissa) (j k : Nat) : em >>> j >>> k = em >>> (j + k) := by
  induction k with
  | zero => rfl
  | succ k ih => exact congrArg ExtendedMantissa.shiftRightOne ih

theorem quarters_div {p : Nat} (hp : p ≤ 3) (m t : Nat) :
    (4 * m + p) / 2 ^ (t + 2) = m / 2 ^ t := by
  rw [Nat.add_comm t 2, pow_add, ← Nat.div_div_eq_div_mul]
  congr 1
  omega

theorem nearest_quarters_le {p : Nat} (hp : p ≤ 3) (m : Nat) (e : Int) :
    nearest (4 * m + p) (lostBits m e + 2) ≤ 2 ^ 53 := by
  have hnearest := nearest_le (v := 4 * m + p) (t := lostBits m e + 2)
  rw [quarters_div hp] at hnearest
  exact hnearest.trans (div_lostBits_lt m e)

/-- **Rounding with an accuracy** is rounding four times the mantissa and the quarters. -/
theorem roundWithAccuracy_quarters (s : Sign) (m : Nat) (e : Int) (acc : Accuracy) :
    roundWithAccuracy Format.binary64 s m e acc =
      ofRounded s (nearest (4 * m + quarters acc) (lostBits m e + 2)) (e + lostBits m e) := by
  have he : -1074 ≤ e + lostBits m e := by unfold lostBits; omega
  have hshift : shiftToTargetExponent Format.binary64 m e acc =
      (ExtendedMantissa.ofMantissaAndAccuracy m acc >>> lostBits m e, e + lostBits m e) := by
    unfold shiftToTargetExponent shiftToExponent
    rw [targetExponent_eq]
    rfl
  have hr := nearest_quarters_le (quarters_le acc) m e
  rw [← carry_eq s hr he, ← roundedMantissa_shift, Nat.add_comm (lostBits m e) 2, ← shiftRight_add,
    ← ofMantissaAndAccuracy_quarters]
  unfold roundWithAccuracy
  simp only [hshift]

/-- A mantissa with enough bits keeps 53 of them, unless its exponent is the least one. -/
theorem le_div_lostBits {m : Nat} {e : Int} (h : e ≤ -1074 ∨ 2 ^ 52 ≤ m) :
    e + lostBits m e = -1074 ∨ 2 ^ 52 ≤ m / 2 ^ lostBits m e := by
  refine or_iff_not_imp_left.2 fun ht => ?_
  by_cases hl : lostBits m e = 0
  · have he : ¬ e ≤ -1074 := by
      unfold lostBits at *
      omega
    rw [hl, pow_zero, Nat.div_one]
    exact h.resolve_left he
  · have hm : m ≠ 0 := by
      rintro rfl
      unfold lostBits at *
      rw [Nat.log2_zero] at *
      omega
    rw [Nat.le_div_iff_mul_le (by positivity), ← pow_add, ← Nat.le_log2 hm]
    unfold lostBits at *
    omega

/-- The bits of what is rounded with an accuracy. -/
theorem code_roundWithAccuracy (s : Sign) {m : Nat} {e : Int} (acc : Accuracy)
    (h : e ≤ -1074 ∨ 2 ^ 52 ≤ m) : ∃ t : Nat, e + lostBits m e = t - 1074 ∧
      code (UnpackedFloat.unpack Format.binary64 (UnpackedFloat.pack Format.binary64
        (roundWithAccuracy Format.binary64 s m e acc))) =
      s.apply (min infinityCode
        (t * 2 ^ 52 + nearest (4 * m + quarters acc) (lostBits m e + 2)) : Nat) := by
  obtain ⟨t, ht⟩ : ∃ t : Nat, e + lostBits m e = t - 1074 :=
    ⟨(e + lostBits m e + 1074).toNat, by unfold lostBits; omega⟩
  have hq := quarters_le acc
  have hge : t = 0 ∨ 2 ^ 52 ≤ nearest (4 * m + quarters acc) (lostBits m e + 2) := by
    refine (le_div_lostBits h).imp (fun hleast => by omega) fun hle => ?_
    rw [← quarters_div hq] at hle
    exact hle.trans le_nearest
  refine ⟨t, ht, ?_⟩
  rw [roundWithAccuracy_quarters, ht]
  exact code_unpack_pack s (nearest_quarters_le hq m e) hge

/-! ## Quotients below a power of two -/

section Quotients

variable {m n a b k l t : Nat}

/-- Two doubles, one below the other, are apart by at least a `2 ^ 53`-th part of the larger. -/
theorem mul_pow_le_of_lt (hm : m < 2 ^ 53) (hn : n < 2 ^ 53) (h : m * 2 ^ a < n * 2 ^ b) :
    2 ^ 53 * (m * 2 ^ a) ≤ (2 ^ 53 - 1) * (n * 2 ^ b) := by
  have hunits : ∀ {i j c : Nat}, i * 2 ^ c < j * 2 ^ c → i < 2 ^ 53 ∨ j < 2 ^ 53 →
      2 ^ 53 * (i * 2 ^ c) ≤ (2 ^ 53 - 1) * (j * 2 ^ c) := by
    intro i j c hlt hsmall
    have hlt := Nat.lt_of_mul_lt_mul_right hlt
    rw [← mul_assoc, ← mul_assoc]
    exact Nat.mul_le_mul_right _ (by omega)
  rcases le_total a b with hab | hab
  · obtain ⟨c, rfl⟩ := Nat.exists_eq_add_of_le hab
    have hn' : n * 2 ^ (a + c) = n * 2 ^ c * 2 ^ a := by rw [pow_add]; ring
    rw [hn'] at h ⊢
    exact hunits h (.inl hm)
  · obtain ⟨c, rfl⟩ := Nat.exists_eq_add_of_le hab
    have hm' : m * 2 ^ (b + c) = m * 2 ^ c * 2 ^ b := by rw [pow_add]; ring
    rw [hm'] at h ⊢
    exact hunits h (.inr hn)

/-- The exponent of a quotient below `2 ^ 24`. -/
theorem log2_le_of_lt (hm : 0 < m) (h : m * 2 ^ a < n * 2 ^ (b + 24)) :
    m.log2 + a ≤ n.log2 + b + 24 := by
  by_contra hlt
  have hlow := Nat.log2_self_le hm.ne'
  have hhigh := Nat.lt_log2_self (n := n)
  have hpow : 2 ^ (n.log2 + 1 + (b + 24)) ≤ 2 ^ (m.log2 + a) :=
    Nat.pow_le_pow_right (by decide) (by omega)
  have : m * 2 ^ a < m * 2 ^ a := calc
    m * 2 ^ a < n * 2 ^ (b + 24) := h
    _ ≤ 2 ^ (n.log2 + 1) * 2 ^ (b + 24) := Nat.mul_le_mul_right _ hhigh.le
    _ = 2 ^ (n.log2 + 1 + (b + 24)) := (pow_add ..).symm
    _ ≤ 2 ^ (m.log2 + a) := hpow
    _ = 2 ^ m.log2 * 2 ^ a := pow_add ..
    _ ≤ m * 2 ^ a := Nat.mul_le_mul_right _ hlow
  exact lt_irrefl _ this

/-- The mantissa of a quotient below `2 ^ 24` has few bits in front of the point. -/
theorem log2_div_lt (h : m * 2 ^ a < n * 2 ^ (b + 24)) (hq : m * 2 ^ k / n ≠ 0) :
    (m * 2 ^ k / n).log2 + a < b + 24 + k := by
  by_contra hlt
  have hlow := Nat.log2_self_le hq
  have hmul : m * 2 ^ k / n * n ≤ m * 2 ^ k := Nat.div_mul_le_self _ _
  have hpow : 2 ^ (b + 24 + k) ≤ 2 ^ ((m * 2 ^ k / n).log2 + a) :=
    Nat.pow_le_pow_right (by decide) (by omega)
  have : n * 2 ^ (b + 24) * 2 ^ k ≤ m * 2 ^ a * 2 ^ k := calc
    n * 2 ^ (b + 24) * 2 ^ k = n * 2 ^ (b + 24 + k) := by rw [mul_assoc, ← pow_add]
    _ ≤ n * 2 ^ ((m * 2 ^ k / n).log2 + a) := Nat.mul_le_mul_left _ hpow
    _ = n * (2 ^ (m * 2 ^ k / n).log2 * 2 ^ a) := by rw [pow_add]
    _ ≤ n * (m * 2 ^ k / n * 2 ^ a) := Nat.mul_le_mul_left _ (Nat.mul_le_mul_right _ hlow)
    _ = m * 2 ^ k / n * n * 2 ^ a := by ring
    _ ≤ m * 2 ^ k * 2 ^ a := Nat.mul_le_mul_right _ hmul
    _ = m * 2 ^ a * 2 ^ k := by ring
  exact absurd (Nat.le_of_mul_le_mul_right this (by positivity)) (not_le.2 h)

/-- The mantissa of a quotient has 53 bits, if it is moved as far as this takes. -/
theorem le_div_of_log2 (hm : 0 < m) (hn : 0 < n) (h : n.log2 + 53 ≤ m.log2 + k) :
    2 ^ 52 ≤ m * 2 ^ k / n := by
  rw [Nat.le_div_iff_mul_le hn]
  calc 2 ^ 52 * n ≤ 2 ^ 52 * 2 ^ (n.log2 + 1) := Nat.mul_le_mul_left _ Nat.lt_log2_self.le
    _ = 2 ^ (n.log2 + 53) := by rw [← pow_add]; congr 1; omega
    _ ≤ 2 ^ (m.log2 + k) := Nat.pow_le_pow_right (by decide) h
    _ = 2 ^ m.log2 * 2 ^ k := pow_add ..
    _ ≤ m * 2 ^ k := Nat.mul_le_mul_right _ (Nat.log2_self_le hm.ne')

/-- The mantissa of a quotient just below `2 ^ 24`, with what it leaves out. -/
theorem mantissa_le_of_lt (h : 2 ^ 53 * (m * 2 ^ a) ≤ (2 ^ 53 - 1) * (n * 2 ^ (b + 24)))
    (hk : a + l + 29 = b + k) :
    4 * (m * 2 ^ k / n) + quarters (accuracyOfFraction (m * 2 ^ k % n) n) ≤
      (2 ^ 53 - 1) * 2 ^ (l + 2) := by
  have hle : m * 2 ^ k ≤ (2 ^ 53 - 1) * 2 ^ l * n := by
    have hscaled : m * 2 ^ k * 2 ^ (53 + a) ≤ (2 ^ 53 - 1) * 2 ^ l * n * 2 ^ (53 + a) := calc
      m * 2 ^ k * 2 ^ (53 + a) = 2 ^ 53 * (m * 2 ^ a) * 2 ^ k := by rw [pow_add]; ring
      _ ≤ (2 ^ 53 - 1) * (n * 2 ^ (b + 24)) * 2 ^ k := Nat.mul_le_mul_right _ h
      _ = (2 ^ 53 - 1) * n * 2 ^ (b + k + 24) := by rw [pow_add, pow_add, pow_add]; ring
      _ = (2 ^ 53 - 1) * n * 2 ^ (l + (53 + a)) := by
        rw [show b + k + 24 = l + (53 + a) by omega]
      _ = (2 ^ 53 - 1) * 2 ^ l * n * 2 ^ (53 + a) := by rw [pow_add]; ring
    exact Nat.le_of_mul_le_mul_right hscaled (by positivity)
  have hp : (2 ^ 53 - 1) * 2 ^ (l + 2) = 4 * ((2 ^ 53 - 1) * 2 ^ l) := by rw [pow_add]; ring
  rw [hp]
  rcases (Nat.div_le_of_le_mul (Nat.mul_comm n _ ▸ hle)).lt_or_eq with hlt | heq
  · have := quarters_le (accuracyOfFraction (m * 2 ^ k % n) n)
    omega
  · -- The mantissa leaves nothing out where it is the largest that is possible.
    have hmod : m * 2 ^ k % n = 0 := by
      have hdiv := Nat.div_add_mod (m * 2 ^ k) n
      rw [heq, Nat.mul_comm n] at hdiv
      omega
    rw [heq, hmod]
    exact Nat.le_refl _

/-- The quotient of two mantissas, the first of them moved by as many bits as it takes. -/
theorem exists_divCore (m a n b : Nat) : ∃ k : Nat,
    (n.log2 + 53 ≤ m.log2 + k ∨ (a - b - k : Int) ≤ -1074) ∧
      divCore Format.binary64 m (a - 1074) n (b - 1074) =
        (m * 2 ^ k / n, (a - b - k : Int), accuracyOfFraction (m * 2 ^ k % n) n) := by
  have htarget : Format.binary64.targetExponent
      (totalExponent m (a - 1074) - totalExponent n (b - 1074)) =
      max ((m.log2 : Int) - n.log2 + (a - b) - 53) (-1074) := by
    simp only [Format.targetExponent, totalExponent, Format.mantissaBits, Format.minExponent]
    omega
  have hexp : (a : Int) - 1074 - (b - 1074) = a - b := by omega
  refine ⟨((a : Int) - b - max ((m.log2 : Int) - n.log2 + (a - b) - 53) (-1074)).toNat, ?_, ?_⟩
  · omega
  · unfold divCore
    rw [htarget, hexp]
    generalize max ((m.log2 : Int) - n.log2 + (a - b) - 53) (-1074) = target
    have hmin : min (a - b : Int) target = a - b - (a - b - target).toNat := by omega
    have hshift : ((a - b : Int) - (a - b - (a - b - target).toNat)).toNat =
        (a - b - target).toNat := by omega
    rw [hmin]
    simp only [hshift, Nat.shiftLeft_eq]

/-- The bits of a quotient below `2 ^ 24`. -/
theorem code_quotient_lt (hm : 0 < m) (hm' : m < 2 ^ 53) (hn' : n < 2 ^ 53)
    (h : m * 2 ^ a < n * 2 ^ (b + 24))
    (hk : n.log2 + 53 ≤ m.log2 + k ∨ (a - b - k : Int) ≤ -1074)
    (hl : lostBits (m * 2 ^ k / n) (a - b - k) = l) (ht : (a - b - k : Int) + l = t - 1074) :
    t * 2 ^ 52 + nearest (4 * (m * 2 ^ k / n) + quarters (accuracyOfFraction (m * 2 ^ k % n) n))
      (l + 2) < 1047 * 2 ^ 52 := by
  have hlogs := log2_le_of_lt hm h
  have hdigits := log2_div_lt (k := k) h
  have hround := nearest_quarters_le (quarters_le (accuracyOfFraction (m * 2 ^ k % n) n))
    (m * 2 ^ k / n) (a - b - k)
  rw [hl] at hround
  -- The exponent of the quotient is at most that of the doubles just below `2 ^ 24`.
  have hlow : t ≤ 1045 := by
    unfold lostBits at hl
    by_cases hq : m * 2 ^ k / n = 0
    · rw [hq, Nat.log2_zero] at hl
      omega
    · have := hdigits hq
      omega
  by_cases h₁ : t = 1045
  · have hmax := nearest_mono (t := l + 2)
      (mantissa_le_of_lt (k := k) (l := l) (mul_pow_le_of_lt hm' hn' h) (by omega))
    rw [nearest_mul] at hmax
    omega
  · omega

/-- **The bits of a quotient** of finite numbers, and those of a quotient below `2 ^ 24`. -/
theorem div_unpack_pack {s s' : Sign} {e f : Int} {hm : 0 < m} {hn : 0 < n}
    (hu : Canonical (.finite s m e hm)) (hv : Canonical (.finite s' n f hn)) :
    ∃ c : Nat, code (UnpackedFloat.unpack Format.binary64 (UnpackedFloat.pack Format.binary64
        (UnpackedFloat.div Format.binary64 (.finite s m e hm) (.finite s' n f hn)))) =
        (s / s').apply c ∧
      (m * 2 ^ (e + 1074).toNat < 2 ^ 24 * (n * 2 ^ (f + 1074).toNat) → c < 1047 * 2 ^ 52) := by
  obtain ⟨hm', he, -, -⟩ := hu
  obtain ⟨hn', hf, -, -⟩ := hv
  obtain ⟨a, rfl⟩ : ∃ a : Nat, e = a - 1074 := ⟨(e + 1074).toNat, by omega⟩
  obtain ⟨b, rfl⟩ : ∃ b : Nat, f = b - 1074 := ⟨(f + 1074).toNat, by omega⟩
  rw [show ((a : Int) - 1074 + 1074).toNat = a by omega,
    show ((b : Int) - 1074 + 1074).toNat = b by omega,
    show 2 ^ 24 * (n * 2 ^ b) = n * 2 ^ (b + 24) by rw [pow_add]; ring]
  obtain ⟨k, hk, hdiv⟩ := exists_divCore m a n b
  have henough : (a - b - k : Int) ≤ -1074 ∨ 2 ^ 52 ≤ m * 2 ^ k / n :=
    hk.symm.imp_right (le_div_of_log2 hm hn)
  rw [UnpackedFloat.div, hdiv]
  dsimp only
  obtain ⟨t, ht, hcode⟩ := code_roundWithAccuracy (s / s')
    (accuracyOfFraction (m * 2 ^ k % n) n) henough
  refine ⟨_, hcode, fun h => lt_of_le_of_lt (min_le_right _ _) ?_⟩
  exact code_quotient_lt hm hm' hn' h hk rfl ht

end Quotients

/-! ## Quotients that are large -/

section Large

variable {x y : Float}

/-- Only finite numbers but zeros have quotients that are finite, but no zeros. -/
theorem div_cases (u v : UnpackedFloat) :
    (∃ s m e, ∃ hm : 0 < m, ∃ s' n f, ∃ hn : 0 < n, u = .finite s m e hm ∧ v = .finite s' n f hn) ∨
      UnpackedFloat.div Format.binary64 u v = .notANumber ∨
      (∃ s, UnpackedFloat.div Format.binary64 u v = .infinity s) ∨
      ∃ s, UnpackedFloat.div Format.binary64 u v = .zero s := by
  cases u with
  | notANumber => exact .inr (.inl rfl)
  | infinity s =>
    cases v with
    | notANumber | infinity => exact .inr (.inl rfl)
    | zero | finite => exact .inr (.inr (.inl ⟨_, rfl⟩))
  | zero s =>
    cases v with
    | notANumber | zero => exact .inr (.inl rfl)
    | infinity | finite => exact .inr (.inr (.inr ⟨_, rfl⟩))
  | finite s m e hm =>
    cases v with
    | notANumber => exact .inr (.inl rfl)
    | infinity => exact .inr (.inr (.inr ⟨_, rfl⟩))
    | zero => exact .inr (.inr (.inl ⟨_, rfl⟩))
    | finite s' n f hn => exact .inl ⟨s, m, e, hm, s', n, f, hn, rfl, rfl⟩

theorem apply_div (s s' : Sign) (c : Int) : (s / s').apply c = s.apply (s'.apply c) := by
  cases s <;> cases s'
  · exact (Int.neg_neg c).symm
  all_goals rfl

theorem key_limit : (Float.ofNat 16777216).isNaN = false ∧
    key (Float.ofNat 16777216) = 1047 * 2 ^ 52 := by decide +kernel

/-- **A quotient that is at least `2 ^ 24`**, but finite, is one of finite numbers, and the exact
quotient is at least `2 ^ 24` as well. -/
theorem le_unitsOf_of_quotient (hf : (x / y).isFinite = true)
    (h : Float.ofNat 16777216 ≤ x / y) : x.isFinite = true ∧ y.isFinite = true ∧
      (0 < unitsOf y ∧ 2 ^ 24 * unitsOf y ≤ unitsOf x ∨
        unitsOf y < 0 ∧ unitsOf x ≤ 2 ^ 24 * unitsOf y) := by
  have hkey := (le_iff key_limit.1 (isNaN_of_isFinite hf)).1 h
  rw [key_limit.2] at hkey
  have hx := canonical_unpack_model x
  have hy := canonical_unpack_model y
  change (UnpackedFloat.unpack Format.binary64 (UnpackedFloat.pack Format.binary64
    (UnpackedFloat.div Format.binary64 x.toModel.unpack y.toModel.unpack))).isFinite = true at hf
  change _ ≤ code (UnpackedFloat.unpack Format.binary64 (UnpackedFloat.pack Format.binary64
    (UnpackedFloat.div Format.binary64 x.toModel.unpack y.toModel.unpack))) at hkey
  rcases div_cases x.toModel.unpack y.toModel.unpack with
    ⟨s, m, e, hm, s', n, f, hn, hu, hv⟩ | hdiv | ⟨s, hdiv⟩ | ⟨s, hdiv⟩
  · rw [hu] at hx
    rw [hv] at hy
    obtain ⟨c, hcode, hlt⟩ := div_unpack_pack hx hy
    rw [hu, hv, hcode, apply_div] at hkey
    have hxf : x.isFinite = x.toModel.unpack.isFinite := rfl
    have hyf : y.isFinite = y.toModel.unpack.isFinite := rfl
    have hpos : (0 : Int) < (n * 2 ^ (f + 1074).toNat : Nat) := by positivity
    unfold unitsOf
    rw [hxf, hyf, hu, hv, units, units]
    refine ⟨rfl, rfl, ?_⟩
    generalize m * 2 ^ (e + 1074).toNat = v at *
    generalize n * 2 ^ (f + 1074).toNat = w at *
    cases s <;> cases s' <;> simp only [Sign.apply] at hkey ⊢ <;> omega
  · rw [hdiv] at hf
    cases hf
  · rw [hdiv, unpack_pack (u := .infinity s) trivial] at hf
    cases hf
  · rw [hdiv, unpack_pack_zero] at hkey
    change (1047 * 2 ^ 52 : Int) ≤ 0 at hkey
    omega

end Large

end FormulaLang.Number
