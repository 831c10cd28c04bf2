import FormulaLang.Proofs.Number.NotANumber

/-!
# Differences and products

A difference is the sum with the number of the other sign. A product of finite numbers is rounded
from the product of their units, and it vanishes where this is at most half of the least positive
double, whatever the numbers are.

* `lt_iff`, `key_pos_iff`, `unitsOf_lt`: the order of doubles, of their keys and of their units.
* `key_sub`: the key of a difference, with `key_sub_neg` for its sign.
* `nearest_mul_eq_zero`, `mul_unpack_pack`: when a product is rounded to zero, and its bits.
* **`zero_le_mul_iff`**: when a product of finite numbers is not negative.
* `not_zero_le_mul`: products with an infinity.
-/

namespace FormulaLang.Number

open Float.Model Float.Model.UnpackedFloat

/-! ## The order -/

section Order

variable {x y : Float}

theorem lt_iff (hx : x.isNaN = false) (hy : y.isNaN = false) : x < y ↔ key x < key y := by
  show decide (x.toModel < y.toModel) = true ↔ _
  rw [decide_eq_true_iff]
  show (x.toModel.unpack.compare y.toModel.unpack == some .lt) = true ↔ _
  rw [compare_eq_key hx hy, beq_iff_eq, Option.some.injEq]
  exact compare_lt_iff_lt

/-- What is compared is no NaN. -/
theorem isNaN_of_compare (h : x.toModel.unpack.compare y.toModel.unpack ≠ none) :
    x.isNaN = false ∧ y.isNaN = false := by
  refine ⟨isNaN_eq_false fun hx => h ?_, isNaN_eq_false fun hy => h ?_⟩
  · rw [hx]
    rfl
  · rw [hy]
    cases x.toModel.unpack <;> rfl

theorem isNaN_of_le (h : x ≤ y) : x.isNaN = false ∧ y.isNaN = false := by
  have hle : (x.toModel.unpack.compare y.toModel.unpack).any (·.isLE) = true := of_decide_eq_true h
  exact isNaN_of_compare fun hnone => by rw [hnone] at hle; cases hle

theorem isNaN_of_lt (h : x < y) : x.isNaN = false ∧ y.isNaN = false := by
  have hlt : (x.toModel.unpack.compare y.toModel.unpack == some .lt) = true := of_decide_eq_true h
  exact isNaN_of_compare fun hnone => by rw [hnone] at hlt; cases hlt

theorem key_lt_of_lt (h : x < y) : key x < key y :=
  (lt_iff (isNaN_of_lt h).1 (isNaN_of_lt h).2).1 h

/-- A finite number has the sign of its units. -/
theorem key_pos_iff (hx : x.isFinite = true) : 0 < key x ↔ 0 < unitsOf x := by
  have hkey := roundCode_unitsOf hx
  constructor
  · intro h
    by_contra hle
    have := roundCode_mono (not_lt.1 hle)
    rw [hkey, roundCode_zero] at this
    omega
  · intro h
    have hmono := roundCode_mono h.le
    have hne := roundCode_ne_zero h.ne'
    rw [roundCode_zero] at hmono
    omega

theorem key_neg_iff (hx : x.isFinite = true) : key x < 0 ↔ unitsOf x < 0 := by
  have hkey := roundCode_unitsOf hx
  constructor
  · intro h
    by_contra hle
    have := roundCode_mono (not_lt.1 hle)
    rw [hkey, roundCode_zero] at this
    omega
  · intro h
    have hmono := roundCode_mono h.le
    have hne := roundCode_ne_zero h.ne
    rw [roundCode_zero] at hmono
    omega

/-- Finite numbers are ordered like their units. -/
theorem unitsOf_lt (hx : x.isFinite = true) (hy : y.isFinite = true)
    (h : key x < key y) : unitsOf x < unitsOf y := by
  by_contra hle
  have hmono := roundCode_mono (not_lt.1 hle)
  rw [roundCode_unitsOf hx, roundCode_unitsOf hy] at hmono
  omega

end Order

/-! ## Differences -/

section Differences

variable {u v : UnpackedFloat}

theorem apply_neg (s : Sign) (n : Int) : (-s).apply n = -s.apply n := by
  cases s with
  | positive => rfl
  | negative => exact (Int.neg_neg n).symm

theorem units_neg (v : UnpackedFloat) : units v.neg = -units v := by
  cases v with
  | finite s m e hm => exact apply_neg _ _
  | _ => rfl

theorem canonical_neg (h : Canonical v) : Canonical v.neg := by
  cases v with
  | finite s m e hm => exact h
  | _ => trivial

theorem isFinite_neg (v : UnpackedFloat) : v.neg.isFinite = v.isFinite := by
  cases v <;> rfl

/-- A difference is a sum. -/
theorem sub_eq_add_neg (u v : UnpackedFloat) :
    UnpackedFloat.sub Format.binary64 u v = UnpackedFloat.add Format.binary64 u v.neg := by
  cases u with
  | finite s m e hm =>
    cases v with
    | finite s' n f hn =>
      simp only [UnpackedFloat.sub, UnpackedFloat.add, UnpackedFloat.neg, apply_neg,
        Int.sub_eq_add_neg]
    | _ => rfl
  | _ => cases v <;> rfl

/-- **The key of a difference** is the rounded difference of the units. -/
theorem key_sub {x y : Float} (hx : x.isFinite = true) (hy : y.isFinite = true) :
    (x - y).isNaN = false ∧ key (x - y) = roundCode (unitsOf x - unitsOf y) := by
  have hneg : y.toModel.unpack.neg.isFinite = true := (isFinite_neg _).trans hy
  have h := add_unpack_pack (canonical_unpack_model x)
    (canonical_neg (canonical_unpack_model y)) hx hneg
  rw [← sub_eq_add_neg, units_neg, ← Int.sub_eq_add_neg] at h
  exact ⟨isNaN_eq_false h.1, h.2⟩

/-- A difference has the sign that the order says. -/
theorem key_sub_neg {x y : Float} (hx : x.isFinite = true) (hy : y.isFinite = true)
    (h : key x < key y) : key (x - y) < 0 ∧ 0 < key (y - x) := by
  have hlt := unitsOf_lt hx hy h
  rw [(key_sub hx hy).2, (key_sub hy hx).2]
  have hle := roundCode_mono (show unitsOf x - unitsOf y ≤ 0 by omega)
  have hge := roundCode_mono (show 0 ≤ unitsOf y - unitsOf x by omega)
  have hne := roundCode_ne_zero (show unitsOf x - unitsOf y ≠ 0 by omega)
  have hne' := roundCode_ne_zero (show unitsOf y - unitsOf x ≠ 0 by omega)
  rw [roundCode_zero] at hle hge
  omega

end Differences

/-! ## Products -/

/-- A half is rounded to zero. -/
theorem nearest_eq_zero {v t : Nat} : nearest v t = 0 ↔ 2 * v ≤ 2 ^ t := by
  by_cases hlt : v < 2 ^ t
  · have hq : v / 2 ^ t = 0 := Nat.div_eq_of_lt hlt
    rw [nearest, hq, Nat.mod_eq_of_lt hlt]
    generalize 2 ^ t = p at hlt ⊢
    split_ifs with h h'
    · exact iff_of_true rfl h.le
    · exact iff_of_true rfl h'.le
    · exact iff_of_false not_false (by omega)
  · have hq : 1 ≤ v / 2 ^ t := (Nat.one_le_div_iff (by positivity)).2 (not_lt.1 hlt)
    have hle : 1 ≤ nearest v t := hq.trans le_nearest
    have hp : 0 < 2 ^ t := by positivity
    generalize 2 ^ t = p at hlt hp ⊢
    exact iff_of_false (by omega) (by omega)

section Products

variable {m n a b : Nat}

/-- The binade that a product of mantissas in the binades `a` and `b` is rounded to: the least one,
or one in which the mantissa has all its bits. -/
theorem binade_mul (hm : 0 < m) (hn : 0 < n) (ha : a = 0 ∨ 2 ^ 52 ≤ m) (hb : b = 0 ∨ 2 ^ 52 ≤ n)
    (hm' : m < 2 ^ 53) (hn' : n < 2 ^ 53) :
    lostBits (m * n) ((a : Int) + b - 2148) + a + b = 1074 ∨
      1074 < lostBits (m * n) ((a : Int) + b - 2148) + a + b ∧
        lostBits (m * n) ((a : Int) + b - 2148) + 52 = (m * n).log2 := by
  have hlog : 52 ≤ (m * n).log2 ∨ a = 0 ∧ b = 0 := by
    by_cases hzero : a = 0 ∧ b = 0
    · exact .inr hzero
    · refine .inl ((Nat.le_log2 (by positivity)).2 ?_)
      rcases not_and_or.1 hzero with h | h
      · exact (ha.resolve_left h).trans (Nat.le_mul_of_pos_right m hn)
      · exact (hb.resolve_left h).trans (Nat.le_mul_of_pos_left n hm)
  have hlt : (m * n).log2 < 106 := by
    refine (Nat.log2_lt (by positivity)).2 ?_
    calc m * n < 2 ^ 53 * 2 ^ 53 := Nat.mul_lt_mul_of_lt_of_lt hm' hn'
      _ = 2 ^ 106 := by norm_num
  unfold lostBits
  omega

/-- A product of mantissas is rounded to zero where it is at most half a unit. -/
theorem nearest_mul_eq_zero (hm : 0 < m) (hn : 0 < n) {k l : Nat} (h : l + a + b = k + 1 ∨
    k + 1 < l + a + b ∧ l + 52 = (m * n).log2) :
    nearest (m * n) l = 0 ↔ m * 2 ^ a * (n * 2 ^ b) ≤ 2 ^ k := by
  have hpos : 0 < 2 ^ (a + b) := by positivity
  have hprod : m * 2 ^ a * (n * 2 ^ b) = m * n * 2 ^ (a + b) := by
    rw [pow_add]
    ring
  rw [nearest_eq_zero, hprod]
  rcases h with h | ⟨h, hlog⟩
  · have hpow : 2 ^ l * 2 ^ (a + b) = 2 * 2 ^ k := by
      rw [← pow_add, ← pow_succ']
      congr 1
      omega
    rw [← Nat.mul_le_mul_right_iff hpos, hpow, Nat.mul_assoc]
    exact Nat.mul_le_mul_left_iff (by decide)
  · have hle : 2 ^ (l + 52) ≤ m * n := by
      rw [hlog]
      exact Nat.log2_self_le (by positivity)
    have hlarge : 2 ^ k < m * n * 2 ^ (a + b) :=
      calc 2 ^ k < 2 ^ (l + 52 + (a + b)) := Nat.pow_lt_pow_right (by decide) (by omega)
        _ = 2 ^ (l + 52) * 2 ^ (a + b) := pow_add ..
        _ ≤ m * n * 2 ^ (a + b) := Nat.mul_le_mul_right _ hle
    have hsmall : 2 ^ l ≤ m * n := (Nat.pow_le_pow_right (by decide) (by omega)).trans hle
    have hmn : 0 < m * n := by positivity
    exact iff_of_false (by omega) (not_le.2 hlarge)

variable {u v : UnpackedFloat}

theorem apply_mul (s s' : Sign) (a b : Nat) : s.apply (a : Int) * s'.apply (b : Int) =
    (s * s').apply ((a * b : Nat) : Int) := by
  rw [Nat.cast_mul]
  cases s with
  | positive =>
    cases s' with
    | positive => rfl
    | negative => exact Int.mul_neg _ _
  | negative =>
    cases s' with
    | positive => exact Int.neg_mul _ _
    | negative => exact Int.neg_mul_neg _ _

/-- The bits of a product of finite numbers that are not zero. -/
theorem mul_unpack_pack {s s' : Sign} {e f : Int} {hm : 0 < m} {hn : 0 < n}
    (hu : Canonical (.finite s m e hm)) (hv : Canonical (.finite s' n f hn)) :
    ∃ k : Nat, UnpackedFloat.unpack Format.binary64 (UnpackedFloat.pack Format.binary64
        (UnpackedFloat.mul Format.binary64 (.finite s m e hm) (.finite s' n f hn))) ≠ .notANumber ∧
      code (UnpackedFloat.unpack Format.binary64 (UnpackedFloat.pack Format.binary64
        (UnpackedFloat.mul Format.binary64 (.finite s m e hm) (.finite s' n f hn)))) =
        (s * s').apply (k : Int) ∧
      (k = 0 ↔ m * 2 ^ (e + 1074).toNat * (n * 2 ^ (f + 1074).toNat) ≤ 2 ^ 1073) := by
  obtain ⟨hm', he, -, ha⟩ := hu
  obtain ⟨hn', hf, -, hb⟩ := hv
  obtain ⟨a, rfl⟩ : ∃ a : Nat, e = a - 1074 := ⟨(e + 1074).toNat, by omega⟩
  obtain ⟨b, rfl⟩ : ∃ b : Nat, f = b - 1074 := ⟨(f + 1074).toNat, by omega⟩
  have hsum : (a : Int) - 1074 + (b - 1074) = a + b - 2148 := by omega
  have hbinade := binade_mul (a := a) (b := b) hm hn (by omega) (by omega) hm' hn'
  have hr := nearest_lostBits_le (m * n) ((a : Int) + b - 2148)
  have hzero := nearest_mul_eq_zero (k := 1073) hm hn hbinade
  rw [UnpackedFloat.mul, hsum, roundWithAccuracy_eq,
    show ((a : Int) - 1074 + 1074).toNat = a by omega,
    show ((b : Int) - 1074 + 1074).toNat = b by omega]
  generalize hl : lostBits (m * n) ((a : Int) + b - 2148) = l at hbinade hr hzero ⊢
  obtain ⟨t, ht⟩ : ∃ t : Nat, (a : Int) + b - 2148 + l = t - 1074 := ⟨l + a + b - 1074, by omega⟩
  rw [ht]
  have htr : t = 0 ∨ 2 ^ 52 ≤ nearest (m * n) l := by
    rcases hbinade with h | ⟨-, hlog⟩
    · exact .inl (by omega)
    · refine .inr (le_trans ?_ le_nearest)
      rw [Nat.le_div_iff_mul_le (by positivity), ← pow_add, Nat.add_comm, hlog]
      exact Nat.log2_self_le (by positivity)
  refine ⟨_, ?_, code_unpack_pack _ hr htr, ?_⟩
  · rw [unpack_pack_ofRounded _ hr htr, ofRounded]
    split_ifs <;> simp
  · rw [← hzero]
    have : 0 < infinityCode := by decide
    omega

/-- An infinity times a number of the other sign. -/
theorem mul_of_not_finite (h : code u < 0 ∧ 0 < code v ∨ 0 < code u ∧ code v < 0)
    (hinf : ¬ (u.isFinite = true ∧ v.isFinite = true)) :
    UnpackedFloat.mul Format.binary64 u v = .infinity .negative := by
  cases u with
  | notANumber | zero => simp [code] at h
  | infinity s =>
    cases v with
    | notANumber | zero => simp [code] at h
    | infinity s' => cases s <;> cases s' <;> simp only [code, Sign.apply] at h <;>
        first | rfl | omega
    | finite s' n f hn => cases s <;> cases s' <;> simp only [code, Sign.apply] at h <;>
        first | rfl | omega
  | finite s m e hm =>
    cases v with
    | notANumber | zero => simp [code] at h
    | infinity s' => cases s <;> cases s' <;> simp only [code, Sign.apply] at h <;>
        first | rfl | omega
    | finite s' n f hn => exact (hinf ⟨rfl, rfl⟩).elim

/-- Half of the least positive double, `2 ^ -1075`, in the units of a product. -/
def halfLeast : Int := 2 ^ 1073

/-- A product with a negative exact value is negative, unless it is rounded to zero. -/
theorem code_mul_nonneg (hu : Canonical u) (hv : Canonical v) (hu' : u.isFinite = true)
    (hv' : v.isFinite = true) :
    UnpackedFloat.unpack Format.binary64 (UnpackedFloat.pack Format.binary64
      (UnpackedFloat.mul Format.binary64 u v)) ≠ .notANumber ∧
    (0 ≤ code (UnpackedFloat.unpack Format.binary64 (UnpackedFloat.pack Format.binary64
      (UnpackedFloat.mul Format.binary64 u v))) ↔ -halfLeast ≤ units u * units v) := by
  have hleast : (0 : Int) ≤ halfLeast := by decide
  have hzero : ∀ z : Sign, UnpackedFloat.mul Format.binary64 u v = .zero z → units u * units v = 0 →
      UnpackedFloat.unpack Format.binary64 (UnpackedFloat.pack Format.binary64
        (UnpackedFloat.mul Format.binary64 u v)) ≠ .notANumber ∧
      (0 ≤ code (UnpackedFloat.unpack Format.binary64 (UnpackedFloat.pack Format.binary64
        (UnpackedFloat.mul Format.binary64 u v))) ↔ -halfLeast ≤ units u * units v) := by
    intro z hmul hunits
    rw [hmul, unpack_pack_zero, hunits]
    exact ⟨by simp, iff_of_true (Int.le_refl 0) (by omega)⟩
  cases u with
  | notANumber | infinity => cases hu'
  | zero s =>
    cases v with
    | notANumber | infinity => cases hv'
    | zero s' => exact hzero _ rfl rfl
    | finite s' n f hn => exact hzero _ rfl (Int.zero_mul _)
  | finite s m e hm =>
    cases v with
    | notANumber | infinity => cases hv'
    | zero s' => exact hzero _ rfl (Int.mul_zero _)
    | finite s' n f hn =>
      obtain ⟨k, hnan, hcode, hk⟩ := mul_unpack_pack hu hv
      refine ⟨hnan, ?_⟩
      rw [hcode, units, units, apply_mul]
      have hk' : (k : Int) = 0 ↔
          ((m * 2 ^ (e + 1074).toNat * (n * 2 ^ (f + 1074).toNat) : Nat) : Int) ≤ halfLeast := by
        rw [halfLeast, Int.natCast_eq_zero, hk]
        exact_mod_cast Iff.rfl
      generalize s * s' = z
      cases z <;> simp only [Sign.apply] <;> omega

end Products

section Products

variable {x y : Float}

/-- **A product of finite numbers is not negative** unless its exact value is below zero by more
than half of the least positive double. -/
theorem zero_le_mul_iff (hx : x.isFinite = true) (hy : y.isFinite = true) :
    0.0 ≤ x * y ↔ -halfLeast ≤ unitsOf x * unitsOf y := by
  obtain ⟨hnan, hcode⟩ :=
    code_mul_nonneg (canonical_unpack_model x) (canonical_unpack_model y) hx hy
  have hzero : (0.0 : Float).isNaN = false := rfl
  rw [le_iff hzero (isNaN_eq_false (x := x * y) hnan)]
  exact hcode

/-- A product of an infinity and a number of the other sign is negative. -/
theorem not_zero_le_mul (h : key x < 0 ∧ 0 < key y ∨ 0 < key x ∧ key y < 0)
    (hinf : ¬ (x.isFinite = true ∧ y.isFinite = true)) : ¬ 0.0 ≤ x * y := by
  have hmul : (x * y).toModel.unpack = .infinity .negative := by
    show UnpackedFloat.unpack Format.binary64 (UnpackedFloat.pack Format.binary64
      (UnpackedFloat.mul Format.binary64 x.toModel.unpack y.toModel.unpack)) = _
    rw [mul_of_not_finite h hinf]
    rfl
  have hzero : (0.0 : Float).isNaN = false := rfl
  rw [le_iff hzero (isNaN_eq_false (by rw [hmul]; nofun)), key, key, hmul]
  decide

end Products

end FormulaLang.Number
