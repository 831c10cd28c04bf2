import FormulaLang.Proofs.Number.Packing

/-!
# The order of numbers

Doubles that are no NaN are ordered like integers, their `key`s. Addition keeps this order up to
rounding, so that adding something positive never leads to a smaller double.

* `code`, `units`: the bits of a double with its sign, and how many units of `2 ^ -1074` it is.
* `key`, `le_iff`, `beq_iff`, `isFinite_iff`: comparing doubles by their keys.
* `roundBits`, **`key_add`**: the key of a sum, with `key_le_add` and `key_add_le`.
* **`one_mul`**, `negativeZero_add`, **`zero_add_of_ne`**: neutral numbers.
* `add_ne_negativeZero`, **`zero_add_add`**: sums behind zero.
* **`isFinite_eq_sub`**: the difference to itself.
-/

namespace FormulaLang.Number

open Float.Model Float.Model.UnpackedFloat

/-! ## Codes -/

/-- The bits of an infinity without its sign. -/
def infinityCode : Nat := 2047 * 2 ^ 52

/-- The bits of a double with its sign. -/
def code : UnpackedFloat → Int
  | .infinity s => s.apply infinityCode
  | .finite s m e _ => s.apply ((e + 1074).toNat * 2 ^ 52 + m : Nat)
  | _ => 0

/-- The number of units of `2 ^ -1074` that a finite double is. -/
def units : UnpackedFloat → Int
  | .finite s m e _ => s.apply (m * 2 ^ (e + 1074).toNat : Nat)
  | _ => 0

section Codes

variable {u v : UnpackedFloat}

theorem code_finite_lt {s : Sign} {m : Nat} {e : Int} {h : 0 < m} (hc : Canonical (.finite s m e h)) :
    (e + 1074).toNat * 2 ^ 52 + m < infinityCode := by
  simp only [Canonical] at hc
  unfold infinityCode
  omega

/-- Binades come before significands. -/
theorem compare_then {s s' : Sign} {m n : Nat} {e f : Int} {hm : 0 < m} {hn : 0 < n}
    (hu : Canonical (.finite s m e hm)) (hv : Canonical (.finite s' n f hn)) :
    (compare e f).then (compare m n) =
      compare ((e + 1074).toNat * 2 ^ 52 + m) ((f + 1074).toNat * 2 ^ 52 + n) := by
  simp only [Canonical] at hu hv
  rcases lt_trichotomy e f with h | rfl | h
  · rw [compare_lt_iff_lt.2 h]
    exact (compare_lt_iff_lt.2 (by omega)).symm
  · rw [compare_eq_iff_eq.2 rfl, Ordering.then]
    simp only [Nat.compare_eq_ite_lt]
    simp
  · rw [compare_gt_iff_gt.2 h]
    exact (compare_gt_iff_gt.2 (by omega)).symm

theorem compare_natCast (a b : Nat) : compare (a : Int) (b : Int) = compare a b := by
  rcases lt_trichotomy a b with h | rfl | h
  · rw [compare_lt_iff_lt.2 h, compare_lt_iff_lt.2 (Int.ofNat_lt.2 h)]
  · rw [compare_eq_iff_eq.2 rfl, compare_eq_iff_eq.2 rfl]
  · rw [compare_gt_iff_gt.2 h, compare_gt_iff_gt.2 (Int.ofNat_lt.2 h)]

theorem compare_neg_natCast (a b : Nat) : compare (-(a : Int)) (-b) = (compare a b).swap := by
  rcases lt_trichotomy a b with h | rfl | h
  · rw [compare_lt_iff_lt.2 h]
    exact compare_gt_iff_gt.2 (by omega)
  · rw [compare_eq_iff_eq.2 rfl, compare_eq_iff_eq.2 rfl]
    rfl
  · rw [compare_gt_iff_gt.2 h]
    exact compare_lt_iff_lt.2 (by omega)

/-- **Doubles compare like their codes.** -/
theorem compare_eq (hu : Canonical u) (hv : Canonical v) (hu' : u ≠ .notANumber)
    (hv' : v ≠ .notANumber) : UnpackedFloat.compare u v = some (compare (code u) (code v)) := by
  have hinf : 0 < infinityCode := by decide
  have lt : ∀ {a b : Int}, a < b → some .lt = some (compare a b) :=
    fun h => congrArg some (compare_lt_iff_lt.2 h).symm
  have gt : ∀ {a b : Int}, b < a → some .gt = some (compare a b) :=
    fun h => congrArg some (compare_gt_iff_gt.2 h).symm
  have eq : ∀ {a b : Int}, a = b → some .eq = some (compare a b) :=
    fun h => congrArg some (compare_eq_iff_eq.2 h).symm
  cases u with
  | notANumber => exact (hu' rfl).elim
  | infinity s =>
    cases v with
    | notANumber => exact (hv' rfl).elim
    | infinity s' => cases s <;> cases s' <;> simp only [code, Sign.apply] <;>
        first | exact eq rfl | exact lt (by omega) | exact gt (by omega)
    | zero s' => cases s <;> simp only [code, Sign.apply] <;>
        first | exact lt (by omega) | exact gt (by omega)
    | finite s' n f hn =>
      have hlt := code_finite_lt hv
      cases s <;> cases s' <;> simp only [code, Sign.apply] <;>
        first | exact lt (by omega) | exact gt (by omega)
  | zero s =>
    cases v with
    | notANumber => exact (hv' rfl).elim
    | infinity s' => cases s' <;> simp only [code, Sign.apply] <;>
        first | exact lt (by omega) | exact gt (by omega)
    | zero s' => exact eq rfl
    | finite s' n f hn => cases s' <;> simp only [code, Sign.apply] <;>
        first | exact lt (by omega) | exact gt (by omega)
  | finite s m e hm =>
    have hlt := code_finite_lt hu
    cases v with
    | notANumber => exact (hv' rfl).elim
    | infinity s' => cases s <;> cases s' <;> simp only [code, Sign.apply] <;>
        first | exact lt (by omega) | exact gt (by omega)
    | zero s' => cases s <;> simp only [code, Sign.apply] <;>
        first | exact lt (by omega) | exact gt (by omega)
    | finite s' n f hn =>
      have hc := compare_then hu hv
      cases s <;> cases s' <;> simp only [code, Sign.apply]
      · rw [compare_neg_natCast, ← hc]
        rfl
      · exact lt (by omega)
      · exact gt (by omega)
      · rw [compare_natCast, ← hc]
        rfl

end Codes

/-! ## Keys -/

/-- The bits of a number with its sign. -/
def key (x : Float) : Int := code x.toModel.unpack

/-- The number of units of `2 ^ -1074` that a finite number is. -/
def unitsOf (x : Float) : Int := units x.toModel.unpack

section Keys

variable {x y : Float}

theorem canonical_unpack_model (x : Float) : Canonical x.toModel.unpack := canonical_unpack _

theorem ne_notANumber (h : x.isNaN = false) : x.toModel.unpack ≠ .notANumber := by
  intro hx
  have : x.isNaN = true := by
    show x.toModel.unpack.isNaN = true
    rw [hx]
    rfl
  rw [h] at this
  cases this

theorem isNaN_of_isFinite (h : x.isFinite = true) : x.isNaN = false := by
  change x.toModel.unpack.isFinite = true at h
  show x.toModel.unpack.isNaN = false
  cases hx : x.toModel.unpack <;> rw [hx] at h <;> first | rfl | cases h

theorem compare_eq_key (hx : x.isNaN = false) (hy : y.isNaN = false) :
    x.toModel.unpack.compare y.toModel.unpack = some (compare (key x) (key y)) :=
  compare_eq (canonical_unpack_model x) (canonical_unpack_model y) (ne_notANumber hx)
    (ne_notANumber hy)

theorem le_iff (hx : x.isNaN = false) (hy : y.isNaN = false) : x ≤ y ↔ key x ≤ key y := by
  show decide (x.toModel ≤ y.toModel) = true ↔ _
  rw [decide_eq_true_iff]
  show (x.toModel.unpack.compare y.toModel.unpack).any (·.isLE) = true ↔ _
  rw [compare_eq_key hx hy, Option.any_some]
  exact Std.isLE_compare

theorem beq_iff (hx : x.isNaN = false) (hy : y.isNaN = false) : (x == y) = true ↔ key x = key y := by
  show (x.toModel.unpack.compare y.toModel.unpack == some .eq) = true ↔ _
  rw [compare_eq_key hx hy]
  simp

theorem isFinite_iff (hx : x.isNaN = false) :
    x.isFinite = true ↔ -(infinityCode : Int) < key x ∧ key x < infinityCode := by
  have hc := canonical_unpack_model x
  have hn := ne_notANumber hx
  have hinf : 0 < infinityCode := by decide
  show x.toModel.unpack.isFinite = true ↔ _
  unfold key
  cases hu : x.toModel.unpack with
  | notANumber => exact (hn hu).elim
  | infinity s => cases s <;> simp [UnpackedFloat.isFinite, code, Sign.apply]
  | zero s => simp [UnpackedFloat.isFinite, code, hinf]
  | finite s m e h =>
    rw [hu] at hc
    have := code_finite_lt hc
    cases s <;> simp only [UnpackedFloat.isFinite, code, Sign.apply, true_iff] <;> omega

end Keys

/-! ## Sums -/

/-- How many bits a number of units has too many. -/
def excess (v : Nat) : Nat := v.log2 - 52

/-- The bits that a number of units is rounded to. -/
def roundBits (v : Nat) : Nat := min infinityCode (excess v * 2 ^ 52 + nearest v (excess v))

/-- The bits that a number of units with a sign is rounded to. -/
def roundCode : Int → Int
  | .ofNat v => roundBits v
  | .negSucc v => -roundBits (v + 1)

section Rounding

variable {v w : Nat}

theorem nearest_excess_le (v : Nat) : nearest v (excess v) ≤ 2 ^ 53 := by
  refine nearest_le.trans (Nat.succ_le_of_lt ?_)
  rw [Nat.div_lt_iff_lt_mul (by positivity), ← pow_add]
  calc v < 2 ^ (v.log2 + 1) := Nat.lt_log2_self
    _ ≤ 2 ^ (53 + excess v) := Nat.pow_le_pow_right (by decide) (by unfold excess; omega)

theorem le_nearest_excess (h : excess v ≠ 0) : 2 ^ 52 ≤ nearest v (excess v) := by
  unfold excess at *
  have hv : v ≠ 0 := by
    rintro rfl
    simp at h
  refine le_trans ?_ le_nearest
  rw [Nat.le_div_iff_mul_le (by positivity), ← pow_add, ← Nat.le_log2 hv]
  omega

theorem excess_mono (h : v ≤ w) : excess v ≤ excess w := by
  unfold excess
  by_cases hv : v = 0
  · simp [hv]
  · have : v.log2 ≤ w.log2 := (Nat.le_log2 (by omega)).2 ((Nat.log2_self_le hv).trans h)
    omega

/-- **Rounding keeps the order.** -/
theorem roundBits_mono (h : v ≤ w) : roundBits v ≤ roundBits w := by
  refine min_le_min (le_refl _) ?_
  rcases (excess_mono h).lt_or_eq with hlt | heq
  · have := nearest_excess_le v
    have := le_nearest_excess (v := w) (by omega)
    omega
  · rw [heq]
    exact Nat.add_le_add_left (nearest_mono h) _

theorem roundCode_mono {a b : Int} (h : a ≤ b) : roundCode a ≤ roundCode b := by
  cases a with
  | ofNat v =>
    cases b with
    | ofNat w => exact Int.ofNat_le.2 (roundBits_mono (Int.ofNat_le.1 h))
    | negSucc w => simp at h; omega
  | negSucc v =>
    cases b with
    | ofNat w =>
      simp only [roundCode]
      omega
    | negSucc w =>
      simp only [roundCode]
      have := roundBits_mono (v := w + 1) (w := v + 1) (by omega)
      omega

theorem log2_mul_pow {m : Nat} (hm : m ≠ 0) (t : Nat) : (m * 2 ^ t).log2 = m.log2 + t := by
  induction t with
  | zero => simp
  | succ t ih =>
    have : m * 2 ^ (t + 1) = 2 * (m * 2 ^ t) := by ring
    rw [this, Nat.log2_two_mul (by positivity), ih, Nat.add_assoc]

/-- A double has as many bits too many as its exponent says. -/
theorem excess_units {m t : Nat} (hm : 0 < m) (hlt : m < 2 ^ 53) (hc : t = 0 ∨ 2 ^ 52 ≤ m) :
    excess (m * 2 ^ t) = t := by
  unfold excess
  rw [log2_mul_pow hm.ne']
  have := (Nat.log2_lt hm.ne').2 hlt
  rcases hc with rfl | hc
  · omega
  · have := (Nat.le_log2 hm.ne').2 hc
    omega

/-- The units of a finite double are rounded to its bits. -/
theorem roundBits_units {m t : Nat} (hm : 0 < m) (hlt : m < 2 ^ 53) (hc : t = 0 ∨ 2 ^ 52 ≤ m)
    (ht : t * 2 ^ 52 + m < infinityCode) : roundBits (m * 2 ^ t) = t * 2 ^ 52 + m := by
  rw [roundBits, excess_units hm hlt hc, nearest_mul]
  exact min_eq_right ht.le

theorem roundCode_apply (s : Sign) {v : Nat} (hv : 0 < v) :
    roundCode (s.apply (v : Nat)) = s.apply (roundBits v : Nat) := by
  cases s with
  | positive => rfl
  | negative =>
    obtain ⟨w, rfl⟩ := Nat.exists_eq_succ_of_ne_zero hv.ne'
    rfl

theorem roundCode_zero : roundCode 0 = 0 := by decide

/-- **The units of a double are rounded to the double.** -/
theorem roundCode_units {u : UnpackedFloat} (hu : Canonical u) (hf : u.isFinite = true) :
    roundCode (units u) = code u := by
  cases u with
  | notANumber => cases hf
  | infinity s => cases hf
  | zero s => exact roundCode_zero
  | finite s m e hm =>
    have hlt := code_finite_lt hu
    obtain ⟨h₁, h₂, h₃, h₄⟩ := hu
    rw [units, roundCode_apply s (by positivity),
      roundBits_units hm h₁ (h₄.imp (fun h => by omega) id) hlt]
    rfl

/-- The double of a rounded significand in a binade. -/
theorem code_unpack_pack (s : Sign) {r t : Nat} (hr : r ≤ 2 ^ 53) (ht : t = 0 ∨ 2 ^ 52 ≤ r) :
    code (UnpackedFloat.unpack Format.binary64
      (UnpackedFloat.pack Format.binary64 (ofRounded s r (t - 1074)))) =
      s.apply (min infinityCode (t * 2 ^ 52 + r) : Nat) := by
  rw [unpack_pack_ofRounded s hr ht]
  split_ifs with h
  · rw [min_eq_right (show t * 2 ^ 52 + r ≤ infinityCode from h.le)]
    unfold ofRounded
    split_ifs with h₀ h₁
    · have : t = 0 := by omega
      subst this
      subst h₀
      cases s <;> rfl
    · have : ((t : Int) - 1074 + 1074).toNat = t := by omega
      rw [code, this]
    · have : ((t : Int) - 1074 + 1 + 1074).toNat * 2 ^ 52 + 2 ^ 52 = t * 2 ^ 52 + r := by omega
      rw [code, this]
  · rw [min_eq_left (show infinityCode ≤ t * 2 ^ 52 + r from not_lt.1 h)]
    rfl

/-- Rounding an integer number of units. -/
theorem round_eq (s : Sign) {m : Nat} {e : Int} (hm : m ≠ 0) (he : -1074 ≤ e) :
    UnpackedFloat.round Format.binary64 s m e =
      ofRounded s (nearest (m * 2 ^ (e + 1074).toNat) (excess (m * 2 ^ (e + 1074).toNat)))
        (excess (m * 2 ^ (e + 1074).toNat) - 1074) := by
  obtain ⟨u, hu⟩ : ∃ u : Nat, e = u - 1074 := ⟨(e + 1074).toNat, by omega⟩
  have hu' : (e + 1074).toNat = u := by omega
  rw [hu']
  have hlog := log2_mul_pow hm u
  -- The exponent that rounding aims at.
  have htarget : Format.binary64.targetExponent (totalExponent m e) =
      (excess (m * 2 ^ u) : Int) - 1074 := by
    rw [targetExponent_eq, excess, hlog]
    omega
  unfold UnpackedFloat.round
  rw [htarget]
  generalize ht : excess (m * 2 ^ u) = t
  have ht' : t = m.log2 + u - 52 := by rw [← ht, excess, hlog]
  simp only [decreaseExponent]
  rw [roundWithAccuracy_eq, Nat.shiftLeft_eq]
  by_cases h : t ≤ u
  · obtain ⟨k, rfl⟩ := Nat.exists_eq_add_of_le h
    have hk : (e - ((t : Int) - 1074)).toNat = k := by omega
    have hlost : lostBits (m * 2 ^ k) (e - k) = 0 := by
      unfold lostBits
      rw [log2_mul_pow hm]
      omega
    rw [hk, hlost, nearest_zero]
    have hn : nearest (m * 2 ^ (t + k)) t = m * 2 ^ k := by
      rw [pow_add, mul_comm (2 ^ t), ← mul_assoc, nearest_mul]
    rw [hn]
    congr 1
    omega
  · obtain ⟨k, rfl⟩ := Nat.exists_eq_add_of_le (not_le.1 h).le
    have hk : (e - (((u + k : Nat) : Int) - 1074)).toNat = 0 := by omega
    have hlost : lostBits m e = k := by
      unfold lostBits
      omega
    rw [hk]
    simp only [pow_zero, mul_one, Nat.cast_zero, sub_zero]
    rw [hlost, Nat.add_comm u k, nearest_mul_pow]
    congr 1
    omega

theorem round_unpack_pack (s : Sign) {m : Nat} {e : Int} (hm : m ≠ 0) (he : -1074 ≤ e) :
    UnpackedFloat.unpack Format.binary64 (UnpackedFloat.pack Format.binary64
      (UnpackedFloat.round Format.binary64 s m e)) ≠ .notANumber ∧
    code (UnpackedFloat.unpack Format.binary64 (UnpackedFloat.pack Format.binary64
      (UnpackedFloat.round Format.binary64 s m e))) =
      roundCode (s.apply (m * 2 ^ (e + 1074).toNat : Nat)) := by
  rw [round_eq s hm he]
  generalize hv : m * 2 ^ (e + 1074).toNat = v
  have hpos : 0 < v := by rw [← hv]; positivity
  have hr := nearest_excess_le v
  have ht : excess v = 0 ∨ 2 ^ 52 ≤ nearest v (excess v) :=
    (eq_or_ne (excess v) 0).imp_right le_nearest_excess
  refine ⟨?_, by rw [code_unpack_pack s hr ht, roundCode_apply s hpos, roundBits]⟩
  rw [unpack_pack_ofRounded s hr ht, ofRounded]
  split_ifs <;> simp

theorem unpack_pack_zero (s : Sign) : UnpackedFloat.unpack Format.binary64
    (UnpackedFloat.pack Format.binary64 (.zero s)) = .zero s := unpack_pack (u := .zero s) trivial

/-- **Normalizing rounds** the units of the mantissa. -/
theorem normalize_unpack_pack (m : Int) {e : Int} (s : Sign) (he : -1074 ≤ e) :
    UnpackedFloat.unpack Format.binary64 (UnpackedFloat.pack Format.binary64
      (UnpackedFloat.normalize Format.binary64 m e s)) ≠ .notANumber ∧
    code (UnpackedFloat.unpack Format.binary64 (UnpackedFloat.pack Format.binary64
      (UnpackedFloat.normalize Format.binary64 m e s))) = roundCode (m * 2 ^ (e + 1074).toNat) := by
  unfold UnpackedFloat.normalize
  rcases lt_trichotomy m 0 with hm | rfl | hm
  · obtain ⟨k, rfl⟩ : ∃ k : Nat, m = -(k : Int) := ⟨(-m).toNat, by omega⟩
    rw [compare_lt_iff_lt.2 hm, neg_neg, Int.toNat_natCast]
    have := round_unpack_pack .negative (m := k) (by omega) he
    simpa [Sign.apply, neg_mul] using this
  · rw [compare_eq_iff_eq.2 rfl]
    simp only
    rw [unpack_pack_zero, zero_mul, roundCode_zero]
    exact ⟨by simp, rfl⟩
  · obtain ⟨k, rfl⟩ : ∃ k : Nat, m = (k : Int) := ⟨m.toNat, by omega⟩
    rw [compare_gt_iff_gt.2 hm, Int.toNat_natCast]
    have := round_unpack_pack .positive (m := k) (by omega) he
    simpa [Sign.apply] using this

end Rounding

section Sums

variable {u v : UnpackedFloat}

theorem apply_shiftLeft (s : Sign) (m k t : Nat) :
    s.apply ((m <<< k : Nat) : Int) * 2 ^ t = s.apply (m * 2 ^ (k + t) : Nat) := by
  rw [Nat.shiftLeft_eq]
  cases s <;> simp only [Sign.apply] <;> push_cast <;> ring

/-- The sum of two finite doubles is the rounded sum of their units. -/
theorem add_unpack_pack (hu : Canonical u) (hv : Canonical v) (hu' : u.isFinite = true)
    (hv' : v.isFinite = true) :
    UnpackedFloat.unpack Format.binary64 (UnpackedFloat.pack Format.binary64
      (UnpackedFloat.add Format.binary64 u v)) ≠ .notANumber ∧
    code (UnpackedFloat.unpack Format.binary64 (UnpackedFloat.pack Format.binary64
      (UnpackedFloat.add Format.binary64 u v))) = roundCode (units u + units v) := by
  cases u with
  | notANumber => cases hu'
  | infinity => cases hu'
  | zero s =>
    cases v with
    | notANumber => cases hv'
    | infinity => cases hv'
    | zero s' =>
      obtain ⟨z, hz⟩ : ∃ z, UnpackedFloat.add Format.binary64 (.zero s) (.zero s') = .zero z := by
        cases s <;> cases s' <;> exact ⟨_, rfl⟩
      rw [hz, unpack_pack_zero]
      exact ⟨by simp, roundCode_zero.symm⟩
    | finite s' n f hn =>
      have hadd : UnpackedFloat.add Format.binary64 (.zero s) (.finite s' n f hn) =
        .finite s' n f hn := rfl
      have hz : units (.zero s) = 0 := rfl
      rw [hadd, unpack_pack hv, ← roundCode_units hv hv', hz, zero_add]
      exact ⟨by simp, rfl⟩
  | finite s m e hm =>
    cases v with
    | notANumber => cases hv'
    | infinity => cases hv'
    | zero s' =>
      have hadd : UnpackedFloat.add Format.binary64 (.finite s m e hm) (.zero s') =
        .finite s m e hm := rfl
      have hz : units (.zero s') = 0 := rfl
      rw [hadd, unpack_pack hu, ← roundCode_units hu hu', hz, add_zero]
      exact ⟨by simp, rfl⟩
    | finite s' n f hn =>
      have he := hu.2.1
      have hf := hv.2.1
      have h := normalize_unpack_pack
        (s.apply ((m <<< (e - min e f).toNat : Nat) : Int) +
          s'.apply ((n <<< (f - min e f).toNat : Nat) : Int)) (e := min e f) .positive (by omega)
      rw [add_mul, apply_shiftLeft, apply_shiftLeft,
        show (e - min e f).toNat + (min e f + 1074).toNat = (e + 1074).toNat by omega,
        show (f - min e f).toNat + (min e f + 1074).toNat = (f + 1074).toNat by omega] at h
      exact h

/-- A sum with something that is not finite is not finite. -/
theorem add_of_not_finite (h : ¬ (u.isFinite = true ∧ v.isFinite = true)) :
    UnpackedFloat.add Format.binary64 u v = .notANumber ∨
      ∃ s, UnpackedFloat.add Format.binary64 u v = .infinity s := by
  cases u with
  | notANumber => exact .inl rfl
  | infinity s =>
    cases v with
    | infinity s' =>
      cases s <;> cases s' <;> first | exact .inl rfl | exact .inr ⟨_, rfl⟩
    | notANumber => exact .inl rfl
    | _ => exact .inr ⟨_, rfl⟩
  | _ =>
    cases v with
    | notANumber => exact .inl rfl
    | infinity s' => exact .inr ⟨_, rfl⟩
    | _ => exact (h ⟨rfl, rfl⟩).elim

theorem isFinite_of_add_unpack_pack (h : (UnpackedFloat.unpack Format.binary64
    (UnpackedFloat.pack Format.binary64 (UnpackedFloat.add Format.binary64 u v))).isFinite = true) :
    u.isFinite = true ∧ v.isFinite = true := by
  by_contra hn
  rcases add_of_not_finite hn with hadd | ⟨s, hadd⟩
  · rw [hadd, unpack_pack (u := .notANumber) trivial] at h
    cases h
  · rw [hadd, unpack_pack (u := .infinity s) trivial] at h
    cases h

end Sums

section Sums

variable {x y : Float}

theorem isNaN_eq_false (h : x.toModel.unpack ≠ .notANumber) : x.isNaN = false := by
  show x.toModel.unpack.isNaN = false
  cases hx : x.toModel.unpack <;> first | rfl | exact (h hx).elim

/-- **The key of a sum** is the rounded sum of the units. -/
theorem key_add (hx : x.isFinite = true) (hy : y.isFinite = true) :
    (x + y).isNaN = false ∧ key (x + y) = roundCode (unitsOf x + unitsOf y) := by
  have h := add_unpack_pack (canonical_unpack_model x) (canonical_unpack_model y) hx hy
  exact ⟨isNaN_eq_false h.1, h.2⟩

theorem roundCode_unitsOf (hx : x.isFinite = true) : roundCode (unitsOf x) = key x :=
  roundCode_units (canonical_unpack_model x) hx

/-- Addition is monotone: adding a number that is not negative leads up, or stays. -/
theorem key_le_add (hx : x.isFinite = true) (hy : y.isFinite = true) (h : 0 ≤ unitsOf y) :
    key x ≤ key (x + y) := by
  rw [(key_add hx hy).2, ← roundCode_unitsOf hx]
  exact roundCode_mono (by omega)

theorem key_add_le (hx : x.isFinite = true) (hy : y.isFinite = true) (h : unitsOf y ≤ 0) :
    key (x + y) ≤ key x := by
  rw [(key_add hx hy).2, ← roundCode_unitsOf hx]
  exact roundCode_mono (by omega)

/-- A finite sum has finite operands. -/
theorem isFinite_of_add (h : (x + y).isFinite = true) : x.isFinite = true ∧ y.isFinite = true :=
  isFinite_of_add_unpack_pack h

theorem bne_key (hx : x.isNaN = false) (hy : y.isNaN = false) :
    (x != y) = true ↔ key x ≠ key y := by
  rw [bne, Bool.not_eq_true', ← Bool.not_eq_true, beq_iff hx hy]

/-- A sum that differs from its first operand lies on the side of the second one. -/
theorem key_lt_add (h : (x + y).isFinite = true) (hne : (x + y != x) = true) :
    (0 ≤ unitsOf y ∧ key x < key (x + y)) ∨ (unitsOf y < 0 ∧ key (x + y) < key x) := by
  obtain ⟨hx, hy⟩ := isFinite_of_add h
  have hne := (bne_key (key_add hx hy).1 (isNaN_of_isFinite hx)).1 hne
  rcases le_or_gt 0 (unitsOf y) with hu | hu
  · have := key_le_add hx hy hu
    exact .inl ⟨hu, by omega⟩
  · have := key_add_le hx hy hu.le
    exact .inr ⟨hu, by omega⟩

end Sums

/-! ## One and zero -/

theorem eq_of_pack (x : Float) : x.toModel = Float.Model.pack x.toModel.unpack := by
  have h := pack_unpack x.toModel.valid
  cases hx : x.toModel with
  | mk bits valid =>
    rw [hx] at h
    simp only [Float.Model.pack, Float.Model.mk.injEq]
    exact (congrArg UInt64.ofBitVec h).symm

theorem unpack_one : (1.0 : Float).toModel.unpack = .finite .positive (2 ^ 52) (-52) (by decide) :=
  rfl

theorem mul_one_unpack {u : UnpackedFloat} (hu : Canonical u) :
    UnpackedFloat.mul Format.binary64 (.finite .positive (2 ^ 52) (-52) (by decide)) u = u := by
  cases u with
  | notANumber => rfl
  | infinity s => cases s <;> rfl
  | zero s => cases s <;> rfl
  | finite s m e hm =>
    obtain ⟨h₁, h₂, h₃, h₄⟩ := hu
    have hs : Sign.positive * s = s := by cases s <;> rfl
    have hlog : (m * 2 ^ 52).log2 = m.log2 + 52 := log2_mul_pow hm.ne' 52
    have hlost : lostBits (m * 2 ^ 52) (-52 + e) = 52 := by
      have := (Nat.log2_lt hm.ne').2 h₁
      unfold lostBits
      rw [hlog]
      rcases h₄ with rfl | h₄
      · omega
      · have := (Nat.le_log2 hm.ne').2 h₄
        omega
    simp only [UnpackedFloat.mul]
    rw [roundWithAccuracy_eq, hs, Nat.mul_comm, hlost, nearest_mul, ofRounded, dif_neg hm.ne',
      if_pos h₁]
    congr 1
    omega

/-- A number is given by its parts. -/
theorem eq_of_model {x y : Float} (h : x.toModel = y.toModel) : x = y := by
  cases x
  cases y
  exact congrArg Float.ofModel h

/-- **One is neutral** in products. -/
theorem one_mul (x : Float) : 1.0 * x = x := by
  have h : (1.0 * x).toModel = Float.Model.pack (UnpackedFloat.mul Format.binary64
    (1.0 : Float).toModel.unpack x.toModel.unpack) := rfl
  rw [unpack_one, mul_one_unpack (canonical_unpack_model x), ← eq_of_pack] at h
  exact eq_of_model h

/-- **Negative zero is neutral** in sums. -/
theorem negativeZero_add (x : Float) : -0.0 + x = x := by
  have h : (-0.0 + x).toModel = Float.Model.pack (UnpackedFloat.add Format.binary64
    (.zero .negative) x.toModel.unpack) := rfl
  have hadd : UnpackedFloat.add Format.binary64 (.zero .negative) x.toModel.unpack =
      x.toModel.unpack := by
    cases x.toModel.unpack with
    | zero s => cases s <;> rfl
    | _ => rfl
  rw [hadd, ← eq_of_pack] at h
  exact eq_of_model h

theorem eq_negativeZero {x : Float} (h : x.toModel.unpack = .zero .negative) : x = -0.0 := by
  have hp := eq_of_pack x
  rw [h] at hp
  exact eq_of_model hp

/-- **Zero is neutral** in sums, but for negative zero. -/
theorem zero_add_of_ne {x : Float} (hx : x ≠ -0.0) : 0.0 + x = x := by
  have h : (0.0 + x).toModel = Float.Model.pack (UnpackedFloat.add Format.binary64
    (.zero .positive) x.toModel.unpack) := rfl
  have hadd : UnpackedFloat.add Format.binary64 (.zero .positive) x.toModel.unpack =
      x.toModel.unpack := by
    cases hu : x.toModel.unpack with
    | zero s =>
      cases s with
      | positive => rfl
      | negative => exact (hx (eq_negativeZero hu)).elim
    | _ => rfl
  rw [hadd, ← eq_of_pack] at h
  exact eq_of_model h

theorem zero_add_zero : (0.0 : Float) + 0.0 = 0.0 := eq_of_model rfl

/-- Rounding leads to zero from zero only. -/
theorem roundCode_ne_zero {a : Int} (ha : a ≠ 0) : roundCode a ≠ 0 := by
  have hone : roundCode 1 = 1 := by decide
  have hminus : roundCode (-1) = -1 := by decide
  rcases lt_or_gt_of_ne ha with hlt | hgt
  · have := roundCode_mono (show a ≤ -1 by omega)
    omega
  · have := roundCode_mono (show 1 ≤ a by omega)
    omega

theorem normalize_ne_negativeZero (m : Int) {e : Int} (he : -1074 ≤ e) :
    UnpackedFloat.unpack Format.binary64 (UnpackedFloat.pack Format.binary64
      (UnpackedFloat.normalize Format.binary64 m e .positive)) ≠ .zero .negative := by
  intro h
  have hcode := (normalize_unpack_pack m .positive he).2
  rw [h] at hcode
  by_cases hm : m = 0
  · subst hm
    have hzero : UnpackedFloat.normalize Format.binary64 0 e .positive = .zero .positive := rfl
    rw [hzero, unpack_pack_zero] at h
    cases h
  · exact roundCode_ne_zero (mul_ne_zero hm (by positivity)) hcode.symm

theorem add_ne_negativeZero_of_unpacked {u v : UnpackedFloat} (hu : Canonical u) (hv : Canonical v)
    (hne : u ≠ .zero .negative) : UnpackedFloat.unpack Format.binary64
      (UnpackedFloat.pack Format.binary64 (UnpackedFloat.add Format.binary64 u v)) ≠
        .zero .negative := by
  by_cases hfinite : u.isFinite = true ∧ v.isFinite = true
  · cases u with
    | notANumber | infinity => cases hfinite.1
    | zero s =>
      obtain rfl : s = .positive := by
        cases s with
        | positive => rfl
        | negative => exact absurd rfl hne
      cases v with
      | notANumber | infinity => cases hfinite.2
      | zero s' =>
        have hadd : UnpackedFloat.add Format.binary64 (.zero .positive) (.zero s') =
            .zero .positive := by
          cases s' <;> rfl
        rw [hadd, unpack_pack_zero]
        simp
      | finite s n f hn =>
        have hadd : UnpackedFloat.add Format.binary64 (.zero .positive) (.finite s n f hn) =
          .finite s n f hn := rfl
        rw [hadd, unpack_pack hv]
        simp
    | finite s m e hm =>
      cases v with
      | notANumber | infinity => cases hfinite.2
      | zero s' =>
        have hadd : UnpackedFloat.add Format.binary64 (.finite s m e hm) (.zero s') =
          .finite s m e hm := rfl
        rw [hadd, unpack_pack hu]
        simp
      | finite s' n f hn =>
        have he := hu.2.1
        have hf := hv.2.1
        exact normalize_ne_negativeZero _ (by omega)
  · rcases add_of_not_finite hfinite with hadd | ⟨s, hadd⟩
    · rw [hadd, unpack_pack (u := .notANumber) trivial]
      simp
    · rw [hadd, unpack_pack (u := .infinity s) trivial]
      simp

/-- A sum is negative zero only if its first number is. -/
theorem add_ne_negativeZero {x : Float} (hx : x ≠ -0.0) (y : Float) : x + y ≠ -0.0 := by
  intro h
  have hne : x.toModel.unpack ≠ .zero .negative := fun hu => hx (eq_negativeZero hu)
  have hsum : (x + y).toModel.unpack = .zero .negative := by
    rw [h]
    rfl
  exact add_ne_negativeZero_of_unpacked (canonical_unpack_model x) (canonical_unpack_model y) hne
    hsum

/-- **Zero in front of a sum** may be added to its first number instead. -/
theorem zero_add_add (x y : Float) : 0.0 + x + y = 0.0 + (x + y) := by
  by_cases hx : x = -0.0
  · have hzero : (0.0 : Float) + -0.0 = 0.0 := eq_of_model rfl
    rw [hx, hzero, negativeZero_add]
  · rw [zero_add_of_ne hx, zero_add_of_ne (add_ne_negativeZero hx y)]

/-- **A number is finite** if and only if its difference to itself is zero. -/
theorem isFinite_eq_sub (x : Float) : (x - x == 0.0) = x.isFinite := by
  have h : (x - x).toModel.unpack = UnpackedFloat.unpack Format.binary64
    (UnpackedFloat.pack Format.binary64
      (UnpackedFloat.sub Format.binary64 x.toModel.unpack x.toModel.unpack)) := rfl
  have hz : (0.0 : Float).toModel.unpack = .zero .positive := rfl
  show ((x - x).toModel.unpack.compare (0.0 : Float).toModel.unpack == some .eq) =
    x.toModel.unpack.isFinite
  rw [h, hz]
  cases x.toModel.unpack with
  | notANumber => rfl
  | infinity s => cases s <;> rfl
  | zero s => cases s <;> rfl
  | finite s m e hm =>
    have hsub : UnpackedFloat.sub Format.binary64 (.finite s m e hm) (.finite s m e hm) =
        .zero .positive := by
      simp [UnpackedFloat.sub, UnpackedFloat.normalize]
    rw [hsub]
    rfl

end FormulaLang.Number
