import FormulaLang.Number.Word
import FormulaLang.Proofs.Number.Integers
import FormulaLang.Proofs.Number.Sign

/-!
# Operators on words

The integer operators see a number only through its truncation to 32 bits. The remainder is that of
the truncating division, and the bit operators are a Boolean algebra on truncations.

* `truncation`: the integer of 32 bits next to a number, by its units.
* **`toWord_eq`**: it is what the operators work on.
* `IsWord`, `isWord_ofWord`: a number that is an integer of 32 bits.
* **`truncation_ofWord`**: words are their own truncations.
* `modulo_spec`: remainders.
* `ofPattern`, **`pattern_ofPattern`**: bit operators by their patterns.
* **`word_operators`**: remainders and bits.
-/

namespace FormulaLang.Number

open Float.Model

variable {x a b c : Float} {n : Int}

/-! ## Truncations -/

/-- The integer without the fraction of a number, or the end of the 32-bit range that is nearest to
it; zero for a NaN. -/
def truncation (x : Float) : Int :=
  if x.isNaN then 0
  else if x.isFinite then max (-2 ^ 31) (min ((unitsOf x).tdiv (2 ^ 1074)) (2 ^ 31 - 1))
  else if x < 0 then -2 ^ 31
  else 2 ^ 31 - 1

theorem truncation_nan : truncation nan = 0 ∧ toWord nan = 0 := by decide +kernel

theorem truncation_infinity :
    truncation infinity = 2 ^ 31 - 1 ∧ toWord infinity = 2 ^ 31 - 1 := by decide +kernel

theorem truncation_neg_infinity :
    truncation (-infinity) = -2 ^ 31 ∧ toWord (-infinity) = -2 ^ 31 := by decide +kernel

theorem truncation_of_isFinite (hx : x.isFinite = true) :
    truncation x = max (-2 ^ 31) (min ((unitsOf x).tdiv (2 ^ 1074)) (2 ^ 31 - 1)) := by
  rw [truncation, if_neg (by rw [isNaN_of_isFinite hx]; decide), if_pos hx]

/-- Without its sign a finite number is truncated to its whole part. -/
theorem tdiv_units (hx : 0 ≤ unitsOf x) : (unitsOf x).tdiv (2 ^ 1074) = wholePart x := by
  rw [wholePart, Int.tdiv_eq_ediv_of_nonneg hx]
  conv_lhs => rw [← Int.toNat_of_nonneg hx]
  rw [Int.natCast_ediv, Nat.cast_pow]
  rfl

/-- **The operators work on truncations.** -/
theorem toWord_eq (x : Float) : toWord x = truncation x := by
  by_cases hx : x.isFinite = true
  · have hzero : (0 : Float) = 0.0 := rfl
    rw [truncation_of_isFinite hx, toWord, hzero]
    split
    · next hneg =>
      have hunits : 0 ≤ unitsOf (-x) := by
        rw [unitsOf_neg]
        by_contra h
        exact (not_lt_zero_iff hx).2 (by omega) hneg
      have hx' : (-x).isFinite = true := (isFinite_negative x).trans hx
      have htdiv : (unitsOf x).tdiv (2 ^ 1074) = -wholePart (-x) := by
        rw [← tdiv_units hunits, unitsOf_neg, Int.neg_tdiv, Int.neg_neg]
      rw [toNat_toUInt64 hx' hunits, htdiv, clampWord, if_pos rfl]
      omega
    · next hneg =>
      have hunits := (not_lt_zero_iff hx).1 hneg
      rw [toNat_toUInt64 hx hunits, tdiv_units hunits, clampWord, if_neg (by decide)]
      omega
  · by_cases hnan : x = nan
    · rw [hnan, truncation_nan.1, truncation_nan.2]
    · rcases eq_infinity_or_neg hnan (by simpa using hx) with rfl | rfl
      · rw [truncation_infinity.1, truncation_infinity.2]
      · rw [truncation_neg_infinity.1, truncation_neg_infinity.2]

theorem truncation_bounds (x : Float) : -2 ^ 31 ≤ truncation x ∧ truncation x < 2 ^ 31 := by
  rw [truncation]
  split_ifs <;> omega

/-! ## Words -/

/-- The number is the integer of 32 bits. -/
structure IsWord (x : Float) (n : Int) : Prop where
  eq : x = ofWord n
  isFinite : x.isFinite = true
  units : unitsOf x = n * 2 ^ 1074
  lower : -2 ^ 31 ≤ n
  upper : n < 2 ^ 31

/-- **The double of a word** is the word. -/
theorem isWord_ofWord (hlow : -2 ^ 31 ≤ n) (hhigh : n < 2 ^ 31) : IsWord (ofWord n) n := by
  suffices h : (ofWord n).isFinite = true ∧ unitsOf (ofWord n) = n * 2 ^ 1074 from
    ⟨rfl, h.1, h.2, hlow, hhigh⟩
  cases n with
  | ofNat k =>
    rw [Int.ofNat_eq_natCast] at hlow hhigh
    have h := unitsOf_ofNat (n := k) (by omega)
    rwa [cast_units] at h
  | negSucc k =>
    have h := unitsOf_ofNat (n := k + 1) (by omega)
    rw [cast_units] at h
    have hneg : ofWord (.negSucc k) = -Float.ofNat (k + 1) := rfl
    rw [hneg, isFinite_negative, unitsOf_neg, h.2, Int.negSucc_eq, Int.neg_mul]
    exact ⟨h.1, rfl⟩

/-- **Words are their own truncations.** -/
theorem truncation_ofWord (hlow : -2 ^ 31 ≤ n) (hhigh : n < 2 ^ 31) :
    truncation (ofWord n) = n := by
  have h := isWord_ofWord hlow hhigh
  rw [truncation_of_isFinite h.isFinite, h.units, Int.mul_tdiv_cancel _ (by positivity)]
  omega

/-- The number of the truncation of a number has the same truncation. -/
theorem truncation_truncation (x : Float) : truncation (ofWord (truncation x)) = truncation x :=
  truncation_ofWord (truncation_bounds x).1 (truncation_bounds x).2

/-! ## Remainders -/

theorem modulo_of_zero (h : truncation b = 0) : modulo a b = nan := by
  rw [modulo, toWord_eq, if_pos h]

/-- **A remainder** is smaller than the divisor, has the sign of the dividend and differs from it by
a multiple of the divisor. -/
theorem modulo_of_ne_zero (h : truncation b ≠ 0) : ∃ r q, IsWord (modulo a b) r ∧
    truncation a = q * truncation b + r ∧ r.natAbs < (truncation b).natAbs ∧
    (r = 0 ∨ r.sign = (truncation a).sign) := by
  have hlt : ((truncation a).tmod (truncation b)).natAbs < (truncation b).natAbs := by
    rw [Int.natAbs_tmod]
    exact Nat.mod_lt _ (Int.natAbs_pos.2 h)
  have hb := truncation_bounds b
  refine ⟨(truncation a).tmod (truncation b), (truncation a).tdiv (truncation b), ?_, ?_, hlt, ?_⟩
  · rw [modulo, toWord_eq, toWord_eq, if_neg h]
    exact isWord_ofWord (by omega) (by omega)
  · rw [Int.mul_comm]
    exact (Int.mul_tdiv_add_tmod _ _).symm
  · have hsign := Int.sign_tmod (truncation a) (truncation b)
    split at hsign
    · exact .inl (Int.sign_eq_zero_iff_zero.1 hsign)
    · exact .inr hsign

/-! ## Patterns -/

/-- The number of a pattern. -/
def ofPattern (v : BitVec 32) : Float := ofWord v.toInt

theorem pattern_eq (x : Float) : pattern x = BitVec.ofInt 32 (truncation x) := by
  rw [pattern, toWord_eq]

/-- A number that came from a pattern has this pattern. -/
@[simp] theorem pattern_ofPattern (v : BitVec 32) : pattern (ofPattern v) = v := by
  rw [pattern_eq, ofPattern, truncation_ofWord v.le_toInt BitVec.toInt_lt, BitVec.ofInt_toInt]

theorem toInt_pattern (x : Float) : (pattern x).toInt = truncation x := by
  obtain ⟨hlow, hhigh⟩ := truncation_bounds x
  rw [pattern_eq, BitVec.toInt_ofInt, Int.bmod_eq_of_le (by omega) (by omega)]

/-- The number of the pattern of a number is its truncation. -/
@[simp] theorem ofPattern_pattern (x : Float) : ofPattern (pattern x) = ofWord (truncation x) := by
  rw [ofPattern, toInt_pattern]

@[simp] theorem pattern_truncation (x : Float) : pattern (ofWord (truncation x)) = pattern x := by
  rw [pattern_eq, truncation_truncation, pattern_eq]

theorem isWord_ofPattern (v : BitVec 32) : IsWord (ofPattern v) v.toInt :=
  isWord_ofWord v.le_toInt BitVec.toInt_lt

theorem bitAnd_eq (a b : Float) : bitAnd a b = ofPattern (pattern a &&& pattern b) := rfl

theorem bitOr_eq (a b : Float) : bitOr a b = ofPattern (pattern a ||| pattern b) := rfl

theorem bitNot_eq (a : Float) : bitNot a = ofPattern (~~~ pattern a) := rfl

/-- The complement in the integers. -/
theorem toInt_complement (v : BitVec 32) : (~~~ v).toInt = -1 - v.toInt := by
  rw [BitVec.toInt_not, BitVec.toInt_eq_toNat_cond, Int.bmod_def]
  split <;> split <;> omega

theorem ofPattern_zero : ofPattern 0 = ofWord 0 := rfl

theorem ofPattern_allOnes : ofPattern (BitVec.allOnes 32) = ofWord (-1) := rfl

/-! ### Patterns as sets of bits -/

section Patterns

variable (u v w : BitVec 32)

theorem and_or_self : u &&& (u ||| v) = u := by
  ext i hi
  simp only [BitVec.getElem_and, BitVec.getElem_or]
  grind

theorem or_and_self : u ||| u &&& v = u := by
  ext i hi
  simp only [BitVec.getElem_and, BitVec.getElem_or]
  grind

theorem or_and_distrib : u ||| v &&& w = (u ||| v) &&& (u ||| w) := by
  ext i hi
  simp only [BitVec.getElem_and, BitVec.getElem_or]
  grind

theorem and_complement : u &&& ~~~ u = 0 := by
  ext i hi
  simp

end Patterns

/-! ### Laws -/

/-- **The laws of the bit operators**: they give integers of 32 bits, which bit by bit are those of
the truncations, and are a Boolean algebra whose least element is `0` and whose largest is `-1`. -/
structure BitLaws (a b c : Float) : Prop where
  isWord_and : IsWord (bitAnd a b)
    (BitVec.ofInt 32 (truncation a) &&& BitVec.ofInt 32 (truncation b)).toInt
  isWord_or : IsWord (bitOr a b)
    (BitVec.ofInt 32 (truncation a) ||| BitVec.ofInt 32 (truncation b)).toInt
  isWord_not : IsWord (bitNot a) (-1 - truncation a)
  not_not : bitNot (bitNot a) = ofWord (truncation a)
  not_and : bitNot (bitAnd a b) = bitOr (bitNot a) (bitNot b)
  not_or : bitNot (bitOr a b) = bitAnd (bitNot a) (bitNot b)
  and_or_self : bitAnd a (bitOr a b) = ofWord (truncation a)
  or_and_self : bitOr a (bitAnd a b) = ofWord (truncation a)
  and_or : bitAnd a (bitOr b c) = bitOr (bitAnd a b) (bitAnd a c)
  or_and : bitOr a (bitAnd b c) = bitAnd (bitOr a b) (bitOr a c)
  and_comm : bitAnd a b = bitAnd b a
  or_comm : bitOr a b = bitOr b a
  and_assoc : bitAnd (bitAnd a b) c = bitAnd a (bitAnd b c)
  or_assoc : bitOr (bitOr a b) c = bitOr a (bitOr b c)
  and_not : bitAnd a (bitNot a) = ofWord 0
  or_not : bitOr a (bitNot a) = ofWord (-1)
  and_top : bitAnd a (ofWord (-1)) = ofWord (truncation a)
  or_bot : bitOr a (ofWord 0) = ofWord (truncation a)

theorem bitLaws (a b c : Float) : BitLaws a b c where
  isWord_and := by rw [← pattern_eq, ← pattern_eq]; exact isWord_ofPattern _
  isWord_or := by rw [← pattern_eq, ← pattern_eq]; exact isWord_ofPattern _
  isWord_not := by rw [← toInt_pattern, ← toInt_complement]; exact isWord_ofPattern _
  not_not := by rw [bitNot_eq, bitNot_eq, pattern_ofPattern, BitVec.not_not, ofPattern_pattern]
  not_and := by simp only [bitNot_eq, bitAnd_eq, bitOr_eq, pattern_ofPattern, BitVec.not_and]
  not_or := by simp only [bitNot_eq, bitAnd_eq, bitOr_eq, pattern_ofPattern, BitVec.not_or]
  and_or_self := by
    rw [bitAnd_eq, bitOr_eq, pattern_ofPattern, Number.and_or_self, ofPattern_pattern]
  or_and_self := by
    rw [bitAnd_eq, bitOr_eq, pattern_ofPattern, Number.or_and_self, ofPattern_pattern]
  and_or := by simp only [bitAnd_eq, bitOr_eq, pattern_ofPattern, BitVec.and_or_distrib_left]
  or_and := by simp only [bitAnd_eq, bitOr_eq, pattern_ofPattern, or_and_distrib]
  and_comm := by rw [bitAnd_eq, bitAnd_eq, BitVec.and_comm]
  or_comm := by rw [bitOr_eq, bitOr_eq, BitVec.or_comm]
  and_assoc := by simp only [bitAnd_eq, pattern_ofPattern, BitVec.and_assoc]
  or_assoc := by simp only [bitOr_eq, pattern_ofPattern, BitVec.or_assoc]
  and_not := by
    rw [bitAnd_eq, bitNot_eq, pattern_ofPattern, and_complement, ofPattern_zero]
  or_not := by
    rw [bitOr_eq, bitNot_eq, pattern_ofPattern, BitVec.or_not_self, ofPattern_allOnes]
  and_top := by
    rw [bitAnd_eq, ← ofPattern_allOnes, pattern_ofPattern, BitVec.and_allOnes, ofPattern_pattern]
  or_bot := by
    rw [bitOr_eq, ← ofPattern_zero, pattern_ofPattern]
    exact (congrArg ofPattern BitVec.or_zero).trans (ofPattern_pattern a)

/-! ## Operators through truncations -/

theorem modulo_truncation (a b : Float) : modulo (ofWord (truncation a)) b = modulo a b ∧
    modulo a (ofWord (truncation b)) = modulo a b := by
  simp only [modulo, toWord_eq, truncation_truncation, and_self]

theorem bitAnd_truncation (a b : Float) : bitAnd (ofWord (truncation a)) b = bitAnd a b ∧
    bitAnd a (ofWord (truncation b)) = bitAnd a b := by
  simp only [bitAnd_eq, pattern_truncation, and_self]

theorem bitOr_truncation (a b : Float) : bitOr (ofWord (truncation a)) b = bitOr a b ∧
    bitOr a (ofWord (truncation b)) = bitOr a b := by
  simp only [bitOr_eq, pattern_truncation, and_self]

theorem bitNot_truncation (a : Float) : bitNot (ofWord (truncation a)) = bitNot a := by
  simp only [bitNot_eq, pattern_truncation]

/-- **The integer operators on any doubles**: the remainder is a NaN just for a divisor that is
truncated to zero and otherwise the integer that is left after division, the bit operators are a
Boolean algebra, and all of them see their operands only through their truncations. -/
theorem word_operators (a b c : Float) :
    ((modulo a b).isNaN = true ↔ truncation b = 0) ∧
    (truncation b = 0 ∨ ∃ r q, IsWord (modulo a b) r ∧
      truncation a = q * truncation b + r ∧ r.natAbs < (truncation b).natAbs ∧
      (r = 0 ∨ r.sign = (truncation a).sign)) ∧
    BitLaws a b c ∧
    (modulo (ofWord (truncation a)) b = modulo a b ∧
      modulo a (ofWord (truncation b)) = modulo a b) ∧
    (bitAnd (ofWord (truncation a)) b = bitAnd a b ∧
      bitAnd a (ofWord (truncation b)) = bitAnd a b) ∧
    (bitOr (ofWord (truncation a)) b = bitOr a b ∧
      bitOr a (ofWord (truncation b)) = bitOr a b) ∧
    bitNot (ofWord (truncation a)) = bitNot a := by
  refine ⟨?_, ?_, bitLaws a b c, modulo_truncation a b, bitAnd_truncation a b, bitOr_truncation a b,
    bitNot_truncation a⟩
  · refine ⟨fun h => ?_, fun h => by rw [modulo_of_zero h]; rfl⟩
    by_contra hne
    obtain ⟨r, -, hr, -⟩ := modulo_of_ne_zero (a := a) hne
    rw [isNaN_of_isFinite hr.isFinite] at h
    cases h
  · exact (eq_or_ne (truncation b) 0).imp_right modulo_of_ne_zero

-- The quotient of these two has no word, their remainder has.
example : modulo (ofWord (-2 ^ 31)) (ofWord (-1)) = 0.0 := by decide +kernel

end FormulaLang.Number
