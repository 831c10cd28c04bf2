import FormulaLang.Proofs.Number.NotANumber
import FormulaLang.Proofs.Number.Quotient
import FormulaLang.Proofs.Number.Units
import FormulaLang.Proofs.Range.Positions

/-!
# How long a range is

The vector of a range has all its positions if these are not too many. But a range is refused
beforehand where the quotient of its length and its step is too large, and this quotient does not
know how the sums are rounded: where a step changes nothing the range is short after all. It is
right on a grid of doubles, and for steps that are large enough for the errors of the sums.

* `Range.Refused`, `Range.Yields.values_eq`: what the vector of a range is.
* `Range.OnGrid`, `Range.Wide`, `Range.Measured`: where the quotient is right.
* `Range.Paced`, `Range.Ahead`: a range in front of many positions.
* **`Range.Paced.lt_length`**: a number of positions from what is ahead.
* **`Range.Measured.lt_length`**, `Range.Measured.values_eq`: a range that is refused is too long.
-/

namespace FormulaLang.Range

open Number

variable {r : Range} {xs : List Float} {P : Int → Prop} {n m slack : Nat}

/-! ## The vector of a range -/

/-- The quotient of length and step is too large. -/
def Refused (r : Range) : Prop :=
  ((r.stop - r.position) / r.step).isFinite = true ∧
    Float.ofNat maxVectorLength ≤ (r.stop - r.position) / r.step

instance : Decidable r.Refused := inferInstanceAs (Decidable (_ ∧ _))

/-- Positions are appended one by one. -/
theorem Yields.appendUpTo_eq (h : r.Yields xs) (n : Nat) (acc : Array Float) :
    appendUpTo n r acc = if xs.length ≤ n then some (acc ++ xs.toArray) else none := by
  induction h generalizing n acc with
  | done h =>
    unfold appendUpTo
    simp [h]
  | next h _ ih =>
    unfold appendUpTo
    rw [h]
    cases n with
    | zero => rfl
    | succ n => simp [ih]

/-- **The vector of a range** has its positions, unless they are too many or it is refused. -/
theorem Yields.values_eq (h : r.Yields xs) :
    r.values = if r.Refused ∨ maxVectorLength < xs.length then
      .error (.vectorTooLong maxVectorLength) else .ok xs := by
  have hrefused : (((r.stop - r.position) / r.step).isFinite &&
      decide (Float.ofNat maxVectorLength ≤ (r.stop - r.position) / r.step)) =
        decide r.Refused := by
    rw [Bool.eq_iff_iff, decide_eq_true_iff, Bool.and_eq_true, decide_eq_true_iff]
    rfl
  unfold values
  dsimp only
  rw [hrefused, h.appendUpTo_eq]
  by_cases hr : r.Refused
  · simp [hr]
  · by_cases hn : xs.length ≤ maxVectorLength <;> simp [hr, hn]

/-! ## Steps and ends -/

/-- The units of the step without its sign. -/
def stride (r : Range) : Nat := (unitsOf r.step).natAbs

/-- The units of the end that is further away from zero. -/
def reach (r : Range) : Nat := max (unitsOf r.position).natAbs (unitsOf r.stop).natAbs

/-- The exact distance of the ends, in units. -/
def distance (r : Range) : Nat := (unitsOf r.stop - unitsOf r.position).natAbs

/-- The ends and the step are on a grid of `2 ^ 53` points on either side of zero, and the distance
of the ends is on it, too. Sums and differences of such numbers are exact. -/
structure OnGrid (j : Nat) (r : Range) : Prop where
  position : 2 ^ j ∣ unitsOf r.position
  step : 2 ^ j ∣ unitsOf r.step
  stop : 2 ^ j ∣ unitsOf r.stop
  reach_le : r.reach ≤ 2 ^ 53 * 2 ^ j
  distance_le : r.distance ≤ 2 ^ 53 * 2 ^ j

/-- The step is larger than the error of any sum, a `2 ^ 53`-th part of the reach, and there is
room for as many steps with such errors as a vector may have elements. -/
structure Wide (r : Range) : Prop where
  reach_lt : r.reach < 2 ^ 53 * r.stride
  room : maxVectorLength * (2 ^ 53 * r.stride + r.reach) ≤ 2 ^ 53 * r.distance

/-- The quotient is right about a range that it refuses. -/
def Measured (r : Range) : Prop := r.Refused → (∃ j, r.OnGrid j) ∨ r.Wide

/-! ## In front of many positions -/

/-- The stop is at least so far ahead. -/
def Ahead (d : Nat) (r : Range) : Prop :=
  0 < unitsOf r.step ∧ (d : Int) ≤ unitsOf r.stop - unitsOf r.position ∨
    unitsOf r.step < 0 ∧ (d : Int) ≤ unitsOf r.position - unitsOf r.stop

@[simp] theorem position_advance (r : Range) : r.advance.position = r.position + r.step := rfl

@[simp] theorem step_advance (r : Range) : r.advance.step = r.step := rfl

@[simp] theorem stop_advance (r : Range) : r.advance.stop = r.stop := rfl

/-- Sums with the step keep a property and are off by no more than the slack. -/
def Tame (P : Int → Prop) (u : Int) (m slack : Nat) : Prop :=
  ∀ w, P w → (w + u).natAbs ≤ m →
    P (roundedUnits (w + u)) ∧ (roundedUnits (w + u) - (w + u)).natAbs ≤ slack

/-- A range that goes on if its stop is ahead. -/
structure Paced (P : Int → Prop) (m : Nat) (r : Range) : Prop where
  difference : (r.stop - r.position).isFinite = true
  step : r.step.isFinite = true
  moved : (r.position != r.previous) = true
  holds : P (unitsOf r.position)
  reach_le : r.reach ≤ m

namespace Paced

theorem continues (h : r.Paced P m) {d : Nat} (ha : r.Ahead d) : r.continues = true := by
  obtain ⟨hstop, hposition⟩ := isFinite_of_sub h.difference
  have hzero : (0.0 : Float).isNaN = false ∧ key 0.0 = 0 := by decide
  have hstep : (r.step != 0.0) = true := by
    rw [bne_key (isNaN_of_isFinite h.step) hzero.1, hzero.2]
    have hpos := key_pos_iff h.step
    have hneg := key_neg_iff h.step
    unfold Ahead at ha
    omega
  have hproduct : 0.0 ≤ (r.stop - r.position) * r.step := by
    rw [zero_le_mul_iff h.difference h.step, unitsOf_sub h.difference]
    have hleast : 0 ≤ halfLeast := by decide
    refine (Int.neg_nonpos_of_nonneg hleast).trans ?_
    rcases ha with ⟨hu, hd⟩ | ⟨hu, hd⟩
    · refine mul_nonneg (not_lt.1 fun hlt => ?_) hu.le
      rw [roundedUnits_neg_iff] at hlt
      omega
    · refine mul_nonneg_of_nonpos_of_nonpos (not_lt.1 fun hlt => ?_) hu.le
      rw [roundedUnits_pos_iff] at hlt
      omega
  simp only [Range.continues, hposition, hstop, h.moved, hstep, hproduct, decide_true,
    Bool.and_true]

section Advance

variable {d : Nat} (h : r.Paced P m) (ht : Tame P (unitsOf r.step) m slack)
  (hs : slack < r.stride) (ha : r.Ahead (d + (r.stride + slack)))

include ha in
theorem natAbs_sum_le : (unitsOf r.position + unitsOf r.step).natAbs ≤ r.reach := by
  unfold Ahead stride at ha
  unfold reach
  omega

include h ha in
theorem isFinite_sum : (r.position + r.step).isFinite = true := by
  obtain ⟨hstop, hposition⟩ := isFinite_of_sub h.difference
  obtain ⟨hnan, hkey⟩ := key_add hposition h.step
  rcases le_max_iff.1 (natAbs_sum_le ha) with hle | hle
  · exact isFinite_of_natAbs_le hnan hkey hposition (roundCode_unitsOf hposition).symm hle
  · exact isFinite_of_natAbs_le hnan hkey hstop (roundCode_unitsOf hstop).symm hle

include h ht hs ha

/-- A step comes closer to the stop. -/
theorem ahead_advance : r.advance.Ahead d ∧ r.advance.reach ≤ r.reach ∧
    (0 < unitsOf r.step ∧ unitsOf r.position < unitsOf r.advance.position ∨
      unitsOf r.step < 0 ∧ unitsOf r.advance.position < unitsOf r.position) := by
  have hsum := unitsOf_add (h.isFinite_sum ha)
  have herror := (ht _ h.holds ((natAbs_sum_le ha).trans h.reach_le)).2
  rw [← hsum] at herror
  simp only [Ahead, stride, reach, position_advance, step_advance, stop_advance] at *
  omega

theorem advance : r.advance.Paced P m := by
  obtain ⟨hstop, hposition⟩ := isFinite_of_sub h.difference
  have hsum := h.isFinite_sum ha
  obtain ⟨hahead, hreach, hmoves⟩ := h.ahead_advance ht hs ha
  have hdifference := key_sub hstop hsum
  refine ⟨isFinite_of_natAbs_le hdifference.1 hdifference.2 h.difference
    (key_sub hstop hposition).2 ?_, h.step, ?_, ?_, hreach.trans h.reach_le⟩
  · simp only [Ahead, position_advance, step_advance, stop_advance] at ha hahead hmoves ⊢
    omega
  · refine (bne_key (isNaN_of_isFinite hsum) (isNaN_of_isFinite hposition)).2 fun hkey => ?_
    rw [position_advance, ← unitsOfCode_key hposition, ← unitsOfCode_key hsum, hkey] at hmoves
    omega
  · have hP := (ht _ h.holds ((natAbs_sum_le ha).trans h.reach_le)).1
    rwa [← unitsOf_add hsum] at hP

end Advance

/-- **A number of positions from what is ahead.** -/
theorem lt_length (h : r.Paced P m) (ht : Tame P (unitsOf r.step) m slack) (hs : slack < r.stride)
    (ha : r.Ahead (n * (r.stride + slack))) (hxs : r.Yields xs) : n < xs.length := by
  induction n generalizing r xs with
  | zero =>
    cases hxs with
    | done hnone =>
      rw [next?_of_continues (h.continues ha)] at hnone
      cases hnone
    | next => exact Nat.succ_pos _
  | succ n ih =>
    rw [Nat.succ_mul] at ha
    cases hxs with
    | done hnone =>
      rw [next?_of_continues (h.continues ha)] at hnone
      cases hnone
    | next hnext hmore =>
      obtain ⟨-, -, rfl⟩ := next?_eq_some hnext
      exact Nat.succ_lt_succ
        (ih (h.advance ht hs ha) ht hs (h.ahead_advance ht hs ha).1 hmore)

end Paced

/-! ## Where the quotient is right -/

theorem OnGrid.tame {j : Nat} (h : r.OnGrid j) :
    Tame (2 ^ j ∣ ·) (unitsOf r.step) r.reach 0 := by
  intro w hw hle
  have hsum : 2 ^ j ∣ w + unitsOf r.step := dvd_add hw h.step
  have hnat : 2 ^ j ∣ (w + unitsOf r.step).natAbs := by
    rw [← Int.natCast_dvd]
    exact_mod_cast hsum
  rw [roundedUnits_of_dvd hnat (hle.trans h.reach_le)]
  exact ⟨hsum, by omega⟩

theorem OnGrid.unitsOf_sub {j : Nat} (h : r.OnGrid j) (hf : (r.stop - r.position).isFinite = true) :
    unitsOf (r.stop - r.position) = unitsOf r.stop - unitsOf r.position := by
  have hdifference : 2 ^ j ∣ unitsOf r.stop - unitsOf r.position := dvd_sub h.stop h.position
  have hnat : 2 ^ j ∣ (unitsOf r.stop - unitsOf r.position).natAbs := by
    rw [← Int.natCast_dvd]
    exact_mod_cast hdifference
  rw [Number.unitsOf_sub hf, roundedUnits_of_dvd hnat h.distance_le]

theorem tame_error (u : Int) (m : Nat) : Tame (fun _ => True) u m (m / 2 ^ 53) := by
  intro w _ hle
  have herror := roundedUnits_error (w + u)
  exact ⟨trivial, by omega⟩

/-- **A range that is refused is too long**, where the quotient is right. -/
theorem Measured.lt_length (h : r.Measured) (hr : r.Refused)
    (hmoved : (r.position != r.previous) = true) (hxs : r.Yields xs) :
    maxVectorLength < xs.length := by
  obtain ⟨hdifference, hstep, hquotient⟩ := le_unitsOf_of_quotient hr.1 hr.2
  rcases h hr with ⟨j, hgrid⟩ | hwide
  · rw [hgrid.unitsOf_sub hdifference] at hquotient
    refine Paced.lt_length ⟨hdifference, hstep, hmoved, hgrid.position, le_refl _⟩ hgrid.tame
      ?_ ?_ hxs
    · unfold stride
      omega
    · unfold Ahead stride maxVectorLength
      omega
  · have hsign := Number.unitsOf_sub hdifference
    have hpos := @roundedUnits_pos_iff (unitsOf r.stop - unitsOf r.position)
    have hneg := @roundedUnits_neg_iff (unitsOf r.stop - unitsOf r.position)
    obtain ⟨hreach, hroom⟩ := hwide
    refine Paced.lt_length ⟨hdifference, hstep, hmoved, trivial, le_refl _⟩
      (tame_error _ _) ?_ ?_ hxs
    · omega
    · unfold Ahead maxVectorLength distance at *
      omega

/-- **The vector of a range whose quotient is right** has its positions, unless they are too
many. -/
theorem Measured.values_eq {start step stop : Float} (h : (ofBounds start step stop).Measured)
    (hxs : (ofBounds start step stop).Yields xs) :
    (ofBounds start step stop).values =
      if xs.length ≤ maxVectorLength then .ok xs else .error (.vectorTooLong maxVectorLength) := by
  have hlength : (ofBounds start step stop).Refused → maxVectorLength < xs.length :=
    fun hr => h.lt_length hr (bne_nan _) hxs
  rw [hxs.values_eq]
  by_cases hn : xs.length ≤ maxVectorLength
  · have hnot : ¬ ((ofBounds start step stop).Refused ∨ maxVectorLength < xs.length) := by
      rintro (hr | hr)
      · exact (hlength hr).not_ge hn
      · exact hr.not_ge hn
    rw [if_pos hn, if_neg hnot]
  · rw [if_neg hn, if_pos (.inr (not_le.1 hn))]

end FormulaLang.Range
