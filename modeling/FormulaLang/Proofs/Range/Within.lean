import FormulaLang.Proofs.Range.Positions

/-!
# Positions and the ends of a range

A range goes on while the product of the distance to its stop with its step is not negative. All
positions lie behind the start. They lie in front of the stop as long as this product has the sign
of its exact value: a position past the stop is reached only where the exact product is so small
that it is rounded to zero.

* `Range.Slips`, `Range.Past`: what is past the stop, and by so little.
* `Range.slips_of_past`, `Range.Slips.step_le`: one position and the stop.
* `Range.Yields.slips`, `Range.Yields.behind`: all positions.
* **`Range.exists_positions_within`**: positions and the ends, and ranges without positions.
* `Range.yields_tinyStep`: a range that runs past its stop.
-/

namespace FormulaLang.Range

open Number

variable {r : Range} {x : Float} {xs : List Float}

/-! ## One position -/

/-- The distance from `x` to the stop times the step is above `-2 ^ -1075`, the half of the least
positive double, so that a negative product is rounded to zero. -/
structure Slips (step stop x : Float) : Prop where
  finite_distance : (stop - x).isFinite = true
  finite_step : step.isFinite = true
  small : -halfLeast ≤ unitsOf (stop - x) * unitsOf step

theorem isFinite_stop (h : r.continues = true) : r.stop.isFinite = true := by
  simp only [continues, Bool.and_eq_true] at h
  exact h.1.1.1.2

theorem zero_le_distance (h : r.continues = true) :
    0.0 ≤ (r.stop - r.position) * r.step := by
  simp only [continues, Bool.and_eq_true, decide_eq_true_eq] at h
  exact h.2

/-- In the direction of the step the number `x` lies past the stop. -/
def Past (step stop x : Float) : Prop :=
  0 < key step ∧ key stop < key x ∨ key step < 0 ∧ key x < key stop

/-- **A position past the stop** is there because the product is rounded to zero. -/
theorem slips_of_past (h : r.continues = true) (hpast : Past r.step r.stop r.position) :
    Slips r.step r.stop r.position := by
  have hx := isFinite_position h
  have hstop := isFinite_stop h
  have hle := zero_le_distance h
  have hsign : key (r.stop - r.position) < 0 ∧ 0 < key r.step ∨
      0 < key (r.stop - r.position) ∧ key r.step < 0 := by
    rcases hpast with ⟨hstep, hlt⟩ | ⟨hstep, hlt⟩
    · exact .inl ⟨(key_sub_neg hstop hx hlt).1, hstep⟩
    · exact .inr ⟨(key_sub_neg hx hstop hlt).2, hstep⟩
  obtain ⟨hdistance, hfinite⟩ := not_not.1 fun hinf => not_zero_le_mul hsign hinf hle
  exact ⟨hdistance, hfinite, (zero_le_mul_iff hdistance hfinite).1 hle⟩

theorem unitsOf_half : unitsOf 0.5 = halfLeast ∧ unitsOf (-0.5) = -halfLeast := by decide +kernel

/-- Only a step of at most a half makes the product as small as that. -/
theorem Slips.step_le {step stop : Float} (h : Slips step stop x) (hx : x.isFinite = true)
    (hstop : stop.isFinite = true) (hpast : Past step stop x) : -0.5 ≤ step ∧ step ≤ 0.5 := by
  obtain ⟨hdistance, hstep, hsmall⟩ := h
  have hleast : 0 ≤ halfLeast := by decide
  have hunits : -halfLeast ≤ unitsOf step ∧ unitsOf step ≤ halfLeast := by
    rcases hpast with ⟨hsign, hlt⟩ | ⟨hsign, hlt⟩
    · have hneg := (key_neg_iff hdistance).1 (key_sub_neg hstop hx hlt).1
      have hpos := (key_pos_iff hstep).1 hsign
      have hmul : unitsOf (stop - x) * unitsOf step ≤ -1 * unitsOf step :=
        Int.mul_le_mul_of_nonneg_right (by omega) hpos.le
      omega
    · have hpos := (key_pos_iff hdistance).1 (key_sub_neg hx hstop hlt).2
      have hneg := (key_neg_iff hstep).1 hsign
      have hmul : unitsOf (stop - x) * unitsOf step ≤ 1 * unitsOf step :=
        Int.mul_le_mul_of_nonpos_right (by omega) hneg.le
      omega
  have hhalf : (0.5 : Float).isFinite = true ∧ (-0.5 : Float).isFinite = true := ⟨rfl, rfl⟩
  rw [le_iff (isNaN_of_isFinite hhalf.2) (isNaN_of_isFinite hstep),
    le_iff (isNaN_of_isFinite hstep) (isNaN_of_isFinite hhalf.1), ← roundCode_unitsOf hhalf.1,
    ← roundCode_unitsOf hhalf.2, ← roundCode_unitsOf hstep, unitsOf_half.1, unitsOf_half.2]
  exact ⟨roundCode_mono hunits.1, roundCode_mono hunits.2⟩

/-! ## All positions -/

/-- Every position that is past the stop slips. -/
theorem Yields.slips (h : r.Yields xs) : ∀ x ∈ xs, Past r.step r.stop x →
    Slips r.step r.stop x ∧ -0.5 ≤ r.step ∧ r.step ≤ 0.5 := by
  induction h with
  | done => nofun
  | next h _ ih =>
    obtain ⟨hr, rfl, rfl⟩ := next?_eq_some h
    refine List.forall_mem_cons.2 ⟨fun hpast => ?_, ih⟩
    have hslips := slips_of_past hr hpast
    exact ⟨hslips, hslips.step_le (isFinite_position hr) (isFinite_stop hr) hpast⟩

/-- Every position is the first one or lies behind it. -/
theorem Yields.behind (h : r.Yields xs) : ∀ x ∈ xs, x = r.position ∨ Behind r.step r.position x := by
  have hpairs := h.pairwise
  cases h with
  | done => nofun
  | next h _ =>
    obtain ⟨-, rfl, -⟩ := next?_eq_some h
    exact List.forall_mem_cons.2 ⟨.inl rfl, fun x hx => .inr ((List.pairwise_cons.1 hpairs).1 x hx)⟩

/-- Without a step and beyond the finite numbers there are no positions. -/
theorem continues_eq_false (h : r.step == 0.0 ∨ r.step.isNaN ∨ r.position.isFinite = false ∨
    r.stop.isFinite = false) : r.continues = false := by
  by_contra hc
  rw [Bool.not_eq_false] at hc
  rcases h with h | h | h | h
  · simp only [continues, Bool.and_eq_true, bne, h] at hc
    simp at hc
  · have hnan := (isNaN_of_le (zero_le_distance hc)).2
    have hmul : (r.stop - r.position) * nan = nan := (@BinaryOp.apply_nan .mul rfl _).2
    rw [isNaN_iff.1 h, hmul] at hnan
    cases hnan
  · rw [isFinite_position hc] at h
    cases h
  · rw [isFinite_stop hc] at h
    cases h

/-- **Positions and the ends of a range.** No position lies in front of the start, and one past the
stop is there only where the distance times the step is rounded to zero, which no step beyond a
half allows. A range by zero or a NaN has no positions, nor has one with an end that is not
finite. -/
theorem exists_positions_within (start step stop : Float) :
    ∃ xs, (ofBounds start step stop).Yields xs ∧
      (∀ x ∈ xs, 0.0 < step → start ≤ x ∧ (x ≤ stop ∨ Slips step stop x ∧ step ≤ 0.5)) ∧
      (∀ x ∈ xs, step < 0.0 → x ≤ start ∧ (stop ≤ x ∨ Slips step stop x ∧ -0.5 ≤ step)) ∧
      (step == 0.0 ∨ step.isNaN ∨ start.isFinite = false ∨ stop.isFinite = false → xs = []) := by
  obtain ⟨xs, hxs, -⟩ := exists_yields (ofBounds start step stop)
  cases hc : (ofBounds start step stop).continues with
  | false =>
    refine ⟨[], .done (next?_of_not_continues hc), nofun, nofun, fun _ => rfl⟩
  | true =>
    have hstart := isNaN_of_isFinite (isFinite_position hc)
    have hstop := isNaN_of_isFinite (isFinite_stop hc)
    dsimp only [ofBounds] at hstart hstop
    have hnan : ∀ x ∈ xs, x.isNaN = false := fun x hx => isNaN_of_isFinite (hxs.isFinite x hx)
    have hbehind : ∀ x ∈ xs, x = start ∨ Behind step start x := hxs.behind
    have hslips : ∀ x ∈ xs, Past step stop x → Slips step stop x ∧ -0.5 ≤ step ∧ step ≤ 0.5 :=
      hxs.slips
    refine ⟨xs, hxs, fun x hx hstep => ?_, fun x hx hstep => ?_, fun hnone => ?_⟩
    · have hsign : 0 < key step := key_lt_of_lt hstep
      rw [le_iff hstart (hnan x hx), le_iff (hnan x hx) hstop]
      refine ⟨?_, ?_⟩
      · rcases hbehind x hx with rfl | hlt
        · exact le_refl _
        · rw [Behind, if_pos hsign.le] at hlt
          exact hlt.le
      · refine (le_or_gt _ _).imp_right fun hlt => ?_
        obtain ⟨hslip, -, hle⟩ := hslips x hx (.inl ⟨hsign, hlt⟩)
        exact ⟨hslip, hle⟩
    · have hsign : key step < 0 := key_lt_of_lt hstep
      rw [le_iff (hnan x hx) hstart, le_iff hstop (hnan x hx)]
      refine ⟨?_, ?_⟩
      · rcases hbehind x hx with rfl | hlt
        · exact le_refl _
        · rw [Behind, if_neg (not_le.2 hsign)] at hlt
          exact hlt.le
      · refine (le_or_gt _ _).imp_right fun hlt => ?_
        obtain ⟨hslip, hle, -⟩ := hslips x hx (.inr ⟨hsign, hlt⟩)
        exact ⟨hslip, hle⟩
    · rw [continues_eq_false (r := ofBounds start step stop) hnone] at hc
      cases hc

/-- The range from zero to zero by `1e-162` runs past its stop: even the square of `1e-162` is rounded
to zero, and so is twice this square. -/
theorem yields_tinyStep : (ofBounds 0.0 1e-162 0.0).Yields [0.0, 1e-162, 2e-162] ∧
    0.0 < 1e-162 ∧ ¬ (1e-162 : Float) ≤ 0.0 := by
  have hnext : ∀ (r : Range) (x : Float), r.continues = true → r.position = x →
      r.next? = some (x, r.advance) := by
    rintro r x hr rfl
    exact next?_of_continues hr
  refine ⟨.next (hnext _ _ ?_ ?_) (.next (hnext _ _ ?_ ?_) (.next (hnext _ _ ?_ ?_)
    (.done (next?_of_not_continues ?_)))), ?_, ?_⟩
  all_goals decide +kernel

end FormulaLang.Range
