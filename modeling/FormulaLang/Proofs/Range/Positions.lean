import FormulaLang.Proofs.Number.Product
import FormulaLang.Proofs.Range

/-!
# The positions of a range

Asking a range for its positions comes to an end, and every position lies strictly behind the one
before in the direction of the step.

* `Range.Yields`: the positions of a range one by one, and then no more.
* `Range.exists_yields`: no range has more positions than `Range.rounds`.
* `Range.Behind`, `Range.behind_advance`: one position and the next.
* `Range.Yields.pairwise`: any two positions.
* **`Range.exists_positions`**: every range is finite, and strictly monotone.
-/

namespace FormulaLang.Range

open Number

variable {r r' : Range} {x : Float} {xs : List Float}

/-- Asked again and again, the range gives these positions and then none. -/
inductive Yields : Range → List Float → Prop where
  | done {r : Range} (h : r.next? = none) : Yields r []
  | next {r r' : Range} {x : Float} {xs : List Float} (h : r.next? = some (x, r'))
      (hmore : Yields r' xs) : Yields r (x :: xs)

theorem next?_eq_some (h : r.next? = some (x, r')) :
    r.continues = true ∧ x = r.position ∧ r' = r.advance := by
  cases hr : r.continues with
  | false =>
    rw [next?_of_not_continues hr] at h
    cases h
  | true =>
    rw [next?_of_continues hr] at h
    cases h
    exact ⟨rfl, rfl, rfl⟩

/-- **Every range comes to an end.** -/
theorem exists_yields (r : Range) : ∃ xs, r.Yields xs ∧ xs.length ≤ r.rounds := by
  induction hn : r.rounds using Nat.strong_induction_on generalizing r with
  | h n ih =>
    subst hn
    cases hr : r.continues with
    | false => exact ⟨[], .done (next?_of_not_continues hr), Nat.zero_le _⟩
    | true =>
      have hlt := rounds_advance_lt hr
      obtain ⟨xs, hxs, hlength⟩ := ih _ hlt _ rfl
      refine ⟨r.position :: xs, .next (next?_of_continues hr) hxs, ?_⟩
      rw [List.length_cons]
      omega

/-! ## Strictly monotone positions -/

/-- `y` lies behind `x` in the direction of the step. -/
def Behind (step x y : Float) : Prop := if 0 ≤ key step then key x < key y else key y < key x

instance (step : Float) : Trans (Behind step) (Behind step) (Behind step) where
  trans {x y z} hxy hyz := by
    unfold Behind at *
    split_ifs at * <;> omega

/-- A further position lies behind the one before. -/
theorem behind_advance (h : r.advance.continues = true) :
    Behind r.step r.position r.advance.position := by
  have hp := isFinite_position h
  have hne := position_ne h
  dsimp only [advance] at hp hne ⊢
  have hstep := key_neg_iff (isFinite_of_add hp).2
  unfold Behind
  rcases key_lt_add hp hne with ⟨hu, hlt⟩ | ⟨hu, hlt⟩
  · have hpos : 0 ≤ key r.step := by omega
    rwa [if_pos hpos]
  · have hneg : ¬ 0 ≤ key r.step := by omega
    rwa [if_neg hneg]

theorem Yields.isFinite (h : r.Yields xs) : ∀ x ∈ xs, x.isFinite = true := by
  induction h with
  | done => nofun
  | next h _ ih =>
    obtain ⟨hr, rfl, rfl⟩ := next?_eq_some h
    exact List.forall_mem_cons.2 ⟨isFinite_position hr, ih⟩

theorem Yields.pairwise (h : r.Yields xs) : xs.Pairwise (Behind r.step) := by
  rw [← List.isChain_iff_pairwise]
  induction h with
  | done => exact .nil
  | next h hmore ih =>
    obtain ⟨-, rfl, rfl⟩ := next?_eq_some h
    cases hmore with
    | done => exact .singleton _
    | next h' hmore' =>
      obtain ⟨hr, rfl, -⟩ := next?_eq_some h'
      exact .cons_cons (behind_advance hr) ih

/-- **Every range is finite**, and its positions move strictly in the direction of the step. -/
theorem exists_positions (start step stop : Float) :
    ∃ xs, (ofBounds start step stop).Yields xs ∧ xs.length ≤ bound ∧
      (0.0 < step → xs.Pairwise (· < ·)) ∧ (step < 0.0 → xs.Pairwise (· > ·)) := by
  obtain ⟨xs, hxs, hlength⟩ := exists_yields (ofBounds start step stop)
  have hnan : ∀ x ∈ xs, x.isNaN = false := fun x hx => isNaN_of_isFinite (hxs.isFinite x hx)
  have hpairs : xs.Pairwise (Behind step) := hxs.pairwise
  refine ⟨xs, hxs, hlength.trans rounds_le_bound, fun hstep => ?_, fun hstep => ?_⟩
  · have hpos : 0 < key step := key_lt_of_lt hstep
    refine hpairs.imp_of_mem fun {x y} hx hy h => (lt_iff (hnan x hx) (hnan y hy)).2 ?_
    rwa [Behind, if_pos hpos.le] at h
  · have hneg : key step < 0 := key_lt_of_lt hstep
    refine hpairs.imp_of_mem fun {x y} hx hy h => (lt_iff (hnan y hy) (hnan x hx)).2 ?_
    rwa [Behind, if_neg (not_le.2 hneg)] at h

end FormulaLang.Range
