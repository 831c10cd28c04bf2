import FormulaLang.Proofs.Number.Order
import FormulaLang.Range

/-!
# Ranges are finite

While a range goes on, its positions move in one direction through the doubles.

* `Range.advance`: the range behind its next position.
* `Range.room`: how many doubles lie ahead, at most.
* **`Range.room_advance_lt`**: every further position takes from that.
* `Range.rounds`: a bound on the positions that are left, with `Range.rounds_advance_lt`.
-/

namespace FormulaLang.Range

open Number

variable {r : Range}

/-- The range behind its next position. -/
def advance (r : Range) : Range :=
  { r with position := r.position + r.step, previous := r.position }

theorem next?_of_continues (h : r.continues = true) : r.next? = some (r.position, r.advance) := by
  rw [next?, if_pos h]
  rfl

theorem next?_of_not_continues (h : r.continues = false) : r.next? = none := by
  rw [next?, h]
  rfl

/-- How many doubles lie ahead in the direction of the step. -/
def room (r : Range) : Nat :=
  if 0 ≤ unitsOf r.step then (infinityCode - key r.position).toNat
  else (infinityCode + key r.position).toNat

theorem isFinite_position (h : r.continues = true) : r.position.isFinite = true := by
  simp only [continues, Bool.and_eq_true] at h
  exact h.1.1.1.1

theorem position_ne (h : r.continues = true) : (r.position != r.previous) = true := by
  simp only [continues, Bool.and_eq_true] at h
  exact h.1.1.2

theorem room_le (h : r.continues = true) : r.room < 2 * infinityCode := by
  have hp := isFinite_position h
  have := (isFinite_iff (isNaN_of_isFinite hp)).1 hp
  unfold room
  split_ifs <;> omega

/-- **A further position takes from the room ahead.** -/
theorem room_advance_lt (h : r.advance.continues = true) : r.advance.room < r.room := by
  have hp := isFinite_position h
  have hne := position_ne h
  dsimp only [advance] at hp hne
  have hx := (isFinite_of_add hp).1
  have hkey := (isFinite_iff (isNaN_of_isFinite hx)).1 hx
  have hroom : r.advance.room = if 0 ≤ unitsOf r.step then
      (infinityCode - key (r.position + r.step)).toNat
    else (infinityCode + key (r.position + r.step)).toNat := rfl
  rw [hroom, room]
  rcases key_lt_add hp hne with ⟨hu, hlt⟩ | ⟨hu, hlt⟩
  · rw [if_pos hu, if_pos hu]
    omega
  · rw [if_neg (not_le.2 hu), if_neg (not_le.2 hu)]
    omega

/-- A bound on the positions that are left. -/
def rounds (r : Range) : Nat := if r.continues then r.room + 1 else 0

theorem rounds_advance_lt (h : r.continues = true) : r.advance.rounds < r.rounds := by
  unfold rounds
  rw [if_pos h]
  split_ifs with h'
  · have := room_advance_lt h'
    omega
  · omega

theorem rounds_le_bound : r.rounds ≤ bound := by
  unfold rounds
  split_ifs with h
  · have := room_le h
    have : 2 * infinityCode ≤ bound := by decide
    omega
  · exact Nat.zero_le _

end FormulaLang.Range
