import FormulaLang.Fault
import FormulaLang.Number.Basic
import FormulaLang.Value

/-!
# Ranges

The range from `start` by `step` to `stop` begins at `start` and repeatedly adds `step`. It ends
behind `stop`, at a position that is not finite, and where adding `step` changes nothing.

* `Range`, `Range.continues`, `Range.next?`: the positions one by one.
* `Range.take`: some of the first positions.
* `Range.bound`: a number of steps behind which no range goes on.
* `Range.values`: all positions, unless they are too many for a vector.
-/

namespace FormulaLang

/-- The rest of a range: its next position and the one before, which is a NaN at the start. -/
structure Range where
  position : Float
  previous : Float
  step : Float
  stop : Float

namespace Range

/-- The range from `start` by `step` to `stop`. -/
def ofBounds (start step stop : Float) : Range := ⟨start, Number.nan, step, stop⟩

/-- The next position belongs to the range. A step of zero or a NaN has no positions. -/
def continues (r : Range) : Bool :=
  r.position.isFinite && r.stop.isFinite && r.position != r.previous && r.step != 0.0 &&
    decide (0.0 ≤ (r.stop - r.position) * r.step)

/-- The next position and the range behind it. -/
def next? (r : Range) : Option (Float × Range) :=
  if r.continues then
    some (r.position, { r with position := r.position + r.step, previous := r.position })
  else none

/-- The first positions, at most `n`. -/
def take : Nat → Range → List Float
  | 0, _ => []
  | n + 1, r =>
    match r.next? with
    | some (x, rest) => x :: take n rest
    | none => []

/-- Positions move in the direction of the step and never stay in place, so none comes twice, and
there are no more doubles than patterns of 64 bits. -/
def bound : Nat := UInt64.size

/-- Appends the positions to `acc`, unless there are more than `n`. -/
def appendUpTo : Nat → Range → Array Float → Option (Array Float)
  | n, r, acc =>
    match r.next? with
    | none => some acc
    | some (x, rest) =>
      match n with
      | 0 => none
      | n + 1 => appendUpTo n rest (acc.push x)

/-- The positions as a vector. A range that is much too long is refused before it is run through. -/
def values (r : Range) : Except Fault (List Float) :=
  let estimate := (r.stop - r.position) / r.step
  if estimate.isFinite && decide (Float.ofNat maxVectorLength ≤ estimate) then
    .error (.vectorTooLong maxVectorLength)
  else
    match appendUpTo maxVectorLength r #[] with
    | some xs => .ok xs.toList
    | none => .error (.vectorTooLong maxVectorLength)

end Range

end FormulaLang
