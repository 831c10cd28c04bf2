/-!
# Numbers

Numbers are doubles. This module names the special ones and the elementary functions that core
does not provide.

* `nan`, `infinity`, `ofBool`, `isTrue`.
* `truncate`, `least`, `greatest`.
-/

namespace FormulaLang.Number

/-- The not-a-number value. -/
def nan : Float := 0.0 / 0.0

/-- Positive infinity. -/
def infinity : Float := 1.0 / 0.0

/-- Truth values count as one and zero. -/
def ofBool (b : Bool) : Float := if b then 1.0 else 0.0

/-- Every number but zero counts as true, a NaN too. -/
def isTrue (x : Float) : Bool := x != 0.0

/-- Negative zero, which equals zero but is written with its sign. -/
def isNegativeZero (x : Float) : Bool := x == 0.0 && x.toBits != 0

/-- The integer nearest to `x` on the side of zero. -/
def truncate (x : Float) : Float := if x < 0.0 then x.ceil else x.floor

/-- The smaller number; a NaN gives way to the other one. -/
def least (a b : Float) : Float :=
  if a.isNaN then b else if b.isNaN then a else if b < a then b else a

/-- The larger number; a NaN gives way to the other one. -/
def greatest (a b : Float) : Float :=
  if a.isNaN then b else if b.isNaN then a else if a < b then b else a

end FormulaLang.Number
