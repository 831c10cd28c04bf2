/-!
# Kinds of values

* `Kind`: what sort of value a value is.
* `Kind.name`: its name in messages and in `typeof`.
-/

namespace FormulaLang

/-- What sort of value a value is. -/
inductive Kind where
  | void
  | invalid
  | bool
  | number
  | string
  | boolVector
  | numberVector
  | stringVector
  | boolMatrix
  | numberMatrix
  | list
  | struct
  deriving DecidableEq, Repr

/-- The name of a kind. -/
def Kind.name : Kind → String
  | .void => "void"
  | .invalid => "invalid"
  | .bool => "bool"
  | .number => "number"
  | .string => "string"
  | .boolVector => "bool vector"
  | .numberVector => "number vector"
  | .stringVector => "string vector"
  | .boolMatrix => "bool matrix"
  | .numberMatrix => "number matrix"
  | .list => "list"
  | .struct => "struct"

end FormulaLang
