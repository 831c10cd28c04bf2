import FormulaLang.Number.Shortest
import FormulaLang.Value

/-!
# The text of values

* `separated`: the elements of a vector or matrix in brackets.
* `Value.text`: the text of a value. Strings are quoted inside other values only.
-/

namespace FormulaLang

def boolText (b : Bool) : String := if b then "true" else "false"

/-- Joins elements by commas, and by semicolons between the rows of a matrix. -/
def separated (columns : Nat) (items : List String) : String :=
  let line := items.zipIdx.foldl (fun acc (item, i) =>
    if i = 0 then item
    else if columns ≠ 0 ∧ i % columns = 0 then acc ++ "; " ++ item
    else acc ++ ", " ++ item) ""
  "[" ++ line ++ "]"

/-- A string between quotes, as it is. -/
def quote (s : String) : String := "\"" ++ s ++ "\""

namespace Value

mutual

/-- The text of a value. -/
def text : Value → String
  | void => "void"
  | invalid => "invalid"
  | bool b => boolText b
  | number x => Number.text x
  | string s => s
  | boolVector v => separated 0 (v.map boolText)
  | numberVector v => separated 0 (v.map Number.text)
  | stringVector v => separated 0 (v.map quote)
  | boolMatrix v columns => separated columns (v.map boolText)
  | numberMatrix v columns => separated columns (v.map Number.text)
  | list items => "\x7b" ++ ", ".intercalate (itemTexts items) ++ "\x7d"
  | struct members => "\x7b" ++ ", ".intercalate (memberTexts members) ++ "\x7d"

/-- The texts of list items. -/
def itemTexts : List Value → List String
  | [] => []
  | string s :: rest => quote s :: itemTexts rest
  | v :: rest => text v :: itemTexts rest

/-- The texts of members with their names. -/
def memberTexts : List (String × Value) → List String
  | [] => []
  | (name, string s) :: rest => (name ++ ": " ++ quote s) :: memberTexts rest
  | (name, v) :: rest => (name ++ ": " ++ text v) :: memberTexts rest

end

end Value

end FormulaLang
