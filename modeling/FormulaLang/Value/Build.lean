import FormulaLang.Fault
import FormulaLang.Value

/-!
# Building vectors and matrices

* `Value.concat`: the vector of a literal, in which nested vectors are flattened.
* `Value.ofRows`: the matrix of a literal.
* `Value.collect`: the vector or list of loop results.
-/

namespace FormulaLang.Value

/-- The strings that an item adds to a string vector. -/
def stringPart? : Value → Option (List String)
  | string s => some [s]
  | stringVector v => some v
  | _ => none

/-- The truth values that an item adds to a bool vector. -/
def boolPart? : Value → Option (List Bool)
  | bool b => some [b]
  | boolVector v | boolMatrix v _ => some v
  | _ => none

/-- The numbers that an item adds to a number vector; bools count as one and zero. -/
def numberPart : Value → Except Fault (List Float)
  | number x => .ok [x]
  | bool b => .ok [Number.ofBool b]
  | numberVector v | numberMatrix v _ => .ok v
  | boolVector v | boolMatrix v _ => .ok (v.map Number.ofBool)
  | other => .error (.vectorElement other.kind)

/-- The vector of items: strings if all are strings, bools if all are bools, else numbers. -/
def concat (items : List Value) : Except Fault Value :=
  if items.any isInvalid then .ok invalid
  else if items.isEmpty then .ok (numberVector [])
  else
    match items.mapM stringPart?, items.mapM boolPart? with
    | some parts, _ => .ok (stringVector parts.flatten)
    | none, some parts => .ok (boolVector parts.flatten)
    | none, none => (items.mapM numberPart).map fun parts => numberVector parts.flatten

/-- The vectors of several rows; `none` from the first invalid one on. -/
def concatRows : List (List Value) → Except Fault (Option (List Value))
  | [] => .ok (some [])
  | row :: rows =>
    match concat row with
    | .error e => .error e
    | .ok v => if v.isInvalid then .ok none else (concatRows rows).map (·.map (v :: ·))

/-- The bools of a bool vector. -/
def boolRow? : Value → Option (List Bool)
  | boolVector v => some v
  | _ => none

/-- Joins rows that are vectors of one length. -/
def joinRows (rows : List Value) (columns : Nat) : Except Fault Value :=
  match rows.mapM boolRow? with
  | some parts => .ok (boolMatrix parts.flatten columns)
  | none => (rows.mapM numberPart).map fun parts => numberMatrix parts.flatten columns

/-- The matrix of rows, which must come out equally long. -/
def ofRows (rows : List (List Value)) : Except Fault Value :=
  match concatRows rows with
  | .error e => .error e
  | .ok none => .ok invalid
  | .ok (some rows) =>
    let columns := (rows.head?.map length).getD 0
    match rows.find? fun row => row.length != columns with
    | some row => .error (.lengthMismatch "[;]" columns row.length)
    | none => joinRows rows columns

def number? : Value → Option Float
  | number x => some x
  | _ => none

def bool? : Value → Option Bool
  | bool b => some b
  | _ => none

/-- Packs results: numbers, bools or strings become a vector, anything else a list. No results
give an empty number vector. -/
def collect (items : List Value) : Value :=
  match items.mapM number? with
  | some xs => numberVector xs
  | none =>
    match items.mapM bool? with
    | some bs => boolVector bs
    | none =>
      match items.mapM asString? with
      | some ss => stringVector ss
      | none => list items

end FormulaLang.Value
