import FormulaLang.Kind
import FormulaLang.Number.Basic

/-!
# Values

* `Value`: the result of evaluating a formula.
* `Value.kind`, `Value.length`, `Value.shape?`: its kind and size.
* `Value.asNumber?`, `Value.asBool?`, `Value.asString?`, `Value.items?`: views of a value.
* `Value.same`: equality of values, in which a NaN differs from itself.
* `Members`: the members of a struct, in the order of their names.
-/

namespace FormulaLang

/-- A value. A matrix is stored row by row; the length of its data is a multiple of the column
count. The members of a struct stand in the order of their names. -/
inductive Value where
  /-- No value, such as the result of a function definition. -/
  | void
  /-- The result of a failed operation, which absorbs every further one. -/
  | invalid
  | bool (b : Bool)
  | number (x : Float)
  | string (s : String)
  | boolVector (items : List Bool)
  | numberVector (items : List Float)
  | stringVector (items : List String)
  | boolMatrix (data : List Bool) (columns : Nat)
  | numberMatrix (data : List Float) (columns : Nat)
  | list (items : List Value)
  | struct (members : List (String × Value))

instance : Inhabited Value := ⟨.void⟩

/-- The longest vector that a range, a loop or an element write may produce: `2 ^ 24`. -/
def maxVectorLength : Nat := 16777216

/-- The members of a struct. -/
abbrev Members := List (String × Value)

namespace Members

/-- Binds a name; members stay in order and an earlier binding of the name gives way. -/
def insert (name : String) (value : Value) : Members → Members
  | [] => [(name, value)]
  | (n, v) :: rest =>
    if name < n then (name, value) :: (n, v) :: rest
    else if name = n then (name, value) :: rest
    else (n, v) :: insert name value rest

/-- The members of a sequence of bindings, of which the last one of a name counts. -/
def ofPairs (pairs : List (String × Value)) : Members :=
  pairs.foldl (fun ms p => ms.insert p.1 p.2) []

/-- The value bound to a name. -/
def get? (ms : Members) (name : String) : Option Value :=
  (ms.find? fun m => m.1 == name).map Prod.snd

end Members

/-- A matrix of `length` elements may have this many columns. -/
def fitsColumns (length columns : Nat) : Bool :=
  if columns = 0 then length == 0 else length % columns == 0

namespace Value

def kind : Value → Kind
  | void => .void
  | invalid => .invalid
  | bool _ => .bool
  | number _ => .number
  | string _ => .string
  | boolVector _ => .boolVector
  | numberVector _ => .numberVector
  | stringVector _ => .stringVector
  | boolMatrix .. => .boolMatrix
  | numberMatrix .. => .numberMatrix
  | list _ => .list
  | struct _ => .struct

def isInvalid : Value → Bool
  | invalid => true
  | _ => false

@[simp] theorem isInvalid_iff {v : Value} : v.isInvalid = true ↔ v = invalid := by
  cases v <;> simp [isInvalid]

/-- The number of elements: one for a scalar, the characters of a string, none for void and
invalid. -/
def length : Value → Nat
  | void | invalid => 0
  | bool _ | number _ => 1
  | string s => s.length
  | boolVector v | boolMatrix v _ => v.length
  | numberVector v | numberMatrix v _ => v.length
  | stringVector v => v.length
  | list v => v.length
  | struct ms => ms.length

/-- Rows and columns of a matrix. -/
def shape? : Value → Option (Nat × Nat)
  | boolMatrix v columns => some (v.length / columns, columns)
  | numberMatrix v columns => some (v.length / columns, columns)
  | _ => none

/-- A number matrix, if the columns divide the data. -/
def numberMatrix? (data : List Float) (columns : Nat) : Option Value :=
  if fitsColumns data.length columns then some (numberMatrix data columns) else none

/-- A bool matrix, if the columns divide the data. -/
def boolMatrix? (data : List Bool) (columns : Nat) : Option Value :=
  if fitsColumns data.length columns then some (boolMatrix data columns) else none

/-- The number of a scalar; bools count as one and zero. -/
def asNumber? : Value → Option Float
  | number x => some x
  | bool b => some (Number.ofBool b)
  | _ => none

/-- The truth value of a scalar; every number but zero is true. -/
def asBool? : Value → Option Bool
  | bool b => some b
  | number x => some (Number.isTrue x)
  | _ => none

def asString? : Value → Option String
  | string s => some s
  | _ => none

/-- What a loop over the value iterates over; a scalar is a single item. -/
def items? : Value → Option (List Value)
  | bool b => some [bool b]
  | number x => some [number x]
  | string s => some [string s]
  | boolVector v | boolMatrix v _ => some (v.map bool)
  | numberVector v | numberMatrix v _ => some (v.map number)
  | stringVector v => some (v.map string)
  | list v => some v
  | void | invalid | struct _ => none

mutual

/-- Equality of values of one kind; numbers are compared as numbers, so that a NaN differs from
itself and the two zeros agree. -/
def same : Value → Value → Bool
  | void, void => true
  | invalid, invalid => true
  | bool a, bool b => a == b
  | number a, number b => a == b
  | string a, string b => a == b
  | boolVector a, boolVector b => a == b
  | numberVector a, numberVector b => a == b
  | stringVector a, stringVector b => a == b
  | boolMatrix a m, boolMatrix b n => a == b && m == n
  | numberMatrix a m, numberMatrix b n => a == b && m == n
  | list a, list b => sameItems a b
  | struct a, struct b => sameMembers a b
  | _, _ => false

/-- Equality of the items of two lists. -/
def sameItems : List Value → List Value → Bool
  | [], [] => true
  | a :: as, b :: bs => same a b && sameItems as bs
  | _, _ => false

/-- Equality of the members of two structs. -/
def sameMembers : List (String × Value) → List (String × Value) → Bool
  | [], [] => true
  | (m, a) :: as, (n, b) :: bs => m == n && same a b && sameMembers as bs
  | _, _ => false

end

end Value

end FormulaLang
