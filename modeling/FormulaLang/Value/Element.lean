import FormulaLang.Fault
import FormulaLang.Value

/-!
# Elements of values

Positions count from zero. A number names one position, a number vector several, and a bool vector
of the right length those where it is true.

* `Value.index`: `a[i]`, and `Value.member`: `a.name`.
* `positions`: the positions that an index names.
* `writeAll`, `assignInto`: writing elements, which may lengthen the data.
* `Value.setElements`: `a[i] = c`.
-/

namespace FormulaLang

/-! ## Positions -/

/-- The position that a number names; the length only serves the fault. -/
def position (length : Nat) (i : Float) : Except Fault Nat :=
  if !i.isFinite || i < 0.0 then .error (.indexOutOfRange i length) else .ok i.toUInt64.toNat

/-- The position below `length` that a number names. -/
def positionBelow (length : Nat) (i : Float) : Except Fault Nat :=
  if i.isNaN || i < 0.0 || Float.ofNat length ≤ i then .error (.indexOutOfRange i length)
  else .ok i.toUInt64.toNat

/-- The positions where a mask is true, counted from `k`. -/
def maskPositions : Nat → List Bool → List Nat
  | _, [] => []
  | k, true :: rest => k :: maskPositions (k + 1) rest
  | k, false :: rest => maskPositions (k + 1) rest

/-- The positions that a number, a number vector or a mask names, or `none` for other values.
Only a mask is checked against the length. -/
def positions? (length : Nat) : Value → Option (Except Fault (List Nat))
  | .number i => some ((position length i).map ([·]))
  | .numberVector is => some (is.mapM (position length))
  | .boolVector mask =>
    some (if mask.length = length then .ok (maskPositions 0 mask)
      else .error (.lengthMismatch "[]" length mask.length))
  | _ => none

namespace Value

/-! ## Reading -/

/-- The number of positions of a value that has elements. -/
def indexLength? : Value → Option Nat
  | void | invalid | struct _ => none
  | v => some v.length

/-- The element at a position. -/
def element? : Value → Nat → Option Value
  | bool b, k => if k = 0 then some (bool b) else none
  | number x, k => if k = 0 then some (number x) else none
  | string s, k => s.toList[k]?.map fun c => string c.toString
  | boolVector v, k | boolMatrix v _, k => v[k]?.map bool
  | numberVector v, k | numberMatrix v _, k => v[k]?.map number
  | stringVector v, k => v[k]?.map string
  | list v, k => v[k]?
  | _, _ => none

/-- The elements of `data` at the positions it has. -/
def gather {α : Type} (data : List α) (positions : List Nat) : List α :=
  let data := data.toArray
  positions.filterMap (data[·]?)

/-- The elements at several positions, in a vector, string or list. -/
def select? : Value → List Nat → Option Value
  | bool b, ks => some (boolVector (gather [b] ks))
  | number x, ks => some (numberVector (gather [x] ks))
  | string s, ks => some (string (String.ofList (gather s.toList ks)))
  | boolVector v, ks | boolMatrix v _, ks => some (boolVector (gather v ks))
  | numberVector v, ks | numberMatrix v _, ks => some (numberVector (gather v ks))
  | stringVector v, ks => some (stringVector (gather v ks))
  | list v, ks => some (list (gather v ks))
  | _, _ => none

/-- Selects several elements, all of which must exist. -/
def gatherAt (a : Value) (length : Nat) (ks : List Nat) (fault : Fault) : Except Fault Value :=
  match ks.find? (length ≤ ·) with
  | some k => .error (.indexOutOfRange (Float.ofNat k) length)
  | none =>
    match a.select? ks with
    | some v => .ok v
    | none => .error fault

/-- `a[i]`. -/
def index (a i : Value) : Except Fault Value :=
  if a.isInvalid || i.isInvalid then .ok invalid
  else
    let fault := Fault.invalidIndex a.kind i.kind
    match a.indexLength? with
    | none => .error fault
    | some length =>
      match i with
      | number x =>
        match positionBelow length x with
        | .error e => .error e
        | .ok k =>
          match a.element? k with
          | some v => .ok v
          | none => .error fault
      | _ =>
        match positions? length i with
        | none => .error fault
        | some (.error e) => .error e
        | some (.ok ks) => a.gatherAt length ks fault

/-- `a.name`. -/
def member (a : Value) (name : String) : Except Fault Value :=
  match a with
  | invalid => .ok invalid
  | struct members =>
    match Members.get? members name with
    | some v => .ok v
    | none => .error (.noSuchMember name)
  | other => .error (.notAStruct other.kind)

end Value

/-! ## Writing -/

/-- Writes pairs of position and element from the left. Where `fill` is given, writing behind the
end first fills the gap; the writes before a failing one stay. -/
def writeAll {α : Type} (fill : Option α) : Array α → List (Nat × α) → Array α × Option Fault
  | data, [] => (data, none)
  | data, (k, x) :: rest =>
    if k < data.size then writeAll fill (data.setIfInBounds k x) rest
    else
      match fill with
      | some fill' =>
        if k < maxVectorLength then
          writeAll fill ((data ++ Array.replicate (k - data.size) fill').push x) rest
        else (data, some (.indexOutOfRange (Float.ofNat k) data.size))
      | none => (data, some (.indexOutOfRange (Float.ofNat k) data.size))

/-- Writes one element to all positions, or as many elements as there are positions. -/
def assignInto {α : Type} (fill : Option α) (data : List α) (ks : List Nat) (xs : List α) :
    List α × Option Fault :=
  let write (pairs : List (Nat × α)) :=
    let (data, fault) := writeAll fill data.toArray pairs
    (data.toList, fault)
  match xs with
  | [x] => write (ks.map (·, x))
  | xs =>
    if xs.length = ks.length then write (ks.zip xs)
    else (data, some (.lengthMismatch "[]=" ks.length xs.length))

namespace Value

/-- A number or bool becomes the vector that holds it. -/
def toVector : Value → Value
  | number x => numberVector [x]
  | bool b => boolVector [b]
  | v => v

def numberItems? : Value → Option (List Float)
  | number x => some [x]
  | numberVector v => some v
  | _ => none

def boolItems? : Value → Option (List Bool)
  | bool b => some [b]
  | boolVector v => some v
  | _ => none

def stringItems? : Value → Option (List String)
  | string s => some [s]
  | stringVector v => some v
  | _ => none

/-- Writes `c` to the positions of `a`, which is no scalar number or bool. A list takes `c` itself
for a single position and the items of `c` for several. -/
def setPositions (a : Value) (ks : List Nat) (c : Value) (fault : Fault) :
    Value × Option Fault :=
  let element := some (Fault.vectorElement c.kind)
  match a with
  | numberVector v =>
    match c.numberItems? with
    | some xs => let (v, fault) := assignInto (some Number.nan) v ks xs; (numberVector v, fault)
    | none => (a, element)
  | boolVector v =>
    match c.boolItems? with
    | some xs => let (v, fault) := assignInto (some false) v ks xs; (boolVector v, fault)
    | none => (a, element)
  | stringVector v =>
    match c.stringItems? with
    | some xs => let (v, fault) := assignInto (some "") v ks xs; (stringVector v, fault)
    | none => (a, element)
  | list v =>
    match if 1 < ks.length then c.items? else some [c] with
    | some xs => let (v, fault) := assignInto (some void) v ks xs; (list v, fault)
    | none => (a, element)
  | numberMatrix v columns =>
    match c.numberItems? with
    | some xs => let (v, fault) := assignInto none v ks xs; (numberMatrix v columns, fault)
    | none => (a, element)
  | boolMatrix v columns =>
    match c.boolItems? with
    | some xs => let (v, fault) := assignInto none v ks xs; (boolMatrix v columns, fault)
    | none => (a, element)
  | _ => (a, some fault)

/-- `a[i] = c`: the value of `a` afterwards, and the fault if the write failed. Vectors and lists
grow, matrices keep their shape; a write that fails may have changed `a` in part. -/
def setElements (a i c : Value) : Value × Option Fault :=
  let fault := Fault.invalidIndex a.kind i.kind
  match a.indexLength? with
  | none => (a, some fault)
  | some length =>
    match positions? length i with
    | none => (a, some fault)
    | some (.error e) => (a, some e)
    | some (.ok ks) => a.toVector.setPositions ks c fault

end Value

end FormulaLang
