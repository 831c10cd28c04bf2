import FormulaLang.Fault
import FormulaLang.Number.Word
import FormulaLang.Operator
import FormulaLang.Value

/-!
# Elementwise operators

Operators work on scalars, vectors and matrices of numbers, truth values or strings. A scalar
meets every element of the other operand; otherwise both must have the same shape.

* `Operand`: a scalar, vector or matrix; `Operand.zipWith` pairs two of them.
* `Value.numbers?`, `Value.bools?`, `Value.strings?`: a value as an operand.
* `Value.binary`, `Value.compare`, `Value.logical`, `Value.unary`: the operators.
* `Value.mapNumbers?`, `Value.zipNumbers`: numeric functions on values.
-/

namespace FormulaLang

/-- A scalar, a vector or a matrix of elements. -/
inductive Operand (α : Type) where
  | scalar (x : α)
  | vector (items : List α)
  | matrix (data : List α) (columns : Nat)

namespace Operand

variable {α β γ : Type}

def map (f : α → β) : Operand α → Operand β
  | scalar x => scalar (f x)
  | vector v => vector (v.map f)
  | matrix v columns => matrix (v.map f) columns

def length : Operand α → Nat
  | scalar _ => 1
  | vector v => v.length
  | matrix v _ => v.length

/-- Applies `f` to paired elements; `op` names the operator in the fault. -/
def zipWith (op : String) (f : α → β → γ) (a : Operand α) (b : Operand β) :
    Except Fault (Operand γ) :=
  match a, b with
  | scalar x, b => .ok (b.map (f x))
  | a, scalar y => .ok (a.map (f · y))
  | vector x, vector y =>
    if x.length = y.length then .ok (vector (x.zipWith f y))
    else .error (.lengthMismatch op x.length y.length)
  | matrix x m, matrix y n =>
    if x.length = y.length ∧ m = n then .ok (matrix (x.zipWith f y) m)
    else .error (.lengthMismatch op x.length y.length)
  | a, b => .error (.lengthMismatch op a.length b.length)

end Operand

/-! ## Operators on single elements -/

/-- An arithmetic operator on numbers. -/
def BinaryOp.apply : BinaryOp → Float → Float → Float
  | .add, a, b => a + b
  | .sub, a, b => a - b
  | .mul, a, b => a * b
  | .div, a, b => a / b
  | .mod, a, b => Number.modulo a b
  | .pow, a, b => a.pow b
  | .bitAnd, a, b => Number.bitAnd a b
  | .bitOr, a, b => Number.bitOr a b

/-- A comparison by the given equality and orders. -/
def CompareOp.holds {α : Type} (eq lt le : α → α → Bool) : CompareOp → α → α → Bool
  | .eq, a, b => eq a b
  | .ne, a, b => !eq a b
  | .lt, a, b => lt a b
  | .le, a, b => le a b
  | .gt, a, b => lt b a
  | .ge, a, b => le b a

/-- A comparison of numbers; with a NaN only `!=` holds. -/
def CompareOp.onNumbers : CompareOp → Float → Float → Bool :=
  CompareOp.holds (· == ·) (fun a b => decide (a < b)) (fun a b => decide (a ≤ b))

/-- A comparison of strings by their characters. -/
def CompareOp.onStrings : CompareOp → String → String → Bool :=
  CompareOp.holds (· == ·) (fun a b => decide (a < b)) (fun a b => !decide (b < a))

namespace Value

/-! ## Values as operands -/

def numbers? : Value → Option (Operand Float)
  | number x => some (.scalar x)
  | numberVector v => some (.vector v)
  | numberMatrix v columns => some (.matrix v columns)
  | _ => none

/-- Truth values only. -/
def strictBools? : Value → Option (Operand Bool)
  | bool b => some (.scalar b)
  | boolVector v => some (.vector v)
  | boolMatrix v columns => some (.matrix v columns)
  | _ => none

/-- Truth values, for which numbers may stand. -/
def bools? (v : Value) : Option (Operand Bool) :=
  match v.numbers? with
  | some xs => some (xs.map Number.isTrue)
  | none => v.strictBools?

def strings? : Value → Option (Operand String)
  | string s => some (.scalar s)
  | stringVector v => some (.vector v)
  | _ => none

def ofNumbers : Operand Float → Value
  | .scalar x => number x
  | .vector v => numberVector v
  | .matrix v columns => numberMatrix v columns

def ofBools : Operand Bool → Value
  | .scalar b => bool b
  | .vector v => boolVector v
  | .matrix v columns => boolMatrix v columns

def ofStrings : Operand String → Value
  | .scalar s => string s
  | .vector v | .matrix v _ => stringVector v

/-! ## Operators -/

/-- An operator that gives numbers for numbers. -/
def arithmetic (op : String) (f : Float → Float → Float) (a b : Value) : Except Fault Value :=
  match a.numbers?, b.numbers? with
  | some x, some y => (x.zipWith op f y).map ofNumbers
  | _, _ => .error (.operatorKinds op a.kind b.kind)

/-- Arithmetic; `+` also joins strings. -/
def binary (op : BinaryOp) (a b : Value) : Except Fault Value :=
  if a.isInvalid || b.isInvalid then .ok invalid
  else
    match op, a.strings?, b.strings? with
    | .add, some x, some y => (x.zipWith op.symbol (· ++ ·) y).map ofStrings
    | _, _, _ => arithmetic op.symbol op.apply a b

/-- Comparison of what is neither both numbers nor both strings: truth values by element, and
other values of one kind as a whole, for equality only. -/
def compareOther (op : CompareOp) (a b : Value) : Except Fault Value :=
  let whole (equality : Bool → Bool) : Except Fault Value :=
    match a.strictBools?, b.strictBools? with
    | some x, some y => (x.zipWith op.symbol (fun p q => equality (p == q)) y).map ofBools
    | _, _ =>
      if a.kind = b.kind then .ok (bool (equality (a.same b)))
      else .error (.operatorKinds op.symbol a.kind b.kind)
  match op with
  | .eq => whole id
  | .ne => whole not
  | _ => .error (.operatorKinds op.symbol a.kind b.kind)

/-- Comparison of values. -/
def compare (op : CompareOp) (a b : Value) : Except Fault Value :=
  if a.isInvalid || b.isInvalid then .ok invalid
  else
    match a.numbers?, b.numbers? with
    | some x, some y => (x.zipWith op.symbol op.onNumbers y).map ofBools
    | _, _ =>
      match a.strings?, b.strings? with
      | some x, some y => (x.zipWith op.symbol op.onStrings y).map ofBools
      | _, _ => compareOther op a b

/-- Logical operators. -/
def logical (op : LogicalOp) (a b : Value) : Except Fault Value :=
  if a.isInvalid || b.isInvalid then .ok invalid
  else
    match a.bools?, b.bools? with
    | some x, some y => (x.zipWith op.symbol op.apply y).map ofBools
    | _, _ => .error (.operatorKinds op.symbol a.kind b.kind)

/-- Applies `f` to every number of a numeric value. -/
def mapNumbers? (f : Float → Float) (a : Value) : Option Value :=
  a.numbers?.map fun x => ofNumbers (x.map f)

/-- Operators with one operand. -/
def unary (op : UnaryOp) (a : Value) : Except Fault Value :=
  if a.isInvalid then .ok invalid
  else
    let result :=
      match op with
      | .neg => a.mapNumbers? fun x => -x
      | .bitNot => a.mapNumbers? Number.bitNot
      | .not => a.bools?.map fun x => ofBools (x.map not)
    match result with
    | some v => .ok v
    | none => .error (.operandKind op.symbol a.kind)

/-- A numeric function of two arguments, named `name` in faults. -/
def zipNumbers (name : String) (f : Float → Float → Float) (a b : Value) : Except Fault Value :=
  if a.isInvalid || b.isInvalid then .ok invalid else arithmetic name f a b

end Value

end FormulaLang
