/-!
# Operators

* `BinaryOp`, `CompareOp`, `LogicalOp`, `UnaryOp`: the operators, each with its `symbol`.
* `LoopKind`: the loop forms, which are written like calls of the function `LoopKind.name`.
-/

namespace FormulaLang

/-- Arithmetic and bitwise operators. -/
inductive BinaryOp where
  | add
  | sub
  | mul
  | div
  | mod
  | pow
  | bitAnd
  | bitOr
  deriving DecidableEq, Repr

def BinaryOp.symbol : BinaryOp → String
  | .add => "+"
  | .sub => "-"
  | .mul => "*"
  | .div => "/"
  | .mod => "%"
  | .pow => "^"
  | .bitAnd => "&"
  | .bitOr => "|"

/-- Comparisons. -/
inductive CompareOp where
  | eq
  | ne
  | lt
  | le
  | gt
  | ge
  deriving DecidableEq, Repr

def CompareOp.symbol : CompareOp → String
  | .eq => "=="
  | .ne => "!="
  | .lt => "<"
  | .le => "<="
  | .gt => ">"
  | .ge => ">="

/-- Logical operators. Both operands are always evaluated. -/
inductive LogicalOp where
  | and
  | or
  | xor
  | nor
  | nand
  deriving DecidableEq, Repr

def LogicalOp.symbol : LogicalOp → String
  | .and => "and"
  | .or => "or"
  | .xor => "xor"
  | .nor => "nor"
  | .nand => "nand"

/-- The truth table of a logical operator. -/
def LogicalOp.apply : LogicalOp → Bool → Bool → Bool
  | .and, a, b => a && b
  | .or, a, b => a || b
  | .xor, a, b => a != b
  | .nor, a, b => !(a || b)
  | .nand, a, b => !(a && b)

/-- Operators with one operand. -/
inductive UnaryOp where
  | neg
  | not
  | bitNot
  deriving DecidableEq, Repr

def UnaryOp.symbol : UnaryOp → String
  | .neg => "-"
  | .not => "!"
  | .bitNot => "~"

/-- The loop forms. -/
inductive LoopKind where
  | sum
  | prod
  | cumSum
  | cumProd
  | collect
  | saveCollect
  | defaultCollect
  | filter
  | saveFilter
  deriving DecidableEq, Repr

namespace LoopKind

/-- The name a loop form is written with. -/
def name : LoopKind → String
  | .sum => "sum"
  | .prod => "prod"
  | .cumSum => "cumsum"
  | .cumProd => "cumprod"
  | .collect => "for"
  | .saveCollect => "savefor"
  | .defaultCollect => "defaultfor"
  | .filter => "filterfor"
  | .saveFilter => "savefilterfor"

/-- The loop form of a name. -/
def ofName? : String → Option LoopKind
  | "sum" => some .sum
  | "prod" => some .prod
  | "cumsum" => some .cumSum
  | "cumprod" => some .cumProd
  | "for" => some .collect
  | "savefor" => some .saveCollect
  | "defaultfor" => some .defaultCollect
  | "filterfor" => some .filter
  | "savefilterfor" => some .saveFilter
  | _ => none

@[simp] theorem ofName?_name (k : LoopKind) : ofName? k.name = some k := by cases k <;> rfl

/-- Reductions, which are also catalog functions of one argument. -/
def isReduction : LoopKind → Bool
  | .sum | .prod | .cumSum | .cumProd => true
  | _ => false

/-- The form with a default for an empty source. -/
def takesDefault (k : LoopKind) : Bool := k == .defaultCollect

end LoopKind

end FormulaLang
