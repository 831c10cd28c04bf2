import FormulaLang.Operator
import FormulaLang.Value

/-!
# Expression trees

* `LoopSource`: the items or the range a loop runs over.
* `Expr`: a parsed formula.
* `Expr.form`: the name of the form of a tree, in messages.
-/

namespace FormulaLang

/-- What a loop runs over; a range without a step counts by one. -/
inductive LoopSource (α : Type) where
  | items (source : α)
  | range (start : α) (step : Option α) (stop : α)

/-- A formula. -/
inductive Expr where
  /-- A literal, or an argument that is already evaluated. -/
  | constant (value : Value)
  | var (name : String)
  | unary (op : UnaryOp) (operand : Expr)
  | binary (op : BinaryOp) (left right : Expr)
  | compare (op : CompareOp) (left right : Expr)
  | logical (op : LogicalOp) (left right : Expr)
  /-- `name = value` -/
  | assign (name : String) (value : Expr)
  /-- `name[index] = value` -/
  | assignElement (name : String) (index value : Expr)
  /-- `name[index]` -/
  | element (name : String) (index : Expr)
  /-- `(target)[index]` -/
  | index (target index : Expr)
  /-- `(target).name` -/
  | member (target : Expr) (name : String)
  /-- `name(args)` -/
  | call (name : String) (args : List Expr)
  /-- `name(params) = body` -/
  | define (name : String) (params : List String) (body : Expr)
  /-- `if(c, a, b)` and `cases(c, a, d, b, otherwise)` -/
  | cases (branches : List (Expr × Expr)) (otherwise : Option Expr)
  /-- `start:stop` and `start:step:stop` -/
  | range (start : Expr) (step : Option Expr) (stop : Expr)
  /-- `sum(name, source, body)` and the like -/
  | loop (kind : LoopKind) (name : String) (source : LoopSource Expr) (body : Expr)
      (default : Option Expr)
  /-- `[a, b]` -/
  | vector (items : List Expr)
  /-- `[a, b; c, d]` -/
  | matrix (rows : List (List Expr))
  /-- A list in braces. -/
  | list (items : List Expr)
  /-- `a; b` -/
  | sequence (statements : List Expr)
  /-- What a fault in the text leaves behind. -/
  | invalid

instance : Inhabited Expr := ⟨.invalid⟩

namespace Expr

def isInvalid : Expr → Bool
  | invalid => true
  | _ => false

/-- The form of a tree, in the words of messages. -/
def form : Expr → String
  | constant _ => "constant"
  | var _ => "variable"
  | unary .. => "unary operator"
  | binary .. => "binary operator"
  | compare .. => "comparison"
  | logical .. => "logical operator"
  | assign .. => "assignment"
  | assignElement .. => "vector element assignment"
  | element .. => "vector element access"
  | index .. => "vector access"
  | member .. => "struct access"
  | call .. => "function call"
  | define .. => "function definition"
  | cases .. => "cases"
  | range .. => "range construction"
  | loop .. => "loop"
  | vector _ | matrix _ => "vector literal"
  | list _ => "list literal"
  | sequence _ => "statement list"
  | invalid => "invalid node"

end Expr

end FormulaLang
