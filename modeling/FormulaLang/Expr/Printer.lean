import FormulaLang.Expr
import FormulaLang.Number.Shortest
import FormulaLang.Value.Text

/-!
# Printing trees

A tree prints as text that reads back to it. Operands of operators stand in parentheses unless
they are atoms.

* `escape`, `constantText`: literals.
* `Expr.isAtom`: trees that need no parentheses.
* `Expr.text`: the text of a tree.
-/

namespace FormulaLang

/-- How a character is written inside a string literal. -/
def escape : Char → List Char
  | '"' => ['\\', '"']
  | '\\' => ['\\', '\\']
  | '\n' => ['\\', 'n']
  | '\t' => ['\\', 't']
  | '\r' => ['\\', 'r']
  | c => [c]

/-- A string literal. -/
def stringLiteral (s : String) : String := quote (String.ofList (s.toList.flatMap escape))

/-- A number literal; the infinities have names. -/
def numberLiteral (x : Float) : String :=
  if x == Number.infinity then "inf"
  else if x == -Number.infinity then "ninf"
  else Number.text x

/-- The literal of a number, a bool or a string; other values do not come from literals. -/
def constantText : Value → String
  | .number x => numberLiteral x
  | .string s => stringLiteral s
  | v => v.text

namespace Expr

/-- Trees that print without parentheses as operands. Of the numbers these are the ones without a
sign or a name. -/
def isAtom : Expr → Bool
  | constant (.number x) => x.isFinite && decide (0.0 ≤ x) && !Number.isNegativeZero x
  | constant _ | var _ | element .. | call .. | vector _ | matrix _ | list _ | loop .. => true
  | _ => false

/-- Puts the text of an operand in parentheses where it needs them. -/
def enclose (e : Expr) (text : String) : String :=
  if e.isAtom then text else "(" ++ text ++ ")"

/-- The sign of a prefix operator; a word keeps its distance. -/
def prefixText : UnaryOp → String
  | .not => "not "
  | op => op.symbol

mutual

/-- The text of a tree. -/
def text : Expr → String
  | constant v => constantText v
  | var name => name
  | unary op e => prefixText op ++ enclose e (text e)
  | binary op a b => enclose a (text a) ++ " " ++ op.symbol ++ " " ++ enclose b (text b)
  | compare op a b => enclose a (text a) ++ " " ++ op.symbol ++ " " ++ enclose b (text b)
  | logical op a b => enclose a (text a) ++ " " ++ op.symbol ++ " " ++ enclose b (text b)
  | assign name e => name ++ " = " ++ text e
  | assignElement name i e => name ++ "[" ++ text i ++ "] = " ++ text e
  | element name i => name ++ "[" ++ text i ++ "]"
  | index e i => "(" ++ text e ++ ")[" ++ text i ++ "]"
  | member e name => "(" ++ text e ++ ")." ++ name
  | call name args => name ++ "(" ++ ", ".intercalate (texts args) ++ ")"
  | define name params body => name ++ "(" ++ ", ".intercalate params ++ ") = " ++ text body
  | cases branches otherwise =>
    let head :=
      match branches, otherwise with
      | [_], some _ => "if("
      | _, _ => "cases("
    head ++ ", ".intercalate (branchTexts branches ++ optionTexts otherwise) ++ ")"
  | range a (some d) b => enclose a (text a) ++ ":" ++ enclose d (text d) ++ ":" ++
      enclose b (text b)
  | range a none b => enclose a (text a) ++ ":" ++ enclose b (text b)
  | loop kind name source body default =>
    kind.name ++ "(" ++
      ", ".intercalate (name :: (sourceTexts source ++ text body :: optionTexts default)) ++ ")"
  | vector items => "[" ++ ", ".intercalate (texts items) ++ "]"
  | matrix rows => "[" ++ "; ".intercalate (rowTexts rows) ++ "]"
  | list items => "\x7b" ++ ", ".intercalate (texts items) ++ "\x7d"
  | sequence statements => "; ".intercalate (texts statements)
  | invalid => "<invalid>"

def texts : List Expr → List String
  | [] => []
  | e :: rest => text e :: texts rest

def rowTexts : List (List Expr) → List String
  | [] => []
  | row :: rest => ", ".intercalate (texts row) :: rowTexts rest

def branchTexts : List (Expr × Expr) → List String
  | [] => []
  | (c, v) :: rest => text c :: text v :: branchTexts rest

def optionTexts : Option Expr → List String
  | none => []
  | some e => [text e]

def sourceTexts : LoopSource Expr → List String
  | .items e => [text e]
  | .range a (some d) b => [text a, text d, text b]
  | .range a none b => [text a, text b]

end

end Expr

end FormulaLang
