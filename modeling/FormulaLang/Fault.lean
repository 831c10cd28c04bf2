import FormulaLang.Kind
import FormulaLang.Number.Shortest
import FormulaLang.Text.Place

/-!
# Faults

Whatever goes wrong in reading, evaluating, compiling or running a formula is a fault.

* `Fault`: the causes, with `Fault.category` and `Fault.message`.
* `Located`: a fault and, where the text is known, its extent; `Located.text` is its report.
-/

namespace FormulaLang

open Text (Extent)

/-- The stage that finds a fault. -/
inductive Category where
  | lexical
  | grammar
  | semantic
  | compile
  | runtime
  deriving DecidableEq, Repr

def Category.name : Category → String
  | .lexical => "lexical"
  | .grammar => "syntax"
  | .semantic => "semantic"
  | .compile => "compile"
  | .runtime => "runtime"

/-- A cause of failure. -/
inductive Fault where
  | unexpectedCharacter (c : Char)
  | unterminatedString
  | invalidNumber (text : String)
  | unexpectedToken (token : String)
  | unexpectedEnd
  | expectedToken (expected found : String)
  | matrixRowLength (row expected found : Nat)
  | formArity (name : String) (found : Nat)
  | loopVariableNotName (form : String)
  | invalidParameter (name : String)
  | nestingTooDeep (limit : Nat)
  | undefinedVariable (name : String)
  | undefinedFunction (name : String)
  | operatorKinds (op : String) (lhs rhs : Kind)
  | operandKind (op : String) (operand : Kind)
  | lengthMismatch (op : String) (lhs rhs : Nat)
  | indexOutOfRange (index : Float) (length : Nat)
  | invalidIndex (target index : Kind)
  | wrongArgumentCount (name : String) (expected found : Nat)
  | nonBoolCondition (found : Kind)
  | notAStruct (found : Kind)
  | noSuchMember (name : String)
  | rangeBound (found : Kind)
  | notIterable (found : Kind)
  | vectorElement (found : Kind)
  | hostKind (name : String) (expected found : Kind)
  | callDepth (limit : Nat)
  | vectorTooLong (limit : Nat)
  | failure (message : String)
  | unsupported (form : String)
  | nonTopLevelVariable (name : String)
  | nonNumericVariable (name : String)
  | recursiveCall (name : String)
  | stackUnderflow
  | stackOverflow
  | invalidJump (address : Nat)
  | functionResult (name : String) (found : Kind)
  | emptyResult
  deriving BEq, Repr

namespace Fault

/-- The stage that finds the fault. -/
def category : Fault → Category
  | unexpectedCharacter _ | unterminatedString | invalidNumber _ => .lexical
  | unexpectedToken _ | unexpectedEnd | expectedToken .. | matrixRowLength .. | formArity ..
  | loopVariableNotName _ | invalidParameter _ | nestingTooDeep _ => .grammar
  | unsupported _ | nonTopLevelVariable _ | nonNumericVariable _ | recursiveCall _ => .compile
  | stackUnderflow | stackOverflow | invalidJump _ | functionResult .. | emptyResult => .runtime
  | _ => .semantic

/-- The wording of a fault. -/
def message : Fault → String
  | unexpectedCharacter c => "unexpected character '" ++ c.toString ++ "'"
  | unterminatedString => "unterminated string"
  | invalidNumber text => "invalid number '" ++ text ++ "'"
  | unexpectedToken token => "unexpected token '" ++ token ++ "'"
  | unexpectedEnd => "unexpected end of expression"
  | expectedToken expected found => "expected " ++ expected ++ ", got '" ++ found ++ "'"
  | matrixRowLength row expected found =>
    s!"matrix row {row} has {found} elements, expected {expected}"
  | formArity name found => s!"{name}() does not accept {found} arguments"
  | loopVariableNotName form => form ++ "(): the loop variable must be a plain name"
  | invalidParameter name => "function '" ++ name ++ "': parameters must be plain names"
  | nestingTooDeep limit => s!"expression nested deeper than {limit} levels"
  | undefinedVariable name => "undefined variable '" ++ name ++ "'"
  | undefinedFunction name => "undefined function '" ++ name ++ "'"
  | operatorKinds op lhs rhs =>
    "operator '" ++ op ++ "' is not defined for " ++ lhs.name ++ " and " ++ rhs.name
  | operandKind op operand => "operator '" ++ op ++ "' is not defined for " ++ operand.name
  | lengthMismatch op lhs rhs => s!"operator '{op}': operand lengths differ ({lhs} vs {rhs})"
  | indexOutOfRange index length =>
    "index " ++ Number.wordText index ++ s!" out of range for length {length}"
  | invalidIndex target index => "cannot index " ++ target.name ++ " with " ++ index.name
  | wrongArgumentCount name expected found =>
    s!"{name}() expects {expected} arguments, got {found}"
  | nonBoolCondition found => "condition must be a bool, got " ++ found.name
  | notAStruct found => found.name ++ " has no members"
  | noSuchMember name => "no member named '" ++ name ++ "'"
  | rangeBound found => "range bounds must be numbers, got " ++ found.name
  | notIterable found => "cannot iterate over " ++ found.name
  | vectorElement found => "cannot build a vector from " ++ found.name
  | hostKind name expected found =>
    "cannot assign " ++ found.name ++ " to host variable '" ++ name ++ "' of type " ++
      expected.name
  | callDepth limit => s!"maximum call depth {limit} exceeded"
  | vectorTooLong limit => s!"vector would exceed {limit} elements"
  | failure message => message
  | unsupported form => "cannot compile " ++ form ++ " to bytecode"
  | nonTopLevelVariable name => "variable '" ++ name ++ "' is not a top-level variable"
  | nonNumericVariable name => "variable '" ++ name ++ "' is not numeric"
  | recursiveCall name => "recursive call of '" ++ name ++ "' cannot be compiled"
  | stackUnderflow => "stack underflow"
  | stackOverflow => "stack overflow"
  | invalidJump address => s!"jump outside program at instruction {address}"
  | functionResult name found =>
    "function '" ++ name ++ "' returned " ++ found.name ++ ", expected a number"
  | emptyResult => "program left no result"

end Fault

/-- A fault and, where it lies in a text, its extent. -/
structure Located where
  fault : Fault
  extent : Option Extent
  deriving BEq, Repr

/-- A fault without a place. -/
def Fault.unlocated (f : Fault) : Located := ⟨f, none⟩

/-- The report of a fault. -/
def Located.text (e : Located) : String :=
  match e.extent with
  | some x => s!"[line {x.line}:{x.column}] Error: {e.fault.message}"
  | none => "Error: " ++ e.fault.message

end FormulaLang
