import FormulaLang.Expr.Printer
import FormulaLang.Fault

/-!
# Functions

* `Request`: what a function of the host asks of the engine before it gives its result.
* `FastPath`, `FastPaths`: a function on numbers alone, which compiled formulas call directly.
* `Callable`, `Function`: what a name can be bound to for calls.
-/

namespace FormulaLang

/-- A computation that may ask the engine to record a fault, to tell the number of recorded
faults, to call a function or to evaluate a tree. -/
inductive Request (α : Type) where
  | done (result : α)
  | report (fault : Fault) (next : Request α)
  | faultCount (next : Nat → Request α)
  | call (name : String) (args : List Value) (next : Value → Request α)
  | evaluate (e : Expr) (next : Value → Request α)

namespace Request

/-- Records a fault and gives the invalid value. -/
def fail (f : Fault) : Request Value := .report f (.done .invalid)

/-- The value, or the invalid value after recording the fault. -/
def ofResult : Except Fault Value → Request Value
  | .ok v => .done v
  | .error f => fail f

end Request

/-! ## Fast paths -/

/-- A function of a fixed number of numbers. -/
structure FastPath (α : Type) where
  arity : Nat
  run : List Float → α

namespace FastPath

variable {α : Type}

/-- The function of one number. -/
def unary (f : Float → α) (default : α) : FastPath α :=
  ⟨1, fun
    | [a] => f a
    | _ => default⟩

/-- The function of two numbers. -/
def binary (f : Float → Float → α) (default : α) : FastPath α :=
  ⟨2, fun
    | [a, b] => f a b
    | _ => default⟩

/-- The result for the right number of arguments. -/
def onArgs? (p : FastPath α) (args : List Float) : Option α :=
  if args.length = p.arity then some (p.run args) else none

end FastPath

/-- The fast paths of a function: at most one of each sort for an arity. Plain ones come before
those that use the engine. -/
structure FastPaths where
  plain : List (FastPath Float) := []
  context : List (FastPath (Request Float)) := []

namespace FastPaths

/-- Adds a plain fast path, which replaces one of the same arity. -/
def addPlain (ps : FastPaths) (p : FastPath Float) : FastPaths :=
  { ps with plain := p :: ps.plain.filter fun q => q.arity != p.arity }

/-- Adds a fast path that uses the engine, which replaces one of the same arity. -/
def addContext (ps : FastPaths) (p : FastPath (Request Float)) : FastPaths :=
  { ps with context := p :: ps.context.filter fun q => q.arity != p.arity }

/-- The plain fast path for a number of arguments. -/
def plain? (ps : FastPaths) (arity : Nat) : Option (FastPath Float) :=
  ps.plain.find? fun p => p.arity == arity

/-- The fast path with the engine for a number of arguments. -/
def context? (ps : FastPaths) (arity : Nat) : Option (FastPath (Request Float)) :=
  ps.context.find? fun p => p.arity == arity

def isEmpty (ps : FastPaths) : Bool := ps.plain.isEmpty && ps.context.isEmpty

end FastPaths

/-! ## Functions -/

/-- What happens in a call. -/
inductive Callable where
  /-- A host function of evaluated arguments. -/
  | native (run : List Value → Request Value)
  /-- A host function that may leave its result unwritten, which is then void. -/
  | writer (run : List Value → Request (Option Value))
  /-- A host function of unevaluated arguments. -/
  | lazy (run : List Expr → Request Value)
  /-- A function that a formula defines. -/
  | user (params : List String) (body : Expr)

/-- The text that stands for a function. -/
def Callable.text : Callable → String
  | native _ => "<native fn>"
  | writer _ => "<native ref fn>"
  | lazy _ => "<node fn>"
  | user params body => "<fn(" ++ ", ".intercalate params ++ ") = " ++ body.text ++ ">"

/-- A function that can be called by name. Without an arity it takes any number of arguments. -/
structure Function where
  callable : Callable
  arity : Option Nat := none
  fast : FastPaths := {}

/-- The function that a formula defines. -/
def Function.user (params : List String) (body : Expr) : Function :=
  { callable := .user params body, arity := some params.length }

end FormulaLang
