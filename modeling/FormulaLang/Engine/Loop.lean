import FormulaLang.Engine
import FormulaLang.Range
import FormulaLang.Value.Build
import FormulaLang.Value.Elementwise

/-!
# Loops

* `Items`: what a loop runs over, one item at a time.
* `forItems`: a loop with a state, which a step may stop.
* `reduce`, `accumulate`, `collectResults`, `filterItems`: the loop forms over a given body.
* `runLoop`: the loop of a kind.
-/

namespace FormulaLang

/-- What is left of the items of a loop. -/
inductive Items where
  | values (items : List Value)
  | range (r : Range)

namespace Items

/-- The next item and the items behind it. -/
def next? : Items → Option (Value × Items)
  | values [] => none
  | values (v :: rest) => some (v, values rest)
  | range r =>
    match r.next? with
    | some (x, rest) => some (.number x, range rest)
    | none => none

/-- A number of items that are not exceeded. -/
def bound : Items → Nat
  | values items => items.length
  | range _ => Range.bound

def isEmpty (items : Items) : Bool := items.next?.isNone

end Items

variable {σ : Type}

/-- Runs at most `n` steps, one for each item. A step goes on with a new state, or stops the loop
with its result as an error. -/
def forItems (step : σ → Value → Eval (Except Value σ)) :
    Nat → Items → σ → Engine → Except Value σ × Engine
  | 0, _, s, st => (.ok s, st)
  | n + 1, items, s, st =>
    match items.next? with
    | none => (.ok s, st)
    | some (item, rest) =>
      match step s item st with
      | (.ok s, st) => forItems step n rest s st
      | (.error v, st) => (.error v, st)

/-- Runs a loop to its end and packs the last state, unless a step stops it. -/
def overItems (step : σ → Value → Eval (Except Value σ)) (items : Items) (s : σ)
    (pack : σ → Value) : Eval Value := fun st =>
  match forItems step items.bound items s st with
  | (.ok s, st) => (pack s, st)
  | (.error v, st) => (v, st)

/-- Appends a result, unless there are as many as a vector may hold. -/
def append (out : Array Value) (v : Value) : Eval (Except Value (Array Value)) := do
  if out.size = maxVectorLength then
    return .error (← Eval.fail (.vectorTooLong maxVectorLength))
  else return .ok (out.push v)

section Body

variable (name : String) (body : Eval Value)

/-- Binds the loop variable to an item and evaluates the body. -/
def withItem (item : Value) : Eval Value := do
  Eval.change (·.addVariable name item)
  body

/-- Folds a value into what came before it, if anything. -/
def fold (op : BinaryOp) (acc : Option Value) (v : Value) : Except Fault Value :=
  match acc with
  | none => .ok v
  | some acc => acc.binary op v

/-- Folds the values of the body; without items the result is `empty`. -/
def reduce (op : BinaryOp) (empty : Float) (items : Items) : Eval Value :=
  overItems (fun acc item => do
      let v ← withItem name body item
      let next ← Eval.check (fold op acc v)
      if next.isInvalid then return .error .invalid else return .ok (some next))
    items none fun acc => acc.getD (.number empty)

/-- Folds the values of the body and keeps every step. -/
def accumulate (op : BinaryOp) (items : Items) : Eval Value :=
  overItems (fun (acc, out) item => do
      let v ← withItem name body item
      let next ← Eval.check (fold op acc v)
      if next.isInvalid then return .error .invalid
      else
        match ← append out next with
        | .ok out => return .ok (some next, out)
        | .error v => return .error v)
    items (none, #[]) fun (_, out) => .collect out.toList

/-- Collects the values of the body. An invalid one stops the loop, or is left out. -/
def collectResults (skipInvalid : Bool) (items : Items) : Eval Value :=
  overItems (fun out item => do
      let v ← withItem name body item
      if v.isInvalid then
        if skipInvalid then return .ok out else return .error .invalid
      else append out v)
    items #[] fun out => .collect out.toList

/-- Collects the items for which the body is true. Any other value than a bool stops the loop, or
leaves the item out. -/
def filterItems (lenient : Bool) (items : Items) : Eval Value :=
  overItems (fun out item => do
      match ← withItem name body item with
      | .bool true => append out item
      | .bool false => return .ok out
      | v =>
        if lenient then return .ok out
        else if v.isInvalid then return .error .invalid
        else return .error (← Eval.fail (.nonBoolCondition v.kind)))
    items #[] fun out => .collect out.toList

/-- The loop of a kind. -/
def runLoop (items : Items) : LoopKind → Eval Value
  | .sum => reduce name body .add 0.0 items
  | .prod => reduce name body .mul 1.0 items
  | .cumSum => accumulate name body .add items
  | .cumProd => accumulate name body .mul items
  | .collect | .defaultCollect => collectResults name body false items
  | .saveCollect => collectResults name body true items
  | .filter => filterItems name body false items
  | .saveFilter => filterItems name body true items

end Body

end FormulaLang
