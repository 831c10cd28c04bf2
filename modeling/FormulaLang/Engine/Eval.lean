import FormulaLang.Engine.Loop
import FormulaLang.Value.Element

/-!
# Evaluation

Evaluation never stops at a fault: it records the fault, and the expression has the invalid value,
which passes through every operation around it. Calls may nest as deep as the settings say.

* `Task`, `Deeper`: what a call has to do one level deeper.
* `Request.perform`: the requests of a host function.
* `invoke`: a call with evaluated arguments.
* `eval`: the value of a tree.
* `perform`, `performAt`: a task at a depth.
* `Engine.evaluate`, `Engine.call`: a tree and a call at the outermost level.
-/

namespace FormulaLang

/-- What can be done at a depth: evaluate a tree, or call a function. -/
inductive Task where
  | evaluate (e : Expr)
  | call (name : String) (args : List Value)

/-- How tasks are done one level deeper, unless the limit is reached. -/
abbrev Deeper := Option (Task → Eval Value)

/-- Does what a host function asks for. -/
def Request.perform {α : Type} (task : Task → Eval Value) : Request α → Eval α
  | done a => return a
  | report f next => do
    Eval.report f
    next.perform task
  | faultCount next => do (next (← get).log.size).perform task
  | call name args next => do (next (← task (.call name args))).perform task
  | evaluate e next => do (next (← task (.evaluate e))).perform task

/-- Goes one level deeper, or records that calls nest too deep. -/
def descend (deeper : Deeper) (call : (Task → Eval Value) → Eval Value) : Eval Value := do
  match deeper with
  | some task => call task
  | none => Eval.fail (.callDepth (← get).settings.callDepth)

/-- Binds parameters to arguments. -/
def bindAll (params : List String) (args : List Value) : Eval Unit :=
  Eval.change fun env => (params.zip args).foldl (fun env p => env.addVariable p.1 p.2) env

/-- Calls a function of a formula. Parameters are bound in a new block; without parameters the
body runs in the block of the caller. -/
def callUser (task : Task → Eval Value) (params : List String) (body : Expr)
    (args : List Value) : Eval Value :=
  if params.isEmpty then task (.evaluate body)
  else Eval.inBlock do
    bindAll params args
    task (.evaluate body)

/-- Calls a function with evaluated arguments. An invalid argument makes the call invalid. -/
def invoke (deeper : Deeper) (name : String) (f : Function) (args : List Value) :
    Eval Value :=
  if args.any Value.isInvalid then return .invalid
  else
    match f.arity.filter (· ≠ args.length) with
    | some expected => Eval.fail (.wrongArgumentCount name expected args.length)
    | none => descend deeper fun task =>
      match f.callable with
      | .native run => (run args).perform task
      | .writer run => do return (← (run args).perform task).getD .void
      | .lazy run => (run (args.map .constant)).perform task
      | .user params body => callUser task params body args

/-- Calls the function of a name with evaluated arguments. -/
def callNamed (deeper : Deeper) (name : String) (args : List Value) : Eval Value := do
  match ← Eval.function? name with
  | none => Eval.fail (.undefinedFunction name)
  | some f => invoke deeper name f args

/-- The bounds of a range, which must be numbers; the first that is not decides. -/
def rangeOf (start step stop : Value) : Except (Option Fault) Range :=
  let bound : Value → Except (Option Fault) Float
    | .number x => .ok x
    | .invalid => .error none
    | v => .error (some (.rangeBound v.kind))
  do return .ofBounds (← bound start) (← bound step) (← bound stop)

/-- The range of evaluated bounds; `none` after a fault or for an invalid bound. -/
def checkRange (start step stop : Value) : Eval (Option Range) := do
  match rangeOf start step stop with
  | .ok r => return some r
  | .error none => return none
  | .error (some f) =>
    Eval.report f
    return none

/-- The items of an evaluated loop source; `none` after a fault or for an invalid source. -/
def checkItems (source : Value) : Eval (Option Items) := do
  if source.isInvalid then return none
  else
    match source.items? with
    | some items => return some (.values items)
    | none =>
      Eval.report (.notIterable source.kind)
      return none

/-- Writes evaluated elements to a variable. -/
def assignElements (name : String) (index value : Value) : Eval Value := do
  if index.isInvalid || value.isInvalid then return .invalid
  else
    match ← Eval.value? name with
    | none => Eval.fail (.undefinedVariable name)
    | some target =>
      match target.setElements index value with
      | (_, some f) => Eval.fail f
      | (target, none) => Eval.assign name target

section Trees

variable (deeper : Deeper)

mutual

/-- The value of a tree. -/
def eval : Expr → Eval Value
  | .constant v => return v
  | .var name => do
    match ← Eval.value? name with
    | some v => return v
    | none => Eval.fail (.undefinedVariable name)
  | .unary op e => do
    let v ← eval e
    Eval.check (v.unary op)
  | .binary op a b => do
    let x ← eval a
    let y ← eval b
    Eval.check (x.binary op y)
  | .compare op a b => do
    let x ← eval a
    let y ← eval b
    Eval.check (x.compare op y)
  | .logical op a b => do
    let x ← eval a
    let y ← eval b
    Eval.check (x.logical op y)
  | .assign name e => do
    let v ← eval e
    if v.isInvalid then return .invalid else Eval.assign name v
  | .assignElement name i e => do
    let index ← eval i
    let v ← eval e
    assignElements name index v
  | .element name i => do
    let index ← eval i
    match ← Eval.value? name with
    | some target => Eval.check (target.index index)
    | none => Eval.fail (.undefinedVariable name)
  | .index e i => do
    let target ← eval e
    let index ← eval i
    Eval.check (target.index index)
  | .member e name => do
    let target ← eval e
    Eval.check (target.member name)
  | .call name args => do
    match ← Eval.function? name with
    | none => Eval.fail (.undefinedFunction name)
    | some f =>
      match f.callable with
      | .lazy run => descend deeper fun task => (run args).perform task
      | _ =>
        let values ← evalAll args
        invoke deeper name f values
  | .define name params body => do
    Eval.change (·.addFunction name (.user params body))
    return .void
  | .cases branches otherwise => evalBranches branches (evalOr .invalid otherwise)
  | .range a d b => do
    let start ← eval a
    let step ← evalOr (.number 1.0) d
    let stop ← eval b
    match ← checkRange start step stop with
    | some r => Eval.check (r.values.map .numberVector)
    | none => return .invalid
  | .loop kind name source body default => do
    match ← evalSource source with
    | none => return .invalid
    | some items =>
      if default.isSome && items.isEmpty then evalOr .invalid default
      else Eval.inBlock (runLoop name (eval body) items kind)
  | .vector items => do
    let values ← evalAll items
    Eval.check (Value.concat values)
  | .matrix rows => do
    let values ← evalRows rows
    Eval.check (Value.ofRows values)
  | .list items => do
    let values ← evalAll items
    if values.any Value.isInvalid then return .invalid else return .list values
  | .sequence es => evalSequence es .void
  | .invalid => return .invalid

/-- The values of trees, from the left. -/
def evalAll : List Expr → Eval (List Value)
  | [] => return []
  | e :: es => do
    let v ← eval e
    let vs ← evalAll es
    return v :: vs

def evalRows : List (List Expr) → Eval (List (List Value))
  | [] => return []
  | row :: rows => do
    let vs ← evalAll row
    let vss ← evalRows rows
    return vs :: vss

/-- The value of a tree that may be missing. -/
def evalOr (missing : Value) : Option Expr → Eval Value
  | none => return missing
  | some e => eval e

/-- The value of the first branch whose condition holds. -/
def evalBranches : List (Expr × Expr) → Eval Value → Eval Value
  | [], otherwise => otherwise
  | (c, e) :: rest, otherwise => do
    match ← eval c with
    | .bool true => eval e
    | .bool false => evalBranches rest otherwise
    | v => if v.isInvalid then return .invalid else Eval.fail (.nonBoolCondition v.kind)

/-- The items of a loop; `none` after a fault or for an invalid source. -/
def evalSource : LoopSource Expr → Eval (Option Items)
  | .items e => do
    let v ← eval e
    checkItems v
  | .range a d b => do
    let start ← eval a
    let step ← evalOr (.number 1.0) d
    let stop ← eval b
    return (← checkRange start step stop).map .range

/-- The value of the last statement, or `last` without any. -/
def evalSequence : List Expr → Value → Eval Value
  | [], last => return last
  | e :: es, _ => do
    let v ← eval e
    evalSequence es v

end

end Trees

/-- Does a task at a depth. -/
def perform (deeper : Deeper) : Task → Eval Value
  | .evaluate e => eval deeper e
  | .call name args => callNamed deeper name args

/-- Does a task with at most `n` nested calls. -/
def performAt : Nat → Task → Eval Value
  | 0, t => perform none t
  | n + 1, t => perform (some (performAt n)) t

namespace Engine

/-- Does a task at the outermost level. -/
def run (t : Task) : Eval Value := do performAt (← get).settings.callDepth t

/-- The value of a tree. -/
def evaluate (e : Expr) : Eval Value := run (.evaluate e)

/-- The value of a call with evaluated arguments. -/
def call (name : String) (args : List Value) : Eval Value := run (.call name args)

end Engine

end FormulaLang
