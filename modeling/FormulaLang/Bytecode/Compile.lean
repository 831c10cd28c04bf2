import FormulaLang.Bytecode
import FormulaLang.Bytecode.Slots

/-!
# Compiling

The numeric part of the language has bytecode: numbers, bools, operators, assignments, conditions,
`sum` and `prod` over ranges, statements and calls. Functions that the formula itself defines are
put in at their calls; every other function is called through the engine.

* `Lower`: a computation that gives names their slots and may fail.
* `branchCode`, `loopTest`, `loopCode`: the code of conditions and loops from the code of their
  parts.
* `lower`: the code of a tree, which pushes one number.
* `definitions`, `compile`: the program of a tree.
-/

namespace FormulaLang.Bytecode

/-- A piece of code. Jumps are relative, so that pieces can be put together. -/
abbrev Code := List Instruction

/-- A computation that gives names their slots and may fail. -/
abbrev Lower (α : Type) := StateT Slots (Except Fault) α

/-! ## Pieces of code -/

/-- Jumps over the value and its exit when the condition fails, and behind the rest after it. -/
def branchCode (condition value rest : Code) : Code :=
  condition ++ [.unary .not, .jumpIf (value.length + 2)] ++ value ++
    [.jump (rest.length + 1)] ++ rest

/-- Pushes one if a slot holds a finite number: only then its difference to itself is zero. -/
def finiteTest (slot : Nat) : Code :=
  [.readSlot slot, .readSlot slot, .arithmetic .sub, .constant 0.0, .compare .eq]

/-- The slots of a loop. -/
structure LoopSlots where
  position : Nat
  previous : Nat
  step : Nat
  stop : Nat

/-- Pushes one when the loop has no further position. -/
def loopTest (s : LoopSlots) : Code :=
  finiteTest s.position ++ finiteTest s.stop ++ [
    .logical .and,
    .readSlot s.position,
    .readSlot s.previous,
    .compare .ne,
    .logical .and,
    .readSlot s.step,
    .constant 0.0,
    .compare .ne,
    .logical .and,
    .readSlot s.stop,
    .readSlot s.position,
    .arithmetic .sub,
    .readSlot s.step,
    .arithmetic .mul,
    .constant 0.0,
    .compare .ge,
    .logical .and,
    .unary .not]

/-- Moves a loop on by one step. -/
def loopAdvance (s : LoopSlots) : Code := [
  .readSlot s.position,
  .writeSlot s.previous,
  .readSlot s.position,
  .readSlot s.step,
  .arithmetic .add,
  .writeSlot s.position]

/-- The test, the body and the way back. The running result lies on the stack below. -/
def loopCode (s : LoopSlots) (op : BinaryOp) (body : Code) : Code :=
  let test := loopTest s
  let round := body ++ .arithmetic op :: loopAdvance s
  test ++ .jumpIf (round.length + 2) :: round ++ [.jump (-(test.length + 1 + round.length : Nat))]

/-- Code that leaves nothing for nothing: the value of no statement is a NaN. -/
def noValue : Code := [.constant Number.nan]

/-! ## Names -/

section Environment

variable (env : Environment)

/-- The cell of a number at the outermost level. -/
def globalCell (name : String) : Except Fault Nat :=
  match env.vars.entry? name with
  | none => .error (.undefinedVariable name)
  | some entry =>
    if entry.level ≠ 0 then .error (.nonTopLevelVariable name)
    else
      match entry.value.numberCell? with
      | some cell => .ok cell
      | none => .error (.nonNumericVariable name)

/-- Reads a name: its slot, or its cell in the environment. -/
def readName (name : String) : Lower Code := do
  match (← get).lookup? name with
  | some slot => return [.readSlot slot]
  | none => return [.readCell (← globalCell env name)]

/-- Writes a name: its slot, its cell in the environment, or a new temporary. -/
def writeName (name : String) : Lower Code := do
  match (← get).lookup? name with
  | some slot => return [.writeSlot slot]
  | none =>
    if env.hasVariable name then return [.writeCell (← globalCell env name)]
    else return [.writeSlot (← modifyGet (·.temporary name))]

/-! ## Calls -/

/-- Refuses a wrong number of arguments. -/
def checkArity (name : String) (expected : Option Nat) (found : Nat) : Except Fault Unit :=
  match expected.filter (· ≠ found) with
  | some expected => .error (.wrongArgumentCount name expected found)
  | none => .ok ()

/-- Binds parameters to slots of their own. -/
def pushAll : List String → Lower (List Nat)
  | [] => return []
  | name :: names => do
    let slot ← modifyGet (·.push name)
    return slot :: (← pushAll names)

/-- Unbinds the `n` innermost names. -/
def popAll : Nat → Lower Unit
  | 0 => return ()
  | n + 1 => do
    modify Slots.pop
    popAll n

/-- How the body of a function is lowered, unless calls nest too deep. -/
abbrev BodyLowering := Option (Expr → Lower Code)

/-- Puts in the body of a function. All arguments are evaluated before a parameter is bound. -/
def inlineCall (deeper : BodyLowering) (name : String) (f : Inline) (args : Lower Code)
    (count : Nat) : Lower Code := do
  match (← get).beginCall? name, deeper with
  | some slots, some lowerBody =>
    set slots
    checkArity name (some f.params.length) count
    let code ← args
    let slots ← pushAll f.params
    let body ← lowerBody f.body
    popAll f.params.length
    modify Slots.endCall
    return code ++ slots.reverse.map .writeSlot ++ body
  | _, _ => throw (.recursiveCall name)

/-- The instruction that calls a function of the environment: a plain fast path if there is one,
else one with the engine, else the function itself. -/
def callInstruction (name : String) (f : Function) (arity : Nat) : Instruction :=
  match f.fast.plain? arity, f.fast.context? arity with
  | some p, _ => .callPlain p
  | none, some p => .callContext p
  | none, none => .call name arity

/-- Calls a function of the environment. -/
def environmentCall (name : String) (args : Lower Code) (count : Nat) : Lower Code := do
  match env.function? name with
  | none => throw (.undefinedFunction name)
  | some f =>
    checkArity name f.arity count
    return (← args) ++ [callInstruction name f count]

/-! ## Trees -/

/-- The code of a loop. The stop, the step and the start are evaluated in this order, and only the
body can name the position. -/
def lowerLoop (op : BinaryOp) (seed : Float) (name : String) (start step stop body : Lower Code) :
    Lower Code := do
  let stopSlot ← modifyGet Slots.fresh
  let stopCode ← stop
  let stepSlot ← modifyGet Slots.fresh
  let stepCode ← step
  let startCode ← start
  let position ← modifyGet (·.push name)
  let previous ← modifyGet Slots.fresh
  let bodyCode ← body
  modify Slots.pop
  return .constant seed :: stopCode ++ .writeSlot stopSlot :: stepCode ++ .writeSlot stepSlot ::
    startCode ++ .writeSlot position :: .constant Number.nan :: .writeSlot previous ::
    loopCode ⟨position, previous, stepSlot, stopSlot⟩ op bodyCode

variable (deeper : BodyLowering)

mutual

/-- The code of a tree. -/
def lower : Expr → Lower Code
  | .constant (.number x) => return [.constant x]
  | .constant (.bool b) => return [.constant (Number.ofBool b)]
  | .var name => readName env name
  | .unary op e => do
    let code ← lower e
    return code ++ [.unary op]
  | .binary op a b => do
    let left ← lower a
    let right ← lower b
    return left ++ right ++ [.arithmetic op]
  | .compare op a b => do
    let left ← lower a
    let right ← lower b
    return left ++ right ++ [.compare op]
  | .logical op a b => do
    let left ← lower a
    let right ← lower b
    return left ++ right ++ [.logical op]
  | .assign name e => do
    let code ← lower e
    let write ← writeName env name
    return code ++ .dup :: write
  | .cases branches otherwise => lowerBranches branches (lowerOr noValue otherwise)
  | .loop .sum name (.range a d b) body _ =>
    lowerLoop .add 0.0 name (lower a) (lowerOr [.constant 1.0] d) (lower b) (lower body)
  | .loop .prod name (.range a d b) body _ =>
    lowerLoop .mul 1.0 name (lower a) (lowerOr [.constant 1.0] d) (lower b) (lower body)
  | .sequence [] => return noValue
  | .sequence (e :: es) => do
    let first ← lower e
    let rest ← lowerRest es
    return first ++ rest
  | .define name params body => do
    modify (·.define name ⟨params, body⟩)
    return noValue
  | .call name args => do
    match (← get).function? name with
    | some f => inlineCall deeper name f (lowerArgs args) args.length
    | none => environmentCall env name (lowerArgs args) args.length
  | e => throw (.unsupported e.form)

/-- The code of arguments, from the left. -/
def lowerArgs : List Expr → Lower Code
  | [] => return []
  | e :: es => do
    let first ← lower e
    let rest ← lowerArgs es
    return first ++ rest

/-- The code of statements behind another one, whose value each of them drops. -/
def lowerRest : List Expr → Lower Code
  | [] => return []
  | e :: es => do
    let first ← lower e
    let rest ← lowerRest es
    return .pop :: first ++ rest

/-- The code of a tree that may be missing. -/
def lowerOr (missing : Code) : Option Expr → Lower Code
  | none => return missing
  | some e => lower e

def lowerBranches : List (Expr × Expr) → Lower Code → Lower Code
  | [], otherwise => otherwise
  | (c, e) :: rest, otherwise => do
    let condition ← lower c
    let value ← lower e
    let rest ← lowerBranches rest otherwise
    return branchCode condition value rest

end

/-- The code of a tree in which calls are put in at most `n` deep. -/
def lowerAt : Nat → Expr → Lower Code
  | 0, e => lower env none e
  | n + 1, e => lower env (some (lowerAt n)) e

/-! ## Programs -/

mutual

/-- The number of function definitions in a tree. -/
def definitions : Expr → Nat
  | .constant _ | .var _ | .invalid => 0
  | .unary _ e | .assign _ e | .element _ e | .member e _ => definitions e
  | .binary _ a b | .compare _ a b | .logical _ a b | .assignElement _ a b | .index a b =>
    definitions a + definitions b
  | .call _ es | .vector es | .list es | .sequence es => definitionsOfAll es
  | .define _ _ body => definitions body + 1
  | .cases branches otherwise => definitionsOfBranches branches + definitionsOfOption otherwise
  | .range a d b => definitions a + definitionsOfOption d + definitions b
  | .loop _ _ source body default =>
    definitionsOfSource source + definitions body + definitionsOfOption default
  | .matrix rows => definitionsOfRows rows

def definitionsOfAll : List Expr → Nat
  | [] => 0
  | e :: es => definitions e + definitionsOfAll es

def definitionsOfRows : List (List Expr) → Nat
  | [] => 0
  | row :: rows => definitionsOfAll row + definitionsOfRows rows

def definitionsOfBranches : List (Expr × Expr) → Nat
  | [] => 0
  | (c, e) :: rest => definitions c + definitions e + definitionsOfBranches rest

def definitionsOfOption : Option Expr → Nat
  | none => 0
  | some e => definitions e

def definitionsOfSource : LoopSource Expr → Nat
  | .items e => definitions e
  | .range a d b => definitions a + definitionsOfOption d + definitions b

end

/-- The program of a tree. Only one call of a function is put in at a time, so calls nest no deeper
than there are definitions. -/
def compile (e : Expr) : Except Fault Program := do
  let (code, slots) ← (lowerAt env (definitions e) e).run {}
  return ⟨code.toArray, slots.size⟩

end Environment

end FormulaLang.Bytecode
