import FormulaLang.Bytecode
import FormulaLang.Engine.Eval

/-!
# The machine

* `Machine`: the address of the next instruction, the stack and the heap.
* `Machine.push`, `Machine.pop`, `Machine.popArgs`: the stack, which has a limit.
* `Machine.jumpTo`: jumps, which stay inside the code or lead to its end.
* `execute`: one instruction.
* `runFor`: at most some number of instructions.
* `Program.start`, `Program.run`: a whole program.
-/

namespace FormulaLang.Bytecode

/-- The state of a run. The top of the stack is the end of the array. -/
structure Machine where
  address : Nat
  stack : Array Float
  heap : Array Float

namespace Machine

/-- Pushes a number, unless the stack is full. -/
def push (limit : Nat) (x : Float) (m : Machine) : Except Fault Machine :=
  if limit ≤ m.stack.size then .error .stackOverflow
  else .ok { m with stack := m.stack.push x }

/-- Pops a number. -/
def pop (m : Machine) : Except Fault (Float × Machine) :=
  match m.stack.back? with
  | some x => .ok (x, { m with stack := m.stack.pop })
  | none => .error .stackUnderflow

/-- Pops the top `n` numbers; the deepest comes first. -/
def popArgs (n : Nat) (m : Machine) : Except Fault (List Float × Machine) :=
  if m.stack.size < n then .error .stackUnderflow
  else
    let rest := m.stack.size - n
    .ok ((m.stack.extract rest m.stack.size).toList, { m with stack := m.stack.take rest })

/-- What a heap slot holds. -/
def readSlot (slot : Nat) (m : Machine) : Float := m.heap.getD slot Number.nan

/-- Writes a heap slot, behind the end too. -/
def writeSlot (slot : Nat) (x : Float) (m : Machine) : Machine :=
  if slot < m.heap.size then { m with heap := m.heap.setIfInBounds slot x }
  else
    { m with heap := (m.heap ++ Array.replicate (slot - m.heap.size) Number.nan).push x }

/-- Goes on with the next instruction. -/
def next (m : Machine) : Machine := { m with address := m.address + 1 }

/-- Jumps within code of the given length, or to its end. -/
def jumpTo (length : Nat) (offset : Int) (m : Machine) : Except Fault Machine :=
  let target := m.address + offset
  if 0 ≤ target ∧ target ≤ length then .ok { m with address := target.toNat }
  else .error (.invalidJump m.address)

/-- Pops a number and pushes another one. -/
def onTop (limit : Nat) (f : Float → Float) (m : Machine) : Except Fault Machine := do
  let (a, m) ← m.pop
  m.push limit (f a)

/-- Pops the right and the left operand and pushes a number. -/
def onTopTwo (limit : Nat) (f : Float → Float → Float) (m : Machine) : Except Fault Machine := do
  let (b, m) ← m.pop
  let (a, m) ← m.pop
  m.push limit (f a b)

end Machine

/-- An operator with one operand, on numbers. -/
def unaryOn : UnaryOp → Float → Float
  | .neg, a => -a
  | .not, a => Number.ofBool !Number.isTrue a
  | .bitNot, a => Number.bitNot a

/-- The number that the result of a call stands for. -/
def callResult (name : String) : Value → Except Fault Float
  | .number x => .ok x
  | .bool b => .ok (Number.ofBool b)
  | v => .error (.functionResult name v.kind)

/-- Executes an instruction in code of the given length. -/
def execute (limit length : Nat) (i : Instruction) (m : Machine) (st : Engine) :
    Except Fault Machine × Engine :=
  match i with
  | .constant x => ((m.push limit x).map (·.next), st)
  | .readCell cell => ((m.push limit (st.env.store.number cell)).map (·.next), st)
  | .writeCell cell =>
    match m.pop with
    | .ok (x, m) =>
      (.ok m.next, { st with env := { st.env with store := st.env.store.setNumber cell x } })
    | .error f => (.error f, st)
  | .readSlot slot => ((m.push limit (m.readSlot slot)).map (·.next), st)
  | .writeSlot slot => (m.pop.map fun (x, m) => (m.writeSlot slot x).next, st)
  | .arithmetic op => ((m.onTopTwo limit op.apply).map (·.next), st)
  | .compare op => ((m.onTopTwo limit fun a b => Number.ofBool (op.onNumbers a b)).map (·.next), st)
  | .logical op =>
    ((m.onTopTwo limit fun a b =>
      Number.ofBool (op.apply (Number.isTrue a) (Number.isTrue b))).map (·.next), st)
  | .unary op => ((m.onTop limit (unaryOn op)).map (·.next), st)
  | .dup =>
    match m.stack.back? with
    | some x => ((m.push limit x).map (·.next), st)
    | none => (.error .stackUnderflow, st)
  | .pop => (m.pop.map fun (_, m) => m.next, st)
  | .jump offset => (m.jumpTo length offset, st)
  | .jumpIf offset =>
    match m.pop with
    | .ok (x, m) => (if Number.isTrue x then m.jumpTo length offset else .ok m.next, st)
    | .error f => (.error f, st)
  | .callPlain f =>
    match m.popArgs f.arity with
    | .ok (args, m) => ((m.push limit (f.run args)).map (·.next), st)
    | .error e => (.error e, st)
  | .callContext f =>
    match m.popArgs f.arity with
    | .ok (args, m) =>
      let (x, st) := (f.run args).perform Engine.run st
      ((m.push limit x).map (·.next), st)
    | .error e => (.error e, st)
  | .call name arity =>
    match m.popArgs arity with
    | .ok (args, m) =>
      let (v, st) := Engine.call name (args.map .number) st
      match callResult name v with
      | .ok x => ((m.push limit x).map (·.next), st)
      | .error e => (.error e, st)
    | .error e => (.error e, st)

/-- Runs at most `n` instructions. The result is the machine behind the end of the code, the fault
that stopped it, or `none` if it has not stopped. -/
def runFor (limit : Nat) (code : Array Instruction) :
    Nat → Machine → Engine → Option (Except Fault Machine) × Engine
  | 0, m, st => (if code.size ≤ m.address then some (.ok m) else none, st)
  | n + 1, m, st =>
    match code[m.address]? with
    | none => (some (.ok m), st)
    | some i =>
      match execute limit code.size i m st with
      | (.ok m, st) => runFor limit code n m st
      | (.error f, st) => (some (.error f), st)

namespace Program

/-- The machine before the first instruction. -/
def start (p : Program) (settings : Settings) : Machine :=
  ⟨0, #[], Array.replicate (max p.heapSize settings.initialHeap) Number.nan⟩

/-- The number that a finished run leaves on top of the stack. -/
def result (m : Machine) : Except Fault Float :=
  match m.stack.back? with
  | some x => .ok x
  | none => .error .emptyResult

/-- Runs a program for at most `n` instructions. -/
def runSteps (n : Nat) (p : Program) (settings : Settings) (st : Engine) :
    Option (Except Fault Float) × Engine :=
  let (outcome, st) := runFor settings.stackLimit p.code n (p.start settings) st
  (outcome.map (· >>= result), st)

/-- More instructions than any machine gets to: `2 ^ 62`. -/
def patience : Nat := 0x4000000000000000

/-- Runs a program to its end; a program that does not stop has no result. -/
def run (p : Program) (settings : Settings) (st : Engine) : Except Fault Float × Engine :=
  let (outcome, st) := p.runSteps patience settings st
  (outcome.getD (.error .emptyResult), st)

end Program

end FormulaLang.Bytecode
