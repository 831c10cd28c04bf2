import FormulaLang.Function
import FormulaLang.Scope

/-!
# Environments

Variables and functions are bound at block levels. Numbers live in cells, so that compiled
formulas and the host can share them.

* `Store`: the cells.
* `HostCell`, `Variable`: what a variable is bound to.
* `Environment`: the bindings, the current level and the store.
* `Environment.read`, `Environment.value?`, `Environment.values`: looking up.
* `Environment.addVariable`, `Environment.setVariable`, `Environment.addHost`,
  `Environment.addFunction`: binding and assigning.
* `Environment.enter`, `Environment.leave`, `Environment.clear`: blocks.
-/

namespace FormulaLang

/-- Cells for numbers, and cells of the host for bools and for values of any kind. -/
structure Store where
  numbers : Array Float := #[]
  bools : Array Bool := #[]
  values : Array Value := #[]

namespace Store

def number (s : Store) (cell : Nat) : Float := s.numbers.getD cell Number.nan

def bool (s : Store) (cell : Nat) : Bool := s.bools.getD cell false

def value (s : Store) (cell : Nat) : Value := s.values.getD cell .void

def setNumber (s : Store) (cell : Nat) (x : Float) : Store :=
  { s with numbers := s.numbers.setIfInBounds cell x }

def setBool (s : Store) (cell : Nat) (b : Bool) : Store :=
  { s with bools := s.bools.setIfInBounds cell b }

def setValue (s : Store) (cell : Nat) (v : Value) : Store :=
  { s with values := s.values.setIfInBounds cell v }

/-- A new number cell is the one behind those there are. -/
def pushNumber (s : Store) (x : Float) : Store := { s with numbers := s.numbers.push x }

def pushBool (s : Store) (b : Bool) : Store := { s with bools := s.bools.push b }

def pushValue (s : Store) (v : Value) : Store := { s with values := s.values.push v }

end Store

/-- A cell that the host shares with formulas. A number or bool cell holds nothing else. -/
inductive HostCell where
  | number (cell : Nat)
  | bool (cell : Nat)
  | value (cell : Nat)
  deriving DecidableEq, Repr

/-- What a variable is bound to: a number cell, a value that is no number, or a cell of the host. -/
inductive Variable where
  | number (cell : Nat)
  | value (v : Value)
  | host (cell : HostCell)

namespace Variable

/-- The number cell of a variable. -/
def numberCell? : Variable → Option Nat
  | number cell | host (.number cell) => some cell
  | _ => none

def isHost : Variable → Bool
  | host _ => true
  | _ => false

end Variable

/-- The bindings of an engine. -/
structure Environment where
  vars : ScopedTable Variable
  functions : ScopedTable Function
  level : Nat
  store : Store

namespace Environment

def empty : Environment := ⟨.empty, .empty, 0, {}⟩

/-! ## Looking up -/

/-- The value of a variable. -/
def read (env : Environment) : Variable → Value
  | .number cell | .host (.number cell) => .number (env.store.number cell)
  | .value v => v
  | .host (.bool cell) => .bool (env.store.bool cell)
  | .host (.value cell) => env.store.value cell

/-- The value that a name has. -/
def value? (env : Environment) (name : String) : Option Value :=
  match env.vars.get? name with
  | some v => some (env.read v)
  | none => none

/-- The visible variables with their values, by name. -/
def values (env : Environment) : List (String × Value) :=
  (env.vars.visible.map fun (name, v) => (name, env.read v)).mergeSort
    fun a b => !decide (b.1 < a.1)

def function? (env : Environment) (name : String) : Option Function := env.functions.get? name

def hasVariable (env : Environment) (name : String) : Bool := env.vars.contains name

def hasFunction (env : Environment) (name : String) : Bool := env.functions.contains name

/-! ## Binding and assigning -/

/-- Binds a name at the current level. A number gets a cell of its own. -/
def addVariable (env : Environment) (name : String) (v : Value) : Environment :=
  match v with
  | .number x =>
    { env with
      vars := env.vars.add name (.number env.store.numbers.size) env.level
      store := env.store.pushNumber x }
  | v => { env with vars := env.vars.add name (.value v) env.level }

/-- Binds a name to a cell of the host at the current level. -/
def addHost (env : Environment) (name : String) (cell : HostCell) : Environment :=
  { env with vars := env.vars.add name (.host cell) env.level }

/-- A new host cell for a value: for a number or a bool a cell of that kind, unless `boxed`. -/
def newHostCell (env : Environment) (v : Value) (boxed : Bool) : HostCell × Environment :=
  match v, boxed with
  | .number x, false =>
    (.number env.store.numbers.size, { env with store := env.store.pushNumber x })
  | .bool b, false => (.bool env.store.bools.size, { env with store := env.store.pushBool b })
  | v, _ => (.value env.store.values.size, { env with store := env.store.pushValue v })

/-- Rebinds a name in place to a value that gets new storage. -/
def rebind (env : Environment) (name : String) (v : Value) : Environment :=
  match v with
  | .number x =>
    { env with
      vars := env.vars.modify name fun _ => .number env.store.numbers.size
      store := env.store.pushNumber x }
  | v => { env with vars := env.vars.modify name fun _ => .value v }

/-- Writes a host cell; a number or bool cell refuses values of another kind. -/
def writeHost (env : Environment) (name : String) (cell : HostCell) (v : Value) :
    Environment × Option Fault :=
  match cell, v with
  | .number cell, .number x => ({ env with store := env.store.setNumber cell x }, none)
  | .bool cell, .bool b => ({ env with store := env.store.setBool cell b }, none)
  | .value cell, v => ({ env with store := env.store.setValue cell v }, none)
  | .number _, v => (env, some (.hostKind name .number v.kind))
  | .bool _, v => (env, some (.hostKind name .bool v.kind))

/-- Assigns to the visible variable of a name, or binds a new one at the current level. A number
stays in its cell as long as only numbers are assigned. -/
def setVariable (env : Environment) (name : String) (v : Value) : Environment × Option Fault :=
  match env.vars.get? name with
  | none => (env.addVariable name v, none)
  | some (.host cell) => env.writeHost name cell v
  | some (.number cell) =>
    match v with
    | .number x => ({ env with store := env.store.setNumber cell x }, none)
    | v => (env.rebind name v, none)
  | some (.value _) => (env.rebind name v, none)

/-- Binds a function at the current level. -/
def addFunction (env : Environment) (name : String) (f : Function) : Environment :=
  { env with functions := env.functions.add name f env.level }

/-! ## Blocks -/

def enter (env : Environment) : Environment := { env with level := env.level + 1 }

/-- Drops what was bound in the current block. The outermost block is never left. -/
def leave (env : Environment) : Environment :=
  match env.level with
  | 0 => env
  | level + 1 =>
    { env with
      vars := env.vars.dropLevel (level + 1)
      functions := env.functions.dropLevel (level + 1)
      level := level }

/-- Drops all bindings and returns to the outermost block. The cells stay. -/
def clear (env : Environment) : Environment :=
  { env with vars := .empty, functions := .empty, level := 0 }

end Environment

end FormulaLang
